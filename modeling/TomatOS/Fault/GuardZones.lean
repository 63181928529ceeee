import Mathlib.Data.Set.Lattice
import Mathlib.Order.CompletePartialOrder
import Mathlib.Logic.Relation
import TomatOS.Thread.Pool
import TomatOS.Virt.PageTable

/-! The guard zones below the stacks. `kernel/thread/thread.c` gives every thread a slot of
8MB and `kernel/mem/stack.c` gives every small stack one of 32KB, from a watermark that
each call moves up in two atomic additions; the page fault handler of `kernel/mem/virt.c`
finds the slot of an address by rounding down. All agree on which addresses are stack and
which are guard. -/

namespace TomatOS.Fault

open Virt (faultAction stacksAddrEnd smallStacksAddr smallStacksAddrEnd
  alignDown)

def size4KB : ℕ := 0x1000
def size28KB : ℕ := 0x7000
def size32KB : ℕ := 0x8000

/-- The handler does not refuse to map the page of the address. -/
def WillMap (addr : ℕ) : Prop := faultAction addr = .allocate ∨ faultAction addr = .direct

/-! ### Stacks of threads -/

/-- The lowest address of the slot of a thread. -/
def threadSlot (t : ℕ) : ℕ := stacksAddr + Thread.size8MB * t

/-- The handler serves the upper 6MB of a slot. -/
theorem willMap_threadSlot {t addr : ℕ} (ht : t < 65535) (hlow : threadSlot t ≤ addr)
    (hhigh : addr < threadSlot t + Thread.size8MB) :
    WillMap addr ↔ threadSlot t + Thread.size2MB ≤ addr := by
  have halign : alignDown addr 0x800000 = threadSlot t := by
    simp only [alignDown, threadSlot, stacksAddr, Thread.size8MB] at *
    omega
  have hin : stacksAddr ≤ addr ∧ addr < stacksAddrEnd := by
    simp only [threadSlot, stacksAddr, stacksAddrEnd, Thread.size8MB] at *
    omega
  have hother : ¬ ((Virt.threadsAddr ≤ addr ∧ addr < Virt.threadsAddrEnd) ∨
      (0xFFFF810000000000 ≤ addr ∧ addr < 0xFFFF8E8000000000) ∨
      (0xFFFFC00000000000 ≤ addr ∧ addr < 0xFFFFD00000000000)) := by
    simp only [stacksAddr, stacksAddrEnd, Virt.threadsAddr, Virt.threadsAddrEnd] at *
    omega
  rw [WillMap, faultAction, if_neg hother, if_pos hin, halign, Thread.size2MB]
  split_ifs with h
  · exact iff_of_true (.inl rfl) h
  · exact iff_of_false (by simp) h

theorem threadAlloc_stack {p p' : Thread.Pool} {t : ℕ} (h : p.threadAlloc = .ok (t, p')) :
    (p'.threads t).stackStart = threadSlot t + Thread.size2MB ∧
      (p'.threads t).stackEnd = threadSlot t + Thread.size8MB := by
  have hset : ∀ q : Thread.Pool, ((q.setStack t).threads t).stackStart =
      threadSlot t + Thread.size2MB ∧
        ((q.setStack t).threads t).stackEnd = threadSlot t + Thread.size8MB := by
    intro q
    rw [Thread.Pool.setStack, Thread.Pool.modify_self]
    exact ⟨rfl, rfl⟩
  rw [Thread.Pool.threadAlloc] at h
  split at h
  · cases h
    exact hset _
  · split_ifs at h
    · dsimp only at h
      cases hswitch : ({ p with top := p.top + 1 } : Thread.Pool).switchStatus p.top .idle .dead with
      | error fault =>
        rw [hswitch] at h
        cases h
      | ok q =>
        rw [hswitch] at h
        cases h
        exact hset q

/-! ### Small stacks -/

/-- A call of `small_stack_alloc` after its first addition, with the watermark that it
found, and whether it has made the second one and returned. -/
structure StackCall where
  bottom : ℕ
  returned : Bool

/-- The top that the call returns. -/
def StackCall.top (call : StackCall) : ℕ := (call.bottom + size32KB) % wordSize

/-- The 32KB from `bottom` on lie in the window of the small stacks. -/
def InWindow (bottom : ℕ) : Prop :=
  smallStacksAddr ≤ bottom ∧ bottom + size32KB ≤ smallStacksAddrEnd

/-- `m_small_stack_watermark` and all calls, in the order of their first additions. -/
structure SmallStacks where
  watermark : ℕ
  calls : List StackCall

namespace SmallStacks

def initial : SmallStacks := ⟨smallStacksAddr, []⟩

/-- The first addition of a new call. -/
def fetchAdd (s : SmallStacks) : SmallStacks where
  watermark := (s.watermark + size32KB) % wordSize
  calls := s.calls ++ [⟨s.watermark, false⟩]

/-- The second addition, after which the call returns. -/
def addAgain (s : SmallStacks) (i : ℕ) (call : StackCall) : SmallStacks where
  watermark := (s.watermark + size32KB) % wordSize
  calls := s.calls.set i { call with returned := true }

/-- Any core starts a call, or any call that has started goes on. -/
inductive Step (s : SmallStacks) : SmallStacks → Prop
  | first : Step s s.fetchAdd
  | second {i : ℕ} {call : StackCall} : s.calls[i]? = some call → call.returned = false →
      Step s (s.addAgain i call)

/-- The states of any interleaving of calls. -/
def Reached : SmallStacks → Prop := Relation.ReflTransGen Step initial

def bottoms (s : SmallStacks) : List ℕ := s.calls.map (·.bottom)

def returnedCount (s : SmallStacks) : ℕ := s.calls.countP (·.returned)

/-- All stacks taken so far lie in the window. -/
def InWindow (s : SmallStacks) : Prop := ∀ b ∈ s.bottoms, Fault.InWindow b

/-- The watermark counts the additions, and each stack starts at a multiple of 32KB behind
the ones before it. -/
structure Bumped (s : SmallStacks) : Prop where
  watermark : s.watermark = smallStacksAddr + size32KB * (s.calls.length + s.returnedCount)
  low : ∀ i b, s.bottoms[i]? = some b → smallStacksAddr + size32KB * i ≤ b
  aligned : ∀ b ∈ s.bottoms, size32KB ∣ b
  below : ∀ b ∈ s.bottoms, b + size32KB ≤ s.watermark
  apart : s.bottoms.Pairwise fun a b => a + size32KB ≤ b

variable {s s' : SmallStacks} {i : ℕ} {call : StackCall}

theorem bottoms_addAgain (h : s.calls[i]? = some call) :
    (s.addAgain i call).bottoms = s.bottoms := by
  obtain ⟨hi, rfl⟩ := List.getElem?_eq_some_iff.mp h
  have hi' : i < s.bottoms.length := by simpa [bottoms] using hi
  have hself : s.bottoms[i] = s.calls[i].bottom := List.getElem_map _
  rw [addAgain, bottoms, List.map_set]
  change s.bottoms.set i s.calls[i].bottom = s.bottoms
  rw [← hself, List.set_getElem_self]

theorem returnedCount_addAgain (h : s.calls[i]? = some call) (hnot : call.returned = false) :
    (s.addAgain i call).returnedCount = s.returnedCount + 1 := by
  obtain ⟨hi, rfl⟩ := List.getElem?_eq_some_iff.mp h
  rw [returnedCount, addAgain, List.countP_set hi, returnedCount]
  simp [hnot]

/-- In the window there is room for 2^24 stacks. -/
theorem Bumped.length_le (h : Bumped s) (hin : s.InWindow) : s.calls.length ≤ 2 ^ 24 := by
  by_contra hlong
  have hlen : s.bottoms.length = s.calls.length := List.length_map _
  have hlong' : 2 ^ 24 < s.bottoms.length := by omega
  have hget : s.bottoms[2 ^ 24]? = some s.bottoms[2 ^ 24] := List.getElem?_eq_getElem hlong'
  have hlow := h.low _ _ hget
  have hhigh := (hin _ (List.mem_of_getElem? hget)).2
  simp only [size32KB, smallStacksAddr, smallStacksAddrEnd] at hlow hhigh
  omega

theorem Bumped.watermark_lt (h : Bumped s) (hin : s.InWindow) :
    s.watermark + size32KB < wordSize := by
  have hlen := h.length_le hin
  have hcount : s.returnedCount ≤ s.calls.length := List.countP_le_length
  rw [h.watermark]
  simp only [size32KB, smallStacksAddr, wordSize]
  omega

theorem bumped_initial : Bumped initial where
  watermark := rfl
  low := fun i b h => by cases h
  aligned := fun b h => by cases h
  below := fun b h => by cases h
  apart := List.Pairwise.nil

theorem Bumped.fetchAdd (h : Bumped s) (hin : s.InWindow) : Bumped s.fetchAdd := by
  have hwrap : (s.watermark + size32KB) % wordSize = s.watermark + size32KB :=
    Nat.mod_eq_of_lt (h.watermark_lt hin)
  have hbottoms : s.fetchAdd.bottoms = s.bottoms ++ [s.watermark] := List.map_append
  have hmark : s.fetchAdd.watermark = s.watermark + size32KB := hwrap
  have hlen : s.bottoms.length = s.calls.length := List.length_map _
  constructor
  case watermark =>
    rw [hmark, h.watermark]
    simp only [SmallStacks.fetchAdd, returnedCount, List.length_append, List.countP_append,
      List.length_singleton, List.countP_singleton, Bool.false_eq_true, if_false, Nat.mul_add]
    omega
  case low =>
    intro i b hb
    rw [hbottoms, List.getElem?_append] at hb
    split_ifs at hb with hi
    · exact h.low i b hb
    · rw [List.getElem?_singleton] at hb
      split_ifs at hb with hzero
      obtain rfl := Option.some.inj hb
      obtain rfl : i = s.calls.length := by omega
      rw [h.watermark, Nat.mul_add]
      omega
  case aligned =>
    intro b hb
    rw [hbottoms] at hb
    rcases List.mem_append.mp hb with hb | hb
    · exact h.aligned b hb
    · rw [List.mem_singleton.mp hb, h.watermark]
      exact Nat.dvd_add (by decide) (Nat.dvd_mul_right _ _)
  case below =>
    intro b hb
    rw [hmark]
    rw [hbottoms] at hb
    rcases List.mem_append.mp hb with hb | hb
    · have := h.below b hb
      omega
    · rw [List.mem_singleton.mp hb]
  case apart =>
    rw [hbottoms]
    refine List.pairwise_append.mpr ⟨h.apart, List.pairwise_singleton _ _, fun a ha b hb => ?_⟩
    rw [List.mem_singleton.mp hb]
    exact h.below a ha

theorem Bumped.addAgain (h : Bumped s) (hin : s.InWindow) (hcall : s.calls[i]? = some call)
    (hnot : call.returned = false) : Bumped (s.addAgain i call) := by
  have hwrap : (s.watermark + size32KB) % wordSize = s.watermark + size32KB :=
    Nat.mod_eq_of_lt (h.watermark_lt hin)
  have hbottoms := bottoms_addAgain hcall
  have hmark : (s.addAgain i call).watermark = s.watermark + size32KB := hwrap
  constructor
  case watermark =>
    rw [hmark, h.watermark, returnedCount_addAgain hcall hnot]
    simp only [SmallStacks.addAgain, List.length_set, Nat.mul_add]
    omega
  case low => rw [hbottoms]; exact h.low
  case aligned => rw [hbottoms]; exact h.aligned
  case below =>
    intro b hb
    rw [hbottoms] at hb
    have := h.below b hb
    rw [hmark]
    omega
  case apart => rw [hbottoms]; exact h.apart

/-- A step only adds stacks. -/
theorem Step.bottoms_subset (h : Step s s') : s.bottoms ⊆ s'.bottoms := by
  cases h with
  | first =>
    intro b hb
    rw [SmallStacks.fetchAdd, bottoms, List.map_append]
    exact List.mem_append_left _ hb
  | second hcall hnot =>
    rw [bottoms_addAgain hcall]
    exact List.Subset.refl _

/-- As long as all stacks lie in the window. -/
theorem Reached.bumped (h : Reached s) (hin : s.InWindow) : Bumped s := by
  induction h with
  | refl => exact bumped_initial
  | @tail t u _ hstep ih =>
    have hinBefore : t.InWindow := fun b hb => hin b (hstep.bottoms_subset hb)
    have hbefore := ih hinBefore
    cases hstep with
    | first => exact hbefore.fetchAdd hinBefore
    | second hcall hnot => exact hbefore.addAgain hinBefore hcall hnot

/-- The first stacks are those of an earlier state. -/
theorem Reached.earlier (h : Reached s) (n : ℕ) :
    ∃ t : SmallStacks, t.Reached ∧ t.bottoms = s.bottoms.take n := by
  induction h with
  | refl => exact ⟨initial, .refl, (List.take_nil).symm⟩
  | @tail t u hrun hstep ih =>
    cases hstep with
    | first =>
      have hbottoms : t.fetchAdd.bottoms = t.bottoms ++ [t.watermark] := List.map_append
      by_cases hn : n ≤ t.bottoms.length
      · rw [hbottoms, List.take_append_of_le_length hn]
        exact ih
      · refine ⟨t.fetchAdd, hrun.tail .first, (List.take_of_length_le ?_).symm⟩
        rw [hbottoms, List.length_append, List.length_singleton]
        omega
    | second hcall hnot =>
      rw [bottoms_addAgain hcall]
      exact ih

end SmallStacks

/-- The handler serves the upper 28KB of a slot. -/
theorem willMap_smallStack {b addr : ℕ} (halign : size32KB ∣ b)
    (hwindow : InWindow b) (hlow : b ≤ addr) (hhigh : addr < b + size32KB) :
    WillMap addr ↔ b + size4KB ≤ addr := by
  obtain ⟨hbase, hend⟩ := hwindow
  have hdown : alignDown addr 0x8000 = b := by
    simp only [alignDown, size32KB] at *
    omega
  have hin : smallStacksAddr ≤ addr ∧ addr < smallStacksAddrEnd := by omega
  have hstacks : ¬ (stacksAddr ≤ addr ∧ addr < stacksAddrEnd) := by
    simp only [smallStacksAddr, stacksAddrEnd] at *
    omega
  have hother : ¬ ((Virt.threadsAddr ≤ addr ∧ addr < Virt.threadsAddrEnd) ∨
      (0xFFFF810000000000 ≤ addr ∧ addr < 0xFFFF8E8000000000) ∨
      (0xFFFFC00000000000 ≤ addr ∧ addr < 0xFFFFD00000000000)) := by
    simp only [smallStacksAddr, smallStacksAddrEnd, Virt.threadsAddr, Virt.threadsAddrEnd] at *
    omega
  rw [WillMap, faultAction, if_neg hother, if_neg hstacks, if_pos hin, hdown, size4KB]
  split_ifs with h
  · exact iff_of_true (.inl rfl) h
  · exact iff_of_false (by simp) h

/-- The addresses of the slot below a top. -/
def smallSlot (top : ℕ) : Set ℕ := {addr | top - size32KB ≤ addr ∧ addr < top}

theorem top_eq {call : StackCall} (h : call.bottom + size32KB ≤ smallStacksAddrEnd) :
    call.top = call.bottom + size32KB := by
  rw [StackCall.top]
  simp only [size32KB, smallStacksAddrEnd, wordSize] at *
  omega

theorem threadSlot_agrees {p p' : Thread.Pool} {t : ℕ} (h : p.threadAlloc = .ok (t, p'))
    (ht : t < 65535) :
    stacksAddr ≤ threadSlot t ∧ threadSlot t + Thread.size8MB ≤ stacksAddrEnd ∧
      ∀ addr, threadSlot t ≤ addr → addr < threadSlot t + Thread.size8MB →
        (WillMap addr ↔ (p'.threads t).stackStart ≤ addr ∧ addr < (p'.threads t).stackEnd) := by
  obtain ⟨hstart, hend⟩ := threadAlloc_stack h
  refine ⟨Nat.le_add_right _ _, ?_, fun addr hlow hhigh => ?_⟩
  · simp only [threadSlot, stacksAddr, stacksAddrEnd, Thread.size8MB]
    omega
  · rw [hstart, hend, willMap_threadSlot ht hlow hhigh]
    exact (and_iff_left hhigh).symm

theorem disjoint_smallSlot {c d : StackCall} (hc : c.top = c.bottom + size32KB)
    (hd : d.top = d.bottom + size32KB) (hle : c.bottom + size32KB ≤ d.bottom) :
    Disjoint (smallSlot c.top) (smallSlot d.top) := by
  rw [Set.disjoint_left]
  rintro addr ⟨-, hbelow⟩ ⟨habove, -⟩
  rw [hc] at hbelow
  rw [hd] at habove
  omega

theorem smallSlot_agrees {call : StackCall} {addr : ℕ} (haligned : size32KB ∣ call.bottom)
    (hin : InWindow call.bottom) (haddr : addr ∈ smallSlot call.top) :
    WillMap addr ↔ call.top - size28KB ≤ addr := by
  obtain ⟨hlow, hhigh⟩ := haddr
  rw [top_eq hin.2] at hlow hhigh ⊢
  rw [willMap_smallStack haligned hin (by omega) hhigh]
  simp only [size32KB, size28KB, size4KB]
  omega

/-- For every thread that `thread_alloc` returns, its slot lies in the area of the stacks
and the handler maps an address of the slot if and only if it lies in the stack. For every
interleaving of calls of `small_stack_alloc`, and as many of them as have their stacks in
the window, the slots below the tops are pairwise disjoint and the handler maps the upper
28KB of each. -/
theorem guard_zones_agree :
    (∀ (p p' : Thread.Pool) (t : ℕ), p.threadAlloc = .ok (t, p') → t < 65535 →
      stacksAddr ≤ threadSlot t ∧ threadSlot t + Thread.size8MB ≤ stacksAddrEnd ∧
      ∀ addr, threadSlot t ≤ addr → addr < threadSlot t + Thread.size8MB →
        (WillMap addr ↔ (p'.threads t).stackStart ≤ addr ∧ addr < (p'.threads t).stackEnd)) ∧
    ∀ s : SmallStacks, s.Reached → ∀ n, (∀ call ∈ s.calls.take n, InWindow call.bottom) →
      ((s.calls.take n).Pairwise fun c d => Disjoint (smallSlot c.top) (smallSlot d.top)) ∧
      ∀ call ∈ s.calls.take n, ∀ addr ∈ smallSlot call.top,
        (WillMap addr ↔ call.top - size28KB ≤ addr) := by
  constructor
  · intro p p' t halloc ht
    exact threadSlot_agrees halloc ht
  · intro s hreached n hin
    obtain ⟨t, ht, htake⟩ := hreached.earlier n
    have hfirst : t.bottoms = (s.calls.take n).map (·.bottom) := htake.trans List.map_take.symm
    have hbumped : t.Bumped := by
      apply ht.bumped
      rw [SmallStacks.InWindow, hfirst]
      intro b hb
      obtain ⟨call, hc, rfl⟩ := List.mem_map.mp hb
      exact hin call hc
    constructor
    · have hapart := hbumped.apart
      rw [hfirst] at hapart
      refine (List.pairwise_map.mp hapart).imp_of_mem fun {c d} hc hd hle => ?_
      exact disjoint_smallSlot (top_eq (hin c hc).2) (top_eq (hin d hd).2) hle
    · intro call hc addr haddr
      have haligned : size32KB ∣ call.bottom :=
        hbumped.aligned _ (hfirst ▸ List.mem_map_of_mem hc)
      exact smallSlot_agrees haligned (hin call hc) haddr

end TomatOS.Fault
