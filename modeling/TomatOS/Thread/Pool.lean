import Mathlib.Data.List.Nodup
import Mathlib.Data.List.Pairwise
import Mathlib.Logic.Function.Basic
import Mathlib.Order.Basic
import Mathlib.Data.Nat.Basic
import TomatOS.MemoryLayout

/-! The thread structures of `kernel/thread/thread.c`: the array they are taken
from, the freelist they are returned to, and the status they carry through
`thread_create` and `thread_free`. A thread is its index in the array, and the
array is zero before its first use. The stack slot of a thread follows from its
index, so distinct threads never share stack addresses. A structure that comes
back from the freelist has been zeroed twice, and `thread_create` asserts a status
that only a structure used for the first time is given. -/

namespace TomatOS.Thread

def size2MB : ℕ := 0x200000
def size8MB : ℕ := 0x800000
def uint16Max : ℕ := 65535
/-- The sixteen registers of `thread_frame_t`. -/
def threadFrameSize : ℕ := 128

inductive Status where
  | idle | runnable | running | waiting | dead
  deriving DecidableEq, Repr

structure ThreadInfo where
  name : String
  status : Status
  stackStart : ℕ
  stackEnd : ℕ
  cpuState : ℕ
  deriving DecidableEq, Repr

/-- The bytes of a zeroed structure. -/
def ThreadInfo.zero : ThreadInfo := ⟨"", .idle, 0, 0, 0⟩

inductive Fault where
  | assertion
  /-- A write through the null pointer. -/
  | nullThread
  /-- A status is waited for that nobody is left to set. -/
  | spinning
  deriving DecidableEq, Repr

abbrev Result := Except Fault

structure Pool where
  threads : ℕ → ThreadInfo
  top : ℕ
  freelist : List ℕ

namespace Pool

def initial : Pool := ⟨fun _ => .zero, 0, []⟩

def status (p : Pool) (t : ℕ) : Status := (p.threads t).status

def modify (p : Pool) (t : ℕ) (f : ThreadInfo → ThreadInfo) : Pool :=
  { p with threads := Function.update p.threads t (f (p.threads t)) }

def setStatus (p : Pool) (t : ℕ) (new : Status) : Pool := p.modify t ({ · with status := new })

def zero (p : Pool) (t : ℕ) : Pool := p.modify t fun _ => .zero

/-- One round of the loop of `thread_switch_status`: the exchange, or the check
that is made before the next round. -/
def switchStatus (p : Pool) (t : ℕ) (old new : Status) : Result Pool :=
  if p.status t = old then .ok (p.setStatus t new)
  else if old = .waiting ∧ p.status t = .runnable then .error .assertion
  else .error .spinning

def setStack (p : Pool) (t : ℕ) : Pool :=
  p.modify t ({ · with
    stackStart := stacksAddr + size8MB * t + size2MB
    stackEnd := stacksAddr + size8MB * t + size8MB })

def threadAlloc (p : Pool) : Result (ℕ × Pool) :=
  match p.freelist with
  | t :: rest => .ok (t, (({ p with freelist := rest }).zero t).setStack t)
  | [] =>
    if p.top < uint16Max then do
      let t := p.top
      let p ← ({ p with top := p.top + 1 }).switchStatus t .idle .dead
      return (t, p.setStack t)
    else .error .nullThread

def threadCreate (p : Pool) (name : String) : Result (ℕ × Pool) := do
  let (t, p) ← p.threadAlloc
  if p.status t = .dead then
    let p := p.modify t fun info =>
      { info with name := name, cpuState := info.stackEnd - 8 - threadFrameSize }
    let p ← p.switchStatus t .dead .waiting
    return (t, p)
  else .error .assertion

def threadFree (p : Pool) (t : ℕ) : Pool := { p.zero t with freelist := t :: p.freelist }

/-- What `scheduler_exit_internal` does to the exiting thread. -/
def exit (p : Pool) (t : ℕ) : Result Pool := do
  let p ← p.switchStatus t .running .dead
  return p.threadFree t

/-! ### Reading back -/

variable (p : Pool) (t u : ℕ)

@[simp] theorem modify_top (f : ThreadInfo → ThreadInfo) : (p.modify t f).top = p.top := rfl

@[simp] theorem modify_freelist (f : ThreadInfo → ThreadInfo) :
    (p.modify t f).freelist = p.freelist := rfl

@[simp] theorem modify_self (f : ThreadInfo → ThreadInfo) :
    (p.modify t f).threads t = f (p.threads t) := Function.update_self ..

@[simp] theorem modify_of_ne (f : ThreadInfo → ThreadInfo) (h : u ≠ t) :
    (p.modify t f).threads u = p.threads u := Function.update_of_ne h ..

theorem switchStatus_of_eq {p : Pool} {t : ℕ} {old : Status} (h : p.status t = old) (new : Status) :
    p.switchStatus t old new = .ok (p.setStatus t new) := if_pos h

/-- A thread as `thread_create` leaves a structure used for the first time. -/
def created (name : String) (t : ℕ) : ThreadInfo :=
  ⟨name, .waiting, stacksAddr + size8MB * t + size2MB, stacksAddr + size8MB * t + size8MB,
    stacksAddr + size8MB * t + size8MB - 8 - threadFrameSize⟩

variable {p : Pool}

theorem threadCreate_fresh (hf : p.freelist = []) (htop : p.top < uint16Max)
    (hidle : p.status p.top = .idle) (name : String) :
    p.threadCreate name = .ok (p.top,
      ⟨Function.update p.threads p.top (created name p.top), p.top + 1, []⟩) := by
  have hidle' : (p.threads p.top).status = .idle := hidle
  simp [threadCreate, threadAlloc, hf, htop, switchStatus, status, setStatus, setStack, modify,
    hidle', created, bind, Except.bind, pure, Except.pure]

/-- A structure taken from the freelist fails the assertion. -/
theorem threadCreate_recycled (hf : p.freelist ≠ []) (name : String) :
    p.threadCreate name = .error .assertion := by
  obtain ⟨t, rest, hl⟩ := List.exists_cons_of_ne_nil hf
  simp [threadCreate, threadAlloc, hl, setStack, zero, status, ThreadInfo.zero, bind, Except.bind]

theorem threadCreate_full (hf : p.freelist = []) (htop : ¬ p.top < uint16Max) (name : String) :
    p.threadCreate name = .error .nullThread := by
  simp [threadCreate, threadAlloc, hf, htop, bind, Except.bind]

end Pool

/-! ### Histories of creations and exits -/

/-- A creation, the scheduler moving a thread between the states it knows, and an
exit. -/
inductive Call where
  | create (name : String)
  | schedule (t : ℕ) (new : Status)
  | exit (t : ℕ)
  deriving DecidableEq, Repr

def Call.isCreate (c : Call) : Bool := c matches .create _

def Call.isExit (c : Call) : Bool := c matches .exit _

/-- The pool with the threads created and not yet exited, the newest first. -/
structure History where
  pool : Pool
  live : List ℕ

namespace History

def initial : History := ⟨.initial, []⟩

def step (s : History) : Call → Result History
  | .create name => do
    let (t, pool) ← s.pool.threadCreate name
    return ⟨pool, t :: s.live⟩
  | .schedule t new => .ok { s with pool := s.pool.setStatus t new }
  | .exit t => do
    let pool ← s.pool.exit t
    return ⟨pool, s.live.erase t⟩

/-- The calls that can be made in a state: fewer than 65535 threads live at a
creation, and only live threads scheduled or, when running, exiting. -/
def Allows (s : History) : Call → Prop
  | .create _ => s.live.length < uint16Max
  | .schedule t new => t ∈ s.live ∧ (new = .runnable ∨ new = .running ∨ new = .waiting)
  | .exit t => t ∈ s.live ∧ s.pool.status t = .running

def Legal (s : History) : List Call → Prop
  | [] => True
  | c :: calls => s.Allows c ∧ ∀ s', s.step c = .ok s' → s'.Legal calls

instance (s : History) : (c : Call) → Decidable (s.Allows c)
  | .create _ => inferInstanceAs (Decidable (_ < _))
  | .schedule _ _ => inferInstanceAs (Decidable (_ ∧ _))
  | .exit _ => inferInstanceAs (Decidable (_ ∧ _))

instance decidableLegal : (s : History) → (calls : List Call) → Decidable (s.Legal calls)
  | _, [] => isTrue trivial
  | s, c :: calls =>
    match h : s.step c with
    | .error _ => decidable_of_iff (s.Allows c) (by simp [Legal, h])
    | .ok s' =>
      have := decidableLegal s' calls
      decidable_of_iff (s.Allows c ∧ s'.Legal calls) (by simp [Legal, h])

/-- The live threads are distinct and so are all their stack addresses. -/
def Separate (s : History) : Prop :=
  s.live.Pairwise fun t u => t ≠ u ∧
    ((s.pool.threads t).stackEnd ≤ (s.pool.threads u).stackStart ∨
      (s.pool.threads u).stackEnd ≤ (s.pool.threads t).stackStart)

/-- Every creation returns a waiting thread and the live threads are separate
after every call. -/
def Right (s : History) : List Call → Prop
  | [] => s.Separate
  | c :: calls => s.Separate ∧ ∃ s', s.step c = .ok s' ∧ s'.Right calls ∧
      (c.isCreate = true → ∃ t, s'.live = t :: s.live ∧ s'.pool.status t = .waiting)

/-- The invariant of the pool: the structures below `top` are the live and the
free ones, and those above have never been touched. -/
structure Inv (s : History) : Prop where
  nodup : s.live.Nodup
  below : ∀ t ∈ s.live, t < s.pool.top
  untouched : ∀ t, s.pool.top ≤ t → s.pool.status t = .idle
  placed : ∀ t ∈ s.live, (s.pool.threads t).stackStart = stacksAddr + size8MB * t + size2MB ∧
    (s.pool.threads t).stackEnd = stacksAddr + size8MB * t + size8MB
  accounted : s.live.length + s.pool.freelist.length = s.pool.top

theorem initial_inv : initial.Inv :=
  ⟨List.nodup_nil, by simp [initial], fun _ _ => rfl, by simp [initial], rfl⟩

variable {s s' : History}

theorem Inv.separate (h : s.Inv) : s.Separate := by
  refine h.nodup.imp_of_mem fun {t u} ht hu hne => ⟨hne, ?_⟩
  rw [(h.placed t ht).1, (h.placed t ht).2, (h.placed u hu).1, (h.placed u hu).2]
  simp only [size8MB, size2MB]
  omega

theorem create_fresh (h : s.Inv) (hf : s.pool.freelist = []) (hlen : s.live.length < uint16Max)
    (name : String) :
    ∃ s', s.step (.create name) = .ok s' ∧ s'.Inv ∧ s'.pool.freelist = [] ∧
      ∃ t, s'.live = t :: s.live ∧ s'.pool.status t = .waiting := by
  have htop : s.pool.top = s.live.length := by
    have := h.accounted
    rw [hf, List.length_nil] at this
    omega
  have hlt : s.pool.top < uint16Max := htop ▸ hlen
  have hcreate := Pool.threadCreate_fresh hf hlt (h.untouched _ le_rfl) name
  refine ⟨⟨⟨Function.update s.pool.threads s.pool.top (Pool.created name s.pool.top),
    s.pool.top + 1, []⟩, s.pool.top :: s.live⟩, ?_, ⟨?_, ?_, ?_, ?_, ?_⟩, rfl, s.pool.top, rfl, ?_⟩
  · simp only [step, hcreate, bind, Except.bind, pure, Except.pure]
  · exact List.nodup_cons.mpr ⟨fun hm => absurd (h.below _ hm) (lt_irrefl _), h.nodup⟩
  · intro t ht
    rcases List.mem_cons.mp ht with rfl | ht
    · exact Nat.lt_succ_self _
    · exact Nat.lt_succ_of_lt (h.below t ht)
  · intro t ht
    have hne : t ≠ s.pool.top := by
      simp only at ht
      omega
    simp only [Pool.status, Function.update_of_ne hne]
    exact h.untouched t (by simp only at ht; omega)
  · intro t ht
    rcases List.mem_cons.mp ht with rfl | ht
    · simp [Pool.created]
    · have hne : t ≠ s.pool.top := (h.below t ht).ne
      simp only [Function.update_of_ne hne]
      exact h.placed t ht
  · simp [htop]
  · simp [Pool.status, Pool.created]

theorem schedule_inv (h : s.Inv) {t : ℕ} (ht : t ∈ s.live) (new : Status) :
    Inv { s with pool := s.pool.setStatus t new } := by
  have hstack : ∀ u, ((s.pool.setStatus t new).threads u).stackStart =
      (s.pool.threads u).stackStart ∧ ((s.pool.setStatus t new).threads u).stackEnd =
      (s.pool.threads u).stackEnd := by
    intro u
    by_cases hu : u = t
    · subst hu
      simp [Pool.setStatus]
    · simp [Pool.setStatus, hu]
  refine ⟨h.nodup, h.below, fun u hu => ?_, fun u hu => ?_, h.accounted⟩
  · have hne : u ≠ t := by
      rintro rfl
      exact absurd (h.below u ht) (not_lt.mpr hu)
    simp only [Pool.status, Pool.setStatus, Pool.modify_of_ne _ _ _ _ hne]
    exact h.untouched u hu
  · rw [(hstack u).1, (hstack u).2]
    exact h.placed u hu

/-- An exit puts the structure, zeroed, on the freelist. -/
theorem exit_spec (h : s.Inv) {t : ℕ} (ht : t ∈ s.live) (hr : s.pool.status t = .running) :
    ∃ s', s.step (.exit t) = .ok s' ∧ s'.Inv ∧ s'.pool.freelist ≠ [] := by
  refine ⟨⟨(s.pool.setStatus t .dead).threadFree t, s.live.erase t⟩, ?_, ⟨?_, ?_, ?_, ?_, ?_⟩, ?_⟩
  · simp [step, Pool.exit, Pool.switchStatus_of_eq hr, bind, Except.bind, pure, Except.pure]
  · exact h.nodup.erase t
  · exact fun u hu => h.below u (List.mem_of_mem_erase hu)
  · intro u hu
    have hne : u ≠ t := by
      rintro rfl
      exact absurd (h.below u ht) (not_lt.mpr hu)
    simp only [Pool.status, Pool.threadFree, Pool.zero, Pool.setStatus,
      Pool.modify_of_ne _ _ _ _ hne]
    exact h.untouched u hu
  · intro u hu
    have hne : u ≠ t := (h.nodup.mem_erase_iff.mp hu).1
    simp only [Pool.threadFree, Pool.zero, Pool.setStatus, Pool.modify_of_ne _ _ _ _ hne]
    exact h.placed u (List.mem_of_mem_erase hu)
  · have hlen := List.length_erase_of_mem ht
    have hpos := List.length_pos_of_mem ht
    have hacc := h.accounted
    simp only [Pool.threadFree, Pool.zero, Pool.setStatus, Pool.modify_freelist, Pool.modify_top,
      List.length_cons]
    omega
  · simp [Pool.threadFree]

/-- From a state of the invariant the remaining calls go right exactly when none
of their creations follows an exit, made already or among them. -/
theorem right_iff (h : s.Inv) {calls : List Call} (hc : s.Legal calls) :
    s.Right calls ↔ (s.pool.freelist ≠ [] → ∀ c ∈ calls, c.isCreate = false) ∧
      calls.Pairwise fun c d => c.isExit = true → d.isCreate = false := by
  induction calls generalizing s with
  | nil => simp [Right, h.separate]
  | cons c calls ih =>
    obtain ⟨hallow, hnext⟩ := hc
    rw [List.pairwise_cons]
    cases c with
    | create name =>
      by_cases hf : s.pool.freelist = []
      · obtain ⟨s', hs', hinv, hf', hret⟩ := create_fresh h hf hallow name
        have hrest := ih hinv (hnext s' hs')
        simp only [hf', ne_eq, not_true_eq_false, false_implies, true_and] at hrest
        have hexit : (Call.create name).isExit = false := rfl
        simp only [Right, hs', Except.ok.injEq, exists_eq_left', hrest, h.separate, hret, hf,
          hexit, ne_eq, not_true_eq_false, false_implies, true_and, implies_true, and_true,
          Bool.false_eq_true]
      · have hfail : s.step (.create name) = .error .assertion := by
          simp only [step, Pool.threadCreate_recycled hf name, bind, Except.bind]
        simp [Right, hfail, hf, Call.isCreate]
    | schedule t new =>
      have hs' : s.step (.schedule t new) = .ok { s with pool := s.pool.setStatus t new } := rfl
      have hrest := ih (schedule_inv h hallow.1 new) (hnext _ hs')
      have hexit : (Call.schedule t new).isExit = false := rfl
      have hcreate : (Call.schedule t new).isCreate = false := rfl
      have hfree : (s.pool.setStatus t new).freelist = s.pool.freelist := rfl
      simp only [Right, hs', Except.ok.injEq, exists_eq_left', hrest, h.separate, hexit, hcreate,
        hfree, List.forall_mem_cons, true_and, false_implies, implies_true, and_true,
        Bool.false_eq_true]
    | exit t =>
      obtain ⟨s', hs', hinv, hf'⟩ := exit_spec h hallow.1 hallow.2
      have hrest := ih hinv (hnext s' hs')
      have hexit : (Call.exit t).isExit = true := rfl
      have hcreate : (Call.exit t).isCreate = false := rfl
      simp only [Right, hs', Except.ok.injEq, exists_eq_left', hrest, h.separate, hf', hexit,
        hcreate, List.forall_mem_cons, true_and, false_implies, and_true, ne_eq,
        not_false_eq_true, forall_const, Bool.false_eq_true]
      constructor
      · rintro ⟨hno, hpair⟩
        exact ⟨fun _ => hno, hno, hpair⟩
      · rintro ⟨-, hno, hpair⟩
        exact ⟨hno, hpair⟩

end History

/-- A history of creations and exits goes right exactly when no thread is created
after one has exited. -/
theorem creations_right_iff (calls : List Call) (h : History.initial.Legal calls) :
    History.initial.Right calls ↔
      calls.Pairwise fun c d => c.isExit = true → d.isCreate = false := by
  rw [History.right_iff History.initial_inv h]
  simp [History.initial, Pool.initial]

/-- Two threads are created and the first exits. -/
theorem two_creations_right :
    History.initial.Legal [.create "init", .create "idle", .schedule 0 .running, .exit 0] ∧
    History.initial.Right [.create "init", .create "idle", .schedule 0 .running, .exit 0] := by
  have hlegal : History.initial.Legal
      [.create "init", .create "idle", .schedule 0 .running, .exit 0] := by decide
  exact ⟨hlegal, (creations_right_iff _ hlegal).mpr (by decide)⟩

/-- One thread is created, runs and exits, and another is created. -/
def createAgain : List Call :=
  [.create "init", .schedule 0 .running, .exit 0, .create "next"]

/-- The creation after the exit fails its assertion. -/
theorem create_after_exit_asserts :
    (∃ s, createAgain.dropLast.foldlM History.step History.initial = .ok s ∧
      s.live = [] ∧ s.step (.create "next") = .error .assertion) ∧
    ¬ ∀ calls, History.initial.Legal calls → History.initial.Right calls := by
  have hlegal : History.initial.Legal createAgain := by decide
  refine ⟨⟨_, rfl, rfl, rfl⟩, fun h => ?_⟩
  have hright := (History.right_iff History.initial_inv hlegal).mp (h _ hlegal)
  exact absurd hright.2 (by decide)

end TomatOS.Thread
