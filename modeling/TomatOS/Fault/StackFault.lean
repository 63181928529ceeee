import TomatOS.Foundation.LockProgram
import Mathlib.Data.Nat.Notation

/-! Page faults on lazily mapped stacks, at the level of the locks. The critical
sections of `kernel/mem/phys.c` and `kernel/mem/virt.c` and the way from
`common_exception_handler` through `virt_handle_page_fault` are programs that take and
release `m_memory_region_lock`, `m_virt_lock`, the lock of the log and the one of the
panic. A fault may come at every point of a critical section. -/

namespace TomatOS.Fault

open Foundation.LockProgram

/-- `m_memory_region_lock`, `m_virt_lock`, `m_debug_lock`, `m_exception_lock`. -/
inductive Lock where
  | memory
  | virt
  | debug
  | exception
  deriving DecidableEq

/-- What the allocator keeps for the core: whether `m_lock_cpu` names it, and whether
its `m_reserved_page` is there. -/
structure Reserve where
  lockCpu : Bool
  reserved : Bool

abbrev Code := Prog Lock Reserve

abbrev Cpu := State Lock Reserve

/-! ### The log and assertions -/

/-- `debug_print`. -/
def debugPrint (next : Code) : Code := .acquire .debug (.release .debug next)

/-- `ASSERT` with a condition that fails. -/
def assertFailed : Code := debugPrint .trap

/-- `ASSERT` with a condition that the locks do not tell. -/
def assert (next : Code) : Code := .choose next assertFailed

/-! ### The physical allocator -/

def setLockCpu (value : Bool) (next : Code) : Code :=
  .update (fun r => { r with lockCpu := value }) next

def setReserved (value : Bool) (next : Code) : Code :=
  .update (fun r => { r with reserved := value }) next

/-- The allocation succeeds or fails; failing leaves a warning. -/
def fillIrqAlloc (next : Code) : Code :=
  .test (·.reserved) next (.choose (setReserved true next) (debugPrint next))

/-- The locked part of `phys_alloc`, going on with `got` or with `none`. -/
def lockedAlloc (got none : Code) : Code :=
  .acquire .memory (setLockCpu true (.choose
    (fillIrqAlloc (setLockCpu false (.release .memory got)))
    (fillIrqAlloc (setLockCpu false (.release .memory none)))))

/-- `phys_alloc(PAGE_SIZE)`. -/
def physAllocPage (got none : Code) : Code :=
  .test (·.lockCpu) (.test (·.reserved) (setReserved false got) assertFailed)
    (lockedAlloc got none)

/-- `phys_free` of a pointer that is not null. -/
def physFree (next : Code) : Code := .acquire .memory (assert (.release .memory next))

def initPhysPerCpu (next : Code) : Code := .acquire .memory (fillIrqAlloc (.release .memory next))

/-! ### The page tables -/

/-- The three calls of `get_next_level` on the way to a bottom table, of which the last
`missing` find no table and allocate one. -/
def getNextLevels (got none : Code) : ℕ → Code
  | 0 => got
  | missing + 1 => physAllocPage (getNextLevels got none missing) none

def virtMapPage (missing : ℕ) (mapped failed : Code) : Code :=
  .acquire .virt (getNextLevels (.release .virt mapped)
    (debugPrint (.release .virt failed)) missing)

def virtIsMapped (missing : ℕ) (next : Code) : Code :=
  .acquire .virt (getNextLevels (.release .virt next) (.release .virt next) missing)

/-- A page of a range: how many tables are missing on the way to it, and whether its
entry is present. -/
structure RangePage where
  missing : ℕ
  present : Bool

/-- One pass of the clean-up loop of `virt_alloc_range`, with `rounds` to go. A failed
check starts the clean-up over. -/
def cleanupPass (missing : ℕ → ℕ) (next restart : Code) : ℕ → Code
  | 0 => next
  | rounds + 1 => getNextLevels (assert (physFree (cleanupPass missing next restart rounds)))
      (debugPrint restart) (missing rounds)

/-- The clean-up for the page with the given index, for as many passes as are listed. -/
def cleanup (index : ℕ) (next : Code) : List (ℕ → ℕ) → Code
  | [] => .halt
  | missing :: passes => cleanupPass missing next (cleanup index next passes) index

/-- The allocation loop of `virt_alloc_range` from the page with the given index on. -/
def allocPages (passes : List (ℕ → ℕ)) (next : Code) : ℕ → List RangePage → Code
  | _, [] => next
  | index, page :: pages =>
    let failed := debugPrint (cleanup index next passes)
    physAllocPage (getNextLevels
      (if page.present then failed else allocPages passes next (index + 1) pages)
      failed page.missing) failed

def virtAllocRange (pages : List RangePage) (passes : List (ℕ → ℕ)) (next : Code) : Code :=
  .acquire .virt (allocPages passes (.release .virt next) 0 pages)

def remapPages (next : Code) : List RangePage → Code
  | [] => next
  | page :: pages => getNextLevels
      (if page.present then remapPages next pages else debugPrint next) (debugPrint next)
      page.missing

def virtRemapRange (pages : List RangePage) (next : Code) : Code :=
  .acquire .virt (remapPages (.release .virt next) pages)

/-! ### The exception handlers -/

/-- The frame pointers that a panic follows, each by the number of tables missing on
the way to it. It stops after the first one that is not mapped. -/
structure Backtrace where
  top : ℕ
  callers : List ℕ

/-- The backtrace loop; a frame whose tables were missing is not mapped. -/
def printFrames (next : Code) : List ℕ → Code
  | [] => next
  | missing :: callers => virtIsMapped missing
      (debugPrint (if missing = 0 then printFrames next callers else next))

/-- The lines of the log before the backtrace are one here. -/
def defaultExceptionHandler (frames : Backtrace) : Code :=
  .acquire .exception (debugPrint
    (printFrames (debugPrint (.release .exception .halt)) (frames.top :: frames.callers)))

/-- A page fault on a stack address: whether the address is in the guard zone, the
tables missing on the way to it, the frames of the interrupted code, and those of the
handler, for a failed assertion inside of it. -/
structure StackFault where
  guardZone : Bool
  missing : ℕ
  frames : Backtrace
  handlerFrames : Backtrace

/-- `virt_handle_page_fault` for a stack address. -/
def virtHandlePageFault (fault : StackFault) (handled unhandled : Code) : Code :=
  if fault.guardZone then debugPrint (debugPrint unhandled)
  else physAllocPage (virtMapPage fault.missing handled (debugPrint unhandled))
    (debugPrint unhandled)

def commonExceptionHandler (fault : StackFault) : Code :=
  virtHandlePageFault fault .ret (defaultExceptionHandler fault.frames)

/-! ### Points of critical sections -/

/-- The functions with a critical section, with what their course depends on. -/
inductive Call where
  | physAllocPage
  | physAllocOther
  | physFree
  | initPhysPerCpu
  | virtMapPage (missing : ℕ)
  | virtAllocRange (pages : List RangePage) (passes : List (ℕ → ℕ))
  | virtRemapRange (pages : List RangePage)
  | virtIsMapped (missing : ℕ)

/-- Sizes other than a page never use the reserve. -/
def Call.code : Call → Code
  | .physAllocPage => Fault.physAllocPage .ret .ret
  | .physAllocOther => lockedAlloc .ret .ret
  | .physFree => Fault.physFree .ret
  | .initPhysPerCpu => Fault.initPhysPerCpu .ret
  | .virtMapPage missing => Fault.virtMapPage missing .ret .ret
  | .virtAllocRange pages passes => Fault.virtAllocRange pages passes .ret
  | .virtRemapRange pages => Fault.virtRemapRange pages .ret
  | .virtIsMapped missing => Fault.virtIsMapped missing .ret

/-- No lock held, with or without a page in reserve. -/
def idle (reserved : Bool) : Cpu := ⟨fun _ => false, ⟨false, reserved⟩⟩

/-- Inside a critical section of one of the two locks. -/
def Critical (s : Cpu) : Prop := s.held .memory = true ∨ s.held .virt = true

/-- The points a core comes to: in a call, after a step, in the handler of a fault
taken inside a critical section, and back from such a handler. -/
inductive Point : Cpu → Code → Prop
  | call (c : Call) (reserved : Bool) : Point (idle reserved) c.code
  | step {s t : Cpu} {p q : Code} (frames : Backtrace) :
      Point s p → Step (defaultExceptionHandler frames) (s, p) (t, q) → Point t q
  | fault {s : Cpu} {p : Code} (f : StackFault) :
      Point s p → Critical s → Point s (commonExceptionHandler f)
  | resume {s t : Cpu} {p : Code} (f : StackFault) : Point s p → Critical s →
      Relation.ReflTransGen (Step (defaultExceptionHandler f.handlerFrames))
        (s, commonExceptionHandler f) (t, .ret) → Point t p

/-- Handling the fault in the state `s` never makes the core take a lock it holds. -/
def HandledSafely (s : Cpu) (fault : StackFault) : Prop :=
  Safe (defaultExceptionHandler fault.handlerFrames) s (commonExceptionHandler fault)

/-! ### When a fault is handled -/

/-- The tables missing on the way to the first frame that is not mapped. -/
def missingIn : List ℕ → ℕ
  | [] => 0
  | missing :: callers => if missing = 0 then missingIn callers else missing

def Backtrace.missing (frames : Backtrace) : ℕ := missingIn (frames.top :: frames.callers)

variable {s : Cpu} {onTrap next got none : Code} {frames : Backtrace}

theorem safe_debugPrint : Safe onTrap s (debugPrint next) ↔
    s.held .debug = false ∧ Safe onTrap s next := safe_acquire_release

/-- A panic in a panic spins on the lock of the panic. -/
theorem not_safe_panic_of_exception (h : s.held .exception = true) :
    ¬ Safe onTrap s (defaultExceptionHandler frames) := by
  unfold defaultExceptionHandler
  rw [safe_acquire, h]
  rintro ⟨hfree, _⟩
  cases hfree

/-- A panic looks its first frame up under `m_virt_lock`. -/
theorem not_safe_panic_of_virt (h : s.held .virt = true) :
    ¬ Safe onTrap s (defaultExceptionHandler frames) := by
  have h' : (s.set .exception true).held .virt = true := (held_set_of_ne (by decide)).trans h
  unfold defaultExceptionHandler printFrames virtIsMapped
  rw [safe_acquire, safe_debugPrint, safe_acquire, h']
  rintro ⟨_, _, hfree, _⟩
  cases hfree

theorem safe_assertFailed : Safe (defaultExceptionHandler frames) s assertFailed ↔
    s.held .debug = false ∧
      Safe (defaultExceptionHandler frames) s (defaultExceptionHandler frames) := by
  unfold assertFailed
  rw [safe_debugPrint, safe_trap]

/-- The state after the reserved page was taken. -/
def taken (s : Cpu) : Cpu := ⟨s.held, { s.store with reserved := false }⟩

theorem safe_physAllocPage_reserved (hl : s.store.lockCpu = true) (hr : s.store.reserved = true) :
    Safe onTrap s (physAllocPage got none) ↔ Safe onTrap (taken s) got := by
  unfold physAllocPage setReserved
  rw [safe_test, if_pos hl, safe_test, if_pos hr, safe_update]
  rfl

theorem safe_physAllocPage_empty (hl : s.store.lockCpu = true) (hr : s.store.reserved = false) :
    Safe onTrap s (physAllocPage got none) ↔ Safe onTrap s assertFailed := by
  unfold physAllocPage
  rw [safe_test, if_pos hl, safe_test, hr]
  rfl

theorem not_safe_physAllocPage (hl : s.store.lockCpu = false) (hm : s.held .memory = true) :
    ¬ Safe onTrap s (physAllocPage got none) := by
  unfold physAllocPage lockedAlloc
  rw [safe_test, hl]
  simp [hm]

theorem not_safe_assertFailed (h : s.held .exception = true ∨ s.held .virt = true) :
    ¬ Safe (defaultExceptionHandler frames) s assertFailed := by
  rw [safe_assertFailed]
  rintro ⟨_, hpanic⟩
  rcases h with h | h
  · exact not_safe_panic_of_exception h hpanic
  · exact not_safe_panic_of_virt h hpanic

/-- Missing tables are more than the allocator can give while its lock is held: it has
at most the reserved page, and an assertion that fails is the end. -/
theorem not_safe_getNextLevels (hm : s.held .memory = true)
    (h : s.held .exception = true ∨ s.held .virt = true) {missing : ℕ}
    (hmissing : (if s.store.lockCpu && s.store.reserved then 1 else 0) < missing) :
    ¬ Safe (defaultExceptionHandler frames) s (getNextLevels got none missing) := by
  obtain ⟨n, rfl⟩ : ∃ n, missing = n + 1 := ⟨missing - 1, by omega⟩
  unfold getNextLevels
  cases hl : s.store.lockCpu with
  | false => exact not_safe_physAllocPage hl hm
  | true =>
    cases hr : s.store.reserved with
    | false =>
      rw [safe_physAllocPage_empty hl hr]
      exact not_safe_assertFailed h
    | true =>
      rw [safe_physAllocPage_reserved hl hr]
      obtain ⟨k, rfl⟩ : ∃ k, n = k + 1 := by
        rw [hl, hr] at hmissing
        exact ⟨n - 1, by simp at hmissing; omega⟩
      unfold getNextLevels
      rw [safe_physAllocPage_empty (show (taken s).store.lockCpu = true from hl) rfl]
      exact not_safe_assertFailed h

theorem safe_printFrames (hm : s.held .memory = true) (hv : s.held .virt = false)
    (hd : s.held .debug = false) (callers : List ℕ) :
    Safe (defaultExceptionHandler frames) s
        (printFrames (debugPrint (.release .exception .halt)) callers) ↔
      missingIn callers ≤ if s.store.lockCpu && s.store.reserved then 1 else 0 := by
  induction callers with
  | nil =>
    unfold printFrames missingIn
    rw [safe_debugPrint, safe_release]
    simp [hd]
  | cons missing callers ih =>
    unfold printFrames virtIsMapped missingIn
    by_cases h0 : missing = 0
    · subst h0
      unfold getNextLevels
      rw [safe_acquire_release, safe_debugPrint, if_pos rfl, if_pos rfl, ih]
      simp [hv, hd]
    · rw [if_neg h0, if_neg h0, safe_acquire]
      have hm' : (s.set .virt true).held .memory = true := (held_set_of_ne (by decide)).trans hm
      have hd' : (s.set .virt true).held .debug = false := (held_set_of_ne (by decide)).trans hd
      constructor
      · rintro ⟨_, hsafe⟩
        by_contra hlt
        exact not_safe_getNextLevels hm' (.inr held_set_self) (Nat.lt_of_not_le hlt) hsafe
      · intro hle
        have hreserve : (s.store.lockCpu && s.store.reserved) = true := by
          by_contra hnone
          rw [if_neg hnone] at hle
          omega
        rw [if_pos hreserve] at hle
        obtain rfl : missing = 1 := by omega
        obtain ⟨hl, hr⟩ := Bool.and_eq_true_iff.mp hreserve
        refine ⟨hv, ?_⟩
        have hl' : (s.set .virt true).store.lockCpu = true := hl
        have hr' : (s.set .virt true).store.reserved = true := hr
        have hd'' : ((taken (s.set .virt true)).set .virt false).held .debug = false :=
          (held_set_of_ne (by decide)).trans hd'
        unfold getNextLevels
        rw [safe_physAllocPage_reserved hl' hr']
        unfold getNextLevels
        rw [safe_release, safe_debugPrint, safe_debugPrint, safe_release]
        exact ⟨hd'', hd'', safe_halt⟩

theorem safe_panic {inner : Backtrace} (hm : s.held .memory = true) :
    Safe (defaultExceptionHandler inner) s (defaultExceptionHandler frames) ↔
      s.held .virt = false ∧ s.held .debug = false ∧ s.held .exception = false ∧
        frames.missing ≤ if s.store.lockCpu && s.store.reserved then 1 else 0 := by
  cases hv : s.held .virt with
  | true => simp [not_safe_panic_of_virt hv]
  | false =>
    have hm' : (s.set .exception true).held .memory = true :=
      (held_set_of_ne (by decide)).trans hm
    have hv' : (s.set .exception true).held .virt = false :=
      (held_set_of_ne (by decide)).trans hv
    have hd' : (s.set .exception true).held .debug = s.held .debug := held_set_of_ne (by decide)
    unfold defaultExceptionHandler
    rw [safe_acquire, safe_debugPrint, hd']
    constructor
    · rintro ⟨he, hd, hsafe⟩
      exact ⟨rfl, hd, he, (safe_printFrames hm' hv' (hd'.trans hd) _).mp hsafe⟩
    · rintro ⟨_, hd, he, hle⟩
      exact ⟨he, hd, (safe_printFrames hm' hv' (hd'.trans hd) _).mpr hle⟩

/-- Whether the handling of a fault comes to an end, told by the locks and the reserve
at the point of the fault, by the address and by the tables that are missing. -/
def Survives (s : Cpu) (fault : StackFault) : Prop :=
  s.held .virt = false ∧
    if fault.guardZone then
      s.held .debug = false ∧ s.held .exception = false ∧
        fault.frames.missing ≤ if s.store.lockCpu && s.store.reserved then 1 else 0
    else s.store.lockCpu = true ∧
      if s.store.reserved then fault.missing = 0
      else s.held .debug = false ∧ s.held .exception = false ∧ fault.handlerFrames.missing = 0

/-- An allocation that succeeds goes on with the other locks as they were. -/
theorem safe_lockedAlloc_got (h : Safe onTrap s (lockedAlloc got none)) :
    ∃ t : Cpu, (∀ lock, lock ≠ .memory → t.held lock = s.held lock) ∧ Safe onTrap t got := by
  unfold lockedAlloc setLockCpu fillIrqAlloc setReserved at h
  rw [safe_acquire, safe_update, safe_choose, safe_test] at h
  obtain ⟨_, hgot, _⟩ := h
  have hheld : ∀ lock, lock ≠ .memory →
      ((s.set .memory true).set .memory false).held lock = s.held lock := by
    intro lock hne
    exact (held_set_of_ne hne).trans (held_set_of_ne hne)
  split at hgot
  · rw [safe_update, safe_release] at hgot
    refine ⟨_, ?_, hgot⟩
    exact hheld
  · rw [safe_choose, safe_update, safe_update, safe_release] at hgot
    refine ⟨_, ?_, hgot.1⟩
    exact hheld

/-- With `m_virt_lock` held every way of handling the fault comes to that lock again. -/
theorem not_handledSafely_of_virt {fault : StackFault} (h : s.held .virt = true) :
    ¬ HandledSafely s fault := by
  have hvirt : ∀ {t : Cpu} {mapped failed : Code} {missing : ℕ}, t.held .virt = true →
      ¬ Safe (defaultExceptionHandler fault.handlerFrames) t (virtMapPage missing mapped failed) := by
    intro t mapped failed missing ht
    unfold virtMapPage
    rw [safe_acquire, ht]
    rintro ⟨hfree, _⟩
    cases hfree
  unfold HandledSafely commonExceptionHandler virtHandlePageFault
  split
  · rw [safe_debugPrint, safe_debugPrint]
    rintro ⟨_, _, hpanic⟩
    exact not_safe_panic_of_virt h hpanic
  · unfold physAllocPage
    rw [safe_test]
    split
    · rw [safe_test]
      split
      · unfold setReserved
        rw [safe_update]
        exact hvirt h
      · exact not_safe_assertFailed (.inr h)
    · intro hsafe
      obtain ⟨t, ht, hgot⟩ := safe_lockedAlloc_got hsafe
      exact hvirt ((ht .virt (by decide)).trans h) hgot

section Memory

variable {fault : StackFault} (hm : s.held .memory = true) (hv : s.held .virt = false)
include hm hv

theorem handledSafely_guardZone (hg : fault.guardZone = true) : HandledSafely s fault ↔
    s.held .debug = false ∧ s.held .exception = false ∧
      fault.frames.missing ≤ if s.store.lockCpu && s.store.reserved then 1 else 0 := by
  unfold HandledSafely commonExceptionHandler virtHandlePageFault
  rw [if_pos hg, safe_debugPrint, safe_debugPrint, safe_panic hm]
  constructor
  · rintro ⟨hd, _, _, _, he, hle⟩
    exact ⟨hd, he, hle⟩
  · rintro ⟨hd, he, hle⟩
    exact ⟨hd, hd, hv, hd, he, hle⟩

/-- The reserved page is enough for the stack, and there is none for a table. -/
theorem handledSafely_reserved (hg : fault.guardZone = false) (hl : s.store.lockCpu = true)
    (hr : s.store.reserved = true) : HandledSafely s fault ↔ fault.missing = 0 := by
  unfold HandledSafely commonExceptionHandler virtHandlePageFault
  rw [hg, if_neg (by simp), safe_physAllocPage_reserved hl hr]
  unfold virtMapPage
  rw [safe_acquire]
  constructor
  · rintro ⟨_, hsafe⟩
    by_contra hne
    refine not_safe_getNextLevels (s := (taken s).set .virt true) ?_ (.inr held_set_self) ?_ hsafe
    · exact (held_set_of_ne (by decide)).trans hm
    · show (if s.store.lockCpu && false then 1 else 0) < fault.missing
      simp only [Bool.and_false, Bool.false_eq_true, ↓reduceIte]
      omega
  · intro h0
    rw [h0]
    unfold getNextLevels
    rw [safe_release]
    exact ⟨hv, safe_ret⟩

theorem handledSafely_empty (hg : fault.guardZone = false) (hl : s.store.lockCpu = true)
    (hr : s.store.reserved = false) : HandledSafely s fault ↔
      s.held .debug = false ∧ s.held .exception = false ∧ fault.handlerFrames.missing = 0 := by
  unfold HandledSafely commonExceptionHandler virtHandlePageFault
  rw [hg, if_neg (by simp), safe_physAllocPage_empty hl hr, safe_assertFailed, safe_panic hm]
  simp only [hr, Bool.and_false, Bool.false_eq_true, ↓reduceIte, Nat.le_zero_eq]
  constructor
  · rintro ⟨hd, _, _, he, h0⟩
    exact ⟨hd, he, h0⟩
  · rintro ⟨hd, he, h0⟩
    exact ⟨hd, hv, hd, he, h0⟩

end Memory

theorem handledSafely_iff {fault : StackFault} (hc : Critical s) :
    HandledSafely s fault ↔ Survives s fault := by
  unfold Survives
  cases hv : s.held .virt with
  | true => simp [not_handledSafely_of_virt hv]
  | false =>
    have hm : s.held .memory = true := by
      rcases hc with h | h
      · exact h
      · rw [hv] at h
        cases h
    rw [and_iff_right rfl]
    cases hg : fault.guardZone with
    | true => exact handledSafely_guardZone hm hv hg
    | false =>
      rw [if_neg (by simp)]
      cases hl : s.store.lockCpu with
      | false =>
        unfold HandledSafely commonExceptionHandler virtHandlePageFault
        simp [hg, not_safe_physAllocPage hl hm]
      | true =>
        rw [and_iff_right rfl]
        cases hr : s.store.reserved with
        | false => exact handledSafely_empty hm hv hg hl hr
        | true => exact handledSafely_reserved hm hv hg hl hr

/-- At every point inside a critical section. That the point is one only says which states
are meant: the answer depends on the locks and on the reserve. -/
theorem stack_fault_handled_iff {p : Code} (_h : Point s p) (hc : Critical s)
    (fault : StackFault) : HandledSafely s fault ↔ Survives s fault :=
  handledSafely_iff hc

/-- A fault outside the guard zone with all tables there. -/
def plainFault : StackFault := ⟨false, 0, ⟨0, []⟩, ⟨0, []⟩⟩

/-- The core inside `phys_free`. -/
def inPhysFree : Cpu := (idle true).set .memory true

theorem inPhysFree_point : Point inPhysFree (assert (.release .memory .ret)) :=
  Point.step ⟨0, []⟩ (Point.call .physFree true) (Step.acquire rfl)

theorem stack_fault_in_phys_free :
    ∃ s p fault, Point s p ∧ Critical s ∧ ¬ HandledSafely s fault := by
  have hc : Critical inPhysFree := .inl rfl
  refine ⟨inPhysFree, _, plainFault, inPhysFree_point, hc, ?_⟩
  rw [handledSafely_iff hc]
  rintro ⟨_, hlock, _⟩
  cases hlock

/-- The core inside `phys_alloc`, with `m_lock_cpu` set. -/
def inPhysAlloc : Cpu := ⟨((idle true).set .memory true).held, ⟨true, true⟩⟩

theorem stack_fault_handled_in_phys_alloc : ∃ p, Point inPhysAlloc p ∧ Critical inPhysAlloc ∧
    HandledSafely inPhysAlloc plainFault := by
  have hc : Critical inPhysAlloc := .inl rfl
  have hentry : Point (idle true) (lockedAlloc .ret .ret) :=
    Point.call .physAllocOther true
  have hlocked := Point.step ⟨0, []⟩ hentry (Step.acquire rfl)
  have hpoint : Point inPhysAlloc _ := Point.step ⟨0, []⟩ hlocked Step.update
  exact ⟨_, hpoint, hc, (stack_fault_handled_iff hpoint hc plainFault).mpr ⟨rfl, rfl, rfl⟩⟩

end TomatOS.Fault
