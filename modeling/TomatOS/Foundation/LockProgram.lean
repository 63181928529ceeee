import Mathlib.Logic.Relation
import Mathlib.Logic.Function.Basic

/-! Programs of one processor that take and release locks, read and write a store,
depend on outcomes from outside, and may trap into a handler that never comes back.
A program is safe when no execution of it tries to take a lock that the processor
already holds; safety is computed by one equation for each kind of instruction. -/

namespace TomatOS.Foundation.LockProgram

variable {κ σ : Type}

/-- A program as the tree of its executions. -/
inductive Prog (κ σ : Type) where
  | ret
  | halt
  | trap
  | acquire (lock : κ) (next : Prog κ σ)
  | release (lock : κ) (next : Prog κ σ)
  | update (f : σ → σ) (next : Prog κ σ)
  | test (c : σ → Bool) (yes no : Prog κ σ)
  | choose (yes no : Prog κ σ)

/-- The locks the processor holds, and the store. -/
structure State (κ σ : Type) where
  held : κ → Bool
  store : σ

variable [DecidableEq κ]

def State.set (s : State κ σ) (lock : κ) (value : Bool) : State κ σ :=
  { s with held := Function.update s.held lock value }

/-- One step. Taking a held lock is no step: the processor spins. -/
inductive Step (onTrap : Prog κ σ) : State κ σ × Prog κ σ → State κ σ × Prog κ σ → Prop
  | trap {s : State κ σ} : Step onTrap (s, .trap) (s, onTrap)
  | acquire {s : State κ σ} {lock : κ} {next : Prog κ σ} (h : s.held lock = false) :
      Step onTrap (s, .acquire lock next) (s.set lock true, next)
  | release {s : State κ σ} {lock : κ} {next : Prog κ σ} :
      Step onTrap (s, .release lock next) (s.set lock false, next)
  | update {s : State κ σ} {f : σ → σ} {next : Prog κ σ} :
      Step onTrap (s, .update f next) (⟨s.held, f s.store⟩, next)
  | test {s : State κ σ} {c : σ → Bool} {yes no : Prog κ σ} :
      Step onTrap (s, .test c yes no) (s, if c s.store then yes else no)
  | left {s : State κ σ} {yes no : Prog κ σ} : Step onTrap (s, .choose yes no) (s, yes)
  | right {s : State κ σ} {yes no : Prog κ σ} : Step onTrap (s, .choose yes no) (s, no)

/-- The processor is about to take a lock that it holds. -/
def SelfAcquires (s : State κ σ) (p : Prog κ σ) : Prop :=
  ∃ lock next, p = .acquire lock next ∧ s.held lock = true

def Safe (onTrap : Prog κ σ) (s : State κ σ) (p : Prog κ σ) : Prop :=
  ∀ t q, Relation.ReflTransGen (Step onTrap) (s, p) (t, q) → ¬ SelfAcquires t q

variable {onTrap next yes no : Prog κ σ} {s : State κ σ} {lock : κ}

theorem safe_iff_step {p : Prog κ σ} : Safe onTrap s p ↔
    ¬ SelfAcquires s p ∧ ∀ t q, Step onTrap (s, p) (t, q) → Safe onTrap t q := by
  constructor
  · intro h
    refine ⟨h s p Relation.ReflTransGen.refl, ?_⟩
    intro t q hstep u r hrun
    exact h u r (Relation.ReflTransGen.head hstep hrun)
  · rintro ⟨h0, hstep⟩ t q hrun
    rcases Relation.ReflTransGen.cases_head hrun with heq | ⟨⟨u, r⟩, hu, hrest⟩
    · cases heq
      exact h0
    · exact hstep u r hu t q hrest

omit [DecidableEq κ] in
private theorem not_selfAcquires {p : Prog κ σ} (h : ∀ l n, p ≠ .acquire l n) :
    ¬ SelfAcquires s p := by
  rintro ⟨l, n, hp, _⟩
  exact h l n hp

/-- An instruction other than taking a lock, with one outcome. -/
private theorem safe_iff_of_step {p q : Prog κ σ} {t : State κ σ} (hp : ∀ l n, p ≠ .acquire l n)
    (hstep : Step onTrap (s, p) (t, q))
    (huniq : ∀ u r, Step onTrap (s, p) (u, r) → u = t ∧ r = q) :
    Safe onTrap s p ↔ Safe onTrap t q := by
  rw [safe_iff_step]
  constructor
  · intro h
    exact h.2 t q hstep
  · intro h
    refine ⟨not_selfAcquires hp, ?_⟩
    intro u r hur
    obtain ⟨rfl, rfl⟩ := huniq u r hur
    exact h

@[simp] theorem safe_ret : Safe onTrap s .ret := by
  rw [safe_iff_step]
  refine ⟨not_selfAcquires fun l n h => (by cases h), ?_⟩
  intro t q h
  cases h

@[simp] theorem safe_halt : Safe onTrap s .halt := by
  rw [safe_iff_step]
  refine ⟨not_selfAcquires fun l n h => (by cases h), ?_⟩
  intro t q h
  cases h

/-- Not a simplification rule: a handler that traps again would not come to an end. -/
theorem safe_trap : Safe onTrap s .trap ↔ Safe onTrap s onTrap := by
  apply safe_iff_of_step (fun l n h => by cases h) Step.trap
  intro u r h
  cases h
  exact ⟨rfl, rfl⟩

@[simp] theorem safe_acquire : Safe onTrap s (.acquire lock next) ↔
    s.held lock = false ∧ Safe onTrap (s.set lock true) next := by
  rw [safe_iff_step]
  constructor
  · rintro ⟨h0, hstep⟩
    have hfree : s.held lock = false := by
      rw [← Bool.not_eq_true]
      intro hheld
      exact h0 ⟨lock, next, rfl, hheld⟩
    exact ⟨hfree, hstep _ _ (Step.acquire hfree)⟩
  · rintro ⟨hfree, h⟩
    constructor
    · rintro ⟨l, n, heq, hheld⟩
      cases heq
      rw [hfree] at hheld
      cases hheld
    · intro t q hstep
      cases hstep
      exact h

@[simp] theorem safe_release : Safe onTrap s (.release lock next) ↔
    Safe onTrap (s.set lock false) next := by
  apply safe_iff_of_step (fun l n h => by cases h) Step.release
  intro u r h
  cases h
  exact ⟨rfl, rfl⟩

@[simp] theorem safe_update {f : σ → σ} : Safe onTrap s (.update f next) ↔
    Safe onTrap ⟨s.held, f s.store⟩ next := by
  apply safe_iff_of_step (fun l n h => by cases h) Step.update
  intro u r h
  cases h
  exact ⟨rfl, rfl⟩

@[simp] theorem safe_test {c : σ → Bool} : Safe onTrap s (.test c yes no) ↔
    Safe onTrap s (if c s.store then yes else no) := by
  apply safe_iff_of_step (fun l n h => by cases h) Step.test
  intro u r h
  cases h
  exact ⟨rfl, rfl⟩

@[simp] theorem safe_choose : Safe onTrap s (.choose yes no) ↔
    Safe onTrap s yes ∧ Safe onTrap s no := by
  rw [safe_iff_step]
  constructor
  · intro h
    exact ⟨h.2 _ _ Step.left, h.2 _ _ Step.right⟩
  · rintro ⟨hyes, hno⟩
    refine ⟨not_selfAcquires fun l n h => (by cases h), ?_⟩
    intro t q hstep
    cases hstep
    · exact hyes
    · exact hno

@[simp] theorem held_set_self {value : Bool} : (s.set lock value).held lock = value := by
  unfold State.set
  exact Function.update_self ..

theorem held_set_of_ne {lock' : κ} {value : Bool} (h : lock' ≠ lock) :
    (s.set lock value).held lock' = s.held lock' := by
  unfold State.set
  exact Function.update_of_ne h ..

/-- A section that does nothing leaves the state as it was. -/
theorem safe_acquire_release : Safe onTrap s (.acquire lock (.release lock next)) ↔
    s.held lock = false ∧ Safe onTrap s next := by
  rw [safe_acquire, safe_release]
  apply and_congr_right
  intro hfree
  have hback : (s.set lock true).set lock false = s := by
    unfold State.set
    simp only [Function.update_idem, ← hfree, Function.update_eq_self]
  rw [hback]

end TomatOS.Foundation.LockProgram
