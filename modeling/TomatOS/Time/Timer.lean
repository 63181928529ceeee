import TomatOS.Foundation.CachedTree
import Mathlib.Logic.Function.Basic
import Mathlib.Data.Nat.Basic

/-! The timers of one core, from `kernel/time/timer.c`: the tree ordered by
deadline, the back pointer of each timer, the hardware backend, and the three
operations on them. The functions run with interrupts off or in the interrupt
handler; the points of `timer_cancel` and `timer_set` at which interrupts are
still on are the subject of `TomatOS.Time.Interrupt`. A callback is whatever
timer calls it makes when it runs. -/

namespace TomatOS.Time

open Foundation

variable {ι κ : Type} [DecidableEq ι]

/-- The last command given to the backend; the timer is disarmed at reset. -/
inductive Backend where
  | setDeadline (deadline : ℕ)
  | clear
  deriving DecidableEq, Repr

inductive Fault where
  /-- The back pointer of an expired timer is not this core's. -/
  | assertion
  /-- A node is erased while absent or added while present. -/
  | corruptTree
  /-- The dispatch loop is still running. -/
  | unfinished
  deriving DecidableEq, Repr

abbrev Result := Except Fault

/-- `timers i` says that the back pointer of timer `i` is set; on one core it
can only be this core's. -/
structure TimerState (ι κ : Type) where
  tree : List ι
  timers : ι → Bool
  deadline : ι → ℕ
  callback : ι → κ
  backend : Backend

namespace TimerState

def timerLess (s : TimerState ι κ) (a b : ι) : Bool := s.deadline a < s.deadline b

/-- `rb_erase_cached` of the timer's node. -/
def erase (s : TimerState ι κ) (timer : ι) : Result (Option ι × TimerState ι κ) :=
  if timer ∈ s.tree then
    let (leftmost, tree) := CachedTree.eraseCached timer s.tree
    .ok (leftmost, { s with tree := tree })
  else .error .corruptTree

/-- `rb_add_cached` of the timer's node: whether it is the new leftmost. -/
def add (s : TimerState ι κ) (timer : ι) : Result (Bool × TimerState ι κ) :=
  if timer ∈ s.tree then .error .corruptTree
  else .ok (CachedTree.becomesLeftmost s.timerLess timer s.tree,
    { s with tree := CachedTree.insert s.timerLess timer s.tree })

def setBackend (s : TimerState ι κ) (b : Backend) : TimerState ι κ := { s with backend := b }

/-- `timer->timers = NULL`. -/
def disarm (s : TimerState ι κ) (timer : ι) : TimerState ι κ :=
  { s with timers := Function.update s.timers timer false }

/-- The timer out of the tree and its back pointer cleared. -/
def remove (s : TimerState ι κ) (timer : ι) : TimerState ι κ :=
  { s.disarm timer with tree := s.tree.erase timer }

/-- The part of `timer_cancel` behind `irq_save`. -/
def cancelErase (s : TimerState ι κ) (timer : ι) : Result (TimerState ι κ) := do
  let oldLeftmost := CachedTree.leftmost s.tree
  let (newLeftmost, s) ← s.erase timer
  if oldLeftmost ≠ newLeftmost then
    match newLeftmost with
    | some next => return s.setBackend (.setDeadline (s.deadline next))
    | none => return s.setBackend .clear
  else return s

def timerCancel (s : TimerState ι κ) (timer : ι) : Result (TimerState ι κ) :=
  if s.timers timer then (s.disarm timer).cancelErase timer else .ok s

/-- The part of `timer_set` behind `irq_save`. -/
def setAdd (s : TimerState ι κ) (timer : ι) (callback : κ) (deadline : ℕ) :
    Result (TimerState ι κ) := do
  let s := { s with
    deadline := Function.update s.deadline timer deadline
    callback := Function.update s.callback timer callback
    timers := Function.update s.timers timer true }
  let (leftmost, s) ← s.add timer
  if leftmost then return s.setBackend (.setDeadline deadline) else return s

def timerSet (s : TimerState ι κ) (timer : ι) (callback : κ) (deadline : ℕ) :
    Result (TimerState ι κ) := do
  let s ← s.timerCancel timer
  s.setAdd timer callback deadline

end TimerState

/-- A timer call of a callback. -/
inductive Call (ι κ : Type) where
  | set (timer : ι) (callback : κ) (deadline : ℕ)
  | cancel (timer : ι)

def Call.run (s : TimerState ι κ) : Call ι κ → Result (TimerState ι κ)
  | .set timer callback deadline => s.timerSet timer callback deadline
  | .cancel timer => s.timerCancel timer

/-- The timer calls a callback makes, one after the other. -/
def runCalls (s : TimerState ι κ) (calls : List (Call ι κ)) : Result (TimerState ι κ) :=
  calls.foldlM Call.run s

/-- One iteration of the dispatch loop as the environment sees it: the TSC
reading, and the timer calls of the callback if one is run. -/
structure Iteration (ι κ : Type) where
  now : ℕ
  calls : List (Call ι κ)

/-- `timer_dispatch`, with the timers whose callbacks ran and the readings at
which they did. -/
def timerDispatch (s : TimerState ι κ) :
    List (Iteration ι κ) → Result (TimerState ι κ × List (ι × ℕ))
  | [] =>
    match CachedTree.leftmost s.tree with
    | none => .ok (s.setBackend .clear, [])
    | some _ => .error .unfinished
  | it :: script =>
    match CachedTree.leftmost s.tree with
    | none => .ok (s.setBackend .clear, [])
    | some timer =>
      if it.now < s.deadline timer then
        .ok (s.setBackend (.setDeadline (s.deadline timer)), [])
      else if s.timers timer then do
        let (_, s) ← s.erase timer
        let s ← runCalls (s.disarm timer) it.calls
        let (s, ran) ← timerDispatch s script
        return (s, (timer, it.now) :: ran)
      else .error .assertion

/-! ### The structural invariant -/

/-- The tree is sorted by deadline without duplicates and holds exactly the
timers whose back pointer is set. -/
structure WellFormed (s : TimerState ι κ) : Prop where
  nodup : s.tree.Nodup
  sorted : CachedTree.Sorted s.deadline s.tree
  armed : ∀ t, s.timers t = true ↔ t ∈ s.tree

variable {s s' : TimerState ι κ}

omit [DecidableEq ι] in
theorem WellFormed.setBackend (h : WellFormed s) (b : Backend) : WellFormed (s.setBackend b) :=
  ⟨h.nodup, h.sorted, h.armed⟩

theorem WellFormed.removed (h : WellFormed s) (timer : ι) : WellFormed (s.remove timer) := by
  refine ⟨h.nodup.erase timer, h.sorted.erase timer, fun t => ?_⟩
  simp only [TimerState.remove, TimerState.disarm, Function.update_apply, h.nodup.mem_erase_iff]
  split_ifs with ht
  · simp [ht]
  · simp [ht, h.armed]

/-- `timer_cancel` of an armed timer, and what it tells the backend. -/
theorem timerCancel_armed (h : WellFormed s) {timer : ι} (ha : s.timers timer = true) :
    s.timerCancel timer = .ok { s with
      timers := Function.update s.timers timer false
      tree := s.tree.erase timer
      backend := if CachedTree.leftmost s.tree = some timer then
          match CachedTree.leftmost (s.tree.erase timer) with
          | some next => .setDeadline (s.deadline next)
          | none => .clear
        else .clear } := by
  have hmem := (h.armed timer).mp ha
  simp only [TimerState.timerCancel, ha, ↓reduceIte, TimerState.cancelErase, TimerState.erase,
    TimerState.disarm, hmem, CachedTree.eraseCached, bind, Except.bind, pure, Except.pure]
  by_cases hl : CachedTree.leftmost s.tree = some timer
  · -- the erased node is not its own successor
    have hne : some timer ≠ CachedTree.leftmost (s.tree.erase timer) := by
      intro he
      have hin : timer ∈ s.tree.erase timer := List.mem_of_mem_head? he.symm
      exact (h.nodup.not_mem_erase) hin
    simp only [hl, ↓reduceIte, ne_eq, hne, not_false_eq_true]
    rcases CachedTree.leftmost (s.tree.erase timer) with _ | next <;> rfl
  · have hne : CachedTree.leftmost s.tree ≠ none := by
      intro hn
      rw [CachedTree.leftmost, List.head?_eq_none_iff] at hn
      simp [hn] at hmem
    simp only [hl, ↓reduceIte, ne_eq, hne, not_false_eq_true]
    rfl

theorem timerCancel_unarmed {timer : ι} (ha : s.timers timer = false) :
    s.timerCancel timer = .ok s := by simp [TimerState.timerCancel, ha]

/-- Cancelling always works and leaves the timer out of the tree. -/
theorem timerCancel_spec (h : WellFormed s) (timer : ι) :
    ∃ s', s.timerCancel timer = .ok s' ∧ WellFormed s' ∧ s'.tree = s.tree.erase timer ∧
      s'.deadline = s.deadline ∧ s'.timers timer = false := by
  cases ha : s.timers timer with
  | false =>
    have hn : timer ∉ s.tree := by
      intro hm
      simp [(h.armed timer).mpr hm] at ha
    exact ⟨s, timerCancel_unarmed ha, h, (List.erase_of_not_mem hn).symm, rfl, ha⟩
  | true =>
    refine ⟨_, timerCancel_armed h ha, ?_, rfl, rfl, by simp⟩
    have hr := h.removed timer
    exact ⟨hr.nodup, hr.sorted, hr.armed⟩

theorem setAdd_spec (h : WellFormed s) {timer : ι} (hn : timer ∉ s.tree) (callback : κ)
    (deadline : ℕ) :
    ∃ s', s.setAdd timer callback deadline = .ok s' ∧ WellFormed s' ∧
      s'.deadline = Function.update s.deadline timer deadline ∧
      s'.tree = CachedTree.insert (fun a b => s'.deadline a < s'.deadline b) timer s.tree ∧
      s'.backend = if ∀ x ∈ s.tree, deadline < s.deadline x then .setDeadline deadline
        else s.backend := by
  set d := Function.update s.deadline timer deadline with hd
  have hdne : ∀ x ∈ s.tree, d x = s.deadline x := by
    intro x hx
    rw [hd, Function.update_of_ne]
    rintro rfl
    exact hn hx
  have hsorted : CachedTree.Sorted d s.tree := h.sorted.congr hdne
  have hleft : CachedTree.becomesLeftmost (fun a b => d a < d b) timer s.tree = true ↔
      ∀ x ∈ s.tree, deadline < s.deadline x := by
    rw [hsorted.becomesLeftmost_iff]
    apply forall₂_congr
    intro x hx
    rw [hdne x hx, hd, Function.update_self]
  have hwf : ∀ b, WellFormed (⟨CachedTree.insert (fun a b => d a < d b) timer s.tree,
      Function.update s.timers timer true, d, Function.update s.callback timer callback, b⟩ :
        TimerState ι κ) := by
    intro b
    refine ⟨CachedTree.nodup_insert h.nodup hn, hsorted.insert timer, fun t => ?_⟩
    rw [CachedTree.mem_insert, ← h.armed t]
    by_cases ht : t = timer
    · simp [ht]
    · simp [ht]
  simp only [TimerState.setAdd, TimerState.add, hn, ↓reduceIte, bind, Except.bind, pure,
    Except.pure, ← hd]
  have hless : ∀ t r c b, (⟨t, r, d, c, b⟩ : TimerState ι κ).timerLess =
      fun a b => decide (d a < d b) := fun _ _ _ _ => rfl
  simp only [hless, hleft]
  split_ifs with hall
  · exact ⟨_, rfl, hwf _, rfl, rfl, rfl⟩
  · exact ⟨_, rfl, hwf _, rfl, rfl, rfl⟩

theorem timerSet_spec (h : WellFormed s) (timer : ι) (callback : κ) (deadline : ℕ) :
    ∃ s', s.timerSet timer callback deadline = .ok s' ∧ WellFormed s' := by
  obtain ⟨s₁, h₁, hwf₁, htree, -, -⟩ := timerCancel_spec h timer
  have hn : timer ∉ s₁.tree := by
    rw [htree]
    exact h.nodup.not_mem_erase
  obtain ⟨s', hs', hwf', -⟩ := setAdd_spec hwf₁ hn callback deadline
  exact ⟨s', by simp only [TimerState.timerSet, h₁, bind, Except.bind, hs'], hwf'⟩

theorem Call.run_spec (h : WellFormed s) (c : Call ι κ) :
    ∃ s', c.run s = .ok s' ∧ WellFormed s' := by
  cases c with
  | set timer callback deadline => exact timerSet_spec h timer callback deadline
  | cancel timer =>
    obtain ⟨s', hs', hwf, -⟩ := timerCancel_spec h timer
    exact ⟨s', hs', hwf⟩

theorem runCalls_spec (h : WellFormed s) (calls : List (Call ι κ)) :
    ∃ s', runCalls s calls = .ok s' ∧ WellFormed s' := by
  induction calls generalizing s with
  | nil => exact ⟨s, rfl, h⟩
  | cons c calls ih =>
    obtain ⟨s₁, h₁, hwf₁⟩ := c.run_spec h
    obtain ⟨s', hs', hwf'⟩ := ih hwf₁
    refine ⟨s', ?_, hwf'⟩
    rw [runCalls, List.foldlM_cons, h₁]
    exact hs'

theorem runCalls_wellFormed (h : WellFormed s) {calls : List (Call ι κ)}
    (hc : runCalls s calls = .ok s') : WellFormed s' := by
  obtain ⟨s₁, h₁, hwf⟩ := runCalls_spec h calls
  exact Except.ok.inj (h₁.symm.trans hc) ▸ hwf

/-! ### What a dispatch does -/

/-- A callback that a dispatch runs: whose it is, the reading before it, the state
on its entry and the timer calls it makes. -/
structure Firing (ι κ : Type) where
  timer : ι
  callback : κ
  now : ℕ
  entry : TimerState ι κ
  calls : List (Call ι κ)

/-- A dispatch that returns, with the callbacks it runs and the reading at which it
leaves the loop, none if it does so because the tree is empty. -/
inductive Dispatches : TimerState ι κ → List (Iteration ι κ) → TimerState ι κ →
    List (Firing ι κ) → Option ℕ → Prop
  | empty {s : TimerState ι κ} {script : List (Iteration ι κ)} :
      CachedTree.leftmost s.tree = none → Dispatches s script (s.setBackend .clear) [] none
  | early {s : TimerState ι κ} {it : Iteration ι κ} {script : List (Iteration ι κ)} {timer : ι} :
      CachedTree.leftmost s.tree = some timer → it.now < s.deadline timer →
      Dispatches s (it :: script) (s.setBackend (.setDeadline (s.deadline timer))) [] (some it.now)
  | fire {s s₁ s' : TimerState ι κ} {it : Iteration ι κ} {script : List (Iteration ι κ)} {timer : ι}
      {fs : List (Firing ι κ)} {exit : Option ℕ} :
      CachedTree.leftmost s.tree = some timer → s.deadline timer ≤ it.now →
      runCalls (s.remove timer) it.calls = .ok s₁ → Dispatches s₁ script s' fs exit →
      Dispatches s (it :: script) s'
        (⟨timer, s.callback timer, it.now, s.remove timer, it.calls⟩ :: fs) exit

/-- A dispatch is free of faults: it does not end, or it returns as above. -/
theorem timerDispatch_cases (h : WellFormed s) (script : List (Iteration ι κ)) :
    timerDispatch s script = .error .unfinished ∨
    ∃ s' fs exit, Dispatches s script s' fs exit ∧
      timerDispatch s script = .ok (s', fs.map fun f => (f.timer, f.now)) := by
  induction script generalizing s with
  | nil =>
    rw [timerDispatch]
    cases hl : CachedTree.leftmost s.tree with
    | none => exact Or.inr ⟨_, _, _, .empty hl, rfl⟩
    | some timer => exact Or.inl rfl
  | cons it script ih =>
    rw [timerDispatch]
    cases hl : CachedTree.leftmost s.tree with
    | none => exact Or.inr ⟨_, _, _, .empty hl, rfl⟩
    | some timer =>
      have hmem : timer ∈ s.tree := List.mem_of_mem_head? hl
      have herase : s.erase timer = .ok ((CachedTree.eraseCached timer s.tree).1,
          { s with tree := s.tree.erase timer }) := by
        rw [TimerState.erase, if_pos hmem]
        rfl
      simp only [(h.armed timer).mpr hmem, ↓reduceIte]
      split_ifs with hnow
      · exact Or.inr ⟨_, _, _, .early hl hnow, rfl⟩
      · obtain ⟨s₁, h₁, hwf₁⟩ := runCalls_spec (h.removed timer) it.calls
        have hcalls : runCalls ({ s with tree := s.tree.erase timer }.disarm timer) it.calls =
          .ok s₁ := h₁
        simp only [herase, hcalls, bind, Except.bind]
        rcases ih hwf₁ with hu | ⟨s', fs, exit, hd, hs'⟩
        · exact Or.inl (by rw [hu])
        · exact Or.inr ⟨s', _, exit, .fire hl (not_lt.mp hnow) h₁ hd, by rw [hs']; rfl⟩

theorem timerDispatch_dispatches (h : WellFormed s) {script : List (Iteration ι κ)}
    {ran : List (ι × ℕ)} (hc : timerDispatch s script = .ok (s', ran)) :
    ∃ fs exit, Dispatches s script s' fs exit ∧ ran = fs.map fun f => (f.timer, f.now) := by
  rcases timerDispatch_cases h script with hu | ⟨s'', fs, exit, hd, hs''⟩
  · rw [hu] at hc
    cases hc
  · rw [hs''] at hc
    cases hc
    exact ⟨fs, exit, hd, rfl⟩

theorem Dispatches.wellFormed {script : List (Iteration ι κ)} {fs : List (Firing ι κ)}
    {exit : Option ℕ} (hd : Dispatches s script s' fs exit) (h : WellFormed s) : WellFormed s' := by
  induction hd with
  | empty _ => exact h.setBackend _
  | early _ _ => exact h.setBackend _
  | fire _ _ hcalls _ ih => exact ih (runCalls_wellFormed (h.removed _) hcalls)

/-- A dispatch that ends is free of faults and keeps the invariant. -/
theorem timerDispatch_spec (h : WellFormed s) (script : List (Iteration ι κ)) :
    timerDispatch s script = .error .unfinished ∨
    ∃ s' ran, timerDispatch s script = .ok (s', ran) ∧ WellFormed s' := by
  rcases timerDispatch_cases h script with hu | ⟨s', fs, exit, hd, hs'⟩
  · exact Or.inl hu
  · exact Or.inr ⟨s', _, hs', hd.wellFormed h⟩

end TomatOS.Time
