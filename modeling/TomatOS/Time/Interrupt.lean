import TomatOS.Foundation.Transition
import TomatOS.Time.Timer

/-! Timer interrupts during `timer_cancel` and `timer_set`. Both are called with
interrupts on and turn them off only for their accesses to the tree, while the
back pointer is loaded and cleared before that. A call is cut at every point
where an interrupt may be taken. On an armed timer it always passes through a
point at which the back pointer is gone and the node still in the tree. -/

namespace TomatOS.Time

open Foundation Foundation.Transition

variable {ι κ : Type} [DecidableEq ι]

def Call.timer : Call ι κ → ι
  | .set timer _ _ => timer
  | .cancel timer => timer

/-- The points of a call with interrupts on. `timer_set` goes through those of
`timer_cancel` first. -/
inductive Pc where
  | start
  /-- The back pointer has been loaded and is not null. -/
  | loaded
  /-- The back pointer has been cleared, the node not yet erased. -/
  | cleared
  | cancelled
  | done
  deriving DecidableEq, Repr

structure Execution (ι κ : Type) where
  core : TimerState ι κ
  pc : Pc

inductive Event (ι κ : Type) where
  | resume
  | interrupt (script : List (Iteration ι κ))

/-- The handler runs with interrupts off, callbacks included. -/
def interrupt (s : TimerState ι κ) (script : List (Iteration ι κ)) : Result (TimerState ι κ) := do
  let (s, _) ← timerDispatch s script
  return s

def Call.step (c : Call ι κ) (m : Execution ι κ) : Event ι κ → Result (Execution ι κ)
  | .resume =>
    match m.pc with
    | .start => .ok ⟨m.core, if m.core.timers c.timer then .loaded else .cancelled⟩
    | .loaded => .ok ⟨m.core.disarm c.timer, .cleared⟩
    | .cleared => do
      let core ← m.core.cancelErase c.timer
      return ⟨core, .cancelled⟩
    | .cancelled =>
      match c with
      | .cancel _ => .ok ⟨m.core, .done⟩
      | .set timer callback deadline => do
        let core ← m.core.setAdd timer callback deadline
        return ⟨core, .done⟩
    | .done => .ok m
  | .interrupt script => do
    let core ← interrupt m.core script
    return ⟨core, m.pc⟩

/-- The interrupts that may arrive, by what their dispatches do. -/
def Allowed (A : Set (List (Iteration ι κ))) (_ : Execution ι κ) : Event ι κ → Prop
  | .resume => True
  | .interrupt script => script ∈ A

/-- Whatever interrupts arrive, the back pointers say which nodes are in the
tree at every point with interrupts on, and no next step fails the assertion of
the dispatch or erases an absent node. -/
def Safe (A : Set (List (Iteration ι κ))) (s : TimerState ι κ) (c : Call ι κ) : Prop :=
  ∀ m, Reaches c.step (Allowed A) ⟨s, .start⟩ m →
    (∀ t, m.core.timers t = true ↔ t ∈ m.core.tree) ∧
    ∀ e, Allowed A m e → c.step m e ≠ .error .assertion ∧ c.step m e ≠ .error .corruptTree

/-- No interrupts that arrive before the call loads the back pointer of `t`
leave the timer armed; in particular it is not armed at the call. -/
def StaysUnarmed (A : Set (List (Iteration ι κ))) (s : TimerState ι κ) (t : ι) : Prop :=
  ∀ s', Reaches interrupt (fun _ script => script ∈ A) s s' → s'.timers t = false

def NeverArms (t : ι) (script : List (Iteration ι κ)) : Prop :=
  ∀ it ∈ script, ∀ callback deadline, Call.set t callback deadline ∉ it.calls

variable {A : Set (List (Iteration ι κ))} {s s' : TimerState ι κ} {c : Call ι κ}

/-! ### Interrupts from a well-formed state -/

theorem interrupt_cases (h : WellFormed s) (script : List (Iteration ι κ)) :
    interrupt s script = .error .unfinished ∨
    ∃ s', interrupt s script = .ok s' ∧ WellFormed s' := by
  rcases timerDispatch_spec h script with hu | ⟨s', ran, hs', hwf⟩
  · exact Or.inl (by simp only [interrupt, hu, bind, Except.bind])
  · exact Or.inr ⟨s', by simp only [interrupt, hs', bind, Except.bind, pure, Except.pure], hwf⟩

theorem interrupt_wellFormed (h : WellFormed s) {script : List (Iteration ι κ)}
    (hi : interrupt s script = .ok s') : WellFormed s' := by
  rcases interrupt_cases h script with hu | ⟨s'', hs'', hwf⟩
  · rw [hu] at hi
    cases hi
  · rw [hs''] at hi
    exact Except.ok.inj hi ▸ hwf

theorem call_mem_tree (h : WellFormed s) (hc : c.run s = .ok s') {t : ι} (ht : t ∈ s'.tree) :
    t ∈ s.tree ∨ ∃ callback deadline, c = .set t callback deadline := by
  obtain ⟨s₁, h₁, hwf₁, htree, -, -⟩ := timerCancel_spec h c.timer
  cases c with
  | cancel u =>
    obtain rfl := Except.ok.inj (h₁.symm.trans hc)
    rw [htree] at ht
    exact Or.inl (List.mem_of_mem_erase ht)
  | set u callback deadline =>
    simp only [Call.timer] at h₁ htree
    have hn : u ∉ s₁.tree := by
      rw [htree]
      exact h.nodup.not_mem_erase
    obtain ⟨s₂, h₂, -, -, htree₂, -⟩ := setAdd_spec hwf₁ hn callback deadline
    simp only [Call.run, TimerState.timerSet, h₁, bind, Except.bind, h₂] at hc
    obtain rfl := Except.ok.inj hc
    rw [htree₂, CachedTree.mem_insert, htree] at ht
    rcases ht with rfl | ht
    · exact Or.inr ⟨callback, deadline, rfl⟩
    · exact Or.inl (List.mem_of_mem_erase ht)

theorem runCalls_mem_tree (h : WellFormed s) {calls : List (Call ι κ)}
    (hc : runCalls s calls = .ok s') {t : ι} (ht : t ∈ s'.tree) :
    t ∈ s.tree ∨ ∃ callback deadline, Call.set t callback deadline ∈ calls := by
  induction calls generalizing s with
  | nil => exact Or.inl (Except.ok.inj hc ▸ ht)
  | cons c calls ih =>
    obtain ⟨s₁, h₁, hwf₁⟩ := c.run_spec h
    rw [runCalls, List.foldlM_cons, h₁] at hc
    rcases ih hwf₁ hc with hin | ⟨callback, deadline, hin⟩
    · rcases call_mem_tree h h₁ hin with hin | ⟨callback, deadline, rfl⟩
      · exact Or.inl hin
      · exact Or.inr ⟨callback, deadline, List.mem_cons_self⟩
    · exact Or.inr ⟨callback, deadline, List.mem_cons_of_mem c hin⟩

theorem dispatch_mem_tree (h : WellFormed s) {script : List (Iteration ι κ)} {ran : List (ι × ℕ)}
    (hc : timerDispatch s script = .ok (s', ran)) {t : ι} (hA : NeverArms t script)
    (ht : t ∈ s'.tree) : t ∈ s.tree := by
  obtain ⟨fs, exit, hd, -⟩ := timerDispatch_dispatches h hc
  clear hc
  induction hd with
  | empty _ => exact ht
  | early _ _ => exact ht
  | @fire s s₁ s' it script timer fs exit _ _ hcalls hd ih =>
    have hin := ih (runCalls_wellFormed (h.removed timer) hcalls) (fun it' h' => hA it' (List.mem_cons_of_mem it h')) ht
    rcases runCalls_mem_tree (h.removed timer) hcalls hin with hin | ⟨callback, deadline, hin⟩
    · exact List.mem_of_mem_erase hin
    · exact absurd hin (hA it List.mem_cons_self callback deadline)

theorem interrupts_wellFormed (h : WellFormed s)
    (hr : Reaches interrupt (fun _ script => script ∈ A) s s') : WellFormed s' :=
  hr.invariant h fun _ _ _ hu _ hv => interrupt_wellFormed hu hv

/-- When no callback arms the timer, it is enough that the call finds it unarmed. -/
theorem staysUnarmed_iff (h : WellFormed s) {t : ι} (hA : ∀ script ∈ A, NeverArms t script) :
    StaysUnarmed A s t ↔ s.timers t = false := by
  constructor
  · exact fun hs => hs s (Reaches.refl s)
  · intro hs s' hr
    have hinv : WellFormed s' ∧ t ∉ s'.tree := by
      apply hr.invariant (motive := fun u => WellFormed u ∧ t ∉ u.tree)
      · refine ⟨h, fun hin => ?_⟩
        simp [(h.armed t).mpr hin] at hs
      · intro u script v hu hscript hv
        refine ⟨interrupt_wellFormed hu.1 hv, fun hin => hu.2 ?_⟩
        simp only [interrupt, bind, Except.bind] at hv
        split at hv
        · cases hv
        · rename_i w hw
          obtain rfl := Except.ok.inj hv
          exact dispatch_mem_tree hu.1 hw (hA script hscript) hin
    exact Bool.eq_false_iff.mpr fun ha => hinv.2 ((hinv.1.armed t).mp ha)

/-! ### The call -/

/-- What holds at each point of a call whose timer stays unarmed. -/
def Quiet (A : Set (List (Iteration ι κ))) (s : TimerState ι κ) (m : Execution ι κ) : Prop :=
  WellFormed m.core ∧ (m.pc = .done ∨ (m.pc = .start ∨ m.pc = .cancelled) ∧
    Reaches interrupt (fun _ script => script ∈ A) s m.core)

/-- A step from such a point leads to such a point, unless the dispatch of an
interrupt goes on. -/
theorem Quiet.step (hs : StaysUnarmed A s c.timer) {m : Execution ι κ} (h : Quiet A s m)
    {e : Event ι κ} (he : Allowed A m e) :
    c.step m e = .error .unfinished ∨ ∃ m', c.step m e = .ok m' ∧ Quiet A s m' := by
  obtain ⟨core, pc⟩ := m
  obtain ⟨hwf, hpc⟩ := h
  cases e with
  | interrupt script =>
    rcases interrupt_cases hwf script with hu | ⟨core', hcore', hwf'⟩
    · exact Or.inl (by simp only [Call.step, hu, bind, Except.bind])
    · refine Or.inr ⟨⟨core', pc⟩, by simp only [Call.step, hcore', bind, Except.bind, pure,
        Except.pure], hwf', hpc.imp_right ?_⟩
      exact And.imp_right fun hr => hr.snoc script he hcore'
  | resume =>
    right
    simp only at hpc
    rcases hpc with rfl | ⟨rfl | rfl, hr⟩
    · exact ⟨_, rfl, hwf, Or.inl rfl⟩
    · refine ⟨⟨core, .cancelled⟩, ?_, hwf, Or.inr ⟨Or.inr rfl, hr⟩⟩
      simp only [Call.step, hs core hr]
      rfl
    · cases c with
      | cancel t => exact ⟨_, rfl, hwf, Or.inl rfl⟩
      | set t callback deadline =>
        have hn : t ∉ core.tree := by
          intro hin
          have := hs core hr
          rw [Call.timer, (hwf.armed t).mpr hin] at this
          cases this
        obtain ⟨core', hcore', hwf', -⟩ := setAdd_spec hwf hn callback deadline
        exact ⟨⟨core', .done⟩, by simp only [Call.step, hcore', bind, Except.bind, pure,
          Except.pure], hwf', Or.inl rfl⟩

theorem safe_of_staysUnarmed (h : WellFormed s) (hs : StaysUnarmed A s c.timer) : Safe A s c := by
  intro m hm
  have hq : Quiet A s m := by
    apply hm.invariant (motive := Quiet A s)
    · exact ⟨h, Or.inr ⟨Or.inl rfl, Reaches.refl s⟩⟩
    · intro u e v hu he hv
      rcases hu.step hs he with hf | ⟨m', hm', hq⟩
      · rw [hf] at hv
        cases hv
      · rw [hm'] at hv
        exact Except.ok.inj hv ▸ hq
  refine ⟨hq.1.armed, fun e he => ?_⟩
  rcases hq.step hs he with hf | ⟨m', hm', -⟩
  · rw [hf]
    simp
  · rw [hm']
    simp

theorem reaches_start (hr : Reaches interrupt (fun _ script => script ∈ A) s s') :
    Reaches c.step (Allowed A) ⟨s, .start⟩ ⟨s', .start⟩ := by
  apply hr.invariant (motive := fun u => Reaches c.step (Allowed A) ⟨s, .start⟩ ⟨u, .start⟩)
  · exact Reaches.refl _
  · intro u script v hu hscript hv
    apply hu.snoc (.interrupt script) hscript
    simp only [Call.step, hv, bind, Except.bind, pure, Except.pure]

/-- Two instructions after the call has found the timer armed, its back pointer
is null and its node is in the tree. -/
theorem armed_reaches_cleared (ha : s'.timers c.timer = true)
    (hr : Reaches interrupt (fun _ script => script ∈ A) s s') :
    Reaches c.step (Allowed A) ⟨s, .start⟩ ⟨s'.disarm c.timer, .cleared⟩ := by
  have hstart : Reaches c.step (Allowed A) ⟨s, .start⟩ ⟨s', .start⟩ := reaches_start hr
  have hloaded : Reaches c.step (Allowed A) ⟨s, .start⟩ ⟨s', .loaded⟩ := by
    apply hstart.snoc .resume trivial
    simp only [Call.step, ha, ↓reduceIte]
  exact hloaded.snoc .resume trivial rfl

/-- The call with no interrupt is the call of the sequential model. -/
theorem uninterrupted (h : c.run s = .ok s') :
    Reaches c.step (Allowed ∅) ⟨s, .start⟩ ⟨s', .done⟩ := by
  have hcancel : ∀ s₁, s.timerCancel c.timer = .ok s₁ →
      Reaches c.step (Allowed ∅) ⟨s, .start⟩ ⟨s₁, .cancelled⟩ := by
    intro s₁ h₁
    by_cases ha : s.timers c.timer = true
    · simp only [TimerState.timerCancel, ha, ↓reduceIte] at h₁
      apply (armed_reaches_cleared ha (Reaches.refl s)).snoc .resume trivial
      simp only [Call.step, h₁, bind, Except.bind, pure, Except.pure]
    · simp only [TimerState.timerCancel, ha] at h₁
      obtain rfl := Except.ok.inj h₁
      apply (Reaches.refl _).snoc .resume trivial
      simp only [Call.step, ha]
      rfl
  cases c with
  | cancel t => exact (hcancel s' h).snoc .resume trivial rfl
  | set t callback deadline =>
    simp only [Call.run, TimerState.timerSet, bind, Except.bind] at h
    split at h
    · cases h
    · rename_i s₁ h₁
      apply (hcancel s₁ h₁).snoc .resume trivial
      simp only [Call.step, h, bind, Except.bind, pure, Except.pure]

/-- A call is safe against interrupts exactly when its timer is unarmed and no
interrupt that comes before the load arms it. -/
theorem call_safe_iff (A : Set (List (Iteration ι κ))) (s : TimerState ι κ) (h : WellFormed s)
    (c : Call ι κ) :
    (Safe A s c ↔ StaysUnarmed A s c.timer) ∧
    ((∀ script ∈ A, NeverArms c.timer script) → (Safe A s c ↔ s.timers c.timer = false)) := by
  have hiff : Safe A s c ↔ StaysUnarmed A s c.timer := by
    refine ⟨fun hsafe s' hr => ?_, safe_of_staysUnarmed h⟩
    by_contra ha
    rw [Bool.not_eq_false] at ha
    have hin : c.timer ∈ s'.tree := ((interrupts_wellFormed h hr).armed _).mp ha
    have hback := ((hsafe _ (armed_reaches_cleared ha hr)).1 c.timer).mpr hin
    simp [TimerState.disarm] at hback
  exact ⟨hiff, fun hA => hiff.trans (staysUnarmed_iff h hA)⟩

/-- Timer 1 is armed and expires at 5. -/
def oneArmed : TimerState ℕ Unit where
  tree := [1]
  timers := fun t => t == 1
  deadline := fun _ => 5
  callback := fun _ => ()
  backend := .setDeadline 5

theorem oneArmed_wellFormed : WellFormed oneArmed :=
  ⟨by decide, by simp [CachedTree.Sorted, oneArmed], fun t => by simp [oneArmed]⟩

theorem set_other_safe :
    WellFormed oneArmed ∧
    Safe { script | NeverArms 0 script } oneArmed (.set 0 () 10) :=
  ⟨oneArmed_wellFormed,
    ((call_safe_iff { script | NeverArms 0 script } oneArmed oneArmed_wellFormed
      (.set 0 () 10)).2 fun _ h => h).mpr rfl⟩

/-- Cancelling the armed timer: the expiry between clearing the back pointer and
turning interrupts off fails the assertion of the dispatch, and the expiry just
after the load of the back pointer makes the call erase an absent node. -/
theorem cancel_armed_unsafe :
    WellFormed oneArmed ∧ ¬ Safe Set.univ oneArmed (.cancel 1) ∧
    (∃ m, Reaches (Call.cancel 1).step (Allowed Set.univ) ⟨oneArmed, .start⟩ m ∧
      (Call.cancel 1).step m (.interrupt [⟨5, []⟩]) = .error .assertion) ∧
    ∃ m, Reaches (Call.cancel 1).step (Allowed Set.univ) ⟨oneArmed, .start⟩ m ∧
      (Call.cancel 1).step m .resume = .error .corruptTree := by
  have hcleared : Reaches (Call.cancel 1).step (Allowed Set.univ) ⟨oneArmed, .start⟩
      ⟨oneArmed.disarm 1, .cleared⟩ := by
    exact armed_reaches_cleared rfl (Reaches.refl oneArmed)
  have hassert : (Call.cancel 1).step ⟨oneArmed.disarm 1, .cleared⟩ (.interrupt [⟨5, []⟩]) =
      .error .assertion := rfl
  refine ⟨oneArmed_wellFormed, fun hsafe => ?_, ⟨_, hcleared, hassert⟩, ?_⟩
  · exact ((hsafe _ hcleared).2 (.interrupt [⟨5, []⟩]) trivial).1 hassert
  · have hstart : Reaches (Call.cancel 1).step (Allowed Set.univ) ⟨oneArmed, .start⟩
        ⟨oneArmed, .start⟩ := Reaches.refl _
    have hloaded := hstart.snoc .resume trivial rfl
    have hexpired := hloaded.snoc (.interrupt [⟨5, []⟩, ⟨5, []⟩]) trivial rfl
    exact ⟨_, hexpired.snoc .resume trivial rfl, rfl⟩

end TomatOS.Time
