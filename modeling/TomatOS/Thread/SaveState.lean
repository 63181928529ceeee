import TomatOS.Thread.Ownership

/-! Saving the registers of a thread that parks. The core that parks a thread makes
it waiting first and saves its extended state after that, so another core that wakes
the thread in between may resume it with the old registers and have them overwritten
while it runs. That exchange is the only way: as long as no other core makes it in
that window, no core resumes or executes a thread that is still to be saved. -/

namespace TomatOS.Thread

open Foundation Foundation.Transition

variable {v v' : View}

/-! ### Statuses -/

/-- The thread that the next step of a core tries to take from waiting to runnable. -/
def Core.wakes (core : Core) : Choice → Option ℕ
  | .next =>
    match core.context with
    | ⟨.wakeupSwitch t :: _, _⟩ => some t
    | ⟨[], .restartSwitch t⟩ => some t
    | _ => none
  | _ => none

/-- The ways in which a step changes the status of a thread. -/
inductive StatusChange (v v' : View) (choice : Choice) (t : ℕ) : Prop
  | kept : v'.pool.status t = v.pool.status t → StatusChange v v' choice t
  | woken : v.core.wakes choice = some t → v.pool.status t = .waiting →
      v'.pool.status t = .runnable → StatusChange v v' choice t
  | left (f : Internal) : v.core.context = ⟨[], .leaveSwitch f t⟩ → v.pool.status t = .running →
      v'.pool.status t = View.leaveStatus f → StatusChange v v' choice t
  | executed : v.core.context = ⟨[], .executeSwitch t⟩ → v.pool.status t = .runnable →
      v'.pool.status t = .running → StatusChange v v' choice t
  | freed : v.core.context = ⟨[], .threadFree t⟩ → StatusChange v v' choice t
  | created : v.pool.status t = .idle → StatusChange v v' choice t

theorem StatusChange.of_exchange {choice : Choice} {t u : ℕ} {new : Status}
    (hpool : v'.pool = v.pool.setStatus u new)
    (h : v'.pool.status u = new → StatusChange v v' choice u) : StatusChange v v' choice t := by
  by_cases hu : t = u
  · subst hu
    exact h (by simp [hpool])
  · exact .kept (by simp [hpool, hu])

theorem FrameStep.status (hp : v.pool.Spare) {frame : Frame} {rest : List Frame}
    (hframes : v.core.context.frames = frame :: rest) (hs : FrameStep v rest frame v') (t : ℕ) :
    StatusChange v v' .next t := by
  cases hs with
  | wakeupSwitch u hst =>
    refine .of_exchange rfl fun hst' => .woken ?_ hst hst'
    rw [Core.wakes, show v.core.context = ⟨.wakeupSwitch u :: rest, v.core.context.base⟩ by
      rw [← hframes]]
  | create name u pool hc =>
    obtain ⟨-, hidle, hst⟩ := hp.threadCreate hc
    by_cases hu : t = u
    · subst hu
      exact .created hidle
    · exact .kept (by simp [View.setFrames, hst, hu])
  | _ => exact .kept rfl

theorem BaseStep.status {base : Base} (hctx : v.core.context = ⟨[], base⟩)
    (hs : BaseStep v base v') (t : ℕ) : StatusChange v v' .next t := by
  cases hs with
  | leaveSwitch f u hst => exact .of_exchange rfl fun hst' => .left f hctx hst hst'
  | restartSwitch u hst =>
    refine .of_exchange rfl fun hst' => .woken ?_ hst hst'
    rw [Core.wakes, hctx]
  | executeSwitch u hst => exact .of_exchange rfl fun hst' => .executed hctx hst hst'
  | threadFree u =>
    by_cases hu : t = u
    · subst hu
      exact .freed hctx
    · exact .kept (by simp [View.setBase, hu])
  | _ => exact .kept rfl

theorem Step.status (hp : v.pool.Spare) {choice : Choice} (hs : Step v choice v') (t : ℕ) :
    StatusChange v v' choice t := by
  cases hs with
  | interrupt => exact .kept rfl
  | frame hframes hs => exact hs.status hp hframes t
  | base hctx hs => exact hs.status hctx t
  | op hctx hs => cases hs <;> exact .kept rfl
  | callback => exact .kept rfl

/-! ### Entering the window -/

/-- The code at the bottom comes to the saving of a parked thread only from the exchange
that makes the thread waiting. -/
theorem Step.enters (h : v.Sound) {choice : Choice} (hs : Step v choice v') {t : ℕ}
    (hb : v'.core.context.base = .saveExtended (.park t)) :
    v.core.context.base = .saveExtended (.park t) ∨ v'.pool.status t = .waiting := by
  cases hs with
  | interrupt => exact .inl hb
  | frame hframes hs =>
    rcases hs.base with hbase | ⟨f, hbase⟩
    · exact .inl (hbase ▸ hb)
    · rw [hbase] at hb
      cases hb
  | base hctx hs =>
    cases hs with
    | halt => exact .inl hb
    | spin => exact .inl hb
    | leaveSwitch f u =>
      cases f with
      | park =>
        cases hb
        exact .inr (by simp [View.setBase, View.leaveStatus])
      | yield => cases hb
      | exit => cases hb
    | clearCurrent k => cases k <;> cases hb
    | resume u =>
      have hthread := (h.saved u).thread
      rw [show (v.saved u).base = .saveExtended (.park t) from hb] at hthread
      cases hthread
    | _ => cases hb
  | op hctx hs =>
    cases hs with
    | halt => exact .inl hb
    | call => exact .inl hb
    | bootCall => exact .inl hb
    | _ => cases hb
  | callback => cases hb

/-! ### Every run of every number of cores -/

variable {κ : Type} [DecidableEq κ] [Fintype κ]

def Drop.thread : Drop → ℕ
  | .yield t => t
  | .park t => t
  | .exit t => t

/-- While a core is still to save a thread, no core is about to resume the thread or
executes it. -/
def Machine.SavedFirst (s : Machine κ) : Prop :=
  ∀ a k, (s.cores a).context.base = .saveExtended k → ∀ b,
    (s.cores b).context.base ≠ .resume k.thread ∧ ¬ (s.cores b).Executes k.thread

/-- The step makes no thread runnable that another core has parked and is still to
save. -/
def Patient (s : Machine κ) (e : Event κ) : Prop :=
  ∀ t, (s.cores e.core).wakes e.choice = some t →
    ∀ a, a ≠ e.core → (s.cores a).context.base ≠ .saveExtended (.park t)

/-- A parked thread that is still to be saved is waiting, or the core that parked it has
made it runnable and keeps it. -/
def Machine.Guarded (s : Machine κ) : Prop :=
  ∀ a t, (s.cores a).context.base = .saveExtended (.park t) →
    s.pool.status t = .waiting ∨ 0 < (s.cores a).owned .runnable t

omit [DecidableEq κ] [Fintype κ] in
theorem initial_guarded : (Machine.initial : Machine κ).Guarded := by
  intro a t hb
  cases hb

theorem owned_threadFree {core : Core} {t : ℕ} (h : core.context = ⟨[], .threadFree t⟩) :
    0 < core.owned .dead t := by
  rw [owned_of_nil h]
  simp [Base.ownsCount, Base.owns]

theorem guarded_self (h : v.Sound) (hp : v.pool.Spare)
    (hback : ∀ st, st.Owned → ∀ t, 0 < v.core.owned st t → v.pool.status t = st)
    {choice : Choice} (hv : Step v choice v') {t : ℕ}
    (hg : v.core.context.base = .saveExtended (.park t) →
      v.pool.status t = .waiting ∨ 0 < v.core.owned .runnable t)
    (hb : v'.core.context.base = .saveExtended (.park t)) :
    v'.pool.status t = .waiting ∨ 0 < v'.core.owned .runnable t := by
  have hrunnable : Status.Owned .runnable := .inl rfl
  rcases hv.enters h hb with hbase | hwaiting
  swap
  · exact .inl hwaiting
  have hbal := (hv.keeps h hp hback).balanced .runnable hrunnable t
  have hold := hg hbase
  cases hv.status hp t with
  | kept heq =>
    rcases hold with hw | hown
    · exact .inl (heq.trans hw)
    · right
      simp only [Pool.has, heq] at hbal
      omega
  | woken _ hst hst' =>
    right
    simp only [Pool.has, hst, hst', ↓reduceIte, reduceCtorEq] at hbal
    omega
  | left f hctx => simp [hctx] at hbase
  | executed hctx => simp [hctx] at hbase
  | freed hctx => simp [hctx] at hbase
  | created hidle =>
    rcases hold with hw | hown
    · rw [hw] at hidle
      cases hidle
    · rw [hback .runnable hrunnable t hown] at hidle
      cases hidle

theorem step_guarded {s s' : Machine κ} (hacc : s.Accounted) (hg : s.Guarded) {e : Event κ}
    (he : Patient s e) (hs : s.step e = .ok s') : s'.Guarded := by
  obtain ⟨-, v, hv, rfl⟩ := Machine.step_cases hs
  have hback : ∀ st, st.Owned → ∀ t, 0 < (s.cores e.core).owned st t → s.pool.status t = st :=
    fun _ hst _ => hacc.status hst
  intro a t hb
  by_cases ha : a = e.core
  · subst ha
    simp only [Function.update_self] at hb ⊢
    exact guarded_self (hacc.sound.view e.core) hacc.spare hback hv (hg e.core t) hb
  · simp only [Function.update_of_ne ha] at hb ⊢
    rcases hg a t hb with hw | hown
    swap
    · exact .inr hown
    left
    have hw' : (s.view e.core).pool.status t = .waiting := hw
    cases hv.status hacc.spare t with
    | kept heq => exact heq.trans hw
    | woken hwakes => exact absurd hb (he t hwakes a ha)
    | left f _ hst =>
      rw [hw'] at hst
      cases hst
    | executed _ hst =>
      rw [hw'] at hst
      cases hst
    | freed hctx =>
      have hdead := hback .dead (.inr (.inr rfl)) t (owned_threadFree hctx)
      rw [hw] at hdead
      cases hdead
    | created hidle =>
      rw [hw'] at hidle
      cases hidle

/-- A core that is about to resume a thread or executes it owns it as running. -/
theorem owned_running {core : Core} {t : ℕ}
    (h : core.context.base = .resume t ∨ core.Executes t) : 0 < core.owned .running t := by
  have howns : core.context.base.owns core.current = some (.running, t) := by
    rcases h with h | h
    · rw [h]
      rfl
    · exact Base.owns_of_thread h core.current
  simp [Core.owned, Base.ownsCount, howns]

omit [DecidableEq κ] in
theorem Machine.Guarded.savedFirst {s : Machine κ} (hacc : s.Accounted) (hg : s.Guarded) :
    s.SavedFirst := by
  intro a k hbase b
  have hne : s.pool.status k.thread ≠ .running := by
    have howned : ∀ st, st.Owned → (s.cores a).context.base.owns (s.cores a).current =
        some (st, k.thread) → s.pool.status k.thread = st := by
      intro st hst howns
      apply hacc.status hst (c := a)
      simp [Core.owned, Base.ownsCount, howns]
    cases k with
    | yield t =>
      rw [howned .runnable (.inl rfl) (by rw [hbase]; rfl)]
      decide
    | exit t =>
      rw [howned .dead (.inr (.inr rfl)) (by rw [hbase]; rfl)]
      decide
    | park t =>
      rcases hg a t hbase with hw | hown
      · rw [show s.pool.status (Drop.park t).thread = .waiting from hw]
        decide
      · rw [show s.pool.status (Drop.park t).thread = .runnable from hacc.status (.inl rfl) hown]
        decide
  constructor
  · intro hb
    exact hne (hacc.status (.inr (.inl rfl)) (owned_running (.inl hb)))
  · intro hb
    exact hne (hacc.status (.inr (.inl rfl)) (owned_running (.inr hb)))

/-- In every run in which no core wakes a thread that another core has parked and not
saved yet, a thread is resumed only after its state was saved and its state is not
written after that. -/
theorem saved_before_resume (s : Machine κ)
    (h : Reaches Machine.step Patient Machine.initial s) : s.SavedFirst := by
  have hinv : s.Accounted ∧ s.Guarded := by
    apply h.invariant (motive := fun s => s.Accounted ∧ s.Guarded)
    · exact ⟨initial_accounted, initial_guarded⟩
    · intro u e w hu he hw
      exact ⟨step_accounted hu.1 hw, step_guarded hu.1 hu.2 he hw⟩
  exact hinv.2.savedFirst hinv.1

instance (s : Machine κ) (e : Event κ) : Decidable (Patient s e) :=
  decidable_of_iff (∀ t ∈ (s.cores e.core).wakes e.choice,
    ∀ a, a ≠ e.core → (s.cores a).context.base ≠ .saveExtended (.park t)) Iff.rfl

/-- A thread starts and parks, up to the saving of its registers. -/
def parkThread : List Choice := startThread ++ [.op (.park false)] ++ List.replicate 6 .next

/-- The boot code of a core wakes the thread, and the core comes to execute it. -/
def wakeThread : List Choice :=
  [.op (.wakeup 0)] ++ List.replicate 11 .next ++ [.op .start] ++ List.replicate 7 .next

/-- When core 1 wakes the thread behind the saving, it executes the thread and core 0 is
through with it. -/
theorem saved_before_wake :
    ∃ s : Machine (Fin 2), Reaches Machine.step Patient Machine.initial s ∧
      (s.cores 1).Executes 0 ∧ (s.cores 0).context.base ≠ .saveExtended (.park 0) := by
  have hrun : leadsTo Machine.step (fun s e => decide (Patient s e))
      (fun s : Machine (Fin 2) => decide ((s.cores 1).Executes 0)) Machine.initial
      ((parkThread ++ [Choice.next]).map (Event.mk 0) ++ wakeThread.map (Event.mk 1)) = true := by
    decide +kernel
  obtain ⟨s, hs, hexec⟩ := reaches_of_leadsTo (fun (s : Machine (Fin 2)) e => Patient s e)
    (by simp) hrun
  rw [decide_eq_true_eq] at hexec
  refine ⟨s, hs, hexec, ?_⟩
  intro hbase
  exact (saved_before_resume s hs 0 (.park 0) hbase 1).2 hexec

/-- When it comes before, core 1 executes the thread and core 0 is still to save it. -/
theorem wake_before_save :
    ¬ ∀ s : Machine (Fin 2), Reaches Machine.step (fun _ _ => True) Machine.initial s →
      s.SavedFirst := by
  intro h
  have hrun : leadsTo Machine.step (fun _ _ => true)
      (fun s : Machine (Fin 2) => decide ((s.cores 0).context.base = .saveExtended (.park 0) ∧
        (s.cores 1).Executes 0)) Machine.initial
      (parkThread.map (Event.mk 0) ++ wakeThread.map (Event.mk 1)) = true := by decide +kernel
  obtain ⟨s, hs, hbad⟩ := reaches_of_leadsTo (fun _ _ => True) (by simp) hrun
  rw [decide_eq_true_eq] at hbad
  exact (h s hs 0 (.park 0) hbad.1 1).2 hbad.2

end TomatOS.Thread
