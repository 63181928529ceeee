import TomatOS.Foundation.Transition
import TomatOS.Thread.PreemptCount

/-! Reschedule requests and `scheduler_preempt_enable`. A request made while the
count is not zero is remembered in `want_reschedule`, and the outermost enable is
to act on it. It reads the flag before it stores the count, with interrupts on, so
a request that comes between the two is left behind with a count of zero. It is
the only way: when no interrupt with a request comes there, the flag is never set
while the count is zero. -/

namespace TomatOS.Thread

open Foundation Foundation.Transition

/-- An enable that has read the flag, if it had to, and not yet stored the count. -/
def Frame.decided : Frame → Bool
  | .decrement => true
  | .decrementStore _ => true
  | _ => false

/-- An outermost enable is past its reading of the flag. -/
def Window (base : Base) : List Frame → Prop
  | [] => False
  | frame :: rest => frame.decided = true ∧ heldBy base rest = 0 ∨ Window base rest

/-- Frames of an interrupt whose callbacks make no request. -/
def Frame.quiet : Frame → Bool
  | .disable (.interrupt []) => true
  | .disableStore (.interrupt []) _ => true
  | .dispatch [] => true
  | .enable => true
  | .enableWant => true
  | .decrement => true
  | .decrementStore _ => true
  | .assertCount => true
  | .iret => true
  | _ => false

/-- Nothing runs on top of such an enable that could make a request. -/
def Calm (base : Base) : List Frame → Prop
  | [] => True
  | frame :: rest => (Window base rest → frame.quiet = true) ∧ Calm base rest

/-- A request is remembered only where an enable will still look at it. -/
structure Core.Heeds (core : Core) : Prop where
  want : core.wantReschedule = true →
    core.preemptCount ≠ 0 ∧ ¬ Window core.context.base core.context.frames
  calm : Calm core.context.base core.context.frames

variable {v v' : View}

theorem window_held {base : Base} {frames : List Frame} (h : Window base frames) :
    heldBy base frames ≠ 0 := by
  induction frames with
  | nil => exact h.elim
  | cons frame rest ih =>
    simp only [heldBy]
    rcases h with ⟨hd, -⟩ | h
    · cases frame <;> simp_all [Frame.decided, Frame.weight]
    · have := ih h
      omega

theorem not_window_of_held {base : Base} {frames : List Frame} (h : heldBy base frames = 0) :
    ¬ Window base frames := fun hw => window_held hw h

theorem calm_of_not_window {base : Base} {frames : List Frame} (h : ¬ Window base frames) :
    Calm base frames := by
  induction frames with
  | nil => trivial
  | cons frame rest ih =>
    have hrest : ¬ Window base rest := fun hw => h (Or.inr hw)
    exact ⟨fun hw => absurd hw hrest, ih hrest⟩

theorem not_window_cons {base : Base} {frame : Frame} {rest : List Frame}
    (hd : frame.decided = false) (h : ¬ Window base rest) : ¬ Window base (frame :: rest) := by
  rintro (⟨hd', -⟩ | hw)
  · rw [hd] at hd'
    cases hd'
  · exact h hw

theorem Core.Heeds.halt (h : v.core.Heeds) : v.halt.core.Heeds := ⟨h.want, h.calm⟩

/-- No enable is past its reading of the flag. -/
theorem Core.Heeds.of_not_window {core : Core} {frames : List Frame} {base : Base}
    (hctx : core.context = ⟨frames, base⟩) (hwin : ¬ Window base frames)
    (hw : core.wantReschedule = true → core.preemptCount ≠ 0) : core.Heeds := by
  refine ⟨fun h => ⟨hw h, ?_⟩, ?_⟩
  · rwa [hctx]
  · rw [hctx]
    exact calm_of_not_window hwin

/-- One frame on top of others is replaced by another. -/
theorem Core.Heeds.of_cons {core : Core} {frame : Frame} {rest : List Frame} {base : Base}
    (hctx : core.context = ⟨frame :: rest, base⟩) (hcalm : Calm base rest)
    (hquiet : Window base rest → frame.quiet = true)
    (hw : core.wantReschedule = true → core.preemptCount ≠ 0 ∧ ¬ Window base rest ∧
      (frame.decided = true → heldBy base rest ≠ 0)) : core.Heeds := by
  refine ⟨fun h => ⟨(hw h).1, ?_⟩, ?_⟩
  · rw [hctx]
    rintro (⟨hd, hz⟩ | hwin)
    · exact (hw h).2.2 hd hz
    · exact (hw h).2.1 hwin
  · rw [hctx]
    exact ⟨hquiet, hcalm⟩

theorem FrameStep.heeds (h : v.Sound) (hh : v.core.Heeds) {frame : Frame} {rest : List Frame}
    (hframes : v.core.context.frames = frame :: rest) (hs : FrameStep v rest frame v') :
    v'.core.Heeds := by
  have hcount := h.count_frame hframes
  have hfit := h.fits_frame hframes
  obtain ⟨hwant, hquiet, hcalm⟩ : (v.core.wantReschedule = true → v.core.preemptCount ≠ 0 ∧
      ¬ Window v.core.context.base (frame :: rest)) ∧ Calm v.core.context.base (frame :: rest) :=
    ⟨hframes ▸ hh.want, hframes ▸ hh.calm⟩
  have hne : v.core.wantReschedule = true → v.core.preemptCount ≠ 0 := fun hw => (hwant hw).1
  have hrest : v.core.wantReschedule = true → ¬ Window v.core.context.base rest :=
    fun hw hwin => (hwant hw).2 (Or.inr hwin)
  have hno : frame.quiet = false → ¬ Window v.core.context.base rest := by
    intro hq hwin
    rw [hquiet hwin] at hq
    cases hq
  cases hs with
  | halt => exact hh.halt
  | spin t => exact hh
  | disable caller =>
    refine .of_cons rfl hcalm (fun hwin => ?_) fun hw => ⟨hne hw, hrest hw, fun hd => by cases hd⟩
    have hq := hquiet hwin
    rcases caller with t | f | cb | _ | ⟨cb, cbs⟩ <;> first | rfl | cases hq
  | disableStore caller loaded =>
    have hl : loaded = heldBy v.core.context.base rest := by
      cases caller <;> simp_all [Frame.Fits]
    refine .of_cons rfl hcalm (fun hwin => ?_) fun hw => ⟨?_, hrest hw, ?_⟩
    · have hq := hquiet hwin
      rcases caller with t | f | cb | _ | ⟨cb, cbs⟩ <;> first | rfl | cases hq
    · change loaded + 1 ≠ 0
      omega
    · intro hd
      cases caller <;> cases hd
  | outermost =>
    exact .of_cons rfl hcalm (fun _ => rfl) fun hw => ⟨hne hw, hrest hw, fun hd => by cases hd⟩
  | nested hmore =>
    refine .of_cons rfl hcalm (fun _ => rfl) fun hw => ⟨hne hw, hrest hw, fun _ => ?_⟩
    simp only [Frame.weight] at hcount
    omega
  | wanted =>
    exact .of_not_window rfl (not_window_cons rfl (not_window_of_held hfit)) hne
  | unwanted hoff =>
    refine .of_cons rfl hcalm (fun _ => rfl) fun hw => ?_
    rw [show v.core.wantReschedule = true from hw] at hoff
    cases hoff
  | decrement =>
    refine .of_cons rfl hcalm (fun _ => rfl) fun hw => ⟨hne hw, hrest hw, fun _ hz => ?_⟩
    exact (hwant hw).2 (Or.inl ⟨rfl, hz⟩)
  | decrementStore loaded =>
    refine .of_cons rfl hcalm (fun _ => rfl) fun hw => ⟨?_, hrest hw, fun hd => by cases hd⟩
    change loaded - 1 ≠ 0
    intro hz
    refine (hwant hw).2 (Or.inl ⟨rfl, ?_⟩)
    simp only [Frame.Fits] at hfit
    omega
  | assertCount => exact ⟨fun hw => ⟨hne hw, hrest hw⟩, hcalm⟩
  | doCall f => exact .of_not_window rfl id hne
  | setPark callback =>
    exact .of_not_window rfl (not_window_cons rfl (not_window_of_held hfit)) hne
  | request => exact .of_not_window rfl (not_window_cons rfl (hno rfl)) hne
  | yield => exact .of_not_window rfl (not_window_cons rfl (hno rfl)) hne
  | setWant =>
    -- the request itself: the count below is not zero and no enable is past its reading
    refine .of_not_window rfl (not_window_cons rfl (hno rfl)) fun _ => ?_
    change v.core.preemptCount ≠ 0
    simp only [Frame.Fits, Frame.weight] at hfit hcount
    omega
  | unparkIfParked => exact .of_not_window rfl (hno rfl) hne
  | dispatched =>
    exact .of_cons rfl hcalm (fun _ => rfl) fun hw => ⟨hne hw, hrest hw, fun hd => by cases hd⟩
  | tick callbacks =>
    exact .of_not_window rfl (not_window_cons rfl (not_window_cons rfl (hno rfl))) hne
  | wake t callbacks =>
    exact .of_not_window rfl (not_window_cons rfl (not_window_cons rfl (hno rfl))) hne
  | iret => exact ⟨fun hw => ⟨hne hw, hrest hw⟩, hcalm⟩
  | wakeupSwitch t => exact .of_not_window rfl (not_window_cons rfl (hno rfl)) hne
  | wakeupEnqueue t =>
    exact .of_not_window rfl (not_window_cons rfl (not_window_cons rfl (hno rfl))) hne
  | create name => exact .of_not_window rfl (hno rfl) hne

theorem BaseStep.heeds (h : v.Sound) (hh : v.core.Heeds) {base : Base}
    (hctx : v.core.context = ⟨[], base⟩) (hs : BaseStep v base v') : v'.core.Heeds := by
  have hne : v.core.wantReschedule = true → v.core.preemptCount ≠ 0 := fun hw => (hh.want hw).1
  cases hs with
  | halt => exact hh.halt
  | spin => exact hh
  | disableStore t d loaded =>
    have hb := h.core.base
    rw [hctx] at hb
    refine .of_not_window rfl id fun _ => ?_
    change loaded + 1 ≠ 0
    have := hb.2
    omega
  | wake u wakes ok t => exact .of_not_window rfl (not_window_cons rfl id) hne
  | execute t inherit =>
    -- a thread starts its time with no request pending
    exact .of_not_window rfl id fun hw => by cases hw
  | resume t => exact .of_not_window rfl (not_window_of_held (h.saved t).held) hne
  | _ => exact .of_not_window rfl id hne

theorem Core.Heeds.call (hh : v.core.Heeds) {base : Base} (hctx : v.core.context = ⟨[], base⟩)
    {o : Op} {frame : Frame} (ho : Enters v o frame) : (v.setFrames [frame]).core.Heeds := by
  have hcall : (v.setFrames [frame]).core.context = ⟨[frame], base⟩ := by
    simp only [View.setFrames, hctx]
  have hd : frame.decided = false := by cases ho <;> rfl
  exact .of_not_window hcall (not_window_cons hd id) fun hw => (hh.want hw).1

theorem OpStep.heeds (hh : v.core.Heeds) {base : Base} (hctx : v.core.context = ⟨[], base⟩)
    {o : Op} (hs : OpStep v base o v') : v'.core.Heeds := by
  have hne : v.core.wantReschedule = true → v.core.preemptCount ≠ 0 := fun hw => (hh.want hw).1
  cases hs with
  | halt => exact hh.halt
  | disable t d => exact .of_not_window rfl id hne
  | enable t d => exact .of_not_window rfl (not_window_cons rfl id) hne
  | call t d o frame ho => exact hh.call hctx ho
  | bootCall o frame ho => exact hh.call hctx ho
  | start => exact .of_not_window rfl id hne

/-- A choice that does not interrupt an enable past its reading of the flag with
callbacks that request a reschedule, as all the scheduler's callbacks do. -/
def Core.Undisturbed (core : Core) (choice : Choice) : Prop :=
  ∀ callbacks, choice = .interrupt callbacks →
    Window core.context.base core.context.frames → callbacks = []

theorem Step.heeds (h : v.Sound) (hh : v.core.Heeds) {choice : Choice}
    (hc : v.core.Undisturbed choice) (hs : Step v choice v') : v'.core.Heeds := by
  cases hs with
  | interrupt callbacks =>
    refine ⟨fun hw => ⟨(hh.want hw).1, ?_⟩, fun hwin => ?_, fun _ => rfl, hh.calm⟩
    · exact not_window_cons rfl (not_window_cons rfl (hh.want hw).2)
    · have hwin' : Window v.core.context.base v.core.context.frames := by
        by_contra hno
        exact not_window_cons rfl hno hwin
      rw [hc callbacks rfl hwin']
      rfl
  | frame hframes hs => exact hs.heeds h hh hframes
  | base hctx hs => exact hs.heeds h hh hctx
  | op hctx hs => exact hs.heeds hh hctx
  | callback wakes ok t => exact .of_not_window rfl id fun hw => (hh.want hw).1

/-! ### Every run -/

variable {κ : Type} [DecidableEq κ]

/-- The frames of `scheduler_preempt_enable` and of the interrupt handler. -/
def Frame.enabling : Frame → Bool
  | .enable => true
  | .enableWant => true
  | .decrement => true
  | .decrementStore _ => true
  | .assertCount => true
  | .iret => true
  | _ => false

/-- A thread runs with preemption on and a request that nobody will act on. -/
def Core.Stranded (core : Core) : Prop :=
  (∃ t, core.Executes t) ∧ (∀ frame ∈ core.context.frames, frame.enabling = false) ∧
    core.preemptCount = 0 ∧ core.wantReschedule = true

/-- In every run in which no interrupt with a request comes between the reading of
the flag and the store of the count in an outermost enable, no request is ever
stranded on any core. -/
theorem reschedule_not_stranded (s : Machine κ)
    (h : Reaches Machine.step (fun s e => (s.cores e.core).Undisturbed e.choice)
      Machine.initial s) : ∀ c, ¬ (s.cores c).Stranded := by
  have hinv : s.Sound ∧ ∀ c, (s.cores c).Heeds := by
    apply h.invariant (motive := fun s => s.Sound ∧ ∀ c, (s.cores c).Heeds)
    · exact ⟨initial_sound, fun c => ⟨fun hw => (by cases hw), trivial⟩⟩
    · intro u e w hu he hw
      refine ⟨step_sound hu.1 hw, Machine.step_cores hw hu.2 fun v hv => ?_⟩
      exact hv.heeds (hu.1.view e.core) (hu.2 e.core) he
  rintro c ⟨-, -, hzero, hw⟩
  exact ((hinv.2 c).want hw).1 hzero

instance decidableWindow (base : Base) : (frames : List Frame) → Decidable (Window base frames)
  | [] => inferInstanceAs (Decidable False)
  | frame :: rest =>
    have := decidableWindow base rest
    inferInstanceAs (Decidable (frame.decided = true ∧ heldBy base rest = 0 ∨ Window base rest))

instance (core : Core) : (choice : Choice) → Decidable (core.Undisturbed choice)
  | .interrupt callbacks => decidable_of_iff
      (Window core.context.base core.context.frames → callbacks = []) (by simp [Core.Undisturbed])
  | .next => isTrue nofun
  | .op _ => isTrue nofun
  | .callback _ _ => isTrue nofun

/-- A tick in thread code. -/
def tickInCode : List Choice := startThread ++ .interrupt [.tick] :: List.replicate 10 .next

/-- It leads to a yield. -/
theorem tick_not_stranded :
    ∃ s : Machine (Fin 1), Reaches Machine.step
        (fun s e => (s.cores e.core).Undisturbed e.choice) Machine.initial s ∧
      (s.cores 0).context = ⟨[], .internal .yield⟩ ∧ ¬ (s.cores 0).Stranded := by
  have hrun : leadsTo Machine.step (fun s e => decide ((s.cores e.core).Undisturbed e.choice))
      (fun s : Machine (Fin 1) => decide ((s.cores 0).context = ⟨[], .internal .yield⟩))
      Machine.initial (tickInCode.map (Event.mk 0)) = true := by decide +kernel
  obtain ⟨s, hs, hyield⟩ := reaches_of_leadsTo
    (fun (s : Machine (Fin 1)) e => (s.cores e.core).Undisturbed e.choice) (by simp) hrun
  rw [decide_eq_true_eq] at hyield
  exact ⟨s, hs, hyield, reschedule_not_stranded s hs 0⟩

/-- A thread disables and enables preemption, and the tick comes after the enable
has read the flag. -/
def tickInEnable : List Choice :=
  startThread ++ [.op .disable, .next, .next, .op .enable, .next, .next, .interrupt [.tick]] ++
    List.replicate 15 .next

/-- The request is left behind. -/
theorem tick_in_enable_strands :
    ¬ ∀ s : Machine (Fin 1), Reaches Machine.step (fun _ _ => True) Machine.initial s →
      ¬ (s.cores 0).Stranded := by
  intro h
  have hrun : leadsTo Machine.step (fun _ _ => true)
      (fun s : Machine (Fin 1) => decide ((s.cores 0).context = ⟨[], .code 0 0⟩ ∧
        (s.cores 0).preemptCount = 0 ∧ (s.cores 0).wantReschedule = true))
      Machine.initial (tickInEnable.map (Event.mk 0)) = true := by decide +kernel
  obtain ⟨s, hs, hbad⟩ := reaches_of_leadsTo (fun _ _ => True) (by simp) hrun
  rw [decide_eq_true_eq] at hbad
  obtain ⟨hctx, hzero, hwant⟩ := hbad
  refine h s hs ⟨⟨0, ?_⟩, ?_, hzero, hwant⟩
  · rw [Core.Executes, hctx]
    rfl
  · simp [hctx]

end TomatOS.Thread
