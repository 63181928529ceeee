import TomatOS.Thread.PreemptCount

/-! A core with nothing to run. The scheduler sets `parked`, looks at its queue and
sleeps while `parked` stays set. Whatever puts a thread into the queue after that look
is an interrupt on the same core, and before it ends it comes to `scheduler_reschedule`
with a count that is not zero, which clears `parked`. So a core that sleeps with no
interrupt in progress has nothing in its queue. -/

namespace TomatOS.Thread

open Foundation.Transition

variable {κ : Type} [DecidableEq κ] {v v' : View}

/-- The points of `scheduler_reschedule` on the way to `core_unpark`. -/
def Frame.unparks : Frame → Bool
  | .reschedule => true
  | .setWant => true
  | .unparkIfParked => true
  | _ => false

/-- A core that sleeps with threads in its queue is about to be unparked. -/
def Core.Alert (core : Core) : Prop :=
  core.context.base = .corePark → core.parked = true →
    core.queue = [] ∨ ∃ frame ∈ core.context.frames, frame.unparks = true

theorem Core.Alert.replace (h : v.core.Alert) {frame : Frame} {rest : List Frame}
    (hframes : v.core.context.frames = frame :: rest) (hframe : frame.unparks = false)
    (new : List Frame) {core : Core} (hctx : core.context = ⟨new ++ rest, v.core.context.base⟩)
    (hqueue : core.queue = v.core.queue) (hparked : core.parked = v.core.parked) : core.Alert := by
  intro hbase hpark
  rw [hctx] at hbase
  rw [hparked] at hpark
  rcases h hbase hpark with hempty | ⟨g, hg, hunparks⟩
  · exact .inl (hqueue.trans hempty)
  · rw [hframes, List.mem_cons] at hg
    rcases hg with rfl | hg
    · rw [hframe] at hunparks
      cases hunparks
    · refine .inr ⟨g, ?_, hunparks⟩
      rw [hctx]
      exact List.mem_append_right new hg

theorem FrameStep.alert (hs : v.Sound) (h : v.core.Alert) {frame : Frame} {rest : List Frame}
    (hframes : v.core.context.frames = frame :: rest) (hstep : FrameStep v rest frame v') :
    v'.core.Alert := by
  cases hstep with
  | halt => exact h
  | spin t => exact h
  | doCall f t =>
    intro hbase
    cases hbase
  | request =>
    intro _ _
    exact .inr ⟨.setWant, List.mem_cons_self, rfl⟩
  | yield hzero =>
    -- the scheduler runs with a count of one, so this is not on top of `core_park`
    intro hbase
    have hpark : v.core.context.base = .corePark := hbase
    have hcount := hs.count_frame hframes
    have hpos := heldBy_le_append v.core.context.base rest []
    rw [List.append_nil, hpark] at hpos
    rw [hzero, hpark] at hcount
    simp only [heldBy, Base.weight, Frame.weight] at hpos hcount
    omega
  | setWant =>
    intro _ _
    exact .inr ⟨.unparkIfParked, List.mem_cons_self, rfl⟩
  | unparkIfParked =>
    intro _ hparked
    cases hparked
  | wakeupEnqueue t =>
    intro _ _
    exact .inr ⟨.reschedule, List.mem_cons_self, rfl⟩
  | assertCount => exact h.replace hframes rfl [] rfl rfl rfl
  | iret => exact h.replace hframes rfl [] rfl rfl rfl
  | create => exact h.replace hframes rfl [] rfl rfl rfl
  | tick => exact h.replace hframes rfl [_, _] rfl rfl rfl
  | wake => exact h.replace hframes rfl [_, _] rfl rfl rfl
  | _ => exact h.replace hframes rfl [_] rfl rfl rfl

/-- The code at the bottom comes to `core_park` only with an empty queue. -/
theorem BaseStep.alert (hs : v.Sound) (h : v.core.Alert) {base : Base}
    (hstep : BaseStep v base v') : v'.core.Alert := by
  cases hstep with
  | halt => exact h
  | spin => exact h
  | empty hqueue => exact fun _ _ => .inl hqueue
  | leaveSwitch f t =>
    intro hbase
    cases f <;> cases hbase
  | clearCurrent k =>
    intro hbase
    cases k <;> cases hbase
  | resume t =>
    intro hbase
    have hthread := (hs.saved t).thread
    rw [show (v.saved t).base = .corePark from hbase] at hthread
    cases hthread
  | _ =>
    intro hbase
    cases hbase

theorem OpStep.alert (h : v.core.Alert) {base : Base} (hctx : v.core.context = ⟨[], base⟩)
    {o : Op} (hstep : OpStep v base o v') : v'.core.Alert := by
  have hbase : v.core.context.base = base := by rw [hctx]
  intro hpark
  cases hstep with
  | halt => exact h hpark
  | call t d => cases hbase.symm.trans hpark
  | bootCall => cases hbase.symm.trans hpark
  | _ => cases hpark

theorem Step.alert (hs : v.Sound) (h : v.core.Alert) {choice : Choice}
    (hstep : Step v choice v') : v'.core.Alert := by
  cases hstep with
  | interrupt callbacks =>
    intro hbase hparked
    rcases h hbase hparked with hempty | ⟨g, hg, hunparks⟩
    · exact .inl hempty
    · exact .inr ⟨g, by simp [View.setFrames, hg], hunparks⟩
  | frame hframes hstep => exact hstep.alert hs h hframes
  | base hctx hstep => exact hstep.alert hs h
  | op hctx hstep => exact hstep.alert h hctx
  | callback wakes ok t =>
    intro hbase
    cases hbase

/-- In every run, on every core: inside `core_park`, with no interrupt in progress and
`parked` set, there is nothing to run. -/
theorem parked_queue_empty (s : Machine κ)
    (h : Reaches Machine.step (fun _ _ => True) Machine.initial s) (c : κ)
    (hctx : (s.cores c).context = ⟨[], .corePark⟩) (hparked : (s.cores c).parked = true) :
    (s.cores c).queue = [] := by
  have hinv : s.Sound ∧ ∀ c, (s.cores c).Alert := by
    apply h.invariant (motive := fun s => s.Sound ∧ ∀ c, (s.cores c).Alert)
    · exact ⟨initial_sound, fun c hbase => by cases hbase⟩
    · intro u e w hu _ hw
      refine ⟨step_sound hu.1 hw, Machine.step_cores hw hu.2 fun v hv => ?_⟩
      exact hv.alert (hu.1.view e.core) (hu.2 e.core)
  rcases hinv.2 c (by rw [hctx]) hparked with hempty | ⟨frame, hframe, _⟩
  · exact hempty
  · rw [hctx] at hframe
    cases hframe

/-- The only thread of a core parks. -/
def parkOnly : List Choice := startThread ++ [.op (.park false)] ++ List.replicate 12 .next

/-- Its core goes to sleep with nothing to run. -/
theorem parked_thread_queue_empty :
    ∃ s : Machine (Fin 1), Reaches Machine.step (fun _ _ => True) Machine.initial s ∧
      (s.cores 0).context = ⟨[], .corePark⟩ ∧ (s.cores 0).parked = true ∧
      (s.cores 0).queue = [] := by
  have hrun : leadsTo Machine.step (fun _ _ => true)
      (fun s : Machine (Fin 1) => decide ((s.cores 0).context = ⟨[], .corePark⟩ ∧
        (s.cores 0).parked = true)) Machine.initial (parkOnly.map (Event.mk 0)) = true := by
    decide +kernel
  obtain ⟨s, hs, hpark⟩ := reaches_of_leadsTo (fun _ _ => True) (by simp) hrun
  rw [decide_eq_true_eq] at hpark
  exact ⟨s, hs, hpark.1, hpark.2, parked_queue_empty s hs 0 hpark.1 hpark.2⟩

end TomatOS.Thread
