import TomatOS.Foundation.Transition
import TomatOS.Thread.PreemptCount

/-! The lock of the list of free threads. `thread_alloc` takes `m_thread_freelist_lock`
in thread code, where the timer may switch the thread out, and `thread_free` takes it
in the scheduler, which cannot be switched out. A thread that is switched out inside
its critical section leaves the lock behind, and the scheduler of the core then waits
for a thread that only it could run. The scheduler's machine gets the lock as one more
word: `thread_create` and `thread_free` take it first and go on only when they hold it. -/

namespace TomatOS.Thread

open Foundation.Transition

variable {κ : Type} [DecidableEq κ] {v v' : View}

/-- A thread inside `thread_alloc`, or the boot or scheduler code of a core. -/
inductive Holder (κ : Type) where
  | thread (t : ℕ)
  | core (c : κ)
  deriving DecidableEq, Repr

/-- The next code of the core is `thread_alloc` or `thread_free`. -/
def Core.atFreelist (core : Core) : Bool :=
  match core.context with
  | ⟨.create _ :: _, _⟩ => true
  | ⟨[], .threadFree _⟩ => true
  | _ => false

def Core.asHolder (core : Core) (c : κ) : Holder κ :=
  match core.context.base.thread with
  | some t => .thread t
  | none => .core c

structure Locked (κ : Type) where
  machine : Machine κ
  holder : Option (Holder κ)

namespace Locked

def step (s : Locked κ) (e : Event κ) : Except Disabled (Locked κ) :=
  let core := s.machine.cores e.core
  if e.choice = .next ∧ core.atFreelist = true then
    if core.halted then .error .disabled
    -- `spinlock_acquire` takes the lock or goes round once more
    else if s.holder = none then .ok { s with holder := some (core.asHolder e.core) }
    else if s.holder ≠ some (core.asHolder e.core) then .ok s
    else do
      let machine ← s.machine.step e
      -- a fault in the critical section leaves the lock taken
      return ⟨machine, if (machine.cores e.core).halted then s.holder else none⟩
  else do
    let machine ← s.machine.step e
    return { s with machine := machine }

def initial : Locked κ := ⟨.initial, none⟩

/-- The scheduler of a core is about to take the lock in `thread_free`, and it is held by
a thread that is switched out. -/
def Waits (s : Locked κ) (c : κ) : Prop :=
  ∃ t u, (s.machine.cores c).context.base = .threadFree t ∧ s.holder = some (.thread u) ∧
    ∀ d, ¬ (s.machine.cores d).Executes u

theorem step_cases {s s' : Locked κ} {e : Event κ} (h : s.step e = .ok s') :
    s' = s ∨
    (e.choice = .next ∧ (s.machine.cores e.core).atFreelist = true ∧
      s' = { s with holder := some ((s.machine.cores e.core).asHolder e.core) }) ∨
    (e.choice = .next ∧ (s.machine.cores e.core).atFreelist = true ∧
      ∃ machine, s.machine.step e = .ok machine ∧
        s' = ⟨machine, if (machine.cores e.core).halted then s.holder else none⟩) ∨
    (¬ (e.choice = .next ∧ (s.machine.cores e.core).atFreelist = true) ∧
      ∃ machine, s.machine.step e = .ok machine ∧ s' = { s with machine := machine }) := by
  unfold step at h
  dsimp only at h
  split_ifs at h with hlock hhalt hfree hother
  · obtain rfl := Except.ok.inj h
    exact .inr (.inl ⟨hlock.1, hlock.2, rfl⟩)
  · obtain rfl := Except.ok.inj h
    exact .inl rfl
  · rcases hm : s.machine.step e with err | machine
    · rw [hm] at h
      cases h
    · rw [hm] at h
      exact .inr (.inr (.inl ⟨hlock.1, hlock.2, machine, rfl, (Except.ok.inj h).symm⟩))
  · rcases hm : s.machine.step e with err | machine
    · rw [hm] at h
      cases h
    · rw [hm] at h
      exact .inr (.inr (.inr ⟨hlock, machine, rfl, (Except.ok.inj h).symm⟩))

end Locked

/-! ### A thread that is not switched out -/

/-- The frames of an interrupt that calls nothing back. -/
inductive Quiet : List Frame → Prop
  | disable : Quiet [.disable (.interrupt []), .iret]
  | disableStore (loaded : ℤ) : Quiet [.disableStore (.interrupt []) loaded, .iret]
  | dispatch : Quiet [.dispatch [], .iret]
  | enable : Quiet [.enable, .iret]
  | enableWant : Quiet [.enableWant, .iret]
  | decrement : Quiet [.decrement, .iret]
  | decrementStore (loaded : ℤ) : Quiet [.decrementStore loaded, .iret]
  | assertCount : Quiet [.assertCount, .iret]
  | iret : Quiet [.iret]

/-- The core executes the thread, which is in `thread_alloc` and will not be switched out
there: preemption is disabled below it, or nothing runs above it, or an interrupt does
that requests nothing. -/
structure Core.Allocates (core : Core) (t : ℕ) (above : List Frame) (name : String)
    (below : List Frame) : Prop where
  frames : core.context.frames = above ++ .create name :: below
  thread : core.Executes t
  stays : heldBy core.context.base below ≠ 0 ∨ above = [] ∨
    Quiet above ∧ core.wantReschedule = false ∧ core.irq = false

section Steps

variable {t : ℕ} {above below : List Frame} {name : String}

/-- Such an interrupt runs to its end without entering the scheduler. -/
theorem FrameStep.quiet {frame : Frame} {rest : List Frame}
    (hframes : v.core.context.frames = frame :: (above ++ rest)) (hquiet : Quiet (frame :: above))
    (hwant : v.core.wantReschedule = false) (hirq : v.core.irq = false)
    (hs : FrameStep v (above ++ rest) frame v') :
    ∃ above', v'.core.context = ⟨above' ++ rest, v.core.context.base⟩ ∧
      (above' = [] ∨ Quiet above' ∧ v'.core.wantReschedule = false ∧ v'.core.irq = false) := by
  cases hs with
  | halt =>
    refine ⟨frame :: above, ?_, .inr ⟨hquiet, hwant, hirq⟩⟩
    rw [List.cons_append, ← hframes]
    rfl
  | disable caller =>
    cases hquiet
    exact ⟨[_, .iret], rfl, .inr ⟨.disableStore _, hwant, hirq⟩⟩
  | disableStore caller loaded =>
    cases hquiet
    exact ⟨[_, .iret], rfl, .inr ⟨.dispatch, hwant, hirq⟩⟩
  | dispatched =>
    cases hquiet
    exact ⟨[_, .iret], rfl, .inr ⟨.enable, hwant, hirq⟩⟩
  | outermost =>
    cases hquiet
    exact ⟨[_, .iret], rfl, .inr ⟨.enableWant, hwant, hirq⟩⟩
  | nested =>
    cases hquiet
    exact ⟨[_, .iret], rfl, .inr ⟨.decrement, hwant, hirq⟩⟩
  | wanted hon =>
    rw [hwant] at hon
    cases hon
  | unwanted =>
    cases hquiet
    exact ⟨[_, .iret], rfl, .inr ⟨.decrement, hwant, hirq⟩⟩
  | decrement =>
    cases hquiet
    exact ⟨[_, .iret], rfl, .inr ⟨.decrementStore _, hwant, hirq⟩⟩
  | decrementStore loaded =>
    cases hquiet
    exact ⟨[_, .iret], rfl, .inr ⟨.assertCount, hwant, hirq⟩⟩
  | assertCount =>
    cases hquiet
    exact ⟨[.iret], rfl, .inr ⟨.iret, hwant, hirq⟩⟩
  | iret =>
    cases hquiet
    exact ⟨[], rfl, .inl rfl⟩
  | _ => cases hquiet

theorem FrameStep.allocates (h : v.Sound) {frame : Frame}
    (ha : v.core.Allocates t (frame :: above) name below)
    (hs : FrameStep v (above ++ .create name :: below) frame v') :
    ∃ above', v'.core.Allocates t above' name below := by
  have hframes : v.core.context.frames = frame :: (above ++ .create name :: below) := ha.frames
  rcases ha.stays with hheld | hnil | ⟨hquiet, hwant, hirq⟩
  · have hcall : ∀ f, frame ≠ .doCall f := by
      rintro f rfl
      have hzero : heldBy v.core.context.base (above ++ .create name :: below) = 0 :=
        h.fits_frame hframes
      have hle := heldBy_le_append v.core.context.base (above ++ [.create name]) below
      rw [List.append_assoc, List.singleton_append] at hle
      omega
    obtain ⟨new, hctx⟩ := hs.frames hframes hcall
    refine ⟨new ++ above, ?_, ?_, .inl ?_⟩
    · rw [hctx, List.append_assoc]
    · rw [Core.Executes, hctx]
      exact ha.thread
    · rw [hctx]
      exact hheld
  · cases hnil
  · obtain ⟨above', hctx, hstays⟩ := hs.quiet hframes hquiet hwant hirq
    refine ⟨above', by rw [hctx], ?_, .inr hstays⟩
    rw [Core.Executes, hctx]
    exact ha.thread

/-- A step outside the critical section keeps a thread in it from being switched out, if
an interrupt requests nothing where preemption is enabled. -/
theorem Step.allocates (h : v.Sound) (ha : v.core.Allocates t above name below) {choice : Choice}
    (hout : ¬ (choice = .next ∧ v.core.atFreelist = true))
    (hgentle : ∀ callbacks, choice = .interrupt callbacks →
      v.core.preemptCount ≠ 0 ∨ callbacks = [] ∧ v.core.wantReschedule = false)
    (hs : Step v choice v') : ∃ above', v'.core.Allocates t above' name below := by
  have hne : ∀ base, v.core.context ≠ ⟨[], base⟩ := by
    intro base hctx
    have hframes := ha.frames
    rw [hctx] at hframes
    simp at hframes
  cases hs with
  | interrupt callbacks hirq =>
    refine ⟨.disable (.interrupt callbacks) :: .iret :: above, ?_, ha.thread, ?_⟩
    · simp [View.setFrames, ha.frames]
    · rcases ha.stays with hheld | rfl | ⟨_, _, hoff⟩
      · exact .inl hheld
      · rcases hgentle callbacks rfl with hcount | ⟨rfl, hwant⟩
        · left
          have heq := h.count_frame ha.frames
          rw [heq] at hcount
          intro hzero
          apply hcount
          rw [show heldBy v.core.context.base below = 0 from hzero]
          rfl
        · exact .inr (.inr ⟨.disable, hwant, rfl⟩)
      · rw [hoff] at hirq
        cases hirq
  | frame hframes hs =>
    rcases above with _ | ⟨frame, above⟩
    · exfalso
      apply hout
      refine ⟨rfl, ?_⟩
      rw [Core.atFreelist, show v.core.context = ⟨.create name :: below, v.core.context.base⟩ by
        rw [← List.nil_append (.create name :: below), ← ha.frames]]
    · rw [ha.frames, List.cons_append] at hframes
      cases hframes
      exact hs.allocates h ha
  | base hctx => exact absurd hctx (hne _)
  | op hctx => exact absurd hctx (hne _)
  | callback wakes ok t hctx => exact absurd hctx (hne _)

end Steps

/-! ### Every run -/

/-- An interrupt that finds the lock held by the thread it interrupts, with preemption
enabled, requests no reschedule and finds none requested. -/
def Gentle (s : Locked κ) (e : Event κ) : Prop :=
  ∀ callbacks, e.choice = .interrupt callbacks →
    ∀ t, s.holder = some (.thread t) → (s.machine.cores e.core).Executes t →
      (s.machine.cores e.core).preemptCount ≠ 0 ∨
        callbacks = [] ∧ (s.machine.cores e.core).wantReschedule = false

structure Locked.Sound (s : Locked κ) : Prop where
  machine : s.machine.Sound
  holder : ∀ t, s.holder = some (.thread t) →
    ∃ c above name below, (s.machine.cores c).Allocates t above name below

omit [DecidableEq κ] in
theorem asHolder_thread {core : Core} {c : κ} {t : ℕ} (h : core.asHolder c = .thread t) :
    core.Executes t := by
  unfold Core.asHolder at h
  split at h
  · rename_i u hu
    cases h
    exact hu
  · cases h

/-- A thread that is at the list of free threads is at the start of `thread_alloc`. -/
theorem allocates_of_atFreelist {core : Core} {t : ℕ} (hlist : core.atFreelist = true)
    (ht : core.Executes t) : ∃ name below, core.Allocates t [] name below := by
  unfold Core.atFreelist at hlist
  split at hlist
  · rename_i name below base hctx
    exact ⟨name, below, by rw [hctx]; rfl, ht, .inr (.inl rfl)⟩
  · rename_i u hctx
    rw [Core.Executes, hctx] at ht
    cases ht
  · cases hlist

theorem halted_context {s m : Machine κ} {e : Event κ} (hs : s.step e = .ok m)
    (hnext : e.choice = .next) {t : ℕ} {name : String} {below : List Frame}
    (ha : (s.cores e.core).Allocates t [] name below) (hhalt : (m.cores e.core).halted = true) :
    (m.cores e.core).context = (s.cores e.core).context := by
  obtain ⟨hgo, v, hv, rfl⟩ := Machine.step_cases hs
  have hframes : (s.view e.core).core.context.frames = .create name :: below := ha.frames
  simp only [Function.update_self] at hhalt ⊢
  rw [hnext] at hv
  cases hv with
  | frame hf hstep =>
    rw [hframes] at hf
    cases hf
    cases hstep with
    | halt => rfl
    | create =>
      rw [show (s.cores e.core).halted = true from hhalt] at hgo
      cases hgo
  | base hctx =>
    rw [hctx] at hframes
    cases hframes

theorem Locked.step_sound {s s' : Locked κ} (h : s.Sound) {e : Event κ} (he : Gentle s e)
    (hs : s.step e = .ok s') : s'.Sound := by
  rcases Locked.step_cases hs with rfl | ⟨hnext, hlist, rfl⟩ | ⟨hnext, hlist, m, hm, rfl⟩ |
    ⟨hout, m, hm, rfl⟩
  · exact h
  · refine ⟨h.machine, fun t ht => ?_⟩
    have hexec := asHolder_thread (Option.some.inj ht)
    obtain ⟨name, below, ha⟩ := allocates_of_atFreelist hlist hexec
    exact ⟨e.core, [], name, below, ha⟩
  · refine ⟨TomatOS.Thread.step_sound h.machine hm, fun t ht => ?_⟩
    dsimp only at ht
    split_ifs at ht with hhalt
    obtain ⟨c, above, name, below, ha⟩ := h.holder t ht
    by_cases hc : c = e.core
    · subst hc
      obtain ⟨name, below, hstart⟩ := allocates_of_atFreelist hlist ha.thread
      have hctx := halted_context hm hnext hstart hhalt
      refine ⟨e.core, [], name, below, ?_, ?_, .inr (.inl rfl)⟩
      · rw [hctx]
        exact hstart.frames
      · rw [Core.Executes, hctx]
        exact hstart.thread
    · obtain ⟨-, v, -, rfl⟩ := Machine.step_cases hm
      exact ⟨c, above, name, below, by simpa only [Function.update_of_ne hc] using ha⟩
  · refine ⟨TomatOS.Thread.step_sound h.machine hm, fun t ht => ?_⟩
    obtain ⟨c, above, name, below, ha⟩ := h.holder t ht
    obtain ⟨-, v, hv, rfl⟩ := Machine.step_cases hm
    by_cases hc : c = e.core
    · subst hc
      obtain ⟨above', ha'⟩ := hv.allocates (h.machine.view e.core) ha hout
        fun callbacks hcb => he callbacks hcb t ht ha.thread
      exact ⟨e.core, above', name, below, by simpa only [Function.update_self] using ha'⟩
    · exact ⟨c, above, name, below, by simpa only [Function.update_of_ne hc] using ha⟩

/-- In every run whose interrupts switch no thread out of `thread_alloc`, the scheduler
never waits in `thread_free` for a thread that is switched out. -/
theorem thread_free_not_waiting (s : Locked κ)
    (h : Reaches Locked.step Gentle Locked.initial s) (c : κ) : ¬ s.Waits c := by
  have hsound : s.Sound := by
    apply h.invariant (motive := fun s => s.Sound)
    · exact ⟨initial_sound, fun t ht => by cases ht⟩
    · intro u e w hu he hw
      exact Locked.step_sound hu he hw
  rintro ⟨t, u, -, hholder, hout⟩
  obtain ⟨d, above, name, below, ha⟩ := hsound.holder u hholder
  exact hout d ha.thread

instance (s : Locked κ) (e : Event κ) : Decidable (Gentle s e) :=
  match h : e.choice with
  | .interrupt callbacks =>
    match hh : s.holder with
    | some (.thread t) => decidable_of_iff ((s.machine.cores e.core).Executes t →
        (s.machine.cores e.core).preemptCount ≠ 0 ∨
          callbacks = [] ∧ (s.machine.cores e.core).wantReschedule = false)
        (by simp [Gentle, h, hh])
    | some (.core c) => isTrue (by simp [Gentle, hh])
    | none => isTrue (by simp [Gentle, hh])
  | .next => isTrue (by simp [Gentle, h])
  | .op _ => isTrue (by simp [Gentle, h])
  | .callback _ _ => isTrue (by simp [Gentle, h])

/-- A thread starts, creates a second one and wakes it, and the second one is inside
`thread_alloc` when the timer interrupts it. After so many steps the thread that is
then executed exits. -/
def interruptedCreate (callbacks : List Callback) (n : ℕ) : List Choice :=
  [Choice.op (.create "init thread"), .next, .next, .op (.wakeup 0)] ++
    List.replicate 11 Choice.next ++ [Choice.op .start] ++ List.replicate 7 Choice.next ++
    [Choice.op (.create "worker"), .next, .next, .op (.wakeup 1)] ++
    List.replicate 22 Choice.next ++
    [Choice.op (.create "child"), .next, .interrupt callbacks] ++ List.replicate n Choice.next ++
    [Choice.op .exit] ++ List.replicate 6 Choice.next

/-- Without a callback the thread gives the lock back and exits. -/
theorem quiet_interrupt_not_waiting :
    ∃ s : Locked (Fin 1), Reaches Locked.step Gentle Locked.initial s ∧
      (s.machine.cores 0).context = ⟨[], .threadFree 1⟩ ∧ ¬ s.Waits 0 := by
  have hrun : leadsTo Locked.step (fun s e => decide (Gentle s e))
      (fun s : Locked (Fin 1) => decide ((s.machine.cores 0).context = ⟨[], .threadFree 1⟩))
      Locked.initial ((interruptedCreate [] 10).map (Event.mk 0)) = true := by decide +kernel
  obtain ⟨s, hs, hfree⟩ := reaches_of_leadsTo (fun (s : Locked (Fin 1)) e => Gentle s e)
    (by simp) hrun
  rw [decide_eq_true_eq] at hfree
  exact ⟨s, hs, hfree, thread_free_not_waiting s hs 0⟩

/-- A tick switches the thread out with the lock, and the first thread exits. -/
theorem tick_in_create_waits :
    ¬ ∀ s : Locked (Fin 1), Reaches Locked.step (fun _ _ => True) Locked.initial s →
      ¬ s.Waits 0 := by
  intro h
  have hrun : leadsTo Locked.step (fun _ _ => true)
      (fun s : Locked (Fin 1) => decide ((s.machine.cores 0).context = ⟨[], .threadFree 0⟩ ∧
        s.holder = some (.thread 1) ∧ ∀ d, ¬ (s.machine.cores d).Executes 1))
      Locked.initial ((interruptedCreate [.tick] 22).map (Event.mk 0)) = true := by decide +kernel
  obtain ⟨s, hs, hbad⟩ := reaches_of_leadsTo (fun _ _ => True) (by simp) hrun
  rw [decide_eq_true_eq] at hbad
  obtain ⟨hctx, hholder, hout⟩ := hbad
  exact h s hs ⟨0, 1, by rw [hctx], hholder, hout⟩

end TomatOS.Thread
