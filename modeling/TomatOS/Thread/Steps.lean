import TomatOS.Thread.Scheduler
import Mathlib.Tactic.SplitIfs

/-! What a step of a core can do, said once for all the invariants: one case for each
way out of a program point, with what the code has tested on that way and everything it
writes. A failed assertion halts the core where it is. -/

namespace TomatOS.Thread

open Function (update)

variable {v v' : View}

/-- The step of a frame on top of the frames `rest`. -/
inductive FrameStep (v : View) (rest : List Frame) : Frame → View → Prop
  | halt (frame : Frame) : FrameStep v rest frame v.halt
  | disable (caller : Caller) : FrameStep v rest (.disable caller)
      (v.setFrames (.disableStore caller v.core.preemptCount :: rest))
  | disableStore (caller : Caller) (loaded : ℤ) : FrameStep v rest (.disableStore caller loaded)
      ({ v with core := { v.core with preemptCount := loaded + 1 } }.setFrames
        (View.afterDisable caller :: rest))
  | outermost : v.core.preemptCount = 1 →
      FrameStep v rest .enable (v.setFrames (.enableWant :: rest))
  | nested : v.core.preemptCount ≠ 1 →
      FrameStep v rest .enable (v.setFrames (.decrement :: rest))
  | wanted : v.core.wantReschedule = true →
      FrameStep v rest .enableWant (v.setFrames (.doCall .yield :: rest))
  | unwanted : v.core.wantReschedule = false →
      FrameStep v rest .enableWant (v.setFrames (.decrement :: rest))
  | decrement : FrameStep v rest .decrement
      (v.setFrames (.decrementStore v.core.preemptCount :: rest))
  | decrementStore (loaded : ℤ) : FrameStep v rest (.decrementStore loaded)
      ({ v with core := { v.core with preemptCount := loaded - 1 } }.setFrames
        (.assertCount :: rest))
  | assertCount : 0 ≤ v.core.preemptCount → FrameStep v rest .assertCount (v.setFrames rest)
  | doCall (f : Internal) (t : ℕ) : v.core.current = some t → FrameStep v rest (.doCall f)
      { v with
        saved := update v.saved t ⟨rest, v.core.context.base⟩
        core := { v.core with context := ⟨[], .internal f⟩, irq := true } }
  | setPark (callback : Bool) : FrameStep v rest (.setPark callback)
      ({ v with core := { v.core with parkCallback := callback } }.setFrames
        (.doCall .park :: rest))
  | request : v.core.preemptCount ≠ 0 →
      FrameStep v rest .reschedule (v.setFrames (.setWant :: rest))
  | yield : v.core.preemptCount = 0 → v.core.current ≠ none →
      FrameStep v rest .reschedule (v.setFrames (.disable (.call .yield) :: rest))
  | setWant : FrameStep v rest .setWant
      ({ v with core := { v.core with wantReschedule := true } }.setFrames
        (.unparkIfParked :: rest))
  | unparkIfParked : FrameStep v rest .unparkIfParked
      ({ v with core := { v.core with parked := false } }.setFrames rest)
  | dispatched : FrameStep v rest (.dispatch []) (v.setFrames (.enable :: rest))
  | tick (callbacks : List Callback) : FrameStep v rest (.dispatch (.tick :: callbacks))
      (v.setFrames (.reschedule :: .dispatch callbacks :: rest))
  | wake (t : ℕ) (callbacks : List Callback) :
      FrameStep v rest (.dispatch (.wake t :: callbacks))
        (v.setFrames (.disable (.wakeup t) :: .dispatch callbacks :: rest))
  | iret : FrameStep v rest .iret
      ({ v with core := { v.core with irq := true } }.setFrames rest)
  | spin (t : ℕ) : FrameStep v rest (.wakeupSwitch t) v
  | wakeupSwitch (t : ℕ) : v.pool.status t = .waiting → FrameStep v rest (.wakeupSwitch t)
      ({ v with pool := v.pool.setStatus t .runnable }.setFrames (.wakeupEnqueue t :: rest))
  | wakeupEnqueue (t : ℕ) : FrameStep v rest (.wakeupEnqueue t)
      ({ v with core := { v.core with queue := t :: v.core.queue } }.setFrames
        (.reschedule :: .enable :: rest))
  | create (name : String) (t : ℕ) (pool : Pool) : v.pool.threadCreate name = .ok (t, pool) →
      FrameStep v rest (.create name)
        ({ v with pool := pool, saved := update v.saved t ⟨[], .code t 0⟩ }.setFrames rest)

/-- The step of the code at the bottom. -/
inductive BaseStep (v : View) : Base → View → Prop
  | halt (base : Base) : BaseStep v base v.halt
  /-- A status exchange or the sleep goes round once more. -/
  | spin (base : Base) : BaseStep v base v
  | disable (t d : ℕ) : BaseStep v (.disable t d)
      (v.setBase (.disableStore t d v.core.preemptCount))
  | disableStore (t d : ℕ) (loaded : ℤ) : BaseStep v (.disableStore t d loaded)
      ({ v with core := { v.core with preemptCount := loaded + 1 } }.setBase (.code t (d + 1)))
  | internal (f : Internal) (t : ℕ) : v.core.preemptCount = 1 ∧ v.core.irq = true →
      v.core.current = some t → BaseStep v (.internal f) (v.setBase (.leaveSwitch f t))
  | leaveSwitch (f : Internal) (t : ℕ) : v.pool.status t = .running →
      BaseStep v (.leaveSwitch f t)
        ({ v with pool := v.pool.setStatus t (View.leaveStatus f) }.setBase (View.afterLeave f t))
  | saveExtended (k : Drop) : BaseStep v (.saveExtended k) (v.setBase (.clearCurrent k))
  | clearCurrent (k : Drop) : BaseStep v (.clearCurrent k)
      ({ v with core := { v.core with current := none } }.setBase (View.afterDrop k))
  | yieldEnqueue (t : ℕ) : BaseStep v (.yieldEnqueue t)
      ({ v with core := { v.core with queue := v.core.queue ++ [t] } }.setBase .schedule)
  | parkCallback (t : ℕ) : v.core.parkCallback = false →
      BaseStep v (.parkCallback t) (v.setBase .schedule)
  | wake (u : ℕ) (wakes : List ℕ) (ok : Bool) (t : ℕ) :
      BaseStep v (.callback (u :: wakes) ok t)
        ((v.setBase (.callback wakes ok t)).setFrames [.disable (.wakeup u)])
  | parked (t : ℕ) : BaseStep v (.callback [] true t)
      ({ v with core := { v.core with parkCallback := false } }.setBase .schedule)
  | unpark (t : ℕ) : BaseStep v (.callback [] false t)
      ({ v with core := { v.core with parkCallback := false } }.setBase (.restartSwitch t))
  | restartSwitch (t : ℕ) : v.pool.status t = .waiting → BaseStep v (.restartSwitch t)
      ({ v with pool := v.pool.setStatus t .runnable }.setBase (.execute t true))
  | threadFree (t : ℕ) : BaseStep v (.threadFree t)
      ({ v with pool := v.pool.threadFree t }.setBase .schedule)
  | schedule : BaseStep v .schedule (v.setBase .preparePark)
  | preparePark : BaseStep v .preparePark
      ({ v with core := { v.core with parked := true } }.setBase .pop)
  | empty : v.core.queue = [] → BaseStep v .pop (v.setBase .corePark)
  | pop (t : ℕ) (queue : List ℕ) : v.core.queue = t :: queue → BaseStep v .pop
      ({ v with core := { v.core with queue := queue } }.setBase (.unpark t))
  | corePark : v.core.parked = false → BaseStep v .corePark (v.setBase .preparePark)
  | popped (t : ℕ) : BaseStep v (.unpark t)
      ({ v with core := { v.core with parked := false } }.setBase (.execute t false))
  | execute (t : ℕ) (inherit : Bool) : BaseStep v (.execute t inherit)
      ({ v with core := { v.core with
        irq := false, wantReschedule := false, preemptCount := 0, current := some t } }.setBase
          (.executeSwitch t))
  | executeSwitch (t : ℕ) : v.pool.status t = .runnable → BaseStep v (.executeSwitch t)
      ({ v with pool := v.pool.setStatus t .running }.setBase (.resume t))
  | resume (t : ℕ) : BaseStep v (.resume t)
      { v with core := { v.core with context := v.saved t, irq := true } }

/-- The function that a call enters, with the assertions in front of it. -/
inductive Enters (v : View) : Op → Frame → Prop
  | yield : v.core.preemptCount = 0 → Enters v .yield (.disable (.call .yield))
  | park (callback : Bool) : v.core.preemptCount = 0 →
      v.core.current.map v.pool.status = some .running →
      Enters v (.park callback) (.disable (.park callback))
  | exit : v.core.preemptCount = 0 → Enters v .exit (.disable (.call .exit))
  | wakeup (u : ℕ) : Enters v (.wakeup u) (.disable (.wakeup u))
  | reschedule : Enters v .reschedule .reschedule
  | create (name : String) : Enters v (.create name) (.create name)

/-- A call of thread or boot code. -/
inductive OpStep (v : View) : Base → Op → View → Prop
  | halt (base : Base) (o : Op) : OpStep v base o v.halt
  | disable (t d : ℕ) : OpStep v (.code t d) .disable (v.setBase (.disable t d))
  | enable (t d : ℕ) : OpStep v (.code t (d + 1)) .enable
      ((v.setBase (.code t d)).setFrames [.enable])
  | call (t d : ℕ) (o : Op) (frame : Frame) : Enters v o frame →
      OpStep v (.code t d) o (v.setFrames [frame])
  | bootCall (o : Op) (frame : Frame) : Enters v o frame →
      OpStep v .boot o (v.setFrames [frame])
  | start : v.core.preemptCount = 1 → OpStep v .boot .start
      ({ v with core := { v.core with irq := true } }.setBase .schedule)

inductive Step (v : View) : Choice → View → Prop
  | interrupt (callbacks : List Callback) : v.core.irq = true → Step v (.interrupt callbacks)
      ({ v with core := { v.core with irq := false } }.setFrames
        (.disable (.interrupt callbacks) :: .iret :: v.core.context.frames))
  | frame {frame : Frame} {rest : List Frame} {v' : View} :
      v.core.context.frames = frame :: rest → FrameStep v rest frame v' → Step v .next v'
  | base {base : Base} {v' : View} :
      v.core.context = ⟨[], base⟩ → BaseStep v base v' → Step v .next v'
  | op {base : Base} {o : Op} {v' : View} :
      v.core.context = ⟨[], base⟩ → OpStep v base o v' → Step v (.op o) v'
  | callback (wakes : List ℕ) (ok : Bool) (t : ℕ) : v.core.context = ⟨[], .parkCallback t⟩ →
      v.core.parkCallback = true → Step v (.callback wakes ok) (v.setBase (.callback wakes ok t))

/-! ### The steps are these -/

/-- A status exchange is made, goes round once more or halts. -/
theorem View.switchStatus_cases (v : View) (t : ℕ) (old new : Status) (done : View → View) :
    (v.pool.status t = old ∧
      v.switchStatus t old new done = done { v with pool := v.pool.setStatus t new }) ∨
    v.switchStatus t old new done = v ∨ v.switchStatus t old new done = v.halt := by
  rw [View.switchStatus, Pool.switchStatus]
  by_cases hst : v.pool.status t = old
  · exact .inl ⟨hst, by rw [if_pos hst]⟩
  · rw [if_neg hst]
    split_ifs
    · exact .inr (.inr rfl)
    · exact .inr (.inl rfl)

theorem runFrame_step (rest : List Frame) (frame : Frame) :
    FrameStep v rest frame (v.runFrame rest frame) := by
  cases frame with
  | disable caller => exact .disable caller
  | disableStore caller loaded => exact .disableStore caller loaded
  | enable =>
    rw [View.runFrame]
    split_ifs with hcount
    · exact .outermost hcount
    · exact .nested hcount
  | enableWant =>
    rw [View.runFrame]
    split_ifs with hwant
    · exact .wanted hwant
    · exact .unwanted (eq_false_of_ne_true hwant)
  | decrement => exact .decrement
  | decrementStore loaded => exact .decrementStore loaded
  | assertCount =>
    rw [View.runFrame]
    split_ifs with hcount
    · exact .assertCount hcount
    · exact .halt _
  | doCall f =>
    rw [View.runFrame, View.switchToScheduler]
    split
    · exact .halt _
    · rename_i t hcur
      exact .doCall f t hcur
  | setPark callback => exact .setPark callback
  | reschedule =>
    rw [View.runFrame]
    split_ifs with hcount hcur
    · exact .request hcount
    · exact .halt _
    · exact .yield (not_not.mp hcount) hcur
  | setWant => exact .setWant
  | unparkIfParked => exact .unparkIfParked
  | dispatch callbacks =>
    rcases callbacks with _ | ⟨_ | t, callbacks⟩
    · exact .dispatched
    · exact .tick callbacks
    · exact .wake t callbacks
  | iret => exact .iret
  | wakeupSwitch t =>
    rw [View.runFrame]
    rcases v.switchStatus_cases t .waiting .runnable
      fun v => v.setFrames (.wakeupEnqueue t :: rest) with ⟨hst, he⟩ | he | he <;> rw [he]
    · exact .wakeupSwitch t hst
    · exact .spin t
    · exact .halt _
  | wakeupEnqueue t => exact .wakeupEnqueue t
  | create name =>
    rw [View.runFrame]
    split
    · rename_i t pool hc
      exact .create name t pool hc
    · exact .halt _

theorem switchStatus_step {base next : Base} (t : ℕ) (old new : Status)
    (h : v.pool.status t = old →
      BaseStep v base ({ v with pool := v.pool.setStatus t new }.setBase next)) :
    BaseStep v base (v.switchStatus t old new fun v => v.setBase next) := by
  rcases v.switchStatus_cases t old new fun v => v.setBase next with ⟨hst, he⟩ | he | he <;> rw [he]
  · exact h hst
  · exact .spin base
  · exact .halt base

theorem runBase_step {base : Base} (h : v.runBase base = .ok v') : BaseStep v base v' := by
  cases base with
  | boot => cases h
  | code t d => cases h
  | internal f =>
    rw [View.runBase] at h
    split_ifs at h with hassert
    · split at h
      · cases h
        exact .halt _
      · rename_i t hcur
        cases h
        exact .internal f t hassert hcur
    · cases h
      exact .halt _
  | leaveSwitch f t =>
    cases h
    exact switchStatus_step t _ _ (.leaveSwitch f t)
  | parkCallback t =>
    rw [View.runBase] at h
    split_ifs at h with hcallback
    cases h
    exact .parkCallback t (eq_false_of_ne_true hcallback)
  | callback wakes ok t =>
    rcases wakes with _ | ⟨u, wakes⟩
    · cases h
      cases ok with
      | true => exact .parked t
      | false => exact .unpark t
    · cases h
      exact .wake u wakes ok t
  | restartSwitch t =>
    cases h
    exact switchStatus_step t _ _ (.restartSwitch t)
  | pop =>
    rw [View.runBase] at h
    split at h
    · rename_i hqueue
      cases h
      exact .empty hqueue
    · rename_i t queue hqueue
      cases h
      exact .pop t queue hqueue
  | corePark =>
    rw [View.runBase] at h
    split_ifs at h with hparked
    · cases h
      exact .spin _
    · cases h
      exact .corePark (eq_false_of_ne_true hparked)
  | executeSwitch t =>
    cases h
    exact switchStatus_step t _ _ (.executeSwitch t)
  | _ =>
    cases h
    constructor

theorem threadOp_step {t d : ℕ} {o : Op} (h : v.threadOp t d o = .ok v') :
    OpStep v (.code t d) o v' := by
  cases o with
  | disable =>
    cases h
    exact .disable t d
  | enable =>
    rcases d with _ | d
    · cases h
    · cases h
      exact .enable t d
  | yield =>
    rw [View.threadOp] at h
    split_ifs at h with hcount
    · cases h
      exact .call t d _ _ (.yield hcount)
    · cases h
      exact .halt _ _
  | park callback =>
    rw [View.threadOp] at h
    split_ifs at h with hcount
    · cases h
      exact .call t d _ _ (.park callback hcount.1 hcount.2)
    · cases h
      exact .halt _ _
  | exit =>
    rw [View.threadOp] at h
    split_ifs at h with hcount
    · cases h
      exact .call t d _ _ (.exit hcount)
    · cases h
      exact .halt _ _
  | wakeup u =>
    cases h
    exact .call t d _ _ (.wakeup u)
  | reschedule =>
    cases h
    exact .call t d _ _ .reschedule
  | create name =>
    cases h
    exact .call t d _ _ (.create name)
  | start => cases h

theorem bootOp_step {o : Op} (h : v.bootOp o = .ok v') : OpStep v .boot o v' := by
  cases o with
  | wakeup u =>
    cases h
    exact .bootCall _ _ (.wakeup u)
  | create name =>
    cases h
    exact .bootCall _ _ (.create name)
  | start =>
    rw [View.bootOp] at h
    split_ifs at h with hcount
    · cases h
      exact .start hcount
    · cases h
      exact .halt _ _
  | _ => cases h

theorem run_step {choice : Choice} (h : v.run choice = .ok v') : Step v choice v' := by
  cases choice with
  | interrupt callbacks =>
    rw [View.run] at h
    split_ifs at h with hirq
    cases h
    exact .interrupt callbacks hirq
  | next =>
    rw [View.run] at h
    split at h
    · rename_i frame rest hframes
      cases h
      exact .frame hframes (runFrame_step rest frame)
    · rename_i hframes
      exact .base (by rw [← hframes]) (runBase_step h)
  | op o =>
    rw [View.run] at h
    split at h
    · rename_i t d hctx
      exact .op hctx (threadOp_step h)
    · rename_i hctx
      exact .op hctx (bootOp_step h)
    · cases h
  | callback wakes ok =>
    rw [View.run] at h
    split at h
    · rename_i t hctx
      split_ifs at h with hcallback
      cases h
      exact .callback wakes ok t hctx hcallback
    · cases h

/-! ### A step of the machine -/

section Machine

variable {κ : Type} [DecidableEq κ] {s s' : Machine κ} {e : Event κ}

theorem Machine.step_cases (h : s.step e = .ok s') :
    (s.cores e.core).halted = false ∧ ∃ v, Step (s.view e.core) e.choice v ∧
      s' = ⟨update s.cores e.core v.core, v.pool, v.saved⟩ := by
  simp only [Machine.step, bind, Except.bind, pure, Except.pure] at h
  split_ifs at h with hhalt
  split at h
  · cases h
  · rename_i v hv
    exact ⟨eq_false_of_ne_true hhalt, v, run_step hv, (Except.ok.inj h).symm⟩

/-- What the step keeps on its own core it keeps on every core. -/
theorem Machine.step_cores {P : Core → Prop} (h : s.step e = .ok s') (hP : ∀ c, P (s.cores c))
    (hstep : ∀ v, Step (s.view e.core) e.choice v → P v.core) (c : κ) : P (s'.cores c) := by
  obtain ⟨-, v, hv, rfl⟩ := Machine.step_cases h
  by_cases hc : c = e.core
  · subst hc
    simpa only [Function.update_self] using hstep v hv
  · simpa only [Function.update_of_ne hc] using hP c

end Machine

/-! ### Frames and bases -/

/-- A frame other than `scheduler_do_call` changes only the part of the frames above the
rest. -/
theorem FrameStep.frames {frame : Frame} {rest : List Frame}
    (hframes : v.core.context.frames = frame :: rest) (h : FrameStep v rest frame v')
    (hcall : ∀ f, frame ≠ .doCall f) :
    ∃ new, v'.core.context = ⟨new ++ rest, v.core.context.base⟩ := by
  have hstay : v.core.context = ⟨[frame] ++ rest, v.core.context.base⟩ := by
    rw [List.singleton_append, ← hframes]
  cases h with
  | halt => exact ⟨_, hstay⟩
  | spin t => exact ⟨_, hstay⟩
  | doCall f => exact absurd rfl (hcall f)
  | assertCount => exact ⟨[], rfl⟩
  | unparkIfParked => exact ⟨[], rfl⟩
  | iret => exact ⟨[], rfl⟩
  | create => exact ⟨[], rfl⟩
  | tick => exact ⟨[_, _], rfl⟩
  | wake => exact ⟨[_, _], rfl⟩
  | wakeupEnqueue => exact ⟨[_, _], rfl⟩
  | _ => exact ⟨[_], rfl⟩

/-- A frame leaves the code at the bottom alone or enters the scheduler. -/
theorem FrameStep.base {frame : Frame} {rest : List Frame} (h : FrameStep v rest frame v') :
    v'.core.context.base = v.core.context.base ∨ ∃ f, v'.core.context.base = .internal f := by
  cases h with
  | doCall f => exact .inr ⟨f, rfl⟩
  | _ => exact .inl rfl

end TomatOS.Thread
