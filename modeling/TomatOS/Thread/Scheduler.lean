import TomatOS.Thread.Pool

/-! The scheduler of `kernel/thread/scheduler.c` on any number of cores, with the
timer interrupt of `kernel/arch/intr.c`. A core is at a point of some function,
with the points its callers return to below it; a step runs the code from one such
point to the next. Status exchanges, queue accesses and accesses to the fields of
the core that an interrupt can see are steps of their own. The scheduler timer is
not kept: an interrupt may come whenever the core has interrupts on, with any
callbacks. Switching contexts moves the points of a thread between its core and
its saved state. -/

namespace TomatOS.Thread

open Function (update)

/-- The functions a thread enters the scheduler with. -/
inductive Internal where
  | yield | park | exit
  deriving DecidableEq, Repr

/-- The timer callbacks that call the scheduler: `scheduler_timer_tick` and a
wakeup such as `sleep_wakeup_thread`. -/
inductive Callback where
  | tick
  | wake (t : ℕ)
  deriving DecidableEq, Repr

/-- The callers of `scheduler_preempt_disable` inside the kernel. -/
inductive Caller where
  | wakeup (t : ℕ)
  | call (f : Internal)
  | park (callback : Bool)
  | interrupt (callbacks : List Callback)
  deriving DecidableEq, Repr

/-- A point of a function that returns, on top of whatever called or was
interrupted by it. -/
inductive Frame where
  /-- `scheduler_preempt_disable` before its load of the count. -/
  | disable (caller : Caller)
  | disableStore (caller : Caller) (loaded : ℤ)
  /-- `scheduler_preempt_enable` before its load of the count. -/
  | enable
  | enableWant
  | decrement
  | decrementStore (loaded : ℤ)
  | assertCount
  | doCall (f : Internal)
  | setPark (callback : Bool)
  | reschedule
  | setWant
  | unparkIfParked
  | dispatch (callbacks : List Callback)
  | iret
  /-- `scheduler_wakeup_thread` before its status exchange and before the queue. -/
  | wakeupSwitch (t : ℕ)
  | wakeupEnqueue (t : ℕ)
  | create (name : String)
  deriving DecidableEq, Repr

/-- What the scheduler goes on to do with the thread it has dropped. -/
inductive Drop where
  | yield (t : ℕ)
  | park (t : ℕ)
  | exit (t : ℕ)
  deriving DecidableEq, Repr

/-- A point of the code at the bottom of a core's stack: boot code, thread code
with so many preemption disables outstanding, or a scheduler function. -/
inductive Base where
  | boot
  | code (t : ℕ) (disables : ℕ)
  /-- The thread's own call of `scheduler_preempt_disable`. -/
  | disable (t : ℕ) (disables : ℕ)
  | disableStore (t : ℕ) (disables : ℕ) (loaded : ℤ)
  | internal (f : Internal)
  | leaveSwitch (f : Internal) (t : ℕ)
  | saveExtended (k : Drop)
  | clearCurrent (k : Drop)
  | yieldEnqueue (t : ℕ)
  | parkCallback (t : ℕ)
  | callback (wakes : List ℕ) (ok : Bool) (t : ℕ)
  | restartSwitch (t : ℕ)
  | threadFree (t : ℕ)
  | schedule
  | preparePark
  | pop
  | corePark
  | unpark (t : ℕ)
  | execute (t : ℕ) (inheritTime : Bool)
  | executeSwitch (t : ℕ)
  | resume (t : ℕ)
  deriving DecidableEq, Repr

structure Context where
  frames : List Frame
  base : Base
  deriving DecidableEq, Repr

/-- `core_scheduler_context_t` with the interrupt flag of the core. A core whose
assertion failed is halted. -/
structure Core where
  queue : List ℕ
  current : Option ℕ
  parkCallback : Bool
  preemptCount : ℤ
  wantReschedule : Bool
  parked : Bool
  irq : Bool
  halted : Bool
  context : Context
  deriving DecidableEq, Repr

/-- What a step of one core can read and write. -/
structure View where
  core : Core
  pool : Pool
  saved : ℕ → Context

/-- The scheduler calls of thread and boot code. -/
inductive Op where
  | disable
  | enable
  | yield
  | park (callback : Bool)
  | exit
  | wakeup (t : ℕ)
  | reschedule
  | create (name : String)
  | start
  deriving DecidableEq, Repr

/-- What happens next on a core: its code goes on, thread or boot code makes a
call, the parking callback wakes threads and returns, or the timer interrupts. -/
inductive Choice where
  | next
  | op (o : Op)
  | callback (wakes : List ℕ) (ok : Bool)
  | interrupt (callbacks : List Callback)
  deriving DecidableEq, Repr

/-- The core cannot do this now. -/
inductive Disabled where
  | disabled
  deriving DecidableEq, Repr

namespace View

def setFrames (v : View) (frames : List Frame) : View :=
  { v with core := { v.core with context := ⟨frames, v.core.context.base⟩ } }

/-- Go to a point with nothing on top of it. -/
def setBase (v : View) (base : Base) : View :=
  { v with core := { v.core with context := ⟨[], base⟩ } }

def halt (v : View) : View := { v with core := { v.core with halted := true } }

/-- `thread_switch_status`: one attempt at the exchange, after which the loop goes
on or its assertion halts the core. -/
def switchStatus (v : View) (t : ℕ) (old new : Status) (done : View → View) : View :=
  match v.pool.switchStatus t old new with
  | .ok pool => done { v with pool := pool }
  | .error .spinning => v
  | .error _ => v.halt

/-- The code behind a call of `scheduler_preempt_disable`. -/
def afterDisable : Caller → Frame
  | .wakeup t => .wakeupSwitch t
  | .call f => .doCall f
  | .park callback => .setPark callback
  | .interrupt callbacks => .dispatch callbacks

/-- `switch_to_scheduler`: the rest of the thread's frames become its saved state. -/
def switchToScheduler (v : View) (f : Internal) (rest : List Frame) : View :=
  match v.core.current with
  | none => v.halt
  | some t => { v with
      saved := update v.saved t ⟨rest, v.core.context.base⟩
      core := { v.core with context := ⟨[], .internal f⟩, irq := true } }

def runFrame (v : View) (rest : List Frame) : Frame → View
  | .disable caller => v.setFrames (.disableStore caller v.core.preemptCount :: rest)
  | .disableStore caller loaded =>
    { v with core := { v.core with preemptCount := loaded + 1 } }.setFrames
      (afterDisable caller :: rest)
  | .enable =>
    if v.core.preemptCount = 1 then v.setFrames (.enableWant :: rest)
    else v.setFrames (.decrement :: rest)
  | .enableWant =>
    if v.core.wantReschedule then v.setFrames (.doCall .yield :: rest)
    else v.setFrames (.decrement :: rest)
  | .decrement => v.setFrames (.decrementStore v.core.preemptCount :: rest)
  | .decrementStore loaded =>
    { v with core := { v.core with preemptCount := loaded - 1 } }.setFrames (.assertCount :: rest)
  | .assertCount => if 0 ≤ v.core.preemptCount then v.setFrames rest else v.halt
  | .doCall f => v.switchToScheduler f rest
  | .setPark callback =>
    { v with core := { v.core with parkCallback := callback } }.setFrames (.doCall .park :: rest)
  | .reschedule =>
    if v.core.preemptCount ≠ 0 then v.setFrames (.setWant :: rest)
    else if v.core.current = none then v.halt
    else v.setFrames (.disable (.call .yield) :: rest)
  | .setWant =>
    { v with core := { v.core with wantReschedule := true } }.setFrames (.unparkIfParked :: rest)
  | .unparkIfParked => { v with core := { v.core with parked := false } }.setFrames rest
  | .dispatch [] => v.setFrames (.enable :: rest)
  | .dispatch (.tick :: callbacks) => v.setFrames (.reschedule :: .dispatch callbacks :: rest)
  | .dispatch (.wake t :: callbacks) =>
    v.setFrames (.disable (.wakeup t) :: .dispatch callbacks :: rest)
  | .iret => { v with core := { v.core with irq := true } }.setFrames rest
  | .wakeupSwitch t =>
    v.switchStatus t .waiting .runnable fun v => v.setFrames (.wakeupEnqueue t :: rest)
  | .wakeupEnqueue t =>
    { v with core := { v.core with queue := t :: v.core.queue } }.setFrames
      (.reschedule :: .enable :: rest)
  | .create name =>
    match v.pool.threadCreate name with
    | .ok (t, pool) => { v with pool := pool, saved := update v.saved t ⟨[], .code t 0⟩ }.setFrames
        rest
    | .error _ => v.halt

/-- The exchange with which each internal function leaves the status `RUNNING`. -/
def leaveStatus : Internal → Status
  | .yield => .runnable
  | .park => .waiting
  | .exit => .dead

/-- The code behind that exchange. -/
def afterLeave : Internal → ℕ → Base
  | .yield, t => .saveExtended (.yield t)
  | .park, t => .saveExtended (.park t)
  -- an exiting thread needs no saved registers
  | .exit, t => .clearCurrent (.exit t)

def afterDrop : Drop → Base
  | .yield t => .yieldEnqueue t
  | .park t => .parkCallback t
  | .exit t => .threadFree t

/-- The code of a scheduler function or of the thread's own
`scheduler_preempt_disable`, when nothing runs on top of it. -/
def runBase (v : View) : Base → Except Disabled View
  | .boot => .error .disabled
  | .code _ _ => .error .disabled
  | .disable t disables => .ok (v.setBase (.disableStore t disables v.core.preemptCount))
  | .disableStore t disables loaded =>
    .ok ({ v with core := { v.core with preemptCount := loaded + 1 } }.setBase
      (.code t (disables + 1)))
  | .internal f =>
    if v.core.preemptCount = 1 ∧ v.core.irq = true then
      match v.core.current with
      | none => .ok v.halt
      | some t => .ok (v.setBase (.leaveSwitch f t))
    else .ok v.halt
  | .leaveSwitch f t =>
    .ok (v.switchStatus t .running (leaveStatus f) fun v => v.setBase (afterLeave f t))
  -- the registers themselves are not part of the model
  | .saveExtended k => .ok (v.setBase (.clearCurrent k))
  | .clearCurrent k =>
    .ok ({ v with core := { v.core with current := none } }.setBase (afterDrop k))
  | .yieldEnqueue t =>
    .ok ({ v with core := { v.core with queue := v.core.queue ++ [t] } }.setBase .schedule)
  | .parkCallback _ => if v.core.parkCallback then .error .disabled else .ok (v.setBase .schedule)
  | .callback (u :: wakes) ok t =>
    .ok ((v.setBase (.callback wakes ok t)).setFrames [.disable (.wakeup u)])
  | .callback [] ok t =>
    .ok ({ v with core := { v.core with parkCallback := false } }.setBase
      (if ok then .schedule else .restartSwitch t))
  | .restartSwitch t =>
    .ok (v.switchStatus t .waiting .runnable fun v => v.setBase (.execute t true))
  | .threadFree t => .ok ({ v with pool := v.pool.threadFree t }.setBase .schedule)
  -- the scheduler timer is cancelled
  | .schedule => .ok (v.setBase .preparePark)
  | .preparePark => .ok ({ v with core := { v.core with parked := true } }.setBase .pop)
  | .pop =>
    match v.core.queue with
    | [] => .ok (v.setBase .corePark)
    | t :: queue => .ok ({ v with core := { v.core with queue := queue } }.setBase (.unpark t))
  | .corePark => if v.core.parked then .ok v else .ok (v.setBase .preparePark)
  | .unpark t => .ok ({ v with core := { v.core with parked := false } }.setBase (.execute t false))
  -- interrupts are off from here to the return into the thread
  | .execute t _ =>
    .ok ({ v with core := { v.core with
      irq := false, wantReschedule := false, preemptCount := 0, current := some t } }.setBase
        (.executeSwitch t))
  | .executeSwitch t =>
    .ok (v.switchStatus t .runnable .running fun v => v.setBase (.resume t))
  | .resume t => .ok { v with core := { v.core with context := v.saved t, irq := true } }

/-- A call made by thread code. -/
def threadOp (v : View) (t disables : ℕ) : Op → Except Disabled View
  | .disable => .ok (v.setBase (.disable t disables))
  | .enable =>
    match disables with
    | 0 => .error .disabled
    | n + 1 => .ok ((v.setBase (.code t n)).setFrames [.enable])
  | .yield =>
    if v.core.preemptCount = 0 then .ok (v.setFrames [.disable (.call .yield)]) else .ok v.halt
  | .park callback =>
    if v.core.preemptCount = 0 ∧ v.core.current.map v.pool.status = some .running then
      .ok (v.setFrames [.disable (.park callback)])
    else .ok v.halt
  | .exit =>
    if v.core.preemptCount = 0 then .ok (v.setFrames [.disable (.call .exit)]) else .ok v.halt
  | .wakeup u => .ok (v.setFrames [.disable (.wakeup u)])
  | .reschedule => .ok (v.setFrames [.reschedule])
  | .create name => .ok (v.setFrames [.create name])
  | .start => .error .disabled

/-- A call made by boot code, the last being `scheduler_start_per_core`. -/
def bootOp (v : View) : Op → Except Disabled View
  | .wakeup u => .ok (v.setFrames [.disable (.wakeup u)])
  | .create name => .ok (v.setFrames [.create name])
  | .start =>
    if v.core.preemptCount = 1 then
      .ok ({ v with core := { v.core with irq := true } }.setBase .schedule)
    else .ok v.halt
  | _ => .error .disabled

def run (v : View) : Choice → Except Disabled View
  | .interrupt callbacks =>
    if v.core.irq then
      .ok ({ v with core := { v.core with irq := false } }.setFrames
        (.disable (.interrupt callbacks) :: .iret :: v.core.context.frames))
    else .error .disabled
  | .next =>
    match v.core.context.frames with
    | frame :: rest => .ok (v.runFrame rest frame)
    | [] => v.runBase v.core.context.base
  | .op o =>
    match v.core.context with
    | ⟨[], .code t disables⟩ => v.threadOp t disables o
    | ⟨[], .boot⟩ => v.bootOp o
    | _ => .error .disabled
  | .callback wakes ok =>
    match v.core.context with
    | ⟨[], .parkCallback t⟩ =>
      if v.core.parkCallback then .ok (v.setBase (.callback wakes ok t)) else .error .disabled
    | _ => .error .disabled

end View

/-! ### The cores together -/

variable {κ : Type} [DecidableEq κ]

structure Machine (κ : Type) where
  cores : κ → Core
  pool : Pool
  saved : ℕ → Context

structure Event (κ : Type) where
  core : κ
  choice : Choice

namespace Machine

def view (s : Machine κ) (c : κ) : View := ⟨s.cores c, s.pool, s.saved⟩

def step (s : Machine κ) (e : Event κ) : Except Disabled (Machine κ) :=
  if (s.cores e.core).halted then .error .disabled
  else do
    let v ← (s.view e.core).run e.choice
    return ⟨update s.cores e.core v.core, v.pool, v.saved⟩

/-- The cores after `scheduler_init_per_core`, with interrupts off and no thread
created. -/
def initial : Machine κ where
  cores := fun _ =>
    { queue := [], current := none, parkCallback := false, preemptCount := 1
      wantReschedule := false, parked := false, irq := false, halted := false
      context := ⟨[], .boot⟩ }
  pool := .initial
  -- read only after `thread_create` has written it
  saved := fun t => ⟨[], .code t 0⟩

end Machine

/-- The thread whose code a core is in, calls and interrupts of it included. -/
def Base.thread : Base → Option ℕ
  | .code t _ => some t
  | .disable t _ => some t
  | .disableStore t _ _ => some t
  | _ => none

def Core.Executes (core : Core) (t : ℕ) : Prop := core.context.base.thread = some t

instance (core : Core) (t : ℕ) : Decidable (core.Executes t) :=
  inferInstanceAs (Decidable (_ = _))

/-- The core creates a thread, wakes it, starts the scheduler and comes to execute
the thread, as the boot processor does with the init thread. -/
def startThread : List Choice :=
  [.op (.create "init thread"), .next, .op (.wakeup 0)] ++ List.replicate 11 .next ++
    [.op .start] ++ List.replicate 7 .next

end TomatOS.Thread
