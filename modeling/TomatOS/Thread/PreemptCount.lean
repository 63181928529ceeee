import TomatOS.Foundation.Transition
import TomatOS.Thread.Steps
import Mathlib.Tactic.Ring
import Mathlib.Tactic.NormNum

/-! The preemption count of a core follows from where its code is: every function
that has disabled preemption and not yet enabled it again adds one, thread code
adds its own outstanding disables, and boot and scheduler code run at one. An
interrupt between a load and a store of the count leaves the count as it was
loaded, and a thread is switched out only where its part is zero, so the count is
right again after every switch. -/

namespace TomatOS.Thread

/-- The disables a frame has made and will undo. -/
def Frame.weight : Frame → ℕ
  | .enable => 1
  | .enableWant => 1
  | .decrement => 1
  | .decrementStore _ => 1
  | .doCall _ => 1
  | .setPark _ => 1
  | .dispatch _ => 1
  | .wakeupSwitch _ => 1
  | .wakeupEnqueue _ => 1
  | _ => 0

def Base.weight : Base → ℕ
  | .code _ disables => disables
  | .disable _ disables => disables
  | .disableStore _ disables _ => disables
  | .executeSwitch _ => 0
  | .resume _ => 0
  | _ => 1

def heldBy (base : Base) : List Frame → ℕ
  | [] => base.weight
  | frame :: rest => frame.weight + heldBy base rest

def Context.held (x : Context) : ℕ := heldBy x.base x.frames

/-- What a frame knows of the count below it. -/
def Frame.Fits (below : ℕ) : Frame → Prop
  | .disable (.call _) => below = 0
  | .disable (.park _) => below = 0
  | .disableStore (.call _) loaded => loaded = 0 ∧ below = 0
  | .disableStore (.park _) loaded => loaded = 0 ∧ below = 0
  | .disableStore _ loaded => loaded = below
  | .enableWant => below = 0
  | .doCall _ => below = 0
  | .setPark _ => below = 0
  | .decrementStore loaded => loaded = below + 1
  | .setWant => below ≠ 0
  | _ => True

def FramesFit (base : Base) : List Frame → Prop
  | [] => True
  | frame :: rest => frame.Fits (heldBy base rest) ∧ FramesFit base rest

/-- What the code at the bottom knows of its core. -/
def Base.Fits (current : Option ℕ) (irq : Bool) (frames : List Frame) : Base → Prop
  | .code t _ => current = some t
  | .disable t _ => current = some t
  | .disableStore t disables loaded => current = some t ∧ loaded = disables
  | .internal _ => current ≠ none
  | .leaveSwitch _ t => current = some t
  | .executeSwitch t => current = some t ∧ irq = false ∧ frames = []
  | .resume t => current = some t ∧ irq = false ∧ frames = []
  | _ => True

structure Core.Sound (core : Core) : Prop where
  count : core.preemptCount = core.context.held
  frames : FramesFit core.context.base core.context.frames
  base : core.context.base.Fits core.current core.irq core.context.frames

/-- A saved context: code of its thread, switched out where the count is zero. -/
structure Context.SavedFor (t : ℕ) (x : Context) : Prop where
  thread : x.base.thread = some t
  held : x.held = 0
  frames : FramesFit x.base x.frames
  loaded : ∀ disables loaded, x.base = .disableStore t disables loaded → loaded = disables

structure View.Sound (v : View) : Prop where
  core : v.core.Sound
  saved : ∀ t, (v.saved t).SavedFor t

variable {v v' : View}

/-- Where the count is zero below some frame, the code at the bottom is a thread's
and is the one the core calls current. -/
theorem Core.Sound.thread_of_held {core : Core} (h : core.Sound) {rest : List Frame}
    (hf : core.context.frames ≠ []) (hz : heldBy core.context.base rest = 0) :
    ∃ t, core.current = some t ∧ (Context.mk rest core.context.base).base.thread = some t ∧
      ∀ disables loaded, core.context.base = .disableStore t disables loaded →
        loaded = disables := by
  have hw : core.context.base.weight = 0 := by
    induction rest with
    | nil => exact hz
    | cons frame rest ih =>
      simp only [heldBy] at hz
      exact ih (by omega)
  have hb := h.base
  cases hbase : core.context.base with
  | code t d =>
    rw [hbase] at hb
    exact ⟨t, hb, rfl, fun _ _ he => by cases he⟩
  | disable t d =>
    rw [hbase] at hb
    exact ⟨t, hb, rfl, fun _ _ he => by cases he⟩
  | disableStore t d loaded =>
    rw [hbase] at hb
    exact ⟨t, hb.1, rfl, fun _ _ he => by cases he; exact hb.2⟩
  | executeSwitch t =>
    rw [hbase] at hb
    exact absurd hb.2.2 hf
  | resume t =>
    rw [hbase] at hb
    exact absurd hb.2.2 hf
  | _ => simp [hbase, Base.weight] at hw

theorem heldBy_le_append (base : Base) (above below : List Frame) :
    heldBy base below ≤ heldBy base (above ++ below) := by
  induction above with
  | nil => exact le_rfl
  | cons frame above ih =>
    rw [List.cons_append, heldBy]
    omega

/-! ### What a step keeps -/

theorem savedFor_update {saved : ℕ → Context} (h : ∀ u, (saved u).SavedFor u) {t : ℕ} {x : Context}
    (hx : x.SavedFor t) (u : ℕ) : (Function.update saved t x u).SavedFor u := by
  by_cases hu : u = t
  · subst hu
    rwa [Function.update_self]
  · rw [Function.update_of_ne hu]
    exact h u

/-- Thread code that is switched back in belongs to the current thread. -/
theorem Context.SavedFor.fits {t : ℕ} {x : Context} (h : x.SavedFor t) {current : Option ℕ}
    (hcur : current = some t) (irq : Bool) (frames : List Frame) :
    x.base.Fits current irq frames := by
  obtain ⟨xs, base⟩ := x
  have hthread := h.thread
  cases base with
  | code u d =>
    obtain rfl := Option.some.inj hthread
    exact hcur
  | disable u d =>
    obtain rfl := Option.some.inj hthread
    exact hcur
  | disableStore u d loaded =>
    obtain rfl := Option.some.inj hthread
    exact ⟨hcur, h.loaded d loaded rfl⟩
  | _ => cases hthread

theorem fresh_savedFor (t : ℕ) : (Context.mk [] (.code t 0)).SavedFor t :=
  ⟨rfl, rfl, trivial, fun _ _ he => by cases he⟩

/-- Fields that a step may change without touching the count or the context. -/
theorem View.Sound.congr (h : v.Sound) {core : Core} {pool : Pool}
    (hc : core.context = v.core.context) (hp : core.preemptCount = v.core.preemptCount)
    (hcur : core.current = v.core.current) (hirq : core.irq = v.core.irq) :
    View.Sound ⟨core, pool, v.saved⟩ := by
  refine ⟨⟨?_, ?_, ?_⟩, h.saved⟩
  · rw [hp, hc]
    exact h.core.count
  · rw [hc]
    exact h.core.frames
  · have hb := h.core.base
    rwa [← hc, ← hcur, ← hirq] at hb

theorem View.Sound.halt (h : v.Sound) : v.halt.Sound := h.congr rfl rfl rfl rfl

theorem Base.Fits.setFrames {base : Base} {current : Option ℕ} {irq : Bool} {frames : List Frame}
    (hb : base.Fits current irq frames) (hf : frames ≠ []) (irq' : Bool) (frames' : List Frame) :
    base.Fits current irq' frames' := by
  cases base with
  | executeSwitch t => exact absurd hb.2.2 hf
  | resume t => exact absurd hb.2.2 hf
  | _ => exact hb

/-- The common shape of a frame's step: the frame is replaced by others and fields
other than the current thread may change. -/
theorem View.Sound.replace (h : v.Sound) {frame : Frame} {rest : List Frame}
    (hframes : v.core.context.frames = frame :: rest) {core : Core} {frames : List Frame}
    {pool : Pool} (hctx : core.context = ⟨frames, v.core.context.base⟩)
    (hcur : core.current = v.core.current)
    (hcount : core.preemptCount = heldBy v.core.context.base frames)
    (hfit : FramesFit v.core.context.base rest → FramesFit v.core.context.base frames) :
    View.Sound ⟨core, pool, v.saved⟩ := by
  have hrest : FramesFit v.core.context.base rest := by
    have := h.core.frames
    rw [hframes] at this
    exact this.2
  refine ⟨⟨?_, ?_, ?_⟩, h.saved⟩
  · rw [hcount, hctx]
    rfl
  · simp only
    rw [hctx]
    exact hfit hrest
  · have hb := h.core.base
    rw [hframes] at hb
    simp only [hctx, hcur]
    exact hb.setFrames (List.cons_ne_nil _ _) _ _

theorem View.Sound.count_frame (h : v.Sound) {frame : Frame} {rest : List Frame}
    (hframes : v.core.context.frames = frame :: rest) :
    v.core.preemptCount = frame.weight + heldBy v.core.context.base rest := by
  have hcount := h.core.count
  rw [Context.held, hframes, heldBy] at hcount
  exact_mod_cast hcount

theorem View.Sound.fits_frame (h : v.Sound) {frame : Frame} {rest : List Frame}
    (hframes : v.core.context.frames = frame :: rest) :
    frame.Fits (heldBy v.core.context.base rest) := by
  have hfits := h.core.frames
  rw [hframes] at hfits
  exact hfits.1

/-- The frames that replace another hold the count that it held. -/
theorem View.Sound.move (h : v.Sound) {frame : Frame} {rest : List Frame}
    (hframes : v.core.context.frames = frame :: rest) {core : Core} {frames : List Frame}
    {pool : Pool} (hctx : core.context = ⟨frames, v.core.context.base⟩)
    (hcur : core.current = v.core.current) (hcount : core.preemptCount = v.core.preemptCount)
    (hheld : heldBy v.core.context.base frames = heldBy v.core.context.base (frame :: rest))
    (hfit : FramesFit v.core.context.base rest → FramesFit v.core.context.base frames) :
    View.Sound ⟨core, pool, v.saved⟩ := by
  refine h.replace hframes hctx hcur ?_ hfit
  rw [hcount, h.count_frame hframes, hheld, heldBy]
  push_cast
  rfl

theorem FrameStep.sound (h : v.Sound) {frame : Frame} {rest : List Frame}
    (hframes : v.core.context.frames = frame :: rest) (hs : FrameStep v rest frame v') :
    v'.Sound := by
  have hcount := h.count_frame hframes
  have hfit := h.fits_frame hframes
  cases hs with
  | halt => exact h.halt
  | spin t => exact h
  | disable caller =>
    refine h.move hframes rfl rfl rfl rfl fun hr => ⟨?_, hr⟩
    cases caller <;> simp_all [Frame.Fits, Frame.weight]
  | disableStore caller loaded =>
    have hl : loaded = heldBy v.core.context.base rest := by
      cases caller <;> simp_all [Frame.Fits]
    refine h.replace hframes rfl rfl ?_ fun hr => ⟨?_, hr⟩
    · cases caller <;> simp [heldBy, Frame.weight, View.afterDisable, hl, add_comm]
    · cases caller <;> simp_all [Frame.Fits, View.afterDisable]
  | outermost hone =>
    refine h.move hframes rfl rfl rfl rfl fun hr => ⟨?_, hr⟩
    simp only [Frame.Fits, Frame.weight] at hcount ⊢
    omega
  | wanted => exact h.move hframes rfl rfl rfl rfl fun hr => ⟨hfit, hr⟩
  | decrement =>
    refine h.move hframes rfl rfl rfl rfl fun hr => ⟨?_, hr⟩
    simp only [Frame.Fits, hcount, Frame.weight]
    push_cast
    ring
  | decrementStore loaded =>
    refine h.replace hframes rfl rfl ?_ fun hr => ⟨trivial, hr⟩
    simp only [Frame.Fits] at hfit
    simp [heldBy, Frame.weight, hfit]
  | assertCount => exact h.move hframes rfl rfl rfl (zero_add _).symm id
  | doCall f u hu =>
    obtain ⟨t, hcur, hthread, hloaded⟩ := h.core.thread_of_held (by simp [hframes]) hfit
    obtain rfl : t = u := Option.some.inj (hcur.symm.trans hu)
    have hrest := h.core.frames
    rw [hframes] at hrest
    refine ⟨⟨?_, trivial, ?_⟩, savedFor_update h.saved ⟨hthread, hfit, hrest.2, hloaded⟩⟩
    · simpa [Context.held, heldBy, Base.weight, Frame.weight, show heldBy _ rest = 0 from hfit]
        using hcount
    · simp [Base.Fits, hcur]
  | setPark callback => exact h.move hframes rfl rfl rfl rfl fun hr => ⟨hfit, hr⟩
  | request hne =>
    refine h.move hframes rfl rfl rfl rfl fun hr => ⟨?_, hr⟩
    simp only [Frame.Fits, Frame.weight] at hcount ⊢
    omega
  | yield hzero =>
    refine h.move hframes rfl rfl rfl rfl fun hr => ⟨?_, hr⟩
    simp only [Frame.Fits, Frame.weight] at hcount ⊢
    omega
  | unparkIfParked => exact h.move hframes rfl rfl rfl (zero_add _).symm id
  | tick callbacks =>
    exact h.move hframes rfl rfl rfl (zero_add _) fun hr => ⟨trivial, trivial, hr⟩
  | wake t callbacks =>
    exact h.move hframes rfl rfl rfl (zero_add _) fun hr => ⟨trivial, trivial, hr⟩
  | iret => exact h.move hframes rfl rfl rfl (zero_add _).symm id
  | wakeupEnqueue t =>
    exact h.move hframes rfl rfl rfl (zero_add _) fun hr => ⟨trivial, trivial, hr⟩
  | create name t pool =>
    have hfresh : View.Sound ⟨v.core, v.pool, Function.update v.saved t ⟨[], .code t 0⟩⟩ :=
      ⟨h.core, savedFor_update h.saved (fresh_savedFor t)⟩
    exact hfresh.move hframes rfl rfl rfl (zero_add _).symm id
  | _ => exact h.move hframes rfl rfl rfl rfl fun hr => ⟨trivial, hr⟩

/-- The common shape of a step of the code at the bottom: it goes to another point,
possibly calling a function there. -/
theorem View.Sound.rebase (h : v.Sound) {core : Core} {frames : List Frame} {base : Base}
    {pool : Pool} (hctx : core.context = ⟨frames, base⟩)
    (hcount : core.preemptCount = heldBy base frames) (hfit : FramesFit base frames)
    (hbase : base.Fits core.current core.irq frames) : View.Sound ⟨core, pool, v.saved⟩ := by
  refine ⟨⟨?_, ?_, ?_⟩, h.saved⟩
  · rw [hcount, hctx]
    rfl
  · simp only [hctx]
    exact hfit
  · simp only [hctx]
    exact hbase

theorem BaseStep.sound (h : v.Sound) {base : Base} (hctx : v.core.context = ⟨[], base⟩)
    (hs : BaseStep v base v') : v'.Sound := by
  have hcount := h.core.count
  have hfit := h.core.base
  rw [hctx] at hcount hfit
  cases hs with
  | halt => exact h.halt
  | spin => exact h
  | disable t d => exact h.rebase rfl hcount trivial ⟨hfit, hcount⟩
  | disableStore t d loaded =>
    exact h.rebase rfl (by simp [heldBy, Base.weight, hfit.2]) trivial hfit.1
  | internal f t _ hcur => exact h.rebase rfl hcount trivial hcur
  | leaveSwitch f t =>
    refine h.rebase rfl ?_ trivial ?_
    · cases f <;> exact hcount
    · cases f <;> trivial
  | clearCurrent k =>
    refine h.rebase rfl ?_ trivial ?_
    · cases k <;> exact hcount
    · cases k <;> trivial
  | wake u wakes ok t => exact h.rebase rfl hcount ⟨trivial, trivial⟩ trivial
  | execute t inherit => exact h.rebase rfl rfl trivial ⟨rfl, rfl, rfl⟩
  | executeSwitch t => exact h.rebase rfl hcount trivial ⟨hfit.1, hfit.2.1, rfl⟩
  | resume t =>
    have hsaved := h.saved t
    refine h.rebase rfl ?_ hsaved.frames (hsaved.fits hfit.1 _ _)
    rw [hcount, show heldBy _ _ = 0 from hsaved.held]
    rfl
  | _ => exact h.rebase rfl hcount trivial trivial

/-- A function that is called has not disabled preemption yet, and fits the count it is
called with. -/
theorem Enters.fits {o : Op} {frame : Frame} (h : Enters v o frame) {below : ℕ}
    (hcount : v.core.preemptCount = below) : frame.weight = 0 ∧ frame.Fits below := by
  have hzero : v.core.preemptCount = 0 → below = 0 := by omega
  cases h with
  | yield hz => exact ⟨rfl, hzero hz⟩
  | park callback hz => exact ⟨rfl, hzero hz⟩
  | exit hz => exact ⟨rfl, hzero hz⟩
  | _ => exact ⟨rfl, trivial⟩

theorem View.Sound.call (h : v.Sound) {base : Base} (hctx : v.core.context = ⟨[], base⟩)
    {o : Op} {frame : Frame} (ho : Enters v o frame)
    (hbase : base.Fits v.core.current v.core.irq [frame]) : (v.setFrames [frame]).Sound := by
  have hcount := h.core.count
  rw [hctx] at hcount
  have hcall : (v.setFrames [frame]).core.context = ⟨[frame], base⟩ := by
    simp only [View.setFrames, hctx]
  obtain ⟨hweight, hfit⟩ := ho.fits hcount
  refine h.rebase hcall ?_ ⟨hfit, trivial⟩ hbase
  rw [heldBy, hweight, zero_add]
  exact hcount

theorem OpStep.sound (h : v.Sound) {base : Base} (hctx : v.core.context = ⟨[], base⟩) {o : Op}
    (hs : OpStep v base o v') : v'.Sound := by
  have hcount := h.core.count
  have hfit := h.core.base
  rw [hctx] at hcount hfit
  cases hs with
  | halt => exact h.halt
  | disable t d => exact h.rebase rfl hcount trivial hfit
  | enable t d =>
    refine h.rebase rfl ?_ ⟨trivial, trivial⟩ hfit
    simp only [View.setBase, hcount, Context.held, heldBy, Frame.weight, Base.weight]
    push_cast
    ring
  | call t d o frame ho => exact h.call hctx ho hfit
  | bootCall o frame ho => exact h.call hctx ho trivial
  | start hone => exact h.rebase rfl hone trivial trivial

theorem interrupt_sound (h : v.Sound) (hirq : v.core.irq = true) (callbacks : List Callback) :
    View.Sound ({ v with core := { v.core with irq := false } }.setFrames
      (.disable (.interrupt callbacks) :: .iret :: v.core.context.frames)) := by
  refine ⟨⟨?_, ⟨trivial, trivial, h.core.frames⟩, ?_⟩, h.saved⟩
  · simpa [View.setFrames, Context.held, heldBy, Frame.weight] using h.core.count
  · have hb := h.core.base
    simp only [View.setFrames]
    cases hbase : v.core.context.base with
    | executeSwitch t =>
      rw [hbase, hirq] at hb
      cases hb.2.1
    | resume t =>
      rw [hbase, hirq] at hb
      cases hb.2.1
    | _ =>
      rw [hbase] at hb
      exact hb

theorem Step.sound (h : v.Sound) {choice : Choice} (hs : Step v choice v') : v'.Sound := by
  cases hs with
  | interrupt callbacks hirq => exact interrupt_sound h hirq callbacks
  | frame hframes hs => exact hs.sound h hframes
  | base hctx hs => exact hs.sound h hctx
  | op hctx hs => exact hs.sound h hctx
  | callback wakes ok t hctx =>
    have hcount := h.core.count
    rw [hctx] at hcount
    exact h.rebase rfl hcount trivial trivial

/-! ### Every core of every run -/

variable {κ : Type} [DecidableEq κ]

structure Machine.Sound (s : Machine κ) : Prop where
  cores : ∀ c, (s.cores c).Sound
  saved : ∀ t, (s.saved t).SavedFor t

omit [DecidableEq κ] in
theorem initial_sound : (Machine.initial : Machine κ).Sound :=
  ⟨fun _ => ⟨rfl, trivial, trivial⟩, fresh_savedFor⟩

omit [DecidableEq κ] in
theorem Machine.Sound.view {s : Machine κ} (h : s.Sound) (c : κ) : (s.view c).Sound :=
  ⟨h.cores c, h.saved⟩

theorem step_sound {s s' : Machine κ} (h : s.Sound) {e : Event κ} (hs : s.step e = .ok s') :
    s'.Sound := by
  constructor
  · exact Machine.step_cores hs h.cores fun v hv => (hv.sound (h.view e.core)).core
  · obtain ⟨-, v, hv, rfl⟩ := Machine.step_cases hs
    exact (hv.sound (h.view e.core)).saved

/-- The frames of a timer interrupt, with a reschedule request it makes. -/
def Frame.ofHandler : Frame → Bool
  | .dispatch _ => true
  | .iret => true
  | .reschedule => true
  | .setWant => true
  | .unparkIfParked => true
  | _ => false

/-- A timer interrupt handler between its disable and its enable. -/
def Frame.handles : Frame → Bool
  | .dispatch _ => true
  | _ => false

theorem heldBy_eq_sum (base : Base) (frames : List Frame) :
    heldBy base frames = base.weight + (frames.map Frame.weight).sum := by
  induction frames with
  | nil => rfl
  | cons frame rest ih =>
    rw [heldBy, ih, List.map_cons, List.sum_cons]
    omega

/-- Of the frames of a handler, only the handler itself has disabled preemption. -/
theorem sum_weight_handlers {frames : List Frame}
    (h : ∀ frame ∈ frames, frame.ofHandler = true) :
    (frames.map Frame.weight).sum = frames.countP Frame.handles := by
  induction frames with
  | nil => rfl
  | cons frame rest ih =>
    have hrest := ih fun g hg => h g (List.mem_cons_of_mem _ hg)
    have hframe := h frame List.mem_cons_self
    have hweight : frame.weight = if frame.handles = true then 1 else 0 := by
      cases frame with
      | dispatch callbacks => rfl
      | iret => rfl
      | reschedule => rfl
      | setWant => rfl
      | unparkIfParked => rfl
      | _ => cases hframe
    rw [List.map_cons, List.sum_cons, hrest, List.countP_cons, hweight]
    omega

/-- In every run, on every core: the count is never negative, the internal functions are
entered at one with a current thread, and in thread code it is the number of disables
the thread has outstanding, with one more for each interrupt handler above it and for
each scheduler call in progress that has disabled preemption. -/
theorem preempt_count_tracks (s : Machine κ)
    (h : Foundation.Transition.Reaches Machine.step (fun _ _ => True) Machine.initial s) (c : κ) :
    0 ≤ (s.cores c).preemptCount ∧
    (∀ f, (s.cores c).context = ⟨[], .internal f⟩ →
      (s.cores c).preemptCount = 1 ∧ (s.cores c).current ≠ none) ∧
    (∀ t d frames, (s.cores c).context = ⟨frames, .code t d⟩ →
      (∀ frame ∈ frames, frame.ofHandler = true) →
      (s.cores c).preemptCount = d + frames.countP Frame.handles) ∧
    (∀ t d frames, (s.cores c).context = ⟨frames, .code t d⟩ →
      (s.cores c).preemptCount = d + (frames.map Frame.weight).sum) := by
  have hsound : s.Sound := by
    apply h.invariant (motive := fun s => s.Sound)
    · exact initial_sound
    · intro u e w hu _ hw
      exact step_sound hu hw
  have hcore := hsound.cores c
  have hcode : ∀ t d frames, (s.cores c).context = ⟨frames, .code t d⟩ →
      (s.cores c).preemptCount = d + (frames.map Frame.weight).sum := by
    intro t d frames hctx
    rw [hcore.count, hctx, Context.held, heldBy_eq_sum]
    exact Nat.cast_add d _
  refine ⟨?_, ?_, ?_, hcode⟩
  · rw [hcore.count]
    exact Int.natCast_nonneg _
  · intro f hctx
    have hcount := hcore.count
    have hbase := hcore.base
    rw [hctx] at hcount hbase
    exact ⟨hcount, hbase⟩
  · intro t d frames hctx hframes
    rw [hcode t d frames hctx, sum_weight_handlers hframes]

/-- A tick interrupts a thread that has disabled preemption once. -/
def tickInDisabled : List Choice :=
  startThread ++ [.op .disable, .next, .next, .interrupt [.tick], .next, .next, .next]

/-- The count is one for the thread and one for the handler. -/
theorem tick_count_two :
    ∃ s : Machine (Fin 1),
      Foundation.Transition.Reaches Machine.step (fun _ _ => True) Machine.initial s ∧
      (s.cores 0).context = ⟨[.reschedule, .dispatch [], .iret], .code 0 1⟩ ∧
      (s.cores 0).preemptCount = 1 + 1 := by
  have hrun : Foundation.Transition.leadsTo Machine.step (fun _ _ => true)
      (fun s : Machine (Fin 1) => decide
        ((s.cores 0).context = ⟨[.reschedule, .dispatch [], .iret], .code 0 1⟩))
      Machine.initial (tickInDisabled.map (Event.mk 0)) = true := by decide +kernel
  obtain ⟨s, hs, hctx⟩ := Foundation.Transition.reaches_of_leadsTo (fun _ _ => True) (by simp) hrun
  rw [decide_eq_true_eq] at hctx
  exact ⟨s, hs, hctx, (preempt_count_tracks s hs 0).2.2.1 0 1 _ hctx (by decide)⟩

end TomatOS.Thread
