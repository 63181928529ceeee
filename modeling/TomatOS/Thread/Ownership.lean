import TomatOS.Foundation.Ledger
import TomatOS.Foundation.Transition
import TomatOS.Thread.PreemptCount

/-! Who owns a thread. The exchange that makes a thread runnable gives it to the
core that won the exchange, which carries it to a queue or into `scheduler_execute`;
the exchange that makes it running gives it to the core that executes it; the
exchange that makes it dead to the core that frees it. Each of the three statuses
is therefore matched by exactly one owner, whatever the other cores do in between,
and a thread with any other status has none. -/

namespace TomatOS.Thread

open Foundation Foundation.Transition

/-- The status for which the code at the bottom owns a thread. -/
def Base.owns (current : Option ℕ) : Base → Option (Status × ℕ)
  | .code t _ => some (.running, t)
  | .disable t _ => some (.running, t)
  | .disableStore t _ _ => some (.running, t)
  | .internal _ => current.map (.running, ·)
  | .leaveSwitch _ t => some (.running, t)
  | .saveExtended (.yield t) => some (.runnable, t)
  | .clearCurrent (.yield t) => some (.runnable, t)
  | .yieldEnqueue t => some (.runnable, t)
  | .saveExtended (.exit t) => some (.dead, t)
  | .clearCurrent (.exit t) => some (.dead, t)
  | .threadFree t => some (.dead, t)
  | .unpark t => some (.runnable, t)
  | .execute t _ => some (.runnable, t)
  | .executeSwitch t => some (.runnable, t)
  | .resume t => some (.running, t)
  | _ => none

def Base.ownsCount (current : Option ℕ) (st : Status) (t : ℕ) (base : Base) : ℕ :=
  if base.owns current = some (st, t) then 1 else 0

/-- How often a core owns a thread for a status: in its queue, on the way to the
queue in a wakeup, or by the code it runs. -/
def Core.owned (st : Status) (t : ℕ) (core : Core) : ℕ :=
  (if st = .runnable then
    core.queue.count t + core.context.frames.count (.wakeupEnqueue t) else 0) +
  core.context.base.ownsCount core.current st t

/-- The statuses that need an owner. -/
def Status.Owned (st : Status) : Prop := st = .runnable ∨ st = .running ∨ st = .dead

instance (st : Status) : Decidable st.Owned := inferInstanceAs (Decidable (_ ∨ _))

def Pool.has (p : Pool) (st : Status) (t : ℕ) : ℕ := if p.status t = st then 1 else 0

/-- What a step takes from its core it gives to it, or the status has changed. -/
def Balanced (v v' : View) : Prop :=
  ∀ st, st.Owned → ∀ t, v'.core.owned st t + v.pool.has st t =
    v.core.owned st t + v'.pool.has st t

/-- Where free structures are: idle, and below the top if on the freelist. -/
structure Pool.Spare (p : Pool) : Prop where
  free : ∀ t ∈ p.freelist, t < p.top ∧ p.status t = .idle
  fresh : ∀ t, p.top ≤ t → p.status t = .idle

variable {v v' : View}

/-! ### The pool -/

@[simp] theorem Pool.status_setStatus (p : Pool) (t : ℕ) (new : Status) (u : ℕ) :
    (p.setStatus t new).status u = if u = t then new else p.status u := by
  by_cases hu : u = t
  · subst hu
    simp [Pool.status, Pool.setStatus]
  · simp [Pool.status, Pool.setStatus, hu]

@[simp] theorem Pool.status_threadFree (p : Pool) (t u : ℕ) :
    (p.threadFree t).status u = if u = t then .idle else p.status u := by
  by_cases hu : u = t
  · subst hu
    simp [Pool.status, Pool.threadFree, Pool.zero, ThreadInfo.zero]
  · simp [Pool.status, Pool.threadFree, Pool.zero, hu]

theorem Pool.Spare.setStatus {p : Pool} (h : p.Spare) {t : ℕ} (ht : p.status t ≠ .idle)
    (new : Status) : (p.setStatus t new).Spare := by
  refine ⟨fun u hu => ?_, fun u hu => ?_⟩
  · have hf := h.free u hu
    have hne : u ≠ t := fun he => ht (he ▸ hf.2)
    exact ⟨hf.1, by simp [hne, hf.2]⟩
  · have hf := h.fresh u hu
    have hne : u ≠ t := fun he => ht (he ▸ hf)
    simp [hne, hf]

theorem Pool.Spare.threadFree {p : Pool} (h : p.Spare) {t : ℕ} (ht : p.status t ≠ .idle) :
    (p.threadFree t).Spare := by
  have htop : t < p.top := not_le.mp fun hle => ht (h.fresh t hle)
  refine ⟨fun u hu => ?_, fun u hu => ?_⟩
  · rcases List.mem_cons.mp hu with rfl | hu
    · exact ⟨htop, by simp⟩
    · have hf := h.free u hu
      exact ⟨hf.1, by simp [hf.2]⟩
  · simp [h.fresh u hu]

/-- A creation that succeeds takes the structure at the top and leaves it waiting. -/
theorem Pool.Spare.threadCreate {p : Pool} (h : p.Spare) {name : String} {t : ℕ} {p' : Pool}
    (hc : p.threadCreate name = .ok (t, p')) :
    p'.Spare ∧ p.status t = .idle ∧
      ∀ u, p'.status u = if u = t then .waiting else p.status u := by
  by_cases hf : p.freelist = []
  · by_cases htop : p.top < uint16Max
    · have hidle : p.status p.top = .idle := h.fresh _ le_rfl
      rw [Pool.threadCreate_fresh hf htop hidle name] at hc
      obtain ⟨rfl, rfl⟩ := Prod.mk.inj (Except.ok.inj hc)
      have hst : ∀ u, Pool.status ⟨Function.update p.threads p.top (Pool.created name p.top),
          p.top + 1, []⟩ u = if u = p.top then .waiting else p.status u := by
        intro u
        by_cases hu : u = p.top
        · simp [Pool.status, hu, Pool.created]
        · simp [Pool.status, hu]
      refine ⟨⟨fun u hu => ?_, fun u hu => ?_⟩, hidle, hst⟩
      · cases hu
      · have hlt : p.top + 1 ≤ u := hu
        rw [hst, if_neg (by omega)]
        exact h.fresh u (by omega)
    · rw [Pool.threadCreate_full hf htop name] at hc
      cases hc
  · rw [Pool.threadCreate_recycled hf name] at hc
    cases hc

/-! ### What a step keeps -/

/-- A step balances its core's ownership and keeps the free structures free. -/
structure Keeps (v v' : View) : Prop where
  balanced : Balanced v v'
  spare : v'.pool.Spare

theorem Keeps.refl (hp : v.pool.Spare) : Keeps v v := ⟨fun _ _ _ => rfl, hp⟩

theorem Keeps.halt (hp : v.pool.Spare) : Keeps v v.halt := ⟨fun _ _ _ => rfl, hp⟩

/-- A step that moves no thread. -/
theorem Keeps.of_owned (hp : v.pool.Spare) {core : Core} {saved : ℕ → Context}
    (h : ∀ st t, core.owned st t = v.core.owned st t) : Keeps v ⟨core, v.pool, saved⟩ :=
  ⟨fun st _ t => by rw [h st t], hp⟩

/-- The exchange of a status, with the thread passing to or from the core. -/
theorem Keeps.of_exchange (hp : v.pool.Spare) {core : Core} {saved : ℕ → Context} {t : ℕ}
    {old : Status} (hst : v.pool.status t = old) (hidle : old ≠ .idle) {new : Status}
    (hother : ∀ st, st.Owned → ∀ u, u ≠ t → core.owned st u = v.core.owned st u)
    (hself : ∀ st, st.Owned → core.owned st t + (if old = st then 1 else 0) =
      v.core.owned st t + if new = st then 1 else 0) :
    Keeps v ⟨core, v.pool.setStatus t new, saved⟩ := by
  refine ⟨fun st hs u => ?_, hp.setStatus (by rwa [hst]) new⟩
  by_cases hu : u = t
  · subst hu
    simpa [Pool.has, hst] using hself st hs
  · simp [Pool.has, hu, hother st hs u hu]

theorem count_wakeupEnqueue_of_held {base : Base} {frames : List Frame}
    (h : heldBy base frames = 0) (t : ℕ) : frames.count (.wakeupEnqueue t) = 0 := by
  induction frames with
  | nil => rfl
  | cons frame rest ih =>
    simp only [heldBy] at h
    rw [List.count_cons, ih (by omega)]
    cases frame <;> simp_all [Frame.weight]

theorem Base.owns_of_thread {base : Base} {t : ℕ} (h : base.thread = some t)
    (current : Option ℕ) : base.owns current = some (.running, t) := by
  cases base with
  | code u d =>
    obtain rfl := Option.some.inj h
    rfl
  | disable u d =>
    obtain rfl := Option.some.inj h
    rfl
  | disableStore u d loaded =>
    obtain rfl := Option.some.inj h
    rfl
  | _ => cases h

theorem FrameStep.keeps (h : v.Sound) (hp : v.pool.Spare) {frame : Frame} {rest : List Frame}
    (hframes : v.core.context.frames = frame :: rest) (hs : FrameStep v rest frame v') :
    Keeps v v' := by
  cases hs with
  | halt => exact .halt hp
  | spin t => exact .refl hp
  | disableStore caller loaded =>
    refine .of_owned hp fun st t => ?_
    cases caller <;> simp [Core.owned, hframes, View.afterDisable]
  | doCall f u hu =>
    have hz : heldBy v.core.context.base rest = 0 := h.fits_frame hframes
    obtain ⟨t, hcur, hthread, -⟩ := h.core.thread_of_held (by simp [hframes]) hz
    -- the thread passes from its own code to the internal function
    have howns := Base.owns_of_thread hthread (some t)
    have hcall : (Base.internal f).owns (some t) = some (.running, t) := rfl
    refine .of_owned hp fun st u => ?_
    simp [Core.owned, hframes, count_wakeupEnqueue_of_held hz, Base.ownsCount, hcur, howns, hcall]
  | wakeupSwitch t hst =>
    refine .of_exchange hp hst (by decide) (fun st _ u hu => ?_) fun st hs => ?_
    · simp [Core.owned, hframes, Ne.symm hu]
    · rcases hs with rfl | rfl | rfl <;> simp [Core.owned, hframes]
      omega
  | wakeupEnqueue t =>
    refine .of_owned hp fun st u => ?_
    by_cases hu : t = u
    · subst hu
      by_cases hs : st = .runnable
      · simp [Core.owned, hframes, hs]
        omega
      · simp [Core.owned, hs]
    · simp [Core.owned, hframes, hu]
  | create name t pool hc =>
    obtain ⟨hspare, hidle, hst⟩ := hp.threadCreate hc
    refine ⟨fun st hs u => ?_, hspare⟩
    have hhas : pool.has st u = v.pool.has st u := by
      by_cases hu : u = t
      · subst hu
        rcases hs with rfl | rfl | rfl <;> simp [Pool.has, hst, hidle]
      · simp [Pool.has, hst, hu]
    simp [Core.owned, hframes, View.setFrames, hhas]
  | _ => exact .of_owned hp fun st t => by simp [Core.owned, hframes]

theorem owned_of_nil {core : Core} {base : Base} (h : core.context = ⟨[], base⟩) (st : Status)
    (t : ℕ) : core.owned st t = (if st = .runnable then core.queue.count t else 0) +
      base.ownsCount core.current st t := by
  simp [Core.owned, h]

/-- Steps of the code at the bottom that move no thread. -/
theorem Keeps.of_base (hp : v.pool.Spare) {base : Base} (hctx : v.core.context = ⟨[], base⟩)
    {core : Core} {base' : Base} {frames : List Frame} {saved : ℕ → Context}
    (hctx' : core.context = ⟨frames, base'⟩) (hq : core.queue = v.core.queue)
    (hframes : ∀ t, frames.count (.wakeupEnqueue t) = 0)
    (howns : base'.owns core.current = base.owns v.core.current) :
    Keeps v ⟨core, v.pool, saved⟩ := by
  refine .of_owned hp fun st t => ?_
  rw [owned_of_nil hctx]
  simp [Core.owned, hctx', hq, hframes, Base.ownsCount, howns]

theorem ownsCount_of_owns {base : Base} {current : Option ℕ} {old : Status} {t : ℕ}
    (h : base.owns current = if old.Owned then some (old, t) else none) {st : Status}
    (hs : st.Owned) (u : ℕ) :
    base.ownsCount current st u = if old = st ∧ t = u then 1 else 0 := by
  rw [Base.ownsCount, h]
  by_cases ho : old.Owned
  · simp [ho]
  · have hne : old ≠ st := by
      rintro rfl
      exact ho hs
    simp [ho, hne]

/-- An exchange by the code at the bottom. -/
theorem Keeps.of_baseExchange (hp : v.pool.Spare) {base base' : Base}
    (hctx : v.core.context = ⟨[], base⟩) {t : ℕ} {old new : Status}
    (hst : v.pool.status t = old) (hidle : old ≠ .idle)
    (hold : base.owns v.core.current = if old.Owned then some (old, t) else none)
    (hnew : base'.owns v.core.current = if new.Owned then some (new, t) else none) :
    Keeps v (View.setBase { v with pool := v.pool.setStatus t new } base') := by
  refine .of_exchange hp hst hidle (fun st hs u hu => ?_) fun st hs => ?_
  · rw [owned_of_nil hctx, owned_of_nil rfl, ownsCount_of_owns hold hs, ownsCount_of_owns hnew hs]
    simp [Ne.symm hu]
  · rw [owned_of_nil hctx, owned_of_nil rfl, ownsCount_of_owns hold hs, ownsCount_of_owns hnew hs]
    simp only [and_true]
    omega

/-- Where the core's threads are backed by their statuses, the code at the bottom
keeps the balance. -/
theorem BaseStep.keeps (h : v.Sound) (hp : v.pool.Spare)
    (hback : ∀ st, st.Owned → ∀ t, 0 < v.core.owned st t → v.pool.status t = st)
    {base : Base} (hctx : v.core.context = ⟨[], base⟩) (hs : BaseStep v base v') :
    Keeps v v' := by
  have hnil : ∀ t, ([] : List Frame).count (.wakeupEnqueue t) = 0 := fun _ => rfl
  cases hs with
  | halt => exact .halt hp
  | spin => exact .refl hp
  | internal f t _ hcur =>
    refine .of_base hp hctx rfl rfl hnil ?_
    simp [Base.owns, hcur]
  | leaveSwitch f t hst =>
    refine .of_baseExchange hp hctx hst (by decide) rfl ?_
    cases f <;> rfl
  | saveExtended k =>
    refine .of_base hp hctx rfl rfl hnil ?_
    cases k <;> rfl
  | clearCurrent k =>
    refine .of_base hp hctx rfl rfl hnil ?_
    cases k <;> rfl
  | yieldEnqueue t =>
    refine .of_owned hp fun st u => ?_
    rw [owned_of_nil hctx, owned_of_nil rfl]
    by_cases hs : st = .runnable
    · by_cases hu : t = u
      · simp [hs, hu, Base.ownsCount, Base.owns]
      · simp [hs, hu, Base.ownsCount, Base.owns]
    · simp [hs, Ne.symm hs, Base.ownsCount, Base.owns]
  | wake u wakes ok t => exact .of_base hp hctx rfl rfl (fun t => by simp) rfl
  | restartSwitch t hst => exact .of_baseExchange hp hctx hst (by decide) rfl rfl
  | threadFree t =>
    have hst : v.pool.status t = .dead := by
      apply hback .dead (Or.inr (Or.inr rfl)) t
      rw [owned_of_nil hctx]
      simp [Base.ownsCount, Base.owns]
    refine ⟨fun st hs u => ?_, hp.threadFree (by rw [hst]; decide)⟩
    rw [owned_of_nil hctx, owned_of_nil rfl]
    by_cases hu : t = u
    · subst hu
      rcases hs with rfl | rfl | rfl <;>
        simp [Pool.has, hst, Base.ownsCount, Base.owns, View.setBase]
    · simp [Pool.has, Ne.symm hu, hu, Base.ownsCount, Base.owns, View.setBase]
  | pop t queue hq =>
    refine .of_owned hp fun st u => ?_
    rw [owned_of_nil hctx, owned_of_nil rfl]
    by_cases hs : st = .runnable
    · by_cases hu : t = u
      · simp [hs, hu, hq, Base.ownsCount, Base.owns]
      · simp [hs, hu, hq, Base.ownsCount, Base.owns]
    · simp [hs, Ne.symm hs, Base.ownsCount, Base.owns]
  | executeSwitch t hst => exact .of_baseExchange hp hctx hst (by decide) rfl rfl
  | resume t =>
    have hsaved := h.saved t
    exact .of_base hp hctx rfl rfl (count_wakeupEnqueue_of_held hsaved.held)
      (Base.owns_of_thread hsaved.thread _)
  | _ => exact .of_base hp hctx rfl rfl hnil rfl

theorem Keeps.call (hp : v.pool.Spare) {base : Base} (hctx : v.core.context = ⟨[], base⟩)
    {o : Op} {frame : Frame} (ho : Enters v o frame) : Keeps v (v.setFrames [frame]) := by
  have hcall : (v.setFrames [frame]).core.context = ⟨[frame], base⟩ := by
    simp only [View.setFrames, hctx]
  refine .of_base hp hctx hcall rfl (fun t => ?_) rfl
  cases ho <;> simp

theorem OpStep.keeps (hp : v.pool.Spare) {base : Base} (hctx : v.core.context = ⟨[], base⟩)
    {o : Op} (hs : OpStep v base o v') : Keeps v v' := by
  cases hs with
  | halt => exact .halt hp
  | disable t d => exact .of_base hp hctx rfl rfl (fun _ => rfl) rfl
  | enable t d => exact .of_base hp hctx rfl rfl (fun t => by simp) rfl
  | call t d o frame ho => exact .call hp hctx ho
  | bootCall o frame ho => exact .call hp hctx ho
  | start => exact .of_base hp hctx rfl rfl (fun _ => rfl) rfl

theorem Step.keeps (h : v.Sound) (hp : v.pool.Spare)
    (hback : ∀ st, st.Owned → ∀ t, 0 < v.core.owned st t → v.pool.status t = st)
    {choice : Choice} (hs : Step v choice v') : Keeps v v' := by
  cases hs with
  | interrupt callbacks => exact .of_owned hp fun st t => by simp [Core.owned]
  | frame hframes hs => exact hs.keeps h hp hframes
  | base hctx hs => exact hs.keeps h hp hback hctx
  | op hctx hs => exact hs.keeps hp hctx
  | callback wakes ok t hctx => exact .of_base hp hctx rfl rfl (fun _ => rfl) rfl

/-! ### Every run of every number of cores -/

variable {κ : Type} [DecidableEq κ] [Fintype κ]

/-- The ledger: each of the three statuses has exactly one owner. -/
structure Machine.Accounted (s : Machine κ) : Prop where
  sound : s.Sound
  spare : s.pool.Spare
  ledger : ∀ st, st.Owned → ∀ t, Ledger.total (Core.owned st t) s.cores = s.pool.has st t

omit [DecidableEq κ] in
theorem initial_accounted : (Machine.initial : Machine κ).Accounted := by
  refine ⟨initial_sound, ⟨fun t ht => ?_, fun _ _ => rfl⟩, fun st hs t => ?_⟩
  · cases ht
  · have hempty : ∀ c, ((Machine.initial : Machine κ).cores c).owned st t = 0 := by
      intro c
      simp [Machine.initial, Core.owned, Base.ownsCount, Base.owns]
    have hidle : (Machine.initial : Machine κ).pool.has st t = 0 := by
      rcases hs with rfl | rfl | rfl <;> rfl
    rw [hidle, Ledger.total]
    exact Finset.sum_eq_zero fun c _ => hempty c

omit [DecidableEq κ] in
theorem Machine.Accounted.status {s : Machine κ} (h : s.Accounted) {st : Status} (hs : st.Owned)
    {c : κ} {t : ℕ} (ht : 0 < (s.cores c).owned st t) : s.pool.status t = st := by
  have hle : (s.cores c).owned st t ≤ s.pool.has st t := by
    rw [← h.ledger st hs t]
    exact Ledger.le_total c
  by_contra hne
  simp only [Pool.has, hne, if_false] at hle
  omega

theorem step_accounted {s s' : Machine κ} (h : s.Accounted) {e : Event κ}
    (hs : s.step e = .ok s') : s'.Accounted := by
  have hsound := step_sound h.sound hs
  obtain ⟨-, v, hv, rfl⟩ := Machine.step_cases hs
  have hkeep : Keeps (s.view e.core) v :=
    hv.keeps (h.sound.view e.core) h.spare fun _ hst _ => h.status hst
  refine ⟨hsound, hkeep.spare, fun st hst t => ?_⟩
  exact Ledger.total_update_of_balance (h.ledger st hst t) (hkeep.balanced st hst t)

omit [DecidableEq κ] in
/-- What the ledger says of queues and executed threads. -/
theorem Machine.Accounted.exclusive {s : Machine κ} (h : s.Accounted) :
    (∀ t, ∑ c, (s.cores c).queue.count t ≤ 1) ∧
    (∀ c t, t ∈ (s.cores c).queue → s.pool.status t = .runnable) ∧
    (∀ c t, (s.cores c).Executes t → s.pool.status t = .running ∧
      ∀ d, (s.cores d).Executes t → d = c) := by
  have hrunnable : Status.Owned .runnable := Or.inl rfl
  have hrunning : Status.Owned .running := Or.inr (Or.inl rfl)
  have hqueue : ∀ c t, (s.cores c).queue.count t ≤ (s.cores c).owned .runnable t := by
    intro c t
    simp only [Core.owned, if_true]
    omega
  have hexec : ∀ c t, (s.cores c).Executes t → 0 < (s.cores c).owned .running t := by
    intro c t hc
    have howns := Base.owns_of_thread hc (s.cores c).current
    simp [Core.owned, Base.ownsCount, howns]
  have hone : ∀ st, st.Owned → ∀ t, Ledger.total (Core.owned st t) s.cores ≤ 1 := by
    intro st hst t
    rw [h.ledger st hst t, Pool.has]
    split_ifs <;> omega
  refine ⟨fun t => ?_, fun c t ht => ?_, fun c t hc => ⟨?_, fun d hd => ?_⟩⟩
  · calc ∑ c, (s.cores c).queue.count t
        ≤ ∑ c, (s.cores c).owned .runnable t := Finset.sum_le_sum fun c _ => hqueue c t
      _ ≤ 1 := hone .runnable hrunnable t
  · exact h.status hrunnable (lt_of_lt_of_le (List.count_pos_iff.mpr ht) (hqueue c t))
  · exact h.status hrunning (hexec c t hc)
  · exact Ledger.eq_of_total_le_one (hone .running hrunning t) (hexec d t hd) (hexec c t hc)

/-- In every run a thread is in the queues at most once and then runnable, a
waiting or dead thread is in none, and the thread a core executes is running, in no
queue and executed by no other core. -/
theorem threads_exclusive (s : Machine κ)
    (h : Reaches Machine.step (fun _ _ => True) Machine.initial s) :
    (∀ t, ∑ c, (s.cores c).queue.count t ≤ 1) ∧
    (∀ c t, t ∈ (s.cores c).queue → s.pool.status t = .runnable) ∧
    (∀ t, s.pool.status t = .waiting ∨ s.pool.status t = .dead →
      ∀ c, t ∉ (s.cores c).queue) ∧
    ∀ c t, (s.cores c).Executes t → s.pool.status t = .running ∧
      (∀ d, t ∉ (s.cores d).queue) ∧ ∀ d, (s.cores d).Executes t → d = c := by
  have hacc : s.Accounted := by
    apply h.invariant (motive := Machine.Accounted)
    · exact initial_accounted
    · exact fun u e w hu _ hw => step_accounted hu hw
  obtain ⟨hcount, hqueued, hexec⟩ := hacc.exclusive
  refine ⟨hcount, hqueued, fun t ht c hin => ?_, fun c t hc => ⟨(hexec c t hc).1, fun d hin => ?_,
    (hexec c t hc).2⟩⟩
  · rw [hqueued c t hin] at ht
    rcases ht with ht | ht <;> cases ht
  · have hrun := (hexec c t hc).1
    rw [hqueued d t hin] at hrun
    cases hrun

/-- The first of two cores has started a thread. -/
theorem started_exclusive :
    ∃ s : Machine (Fin 2), Reaches Machine.step (fun _ _ => True) Machine.initial s ∧
      (s.cores 0).Executes 0 ∧ s.pool.status 0 = .running ∧ ∀ d, (s.cores d).Executes 0 → d = 0 := by
  have hrun : leadsTo Machine.step (fun _ _ => true)
      (fun s : Machine (Fin 2) => decide ((s.cores 0).Executes 0)) Machine.initial
      (startThread.map (Event.mk 0)) = true := by decide +kernel
  obtain ⟨s, hs, hexec⟩ := reaches_of_leadsTo (fun _ _ => True) (by simp) hrun
  rw [decide_eq_true_eq] at hexec
  have hright := (threads_exclusive s hs).2.2.2 0 0 hexec
  exact ⟨s, hs, hexec, hright.1, hright.2.2⟩

end TomatOS.Thread
