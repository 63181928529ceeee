import TomatOS.Foundation.CriticalSection

/-! Processors whose threads and interrupt handlers share one lock. A call saves the
interrupt flag, clears it, takes the lock, and behind the section releases the lock and
restores the flag. Interrupts come between any two steps while the flag is set, and a
processor may go on with another thread while it is set. -/

namespace TomatOS.Foundation.MaskedLock

open Transition CriticalSection

variable {ι κ ω σ α : Type}

/-- How far a thread or handler is in a call, with the flag that it has saved. -/
inductive Place where
  | outside
  | saving (status : Bool)
  | masked (status : Bool)
  deriving DecidableEq, Repr

/-- The lock and what it protects; for each processor its interrupt flag and the handlers
that interrupt each other on it, the one that runs first; who is on some processor. -/
structure Machine (ι κ ω σ α : Type) where
  shared : State ι κ ω σ α
  flag : κ → Bool
  stack : κ → List ι
  running : ι → Bool
  place : ι → Place

/-- The steps of a call for which the lock matters. -/
inductive LockStep where
  | testAndSet
  | work
  | clear
  deriving DecidableEq, Repr

def LockStep.event (i : ι) (c : κ) : LockStep → Event ι κ ω
  | testAndSet => .testAndSet i c
  | work => .work i
  | clear => .clear i

inductive Action (ι κ ω : Type) where
  | save (c : κ) (op : ω)
  | cli (c : κ)
  | locked (c : κ) (k : LockStep)
  | restore (c : κ)
  | setFlag (c : κ) (value : Bool)
  | interrupt (c : κ) (i : ι)
  | iret (c : κ)
  | suspend (c : κ)
  | resume (c : κ) (i : ι)

def Action.core : Action ι κ ω → κ
  | .save c _ | .cli c | .locked c _ | .restore c | .setFlag c _ | .interrupt c _ | .iret c
  | .suspend c | .resume c _ => c

variable [DecidableEq ι] [DecidableEq κ]

def step (body : κ × ω → Body σ α) (s : Machine ι κ ω σ α) (a : Action ι κ ω) :
    Except Unit (Machine ι κ ω σ α) :=
  match a, s.stack a.core with
  | .save c op, i :: _ =>
    if s.place i = .outside then
      (CriticalSection.step body s.shared (.call i op)).map fun shared =>
        { s with shared, place := Function.update s.place i (.saving (s.flag c)) }
    else .error ()
  | .cli c, i :: _ =>
    match s.place i with
    | .saving status =>
      .ok { s with
        flag := Function.update s.flag c false
        place := Function.update s.place i (.masked status) }
    | _ => .error ()
  | .locked c k, i :: _ =>
    match s.place i with
    | .masked _ =>
      (CriticalSection.step body s.shared (k.event i c)).map fun shared => { s with shared }
    | _ => .error ()
  | .restore c, i :: _ =>
    match s.place i with
    | .masked status =>
      (CriticalSection.step body s.shared (.ret i)).map fun shared =>
        { s with
          shared
          flag := Function.update s.flag c (status || s.flag c)
          place := Function.update s.place i .outside }
    | _ => .error ()
  | .setFlag c value, i :: _ =>
    if s.place i = .outside then .ok { s with flag := Function.update s.flag c value }
    else .error ()
  | .interrupt c i, below =>
    if s.flag c = true ∧ s.running i = false ∧ s.place i = .outside then
      .ok { s with
        flag := Function.update s.flag c false
        stack := Function.update s.stack c (i :: below)
        running := Function.update s.running i true }
    else .error ()
  | .iret c, i :: below =>
    if s.place i = .outside then
      .ok { s with
        flag := Function.update s.flag c true
        stack := Function.update s.stack c below
        running := Function.update s.running i false }
    else .error ()
  | .suspend c, [i] =>
    if s.flag c = true then
      .ok { s with
        stack := Function.update s.stack c []
        running := Function.update s.running i false }
    else .error ()
  | .resume c i, [] =>
    if s.running i = false then
      .ok { s with
        flag := Function.update s.flag c true
        stack := Function.update s.stack c [i]
        running := Function.update s.running i true }
    else .error ()
  | _, _ => .error ()

omit [DecidableEq ι] [DecidableEq κ] in
/-- Nobody is in a call, and nothing runs on any processor. -/
def Machine.initial (store : σ) (flag : κ → Bool) : Machine ι κ ω σ α :=
  ⟨State.initial store, flag, fun _ => [], fun _ => false, fun _ => .outside⟩

variable {body : κ × ω → Body σ α} {s t : Machine ι κ ω σ α} {a : Action ι κ ω}

/-- What a step can do. -/
inductive Moves (body : κ × ω → Body σ α) (s : Machine ι κ ω σ α) :
    Action ι κ ω → Machine ι κ ω σ α → Prop
  | save {c : κ} {op : ω} {i : ι} {below : List ι} {shared : State ι κ ω σ α}
    (hs : s.stack c = i :: below) (hp : s.place i = .outside)
    (h : CriticalSection.step body s.shared (.call i op) = .ok shared) :
    Moves body s (.save c op)
      { s with shared, place := Function.update s.place i (.saving (s.flag c)) }
  | cli {c : κ} {i : ι} {below : List ι} {status : Bool}
    (hs : s.stack c = i :: below) (hp : s.place i = .saving status) :
    Moves body s (.cli c) { s with
      flag := Function.update s.flag c false
      place := Function.update s.place i (.masked status) }
  | locked {c : κ} {k : LockStep} {i : ι} {below : List ι} {status : Bool}
    {shared : State ι κ ω σ α} (hs : s.stack c = i :: below) (hp : s.place i = .masked status)
    (h : CriticalSection.step body s.shared (k.event i c) = .ok shared) :
    Moves body s (.locked c k) { s with shared }
  | restore {c : κ} {i : ι} {below : List ι} {status : Bool} {shared : State ι κ ω σ α}
    (hs : s.stack c = i :: below) (hp : s.place i = .masked status)
    (h : CriticalSection.step body s.shared (.ret i) = .ok shared) :
    Moves body s (.restore c) { s with
      shared
      flag := Function.update s.flag c (status || s.flag c)
      place := Function.update s.place i .outside }
  | setFlag {c : κ} {i : ι} {below : List ι} {value : Bool}
    (hs : s.stack c = i :: below) (hp : s.place i = .outside) :
    Moves body s (.setFlag c value) { s with flag := Function.update s.flag c value }
  | interrupt {c : κ} {i : ι} (hf : s.flag c = true) (hr : s.running i = false)
    (hp : s.place i = .outside) :
    Moves body s (.interrupt c i) { s with
      flag := Function.update s.flag c false
      stack := Function.update s.stack c (i :: s.stack c)
      running := Function.update s.running i true }
  | iret {c : κ} {i : ι} {below : List ι} (hs : s.stack c = i :: below)
    (hp : s.place i = .outside) :
    Moves body s (.iret c) { s with
      flag := Function.update s.flag c true
      stack := Function.update s.stack c below
      running := Function.update s.running i false }
  | suspend {c : κ} {i : ι} (hs : s.stack c = [i]) (hf : s.flag c = true) :
    Moves body s (.suspend c) { s with
      stack := Function.update s.stack c []
      running := Function.update s.running i false }
  | resume {c : κ} {i : ι} (hs : s.stack c = []) (hr : s.running i = false) :
    Moves body s (.resume c i) { s with
      flag := Function.update s.flag c true
      stack := Function.update s.stack c [i]
      running := Function.update s.running i true }

theorem moves_of_step (h : step body s a = .ok t) : Moves body s a t := by
  unfold step at h
  split at h
  · rename_i hs
    split at h
    · rename_i hp
      obtain ⟨shared, hstep, rfl⟩ := ok_of_map h
      exact .save hs hp hstep
    · cases h
  · rename_i hs
    split at h
    · rename_i hp
      obtain rfl := Except.ok.inj h
      exact .cli hs hp
    · cases h
  · rename_i hs
    split at h
    · rename_i hp
      obtain ⟨shared, hstep, rfl⟩ := ok_of_map h
      exact .locked hs hp hstep
    · cases h
  · rename_i hs
    split at h
    · rename_i hp
      obtain ⟨shared, hstep, rfl⟩ := ok_of_map h
      exact .restore hs hp hstep
    · cases h
  · rename_i hs
    split at h
    · rename_i hp
      obtain rfl := Except.ok.inj h
      exact .setFlag hs hp
    · cases h
  · split at h
    · rename_i hp
      obtain rfl := Except.ok.inj h
      exact .interrupt hp.1 hp.2.1 hp.2.2
    · cases h
  · rename_i hs
    split at h
    · rename_i hp
      obtain rfl := Except.ok.inj h
      exact .iret hs hp
    · cases h
  · rename_i hs
    split at h
    · rename_i hf
      obtain rfl := Except.ok.inj h
      exact .suspend hs hf
    · cases h
  · rename_i hs
    split at h
    · rename_i hr
      obtain rfl := Except.ok.inj h
      exact .resume hs hr
    · cases h
  · cases h

/-! ### Who runs where -/

/-- Nobody is on two processors, or twice on one. A call between its `cli` and its end is
what its processor runs, with the flag clear. A call that has only saved the flag finds it
as it was when its turn comes again. -/
structure Sound (s : Machine ι κ ω σ α) : Prop where
  nodup : ∀ c, (s.stack c).Nodup
  apart : ∀ c d i, i ∈ s.stack c → i ∈ s.stack d → c = d
  running : ∀ c, ∀ i ∈ s.stack c, s.running i = true
  outside : ∀ i, s.place i = .outside → s.shared.phase i = .outside
  saving : ∀ i status, s.place i = .saving status → ∃ op, s.shared.phase i = .waiting op
  kept : ∀ i status, s.place i = .saving status → ∀ c below, s.stack c = i :: below →
    s.flag c = status
  off : ∀ i status, s.place i = .saving status → (∀ c below, s.stack c ≠ i :: below) →
    status = true
  masked : ∀ i status, s.place i = .masked status →
    ∃ c below, s.stack c = i :: below ∧ s.flag c = false
  here : ∀ i c op rest, s.shared.phase i = .inside (c, op) rest → ∃ below, s.stack c = i :: below

omit [DecidableEq ι] [DecidableEq κ] in
theorem sound_initial (store : σ) (flag : κ → Bool) :
    Sound (Machine.initial store flag : Machine ι κ ω σ α) where
  nodup _ := List.nodup_nil
  apart _ _ _ h := absurd h List.not_mem_nil
  running _ _ h := absurd h List.not_mem_nil
  outside _ _ := rfl
  saving _ _ h := by cases h
  kept _ _ h := by cases h
  off _ _ h := by cases h
  masked _ _ h := by cases h
  here _ _ _ _ h := by cases h

section Sound

variable {c d : κ} {i j : ι} {below below' : List ι} {status : Bool}

omit [DecidableEq ι] [DecidableEq κ]

theorem Sound.top_eq (h : Sound s) (hc : s.stack c = i :: below) (hd : s.stack d = i :: below') :
    c = d := by
  apply h.apart c d i
  · rw [hc]
    exact List.mem_cons_self
  · rw [hd]
    exact List.mem_cons_self

/-- A processor runs one at a time. -/
theorem ne_of_top (hc : s.stack c = i :: below) (hd : s.stack d = j :: below') (hne : j ≠ i) :
    d ≠ c := by
  rintro rfl
  rw [hc] at hd
  cases hd
  exact hne rfl

theorem ne_of_place {p q : Place} (hj : s.place j = p) (hi : s.place i = q) (hne : p ≠ q) :
    j ≠ i := by
  rintro rfl
  exact hne (hj.symm.trans hi)

/-- Who is on no processor is on none of the stacks. -/
theorem Sound.not_mem (h : Sound s) (hr : s.running i = false) (d : κ) : i ∉ s.stack d := by
  intro hmem
  rw [h.running d i hmem] at hr
  cases hr

/-- A call inside the section has the interrupts of its processor off. -/
theorem Sound.inside_masked (h : Sound s) {op : ω} {rest : Body σ α}
    (hi : s.shared.phase i = .inside (c, op) rest) :
    (∃ status, s.place i = .masked status) ∧ s.flag c = false := by
  have hmasked : ∃ status, s.place i = .masked status := by
    cases hp : s.place i with
    | outside =>
      rw [h.outside i hp] at hi
      cases hi
    | saving status =>
      obtain ⟨op', hw⟩ := h.saving i status hp
      rw [hw] at hi
      cases hi
    | masked status => exact ⟨status, rfl⟩
  obtain ⟨status, hp⟩ := hmasked
  obtain ⟨d, below, hd, hflag⟩ := h.masked i status hp
  obtain ⟨below', hc⟩ := h.here i c op rest hi
  obtain rfl := h.top_eq hd hc
  exact ⟨⟨status, hp⟩, hflag⟩

end Sound

theorem update_cases {β γ : Type} [DecidableEq β] {f : β → γ} {x z : β} {b y : γ}
    (h : Function.update f x b z = y) : z = x ∧ b = y ∨ z ≠ x ∧ f z = y := by
  by_cases hz : z = x
  · subst hz
    rw [Function.update_self] at h
    exact .inl ⟨rfl, h⟩
  · rw [Function.update_of_ne hz] at h
    exact .inr ⟨hz, h⟩

section Calls

variable {c : κ} {op : ω} {i : ι} {below : List ι} {status : Bool} {shared : State ι κ ω σ α}

omit [DecidableEq κ] in
theorem Sound.save (h : Sound s) (hs : s.stack c = i :: below) (hp : s.place i = .outside)
    (hstep : CriticalSection.step body s.shared (.call i op) = .ok shared) :
    Sound { s with shared, place := Function.update s.place i (.saving (s.flag c)) } := by
  have hm := CriticalSection.moves_of_step hstep
  have hwait : shared.phase i = .waiting op := by
    cases hm
    exact State.move_phase_self ..
  have hother : ∀ j, j ≠ i → shared.phase j = s.shared.phase j := fun j hj => hm.other hj
  constructor
  case nodup => exact h.nodup
  case apart => exact h.apart
  case running => exact h.running
  case outside =>
    intro j hj
    rcases update_cases hj with ⟨rfl, heq⟩ | ⟨hne, hj⟩
    · cases heq
    · exact (hother j hne).trans (h.outside j hj)
  case saving =>
    intro j st hj
    rcases update_cases hj with ⟨rfl, -⟩ | ⟨hne, hj⟩
    · exact ⟨op, hwait⟩
    · obtain ⟨op', hw⟩ := h.saving j st hj
      exact ⟨op', (hother j hne).trans hw⟩
  case kept =>
    intro j st hj d below' hd
    rcases update_cases hj with ⟨rfl, heq⟩ | ⟨-, hj⟩
    · obtain rfl := h.top_eq hs hd
      cases heq
      rfl
    · exact h.kept j st hj d below' hd
  case off =>
    intro j st hj hoff
    rcases update_cases hj with ⟨rfl, -⟩ | ⟨-, hj⟩
    · exact absurd hs (hoff c below)
    · exact h.off j st hj hoff
  case masked =>
    intro j st hj
    rcases update_cases hj with ⟨rfl, heq⟩ | ⟨-, hj⟩
    · cases heq
    · exact h.masked j st hj
  case here =>
    intro j d op' rest hj
    by_cases hne : j = i
    · subst hne
      have heq := hj.symm.trans hwait
      cases heq
    · exact h.here j d op' rest ((hother j hne).symm.trans hj)

theorem Sound.cli (h : Sound s) (hs : s.stack c = i :: below) (hp : s.place i = .saving status) :
    Sound { s with
      flag := Function.update s.flag c false
      place := Function.update s.place i (.masked status) } := by
  constructor
  case nodup => exact h.nodup
  case apart => exact h.apart
  case running => exact h.running
  case outside =>
    intro j hj
    rcases update_cases hj with ⟨-, heq⟩ | ⟨-, hj⟩
    · cases heq
    · exact h.outside j hj
  case saving =>
    intro j st hj
    rcases update_cases hj with ⟨-, heq⟩ | ⟨-, hj⟩
    · cases heq
    · exact h.saving j st hj
  case kept =>
    intro j st hj d below' hd
    rcases update_cases hj with ⟨-, heq⟩ | ⟨hne, hj⟩
    · cases heq
    · exact (Function.update_of_ne (ne_of_top hs hd hne) ..).trans (h.kept j st hj d below' hd)
  case off =>
    intro j st hj hoff
    rcases update_cases hj with ⟨-, heq⟩ | ⟨-, hj⟩
    · cases heq
    · exact h.off j st hj hoff
  case masked =>
    intro j st hj
    rcases update_cases hj with ⟨rfl, -⟩ | ⟨-, hj⟩
    · exact ⟨c, below, hs, Function.update_self ..⟩
    · obtain ⟨d, below', hd, hflag⟩ := h.masked j st hj
      refine ⟨d, below', hd, ?_⟩
      by_cases hdc : d = c
      · subst hdc
        exact Function.update_self ..
      · exact (Function.update_of_ne hdc ..).trans hflag
  case here => exact h.here

omit [DecidableEq κ] in
theorem Sound.locked (h : Sound s) {k : LockStep} (hs : s.stack c = i :: below)
    (hp : s.place i = .masked status)
    (hstep : CriticalSection.step body s.shared (k.event i c) = .ok shared) :
    Sound { s with shared } := by
  have hm := CriticalSection.moves_of_step hstep
  have hagent : (k.event i c : Event ι κ ω).agent = i := by cases k <;> rfl
  have hother : ∀ j, j ≠ i → shared.phase j = s.shared.phase j :=
    fun j hj => hm.other (hagent.symm ▸ hj)
  constructor
  case nodup => exact h.nodup
  case apart => exact h.apart
  case running => exact h.running
  case outside =>
    intro j hj
    have hji := ne_of_place hj hp (by simp)
    exact (hother j hji).trans (h.outside j hj)
  case saving =>
    intro j st hj
    have hji := ne_of_place hj hp (by simp)
    obtain ⟨op', hw⟩ := h.saving j st hj
    exact ⟨op', (hother j hji).trans hw⟩
  case kept => exact h.kept
  case off => exact h.off
  case masked => exact h.masked
  case here =>
    intro j d op' rest hj
    by_cases hji : j = i
    · subst hji
      cases k with
      | testAndSet =>
        cases hm with
        | spin => exact h.here j d op' rest hj
        | take =>
          have heq := hj.symm.trans (State.move_phase_self ..)
          cases heq
          exact ⟨below, hs⟩
      | work =>
        cases hm with
        | work hin =>
          have heq := hj.symm.trans (State.move_phase_self ..)
          cases heq
          exact h.here j d op' _ hin
      | clear =>
        cases hm with
        | clear =>
          have heq := hj.symm.trans (State.move_phase_self ..)
          cases heq
    · exact h.here j d op' rest ((hother j hji).symm.trans hj)

theorem Sound.restore (h : Sound s) (hs : s.stack c = i :: below)
    (hp : s.place i = .masked status)
    (hstep : CriticalSection.step body s.shared (.ret i) = .ok shared) :
    Sound { s with
      shared
      flag := Function.update s.flag c (status || s.flag c)
      place := Function.update s.place i .outside } := by
  have hm := CriticalSection.moves_of_step hstep
  have hout : shared.phase i = .outside := by
    cases hm
    exact State.move_phase_self ..
  have hother : ∀ j, j ≠ i → shared.phase j = s.shared.phase j := fun j hj => hm.other hj
  constructor
  case nodup => exact h.nodup
  case apart => exact h.apart
  case running => exact h.running
  case outside =>
    intro j hj
    rcases update_cases hj with ⟨rfl, -⟩ | ⟨hne, hj⟩
    · exact hout
    · exact (hother j hne).trans (h.outside j hj)
  case saving =>
    intro j st hj
    rcases update_cases hj with ⟨-, heq⟩ | ⟨hne, hj⟩
    · cases heq
    · obtain ⟨op', hw⟩ := h.saving j st hj
      exact ⟨op', (hother j hne).trans hw⟩
  case kept =>
    intro j st hj d below' hd
    rcases update_cases hj with ⟨-, heq⟩ | ⟨hne, hj⟩
    · cases heq
    · exact (Function.update_of_ne (ne_of_top hs hd hne) ..).trans (h.kept j st hj d below' hd)
  case off =>
    intro j st hj hoff
    rcases update_cases hj with ⟨-, heq⟩ | ⟨-, hj⟩
    · cases heq
    · exact h.off j st hj hoff
  case masked =>
    intro j st hj
    rcases update_cases hj with ⟨-, heq⟩ | ⟨hne, hj⟩
    · cases heq
    · obtain ⟨d, below', hd, hflag⟩ := h.masked j st hj
      exact ⟨d, below', hd, (Function.update_of_ne (ne_of_top hs hd hne) ..).trans hflag⟩
  case here =>
    intro j d op' rest hj
    by_cases hne : j = i
    · subst hne
      have heq := hj.symm.trans hout
      cases heq
    · exact h.here j d op' rest ((hother j hne).symm.trans hj)

end Calls

section Interrupts

variable {c : κ} {i : ι} {below : List ι} {value : Bool}

omit [DecidableEq ι] in
theorem Sound.setFlag (h : Sound s) (hs : s.stack c = i :: below) (hp : s.place i = .outside) :
    Sound { s with flag := Function.update s.flag c value } := by
  have htop : ∀ {j p}, s.place j = p → p ≠ .outside → ∀ {d below'}, s.stack d = j :: below' →
      d ≠ c := fun hj hne _ _ hd => ne_of_top hs hd (ne_of_place hj hp hne)
  constructor
  case nodup => exact h.nodup
  case apart => exact h.apart
  case running => exact h.running
  case outside => exact h.outside
  case saving => exact h.saving
  case kept =>
    intro j st hj d below' hd
    have hdc := htop hj (by simp) hd
    exact (Function.update_of_ne hdc ..).trans (h.kept j st hj d below' hd)
  case off => exact h.off
  case masked =>
    intro j st hj
    obtain ⟨d, below', hd, hflag⟩ := h.masked j st hj
    have hdc := htop hj (by simp) hd
    exact ⟨d, below', hd, (Function.update_of_ne hdc ..).trans hflag⟩
  case here => exact h.here

omit [DecidableEq ι] [DecidableEq κ] in
theorem ne_of_flag {d : κ} (hc : s.flag c = true) (hd : s.flag d = false) : d ≠ c := by
  rintro rfl
  rw [hd] at hc
  cases hc

omit [DecidableEq ι] [DecidableEq κ] in
/-- Who has saved a clear flag is what runs, and not where the flag is set. -/
theorem Sound.status_of_flag (h : Sound s) (hf : s.flag c = true) {j : ι} {st : Bool}
    (hj : s.place j = .saving st) (hoff : ∀ d below, d ≠ c → s.stack d ≠ j :: below) :
    st = true := by
  by_cases htop : ∃ d below, s.stack d = j :: below
  · obtain ⟨d, below, hd⟩ := htop
    obtain rfl : d = c := by
      by_contra hdc
      exact hoff d below hdc hd
    rw [← h.kept j st hj d below hd]
    exact hf
  · exact h.off j st hj fun d below hd => htop ⟨d, below, hd⟩

theorem Sound.push_stacks (h : Sound s) (hr : s.running i = false) :
    (∀ d, (Function.update s.stack c (i :: s.stack c) d).Nodup) ∧
    (∀ d e j, j ∈ Function.update s.stack c (i :: s.stack c) d →
      j ∈ Function.update s.stack c (i :: s.stack c) e → d = e) ∧
    ∀ d, ∀ j ∈ Function.update s.stack c (i :: s.stack c) d,
      Function.update s.running i true j = true := by
  have hmem : ∀ d j, j ∈ Function.update s.stack c (i :: s.stack c) d →
      j = i ∧ d = c ∨ j ≠ i ∧ j ∈ s.stack d := by
    intro d j hj
    by_cases hdc : d = c
    · subst hdc
      rw [Function.update_self] at hj
      rcases List.mem_cons.mp hj with rfl | hold
      · exact .inl ⟨rfl, rfl⟩
      · refine .inr ⟨?_, hold⟩
        rintro rfl
        exact h.not_mem hr d hold
    · rw [Function.update_of_ne hdc] at hj
      refine .inr ⟨?_, hj⟩
      rintro rfl
      exact h.not_mem hr d hj
  refine ⟨?_, ?_, ?_⟩
  · intro d
    by_cases hdc : d = c
    · subst hdc
      rw [Function.update_self]
      exact List.nodup_cons.mpr ⟨h.not_mem hr d, h.nodup d⟩
    · rw [Function.update_of_ne hdc]
      exact h.nodup d
  · intro d e j hd he
    rcases hmem d j hd with ⟨rfl, rfl⟩ | ⟨hji, hd⟩
    · rcases hmem e j he with ⟨-, rfl⟩ | ⟨hji, -⟩
      · rfl
      · exact absurd rfl hji
    · rcases hmem e j he with ⟨rfl, -⟩ | ⟨-, he⟩
      · exact absurd rfl hji
      · exact h.apart d e j hd he
  · intro d j hj
    rcases hmem d j hj with ⟨rfl, -⟩ | ⟨hji, hj⟩
    · exact Function.update_self ..
    · rw [Function.update_of_ne hji]
      exact h.running d j hj

theorem Sound.pop_stacks (h : Sound s) (hs : s.stack c = i :: below) :
    (∀ d, (Function.update s.stack c below d).Nodup) ∧
    (∀ d e j, j ∈ Function.update s.stack c below d →
      j ∈ Function.update s.stack c below e → d = e) ∧
    ∀ d, ∀ j ∈ Function.update s.stack c below d, Function.update s.running i false j = true := by
  have hnodup : i ∉ below ∧ below.Nodup := by
    rw [← List.nodup_cons, ← hs]
    exact h.nodup c
  have hmem : ∀ d j, j ∈ Function.update s.stack c below d → j ∈ s.stack d ∧ j ≠ i := by
    intro d j hj
    by_cases hdc : d = c
    · subst hdc
      rw [Function.update_self] at hj
      rw [hs]
      refine ⟨List.mem_cons_of_mem _ hj, ?_⟩
      rintro rfl
      exact hnodup.1 hj
    · rw [Function.update_of_ne hdc] at hj
      refine ⟨hj, ?_⟩
      rintro rfl
      exact hdc (h.apart d c j hj (hs ▸ List.mem_cons_self))
  refine ⟨?_, ?_, ?_⟩
  · intro d
    by_cases hdc : d = c
    · subst hdc
      rw [Function.update_self]
      exact hnodup.2
    · rw [Function.update_of_ne hdc]
      exact h.nodup d
  · intro d e j hd he
    exact h.apart d e j (hmem d j hd).1 (hmem e j he).1
  · intro d j hj
    rw [Function.update_of_ne (hmem d j hj).2]
    exact h.running d j (hmem d j hj).1

theorem Sound.interrupt (h : Sound s) (hf : s.flag c = true) (hr : s.running i = false)
    (hp : s.place i = .outside) :
    Sound { s with
      flag := Function.update s.flag c false
      stack := Function.update s.stack c (i :: s.stack c)
      running := Function.update s.running i true } := by
  obtain ⟨hnodup, hapart, hrunning⟩ := @Sound.push_stacks _ _ _ _ _ _ _ s c i h hr
  constructor
  case nodup => exact hnodup
  case apart => exact hapart
  case running => exact hrunning
  case outside => exact h.outside
  case saving => exact h.saving
  case kept =>
    intro j st hj d below' hd
    rcases update_cases hd with ⟨-, heq⟩ | ⟨hdc, hd⟩
    · obtain rfl := (List.cons.inj heq).1
      rw [hp] at hj
      cases hj
    · exact (Function.update_of_ne hdc ..).trans (h.kept j st hj d below' hd)
  case off =>
    intro j st hj hoff
    apply h.status_of_flag hf hj
    intro d below' hdc hd
    exact hoff d below' ((Function.update_of_ne hdc ..).trans hd)
  case masked =>
    intro j st hj
    obtain ⟨d, below', hd, hflag⟩ := h.masked j st hj
    have hdc := ne_of_flag hf hflag
    exact ⟨d, below', (Function.update_of_ne hdc ..).trans hd,
      (Function.update_of_ne hdc ..).trans hflag⟩
  case here =>
    intro j d op rest hj
    obtain ⟨below', hd⟩ := h.here j d op rest hj
    exact ⟨below', (Function.update_of_ne (ne_of_flag hf (h.inside_masked hj).2) ..).trans hd⟩

/-- One that is in no call goes, and what it has interrupted goes on. -/
theorem Sound.iret (h : Sound s) (hs : s.stack c = i :: below) (hp : s.place i = .outside) :
    Sound { s with
      flag := Function.update s.flag c true
      stack := Function.update s.stack c below
      running := Function.update s.running i false } := by
  obtain ⟨hnodup, hapart, hrunning⟩ := @Sound.pop_stacks _ _ _ _ _ _ _ s c i below h hs
  have htop : ∀ {j p}, s.place j = p → p ≠ .outside → ∀ {d below'}, s.stack d = j :: below' →
      d ≠ c := fun hj hne _ _ hd => ne_of_top hs hd (ne_of_place hj hp hne)
  constructor
  case nodup => exact hnodup
  case apart => exact hapart
  case running => exact hrunning
  case outside => exact h.outside
  case saving => exact h.saving
  case kept =>
    intro j st hj d below' hd
    rcases update_cases hd with ⟨rfl, rfl⟩ | ⟨hdc, hd⟩
    · have hoff : ∀ e below'', s.stack e ≠ j :: below'' := by
        intro e below'' he
        apply htop hj (by simp) he
        apply h.apart e d j
        · rw [he]
          exact List.mem_cons_self
        · rw [hs]
          exact List.mem_cons_of_mem _ List.mem_cons_self
      rw [h.off j st hj hoff]
      exact Function.update_self ..
    · exact (Function.update_of_ne hdc ..).trans (h.kept j st hj d below' hd)
  case off =>
    intro j st hj hoff
    apply h.off j st hj
    intro d below' hd
    have hdc := htop hj (by simp) hd
    exact hoff d below' ((Function.update_of_ne hdc ..).trans hd)
  case masked =>
    intro j st hj
    obtain ⟨d, below', hd, hflag⟩ := h.masked j st hj
    have hdc := htop hj (by simp) hd
    exact ⟨d, below', (Function.update_of_ne hdc ..).trans hd,
      (Function.update_of_ne hdc ..).trans hflag⟩
  case here =>
    intro j d op rest hj
    obtain ⟨below', hd⟩ := h.here j d op rest hj
    obtain ⟨st, hst⟩ := (h.inside_masked hj).1
    exact ⟨below', (Function.update_of_ne (htop hst (by simp) hd) ..).trans hd⟩

theorem Sound.suspend (h : Sound s) (hs : s.stack c = [i]) (hf : s.flag c = true) :
    Sound { s with
      stack := Function.update s.stack c []
      running := Function.update s.running i false } := by
  obtain ⟨hnodup, hapart, hrunning⟩ := @Sound.pop_stacks _ _ _ _ _ _ _ s c i [] h hs
  constructor
  case nodup => exact hnodup
  case apart => exact hapart
  case running => exact hrunning
  case outside => exact h.outside
  case saving => exact h.saving
  case kept =>
    intro j st hj d below' hd
    rcases update_cases hd with ⟨-, heq⟩ | ⟨-, hd⟩
    · cases heq
    · exact h.kept j st hj d below' hd
  case off =>
    intro j st hj hoff
    apply h.status_of_flag hf hj
    intro d below' hdc hd
    exact hoff d below' ((Function.update_of_ne hdc ..).trans hd)
  case masked =>
    intro j st hj
    obtain ⟨d, below', hd, hflag⟩ := h.masked j st hj
    have hdc := ne_of_flag hf hflag
    exact ⟨d, below', (Function.update_of_ne hdc ..).trans hd, hflag⟩
  case here =>
    intro j d op rest hj
    obtain ⟨below', hd⟩ := h.here j d op rest hj
    exact ⟨below', (Function.update_of_ne (ne_of_flag hf (h.inside_masked hj).2) ..).trans hd⟩

theorem Sound.resume (h : Sound s) (hs : s.stack c = []) (hr : s.running i = false) :
    Sound { s with
      flag := Function.update s.flag c true
      stack := Function.update s.stack c [i]
      running := Function.update s.running i true } := by
  obtain ⟨hnodup, hapart, hrunning⟩ := @Sound.push_stacks _ _ _ _ _ _ _ s c i h hr
  rw [hs] at hnodup hapart hrunning
  have hne : ∀ j d below', s.stack d = j :: below' → d ≠ c := by
    rintro j d below' hd rfl
    rw [hs] at hd
    cases hd
  constructor
  case nodup => exact hnodup
  case apart => exact hapart
  case running => exact hrunning
  case outside => exact h.outside
  case saving => exact h.saving
  case kept =>
    intro j st hj d below' hd
    rcases update_cases hd with ⟨rfl, heq⟩ | ⟨hdc, hd⟩
    · obtain rfl := (List.cons.inj heq).1
      have hoff : ∀ e below'', s.stack e ≠ i :: below'' := by
        intro e below'' he
        apply h.not_mem hr e
        rw [he]
        exact List.mem_cons_self
      rw [h.off i st hj hoff]
      exact Function.update_self ..
    · exact (Function.update_of_ne hdc ..).trans (h.kept j st hj d below' hd)
  case off =>
    intro j st hj hoff
    apply h.off j st hj
    intro d below' hd
    exact hoff d below' ((Function.update_of_ne (hne j d below' hd) ..).trans hd)
  case masked =>
    intro j st hj
    obtain ⟨d, below', hd, hflag⟩ := h.masked j st hj
    exact ⟨d, below', (Function.update_of_ne (hne j d below' hd) ..).trans hd,
      (Function.update_of_ne (hne j d below' hd) ..).trans hflag⟩
  case here =>
    intro j d op rest hj
    obtain ⟨below', hd⟩ := h.here j d op rest hj
    exact ⟨below', (Function.update_of_ne (hne j d below' hd) ..).trans hd⟩

end Interrupts

theorem Sound.step (h : Sound s) (hm : Moves body s a t) : Sound t := by
  cases hm with
  | save hs hp hstep => exact h.save hs hp hstep
  | cli hs hp => exact h.cli hs hp
  | locked hs hp hstep => exact h.locked hs hp hstep
  | restore hs hp hstep => exact h.restore hs hp hstep
  | setFlag hs hp => exact h.setFlag hs hp
  | interrupt hf hr hp => exact h.interrupt hf hr hp
  | iret hs hp => exact h.iret hs hp
  | suspend hs hf => exact h.suspend hs hf
  | resume hs hr => exact h.resume hs hr

/-! ### Runs -/

/-- The calls that may be made, where the processor makes one. -/
def Obeys (allowed : State ι κ ω σ α → ι → ω → Prop) (s : Machine ι κ ω σ α) :
    Action ι κ ω → Prop
  | .save c op => ∀ i ∈ (s.stack c).head?, allowed s.shared i op
  | _ => True

instance (allowed : State ι κ ω σ α → ι → ω → Prop) [∀ u i op, Decidable (allowed u i op)]
    (s : Machine ι κ ω σ α) : (a : Action ι κ ω) → Decidable (Obeys allowed s a)
  | .save c op => inferInstanceAs (Decidable (∀ i ∈ (s.stack c).head?, allowed s.shared i op))
  | .cli _ | .locked _ _ | .restore _ | .setFlag _ _ | .interrupt _ _ | .iret _ | .suspend _
  | .resume _ _ => isTrue trivial

variable {allowed : State ι κ ω σ α → ι → ω → Prop} {store : σ} {flag : κ → Bool}

theorem sound_of_reaches
    (h : Reaches (step body) (Obeys allowed) (Machine.initial store flag) s) : Sound s := by
  apply h.invariant (motive := Sound) (sound_initial store flag)
  intro u a v hu _ hv
  exact hu.step (moves_of_step hv)

/-- Seen from the lock the processors are agents that call it. -/
theorem shared_reaches
    (h : Reaches (step body) (Obeys allowed) (Machine.initial store flag) s) :
    Reaches (CriticalSection.step body) (fun u e => ∀ i op, e = .call i op → allowed u i op)
      (State.initial store) s.shared := by
  apply h.invariant (motive := fun s => Reaches (CriticalSection.step body) _ _ s.shared)
  · exact Reaches.refl _
  · intro u a v hu ha hv
    cases moves_of_step hv with
    | save hs hp hstep =>
      apply hu.snoc _ _ hstep
      rintro i op heq
      cases heq
      exact ha _ (by rw [hs]; rfl)
    | @locked c k i below status shared hs hp hstep =>
      apply hu.snoc _ _ hstep
      intro j op heq
      cases k <;> cases heq
    | restore hs hp hstep =>
      apply hu.snoc _ _ hstep
      intro j op heq
      cases heq
    | _ => exact hu

variable {c : κ} {i : ι} {below : List ι} {status : Bool} {u : σ}

omit [DecidableEq ι] [DecidableEq κ] in
/-- Who spins waits for another processor, which is in the section with its interrupts off. -/
theorem Sound.waits_elsewhere (h : Sound s) (hl : CriticalSection.Sound body store s.shared u)
    (hs : s.stack c = i :: below) {op : ω} (hw : s.shared.phase i = .waiting op)
    (ht : s.shared.taken = true) :
    ∃ d j below' op' rest, d ≠ c ∧ s.stack d = j :: below' ∧ s.flag d = false ∧
      s.shared.phase j = .inside (d, op') rest := by
  obtain ⟨j, ⟨d, op'⟩, rest, hj⟩ := hl.holder ht
  obtain ⟨below', hd⟩ := h.here j d op' rest hj
  refine ⟨d, j, below', op', rest, ?_, hd, (h.inside_masked hj).2, hj⟩
  rintro rfl
  rw [hs] at hd
  cases hd
  rw [hw] at hj
  cases hj

/-- A call leaves the flag as it found it. -/
theorem Sound.restores (h : Sound s) (hs : s.stack c = i :: below)
    (hp : s.place i = .masked status) (hstep : MaskedLock.step body s (.restore c) = .ok t) :
    t.flag c = status := by
  cases moves_of_step hstep with
  | @restore _ j _ st shared hs' hp' _ =>
    rw [hs] at hs'
    cases hs'
    rw [hp] at hp'
    cases hp'
    obtain ⟨d, below', hd, hflag⟩ := h.masked i status hp
    obtain rfl := h.top_eq hs hd
    change Function.update s.flag c (status || s.flag c) c = status
    rw [Function.update_self, hflag, Bool.or_false]

/-- Who is inside a section that comes to its end gets there, and releases the lock, by steps
of its processor alone. -/
theorem Sound.exists_release (h : Sound s) {op : ω} {rest : Body σ α} {r : α × σ}
    (hi : s.shared.phase i = .inside (c, op) rest) (hrun : rest.run s.shared.store = some r) :
    ∃ t, Reaches (MaskedLock.step body)
        (fun _ a => a = .locked c .work ∨ a = .locked c .clear) s t ∧
      t.shared.taken = false ∧ t.shared.store = r.2 ∧
        t.shared.log = s.shared.log ++ [((c, op), r.1)] := by
  obtain ⟨below, hs⟩ := h.here i c op rest hi
  obtain ⟨⟨status, hp⟩, -⟩ := h.inside_masked hi
  obtain ⟨shared, hreaches, hend⟩ := @CriticalSection.exists_leaves _ _ _ _ _ _ body _ i _ _ _ hi hrun
  refine ⟨{ s with shared }, ?_, hend⟩
  clear hend
  induction hreaches with
  | refl => exact Reaches.refl s
  | tail _ hnext ih =>
    obtain ⟨e, he, hstep⟩ := hnext
    rcases he with rfl | rfl
    · apply ih.snoc (.locked c .work) (.inl rfl)
      simp only [MaskedLock.step, Action.core, hs, hp, LockStep.event, hstep, Except.map]
    · apply ih.snoc (.locked c .clear) (.inr rfl)
      simp only [MaskedLock.step, Action.core, hs, hp, LockStep.event, hstep, Except.map]

end TomatOS.Foundation.MaskedLock
