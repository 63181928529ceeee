import TomatOS.Foundation.Transition
import Mathlib.Logic.Function.Basic

/-! Agents that share a state and a lock taken by test-and-set. The code of a critical
section is cut into steps on the state, and other agents go on between any two of them.
The lock makes the sections follow one another: what is in the state, and what the calls
have returned, is what the same calls do when each runs alone, in the order in which they
released the lock. -/

namespace TomatOS.Foundation

open Transition

/-- The code of a critical section: steps on the state that go on by what they read. -/
inductive Body (σ α : Type) where
  | ret (result : α)
  | halt
  | step (f : σ → σ) (next : σ → Body σ α)

namespace Body

variable {σ α : Type}

/-- The section alone: its result and the state it leaves, if it comes to its end. -/
def run : Body σ α → σ → Option (α × σ)
  | ret result, s => some (result, s)
  | halt, _ => none
  | step f next, s => (next s).run (f s)

/-- Every state that the section goes through. -/
def Through (P : σ → Prop) : Body σ α → σ → Prop
  | ret _, s => P s
  | halt, s => P s
  | step f next, s => P s ∧ (next s).Through P (f s)

theorem Through.now {P : σ → Prop} {b : Body σ α} {s : σ} (h : b.Through P s) : P s := by
  cases b with
  | ret _ => exact h
  | halt => exact h
  | step f next => exact h.1

/-- A step that may fail, and then the rest of the section. -/
def stage {β : Type} (f : σ → Option (β × σ)) (next : β → Body σ α) : Body σ α :=
  step (fun s => ((f s).map Prod.snd).getD s) fun s =>
    match f s with
    | some r => next r.1
    | none => halt

theorem run_stage {β : Type} (f : σ → Option (β × σ)) (next : β → Body σ α) (s : σ) :
    (stage f next).run s = (f s).bind fun r => (next r.1).run r.2 := by
  rw [stage, run]
  cases h : f s with
  | none => rfl
  | some r => rfl

theorem through_stage {β : Type} {P : σ → Prop} {f : σ → Option (β × σ)} {next : β → Body σ α}
    {s : σ} (hs : P s) (h : ∀ r, f s = some r → (next r.1).Through P r.2) :
    (stage f next).Through P s := by
  rw [stage, Through]
  cases hf : f s with
  | none => exact ⟨hs, hs⟩
  | some r => exact ⟨hs, h r hf⟩

end Body

namespace CriticalSection

variable {ι κ ω σ α : Type}

/-- How far an agent is in a call. A call takes effect at the place `κ` at which the
lock was taken. -/
inductive Phase (κ ω σ α : Type) where
  | outside
  | waiting (op : ω)
  | inside (call : κ × ω) (rest : Body σ α)
  | left (call : κ × ω) (result : α)

/-- The lock, the state it protects, the agents, and the calls that have released the lock. -/
structure State (ι κ ω σ α : Type) where
  taken : Bool
  store : σ
  phase : ι → Phase κ ω σ α
  log : List ((κ × ω) × α)

inductive Event (ι κ ω : Type) where
  | call (i : ι) (op : ω)
  | testAndSet (i : ι) (c : κ)
  | work (i : ι)
  | clear (i : ι)
  | ret (i : ι)

def Event.agent : Event ι κ ω → ι
  | .call i _ | .testAndSet i _ | .work i | .clear i | .ret i => i

def State.initial (store : σ) : State ι κ ω σ α := ⟨false, store, fun _ => .outside, []⟩

/-- The call an agent has made that has not released the lock yet. -/
def Phase.pending : Phase κ ω σ α → Option ω
  | .outside => none
  | .waiting op => some op
  | .inside call _ => some call.2
  | .left _ _ => none

def State.pending (s : State ι κ ω σ α) (i : ι) : Option ω := (s.phase i).pending

def State.Inside (s : State ι κ ω σ α) (i : ι) : Prop :=
  ∃ call rest, s.phase i = .inside call rest

variable [DecidableEq ι]

def State.move (s : State ι κ ω σ α) (i : ι) (p : Phase κ ω σ α) : State ι κ ω σ α :=
  { s with phase := Function.update s.phase i p }

def step (body : κ × ω → Body σ α) (s : State ι κ ω σ α) :
    Event ι κ ω → Except Unit (State ι κ ω σ α)
  | .call i op =>
    match s.phase i with
    | .outside => .ok (s.move i (.waiting op))
    | _ => .error ()
  | .testAndSet i c =>
    match s.phase i with
    | .waiting op =>
      if s.taken then .ok s
      else .ok { s.move i (.inside (c, op) (body (c, op))) with taken := true }
    | _ => .error ()
  | .work i =>
    match s.phase i with
    | .inside call (.step f next) =>
      .ok { s.move i (.inside call (next s.store)) with store := f s.store }
    | _ => .error ()
  | .clear i =>
    match s.phase i with
    | .inside call (.ret a) =>
      .ok { s.move i (.left call a) with taken := false, log := s.log ++ [(call, a)] }
    | _ => .error ()
  | .ret i =>
    match s.phase i with
    | .left _ _ => .ok (s.move i .outside)
    | _ => .error ()

variable {body : κ × ω → Body σ α} {s t : State ι κ ω σ α} {e : Event ι κ ω}

/-- What a step can do. -/
inductive Moves (body : κ × ω → Body σ α) (s : State ι κ ω σ α) :
    Event ι κ ω → State ι κ ω σ α → Prop
  | call {i : ι} {op : ω} (h : s.phase i = .outside) :
    Moves body s (.call i op) (s.move i (.waiting op))
  | spin {i : ι} {c : κ} {op : ω} (h : s.phase i = .waiting op) (ht : s.taken = true) :
    Moves body s (.testAndSet i c) s
  | take {i : ι} {c : κ} {op : ω} (h : s.phase i = .waiting op) (ht : s.taken = false) :
    Moves body s (.testAndSet i c)
      { s.move i (.inside (c, op) (body (c, op))) with taken := true }
  | work {i : ι} {call : κ × ω} {f : σ → σ} {next : σ → Body σ α}
    (h : s.phase i = .inside call (.step f next)) :
    Moves body s (.work i) { s.move i (.inside call (next s.store)) with store := f s.store }
  | clear {i : ι} {call : κ × ω} {a : α} (h : s.phase i = .inside call (.ret a)) :
    Moves body s (.clear i)
      { s.move i (.left call a) with taken := false, log := s.log ++ [(call, a)] }
  | ret {i : ι} {call : κ × ω} {a : α} (h : s.phase i = .left call a) :
    Moves body s (.ret i) (s.move i .outside)

theorem moves_of_step (h : step body s e = .ok t) : Moves body s e t := by
  cases e with
  | call i op =>
    simp only [step] at h
    split at h
    · rename_i hp
      obtain rfl := Except.ok.inj h
      exact .call hp
    · cases h
  | testAndSet i c =>
    simp only [step] at h
    split at h
    · rename_i op hp
      split at h
      · rename_i ht
        obtain rfl := Except.ok.inj h
        exact .spin hp ht
      · rename_i ht
        obtain rfl := Except.ok.inj h
        exact .take hp (Bool.eq_false_iff.mpr ht)
    · cases h
  | work i =>
    simp only [step] at h
    split at h
    · rename_i hp
      obtain rfl := Except.ok.inj h
      exact .work hp
    · cases h
  | clear i =>
    simp only [step] at h
    split at h
    · rename_i hp
      obtain rfl := Except.ok.inj h
      exact .clear hp
    · cases h
  | ret i =>
    simp only [step] at h
    split at h
    · rename_i hp
      obtain rfl := Except.ok.inj h
      exact .ret hp
    · cases h

@[simp] theorem State.move_phase_self (i : ι) (p : Phase κ ω σ α) :
    (s.move i p).phase i = p := Function.update_self ..

theorem State.move_phase_of_ne {i j : ι} (p : Phase κ ω σ α) (h : j ≠ i) :
    (s.move i p).phase j = s.phase j := Function.update_of_ne h ..

/-- A step leaves the other agents where they are. -/
theorem Moves.other (h : Moves body s e t) {j : ι} (hj : j ≠ e.agent) :
    t.phase j = s.phase j := by
  cases h with
  | spin => rfl
  | _ => exact Function.update_of_ne hj ..

theorem State.pending_move (i : ι) (p : Phase κ ω σ α) :
    (s.move i p).pending = Function.update s.pending i p.pending := by
  funext j
  by_cases hj : j = i
  · subst hj
    rw [State.pending, State.move_phase_self, Function.update_self]
  · rw [State.pending, State.move_phase_of_ne p hj, Function.update_of_ne hj, State.pending]

theorem State.pending_move_same {i : ι} {p : Phase κ ω σ α} (h : p.pending = (s.phase i).pending) :
    (s.move i p).pending = s.pending := by
  rw [State.pending_move, h]
  exact Function.update_eq_self i s.pending

/-- What becomes of the calls that are being made, and of the log. -/
theorem Moves.pending_cases (h : Moves body s e t) :
    (∃ i op, e = .call i op ∧ s.phase i = .outside ∧
      t.pending = Function.update s.pending i (some op) ∧ t.log = s.log) ∨
    (∃ i call a, e = .clear i ∧ s.phase i = .inside call (.ret a) ∧
      t.pending = Function.update s.pending i none ∧ t.log = s.log ++ [(call, a)]) ∨
    ((∀ i op, e ≠ .call i op) ∧ (∀ i, e ≠ .clear i) ∧ t.pending = s.pending ∧ t.log = s.log) := by
  cases h with
  | @call i op hp => exact .inl ⟨i, op, rfl, hp, State.pending_move .., rfl⟩
  | @clear i call a hp => exact .inr (.inl ⟨i, call, a, rfl, hp, State.pending_move .., rfl⟩)
  | spin => exact .inr (.inr ⟨by simp, by simp, rfl, rfl⟩)
  | take hp =>
    refine .inr (.inr ⟨by simp, by simp, State.pending_move_same ?_, rfl⟩)
    rw [hp]
    rfl
  | work hp =>
    refine .inr (.inr ⟨by simp, by simp, State.pending_move_same ?_, rfl⟩)
    rw [hp]
    rfl
  | ret hp =>
    refine .inr (.inr ⟨by simp, by simp, State.pending_move_same ?_, rfl⟩)
    rw [hp]
    rfl

/-! ### The order of the calls -/

omit [DecidableEq ι] in
/-- Calls that run alone, one after another. -/
inductive Serial (body : κ × ω → Body σ α) (s₀ : σ) : List ((κ × ω) × α) → σ → Prop
  | nil : Serial body s₀ [] s₀
  | snoc {log : List ((κ × ω) × α)} {s t : σ} {call : κ × ω} {a : α}
    (h : Serial body s₀ log s) (hrun : (body call).run s = some (a, t)) :
    Serial body s₀ (log ++ [(call, a)]) t

/-- The section an agent is in has been running alone since the calls of the log. -/
structure Sound (body : κ × ω → Body σ α) (s₀ : σ) (s : State ι κ ω σ α) (t : σ) : Prop where
  serial : Serial body s₀ s.log t
  free : s.taken = false → s.store = t
  held : ∀ i, s.Inside i → s.taken = true
  holder : s.taken = true → ∃ i, s.Inside i
  alone : ∀ i j, s.Inside i → s.Inside j → i = j
  rest : ∀ i call rest, s.phase i = .inside call rest → rest.run s.store = (body call).run t
  left : ∀ i call a, s.phase i = .left call a → (call, a) ∈ s.log

omit [DecidableEq ι] in
theorem sound_initial (store : σ) :
    Sound body store (State.initial store : State ι κ ω σ α) store where
  serial := .nil
  free _ := rfl
  held := by
    rintro i ⟨call, rest, h⟩
    cases h
  holder h := by cases h
  alone := by
    rintro i j ⟨call, rest, h⟩
    cases h
  rest := by
    intro i call rest h
    cases h
  left := by
    intro i call a h
    cases h

/-- An agent that moves outside the section leaves who is inside as it was. -/
theorem inside_move {i : ι} {p : Phase κ ω σ α} (hi : ¬ s.Inside i)
    (hp : ∀ call rest, p ≠ .inside call rest) (j : ι) :
    (s.move i p).Inside j ↔ s.Inside j := by
  by_cases hj : j = i
  · subst hj
    constructor
    · rintro ⟨call, rest, h⟩
      rw [State.move_phase_self] at h
      exact absurd h (hp call rest)
    · intro h
      exact absurd h hi
  · unfold State.Inside
    rw [State.move_phase_of_ne p hj]

variable {s₀ u : σ}

/-- The phases outside the section do not matter to the lock. -/
theorem Sound.move (h : Sound body s₀ s u) {i : ι} {p : Phase κ ω σ α} (hi : ¬ s.Inside i)
    (hp : ∀ call rest, p ≠ .inside call rest)
    (hleft : ∀ call a, p = .left call a → (call, a) ∈ s.log) : Sound body s₀ (s.move i p) u := by
  have hinside := @inside_move ι κ ω σ α _ s i p hi hp
  constructor
  case serial => exact h.serial
  case free => exact h.free
  case held =>
    intro j hj
    exact h.held j ((hinside j).mp hj)
  case holder =>
    intro ht
    obtain ⟨j, hj⟩ := h.holder ht
    exact ⟨j, (hinside j).mpr hj⟩
  case alone =>
    intro j k hj hk
    exact h.alone j k ((hinside j).mp hj) ((hinside k).mp hk)
  case rest =>
    intro j call rest hj
    by_cases hne : j = i
    · subst hne
      rw [State.move_phase_self] at hj
      exact absurd hj (hp call rest)
    · rw [State.move_phase_of_ne p hne] at hj
      exact h.rest j call rest hj
  case left =>
    intro j call a hj
    by_cases hne : j = i
    · subst hne
      rw [State.move_phase_self] at hj
      exact hleft call a hj
    · rw [State.move_phase_of_ne p hne] at hj
      exact h.left j call a hj

omit [DecidableEq ι] in
theorem not_inside_of {i : ι} {p : Phase κ ω σ α} (h : s.phase i = p)
    (hp : ∀ call rest, p ≠ .inside call rest) : ¬ s.Inside i := by
  rintro ⟨call, rest, hi⟩
  exact hp call rest (h.symm.trans hi)

/-- Taking the lock: the section begins where the calls of the log ended. -/
theorem Sound.take (h : Sound body s₀ s u) {i : ι} {c : κ} {op : ω} (ht : s.taken = false) :
    Sound body s₀ { s.move i (.inside (c, op) (body (c, op))) with taken := true } u := by
  have hnone : ∀ j, ¬ s.Inside j := by
    intro j hj
    rw [h.held j hj] at ht
    cases ht
  have honly : ∀ j, (s.move i (.inside (c, op) (body (c, op)))).Inside j → j = i := by
    rintro j ⟨call, rest, hj⟩
    by_contra hne
    rw [State.move_phase_of_ne _ hne] at hj
    exact hnone j ⟨call, rest, hj⟩
  constructor
  case serial => exact h.serial
  case free =>
    intro hfalse
    cases hfalse
  case held => exact fun _ _ => rfl
  case holder => exact fun _ => ⟨i, _, _, State.move_phase_self ..⟩
  case alone =>
    intro j k hj hk
    exact (honly j hj).trans (honly k hk).symm
  case rest =>
    intro j call rest hj
    obtain rfl := honly j ⟨call, rest, hj⟩
    have heq := hj.symm.trans (State.move_phase_self ..)
    cases heq
    exact congrArg _ (h.free ht)
  case left =>
    intro j call a hj
    by_cases hne : j = i
    · subst hne
      have heq := hj.symm.trans (State.move_phase_self ..)
      cases heq
    · exact h.left j call a ((State.move_phase_of_ne _ hne).symm.trans hj)

/-- A step of the section: only its agent is inside, so nobody else sees the state. -/
theorem Sound.work (h : Sound body s₀ s u) {i : ι} {call : κ × ω} {f : σ → σ}
    {next : σ → Body σ α} (hi : s.phase i = .inside call (.step f next)) :
    Sound body s₀ { s.move i (.inside call (next s.store)) with store := f s.store } u := by
  have hinside : ∀ j, (s.move i (.inside call (next s.store))).Inside j → j = i := by
    rintro j ⟨call', rest, hj⟩
    by_contra hne
    rw [State.move_phase_of_ne _ hne] at hj
    exact hne (h.alone j i ⟨call', rest, hj⟩ ⟨call, _, hi⟩)
  constructor
  case serial => exact h.serial
  case free =>
    intro hfalse
    have htaken := h.held i ⟨call, _, hi⟩
    rw [show s.taken = false from hfalse] at htaken
    cases htaken
  case held => exact fun _ _ => h.held i ⟨call, _, hi⟩
  case holder => exact fun _ => ⟨i, _, _, State.move_phase_self ..⟩
  case alone =>
    intro j k hj hk
    exact (hinside j hj).trans (hinside k hk).symm
  case rest =>
    intro j call' rest hj
    obtain rfl := hinside j ⟨call', rest, hj⟩
    have heq := hj.symm.trans (State.move_phase_self ..)
    cases heq
    exact h.rest j call _ hi
  case left =>
    intro j call' a hj
    by_cases hne : j = i
    · subst hne
      have heq := hj.symm.trans (State.move_phase_self ..)
      cases heq
    · exact h.left j call' a ((State.move_phase_of_ne _ hne).symm.trans hj)

/-- Releasing the lock: the call comes next in the order. -/
theorem Sound.clear (h : Sound body s₀ s u) {i : ι} {call : κ × ω} {a : α}
    (hi : s.phase i = .inside call (.ret a)) : (body call).run u = some (a, s.store) ∧
    Sound body s₀ { s.move i (.left call a) with
      taken := false, log := s.log ++ [(call, a)] } s.store := by
  have hrun : (body call).run u = some (a, s.store) := (h.rest i call _ hi).symm
  have hnone : ∀ j, ¬ (s.move i (.left call a)).Inside j := by
    rintro j ⟨call', rest, hj⟩
    by_cases hne : j = i
    · subst hne
      rw [State.move_phase_self] at hj
      cases hj
    · rw [State.move_phase_of_ne _ hne] at hj
      exact hne (h.alone j i ⟨call', rest, hj⟩ ⟨call, _, hi⟩)
  refine ⟨hrun, ?_⟩
  constructor
  case serial => exact h.serial.snoc hrun
  case free => exact fun _ => rfl
  case held => exact fun j hj => absurd hj (hnone j)
  case holder =>
    intro hfalse
    cases hfalse
  case alone => exact fun j _ hj _ => absurd hj (hnone j)
  case rest => exact fun j call' rest hj => absurd ⟨call', rest, hj⟩ (hnone j)
  case left =>
    intro j call' a' hj
    by_cases hne : j = i
    · subst hne
      have heq := hj.symm.trans (State.move_phase_self ..)
      cases heq
      exact List.mem_append_right _ List.mem_cons_self
    · exact List.mem_append_left _
        (h.left j call' a' ((State.move_phase_of_ne _ hne).symm.trans hj))

/-! ### Inside the sections -/

/-- What holds of the state between the sections, and from where each is on to its end. -/
structure Keeps (I : σ → Prop) (P : κ × ω → σ → Prop) (s : State ι κ ω σ α) (u : σ) : Prop where
  between : I u
  inside : ∀ i call rest, s.phase i = .inside call rest → rest.Through (P call) s.store

variable {I : σ → Prop} {P : κ × ω → σ → Prop}

theorem Keeps.move (h : Keeps I P s u) {i : ι} {p : Phase κ ω σ α}
    (hp : ∀ call rest, p ≠ .inside call rest) : Keeps I P (s.move i p) u := by
  refine ⟨h.between, ?_⟩
  intro j call rest hj
  by_cases hne : j = i
  · subst hne
    rw [State.move_phase_self] at hj
    exact absurd hj (hp call rest)
  · rw [State.move_phase_of_ne p hne] at hj
    exact h.inside j call rest hj

/-- One step; a call that begins goes through `P`, and leaves `I` behind it. -/
theorem Keeps.step (hbegin : ∀ call v, I v → (body call).Through (P call) v)
    (hend : ∀ call v a w, I v → (body call).run v = some (a, w) → I w)
    (hsound : Sound body s₀ s u) (h : Keeps I P s u) (hs : Moves body s e t) :
    ∃ v, Sound body s₀ t v ∧ Keeps I P t v := by
  cases hs with
  | call hp =>
    exact ⟨u, hsound.move (not_inside_of hp (by simp)) (by simp) (by simp), h.move (by simp)⟩
  | spin => exact ⟨u, hsound, h⟩
  | @take i c op hp ht =>
    refine ⟨u, hsound.take ht, h.between, ?_⟩
    intro j call rest hj
    by_cases hne : j = i
    · subst hne
      cases hj.symm.trans (State.move_phase_self ..)
      change ((body (c, op)).Through (P (c, op)) s.store)
      rw [hsound.free ht]
      exact hbegin _ u h.between
    · exact h.inside j call rest ((State.move_phase_of_ne _ hne).symm.trans hj)
  | @work i call f next hp =>
    refine ⟨u, hsound.work hp, h.between, ?_⟩
    intro j call' rest hj
    by_cases hne : j = i
    · subst hne
      cases hj.symm.trans (State.move_phase_self ..)
      exact (h.inside _ _ _ hp).2
    · have hj' := (State.move_phase_of_ne _ hne).symm.trans hj
      exact absurd (hsound.alone j i ⟨call', rest, hj'⟩ ⟨call, _, hp⟩) hne
  | @clear i call a hp =>
    obtain ⟨hrun, hcleared⟩ := hsound.clear hp
    exact ⟨_, hcleared, hend call u a _ h.between hrun, (h.move (by simp)).inside⟩
  | ret hp =>
    exact ⟨u, hsound.move (not_inside_of hp (by simp)) (by simp) (by simp), h.move (by simp)⟩

/-- In every run `I` holds while the lock is free, and every section goes through `P`. -/
theorem keeps_of_reaches {guard : State ι κ ω σ α → Event ι κ ω → Prop} {store : σ}
    (hstart : I store) (hbegin : ∀ call v, I v → (body call).Through (P call) v)
    (hend : ∀ call v a w, I v → (body call).run v = some (a, w) → I w)
    (h : Reaches (CriticalSection.step body) guard (State.initial store) s) :
    ∃ u, Sound body store s u ∧ Keeps I P s u := by
  apply h.invariant (motive := fun s => ∃ u, Sound body store s u ∧ Keeps I P s u)
  · refine ⟨store, sound_initial store, hstart, ?_⟩
    intro i call rest hi
    cases hi
  · rintro v a w ⟨u, hv, hu⟩ - hw
    exact hu.step hbegin hend hv (moves_of_step hw)

/-! ### The way out -/

/-- An agent whose section comes to its end gets there and releases the lock by steps of
its own. -/
theorem exists_leaves {i : ι} {call : κ × ω} {rest : Body σ α} {r : α × σ}
    (hi : s.phase i = .inside call rest) (hrun : rest.run s.store = some r) :
    ∃ t, Reaches (CriticalSection.step body) (fun _ e => e = .work i ∨ e = .clear i) s t ∧
      t.taken = false ∧ t.store = r.2 ∧ t.log = s.log ++ [(call, r.1)] := by
  induction rest generalizing s with
  | ret a =>
    cases hrun
    refine ⟨{ s.move i (.left call a) with taken := false, log := s.log ++ [(call, a)] },
      (Reaches.refl s).snoc (.clear i) (.inr rfl) ?_, rfl, rfl, rfl⟩
    simp only [CriticalSection.step, hi]
  | halt => cases hrun
  | step f next ih =>
    obtain ⟨t, hreaches, hleft⟩ :=
      @ih s.store { s.move i (.inside call (next s.store)) with store := f s.store }
        (State.move_phase_self ..) hrun
    refine ⟨t, Relation.ReflTransGen.head ⟨.work i, .inl rfl, ?_⟩ hreaches, hleft⟩
    simp only [CriticalSection.step, hi]

end CriticalSection

end TomatOS.Foundation
