import Mathlib.Logic.Relation

/-! Labelled transition systems whose step may fail, with a guard restricting
the labels taken in a state. A run is a chain of guarded successful steps; an
invariant of one step is an invariant of every run. For functions that return a
value and a state there are rules for what holds when they return. -/

namespace TomatOS.Foundation.Transition

variable {σ α ε : Type*}

/-- One guarded step that succeeds. -/
def Next (step : σ → α → Except ε σ) (guard : σ → α → Prop) (s s' : σ) : Prop :=
  ∃ a, guard s a ∧ step s a = .ok s'

/-- States reached by any finite number of guarded steps. -/
def Reaches (step : σ → α → Except ε σ) (guard : σ → α → Prop) : σ → σ → Prop :=
  Relation.ReflTransGen (Next step guard)

variable {step : σ → α → Except ε σ} {guard guard' : σ → α → Prop}

theorem Reaches.refl (s : σ) : Reaches step guard s s := Relation.ReflTransGen.refl

theorem Reaches.snoc {s t u : σ} (h : Reaches step guard s t) (a : α) (ha : guard t a)
    (hu : step t a = .ok u) : Reaches step guard s u := Relation.ReflTransGen.tail h ⟨a, ha, hu⟩

/-- A weaker guard allows the same runs. -/
theorem Reaches.mono {s t : σ} (h : Reaches step guard s t)
    (hg : ∀ u a, guard u a → guard' u a) : Reaches step guard' s t := by
  induction h with
  | refl => exact Reaches.refl s
  | tail _ hn ih =>
    obtain ⟨a, ha, hv⟩ := hn
    exact ih.snoc a (hg _ a ha) hv

/-- The induction over a run: what one guarded step preserves, a run preserves. -/
theorem Reaches.invariant {motive : σ → Prop} {s t : σ} (h : Reaches step guard s t)
    (h0 : motive s) (hstep : ∀ u a v, motive u → guard u a → step u a = .ok v → motive v) :
    motive t := by
  induction h with
  | refl => exact h0
  | tail _ hn ih =>
    obtain ⟨a, ha, hv⟩ := hn
    exact hstep _ a _ ih ha hv

/-- Follow a list of labels, checking every guard, and test the state reached. -/
def leadsTo (step : σ → α → Except ε σ) (guard : σ → α → Bool) (test : σ → Bool) :
    σ → List α → Bool
  | s, [] => test s
  | s, a :: as =>
    guard s a && match step s a with
      | .ok t => leadsTo step guard test t as
      | .error _ => false

/-- A list of labels that passes the test exhibits a run. -/
theorem reaches_of_leadsTo (guard : σ → α → Prop) {check : σ → α → Bool} {test : σ → Bool}
    (hcheck : ∀ s a, check s a = true → guard s a) {labels : List α} {s : σ}
    (h : leadsTo step check test s labels = true) :
    ∃ t, Reaches step guard s t ∧ test t = true := by
  induction labels generalizing s with
  | nil => exact ⟨s, Reaches.refl s, h⟩
  | cons a as ih =>
    simp only [leadsTo, Bool.and_eq_true] at h
    obtain ⟨hg, h⟩ := h
    split at h
    · rename_i u hu
      obtain ⟨t, ht, htest⟩ := ih h
      exact ⟨t, Relation.ReflTransGen.head ⟨a, hcheck s a hg, hu⟩ ht, htest⟩
    · cases h

/-! ### Functions that return a value and a state -/

section Returns

variable {β γ : Type}

theorem ok_of_map {r : Except ε β} {f : β → γ} {y : γ} (h : r.map f = .ok y) :
    ∃ x, r = .ok x ∧ f x = y := by
  rcases r with e | x
  · cases h
  · cases h
    exact ⟨x, rfl, rfl⟩

theorem ok_of_bind {r : Except ε β} {f : β → Except ε γ} {y : γ} (h : r >>= f = .ok y) :
    ∃ x, r = .ok x ∧ f x = .ok y := by
  rcases r with e | x
  · cases h
  · exact ⟨x, rfl, h⟩

theorem toOption_bind (r : Except ε β) (f : β → Except ε γ) :
    (r >>= f).toOption = r.toOption.bind fun x => (f x).toOption := by
  cases r <;> rfl

theorem toOption_eq_some {r : Except ε β} {x : β} : r.toOption = some x ↔ r = .ok x := by
  cases r with
  | error e => simp [Except.toOption]
  | ok y => simp [Except.toOption]

/-- A loop that has come to `y` takes one more round from there. -/
theorem foldlM_concat_of_ok {f : γ → β → Except ε γ} {l : List β} {e : β} {x y : γ}
    (h : l.foldlM f x = .ok y) : (l ++ [e]).foldlM f x = f y e := by
  rw [List.foldlM_append, h]
  show (List.foldlM f y [e]) = f y e
  rw [List.foldlM_cons]
  exact bind_pure _

/-- Whatever is returned satisfies `Q`. -/
def Returns (r : Except ε (β × σ)) (Q : β → σ → Prop) : Prop := ∀ x s, r = .ok (x, s) → Q x s

variable {P Q : β → σ → Prop} {R : γ → σ → Prop} {r : Except ε (β × σ)}

theorem Returns.ok {x : β} {s : σ} (h : Q x s) : Returns (.ok (x, s) : Except ε (β × σ)) Q := by
  intro x' s' hr
  cases hr
  exact h

theorem Returns.error (e : ε) : Returns (.error e) Q := fun _ _ hr => by cases hr

theorem Returns.mono (h : Returns r P) (hPQ : ∀ x s, P x s → Q x s) : Returns r Q :=
  fun x s hr => hPQ x s (h x s hr)

theorem Returns.and (h : Returns r P) (h' : Returns r Q) : Returns r fun x s => P x s ∧ Q x s :=
  fun x s hr => ⟨h x s hr, h' x s hr⟩

theorem Returns.bind {f : β × σ → Except ε (γ × σ)} (h : Returns r P)
    (hf : ∀ x s, P x s → Returns (f (x, s)) R) : Returns (r >>= f) R := by
  intro y t hr
  rcases r with e | ⟨x, s⟩
  · cases hr
  · exact hf x s (h x s rfl) y t hr

end Returns

end TomatOS.Foundation.Transition
