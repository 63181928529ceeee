import Mathlib.Init

/-! Programs over a state that may fail. The weakest precondition of a program and a
postcondition holds of the states from which the program does not fail and ends with a
result and a state of the postcondition. -/

namespace TomatOS.Foundation

variable {σ α β : Type}

def wp (x : StateT σ Option α) (post : α → σ → Prop) (s : σ) : Prop :=
  ∃ a t, x s = some (a, t) ∧ post a t

variable {x : StateT σ Option α} {f : α → StateT σ Option β} {post post' : α → σ → Prop} {s t : σ}
  {a : α}

theorem wp_of_eq (h : x s = some (a, t)) : wp x post s ↔ post a t := by
  constructor
  · rintro ⟨b, u, hx, hpost⟩
    rw [h] at hx
    cases hx
    exact hpost
  · intro hpost
    exact ⟨a, t, h, hpost⟩

theorem wp.mono (h : wp x post s) (hp : ∀ b u, post b u → post' b u) : wp x post' s := by
  obtain ⟨b, u, hx, hpost⟩ := h
  exact ⟨b, u, hx, hp b u hpost⟩

@[simp] theorem wp_pure : wp (pure a) post s ↔ post a s := wp_of_eq rfl

@[simp] theorem wp_bind {post : β → σ → Prop} :
    wp (x >>= f) post s ↔ wp x (fun b u => wp (f b) post u) s := by
  constructor
  · rintro ⟨c, v, hc, hpost⟩
    cases hx : x s with
    | none =>
      have hnone : (x >>= f) s = none := by
        change (x s).bind _ = none
        rw [hx]
        rfl
      rw [hnone] at hc
      cases hc
    | some r =>
      refine ⟨r.1, r.2, hx, c, v, ?_, hpost⟩
      rw [← hc]
      change _ = (x s).bind _
      rw [hx]
      rfl
  · rintro ⟨b, u, hx, c, v, hc, hpost⟩
    refine ⟨c, v, ?_, hpost⟩
    change (x s).bind _ = _
    rw [hx]
    exact hc

end TomatOS.Foundation
