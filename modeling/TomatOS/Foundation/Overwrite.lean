import Mathlib.Data.List.Basic

/-! Writes one after the other to cells that may have several names. A write reaches
every cell that its key names, and a cell holds what the last write that reaches it has
written. -/

namespace TomatOS.Foundation

variable {K W V : Type*} (names : K → W → Prop) [∀ k w, Decidable (names k w)]

/-- What a cell that held `v` holds after the writes. -/
def overwrite (w : W) : List (K × V) → V → V
  | [], v => v
  | x :: writes, v => overwrite w writes (if names x.1 w then x.2 else v)

theorem overwrite_append (w : W) (first second : List (K × V)) (v : V) :
    overwrite names w (first ++ second) v =
      overwrite names w second (overwrite names w first v) := by
  induction first generalizing v with
  | nil => rfl
  | cons x first ih => exact ih _

/-- A cell that no write reaches is as it was, and any other holds what one of the writes
that reach it has written. -/
theorem overwrite_cases (w : W) (writes : List (K × V)) (v : V) :
    ((∀ x ∈ writes, ¬ names x.1 w) ∧ overwrite names w writes v = v) ∨
      ∃ x ∈ writes, names x.1 w ∧ overwrite names w writes v = x.2 := by
  induction writes generalizing v with
  | nil => exact .inl ⟨fun x hx => (by cases hx), rfl⟩
  | cons x writes ih =>
    rcases ih (if names x.1 w then x.2 else v) with ⟨hnone, heq⟩ | ⟨y, hy, hn, heq⟩
    · by_cases hx : names x.1 w
      · exact .inr ⟨x, List.mem_cons_self, hx, heq.trans (if_pos hx)⟩
      · refine .inl ⟨fun y hy => ?_, heq.trans (if_neg hx)⟩
        rcases List.mem_cons.mp hy with rfl | hy
        · exact hx
        · exact hnone y hy
    · exact .inr ⟨y, List.mem_cons_of_mem x hy, hn, heq⟩

end TomatOS.Foundation
