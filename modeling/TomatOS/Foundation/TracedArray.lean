import Mathlib.Algebra.Group.End
import Mathlib.Data.Int.Order.Basic

/-! An array as a program sees it that does not check its indices: a cell for every
index, inside or outside the allocation, and the indices read or written so far, the
latest first. A program rearranges a range when it touches no other index and only
permutes the cells of the range. -/

namespace TomatOS.Foundation

structure TracedArray (α : Type*) where
  cells : ℤ → α
  accessed : List ℤ

namespace TracedArray

variable {α : Type*}

/-- Record the access of an index. -/
def touch (i : ℤ) (t : TracedArray α) : TracedArray α := { t with accessed := i :: t.accessed }

def write (i : ℤ) (a : α) (t : TracedArray α) : TracedArray α :=
  { cells := Function.update t.cells i a, accessed := i :: t.accessed }

@[simp] theorem touch_cells (i : ℤ) (t : TracedArray α) : (t.touch i).cells = t.cells := rfl

@[simp] theorem write_cells (i : ℤ) (a : α) (t : TracedArray α) :
    (t.write i a).cells = Function.update t.cells i a := rfl

/-- The accesses from `t` to `t'` are inside the range, and the cells of `t'` are those of
`t` permuted inside it. -/
structure Rearranged (lo hi : ℤ) (t t' : TracedArray α) : Prop where
  inside : ∃ new, t'.accessed = new ++ t.accessed ∧ ∀ i ∈ new, lo ≤ i ∧ i ≤ hi
  permuted : ∃ perm : Equiv.Perm ℤ, (∀ i, i < lo ∨ hi < i → perm i = i) ∧
    t'.cells = t.cells ∘ perm

namespace Rearranged

variable {lo hi lo' hi' : ℤ} {t t' t'' : TracedArray α}

theorem refl (lo hi : ℤ) (t : TracedArray α) : Rearranged lo hi t t where
  inside := ⟨[], rfl, by simp⟩
  permuted := ⟨1, by simp, rfl⟩

theorem trans (h : Rearranged lo hi t t') (h' : Rearranged lo hi t' t'') :
    Rearranged lo hi t t'' := by
  obtain ⟨new, hnew, hin⟩ := h.inside
  obtain ⟨new', hnew', hin'⟩ := h'.inside
  obtain ⟨perm, hfix, hcells⟩ := h.permuted
  obtain ⟨perm', hfix', hcells'⟩ := h'.permuted
  constructor
  case inside =>
    use new' ++ new
    constructor
    · rw [hnew', hnew, List.append_assoc]
    · intro i hi
      rcases List.mem_append.mp hi with h | h
      · exact hin' i h
      · exact hin i h
  case permuted =>
    use perm * perm'
    constructor
    · intro i hi
      rw [Equiv.Perm.mul_apply, hfix' i hi, hfix i hi]
    · funext i
      rw [hcells', hcells]
      rfl

theorem mono (h : Rearranged lo hi t t') (hlo : lo' ≤ lo) (hhi : hi ≤ hi') :
    Rearranged lo' hi' t t' := by
  obtain ⟨new, hnew, hin⟩ := h.inside
  obtain ⟨perm, hfix, hcells⟩ := h.permuted
  constructor
  case inside =>
    use new, hnew
    intro i hi
    have := hin i hi
    omega
  case permuted =>
    use perm
    constructor
    · intro i hi
      exact hfix i (by omega)
    · exact hcells

theorem touch {i : ℤ} (hlo : lo ≤ i) (hhi : i ≤ hi) (t : TracedArray α) :
    Rearranged lo hi t (t.touch i) where
  inside := ⟨[i], rfl, by simp [hlo, hhi]⟩
  permuted := ⟨1, by simp, rfl⟩

/-- The cells outside the range are as they were. -/
theorem outside (h : Rearranged lo hi t t') {i : ℤ} (hi : i < lo ∨ hi < i) :
    t'.cells i = t.cells i := by
  obtain ⟨perm, hfix, hcells⟩ := h.permuted
  rw [hcells, Function.comp_apply, hfix i hi]

/-- What holds of every cell of the range still does. -/
theorem forall_inside (h : Rearranged lo hi t t') {P : α → Prop}
    (hP : ∀ i, lo ≤ i → i ≤ hi → P (t.cells i)) (i : ℤ) (hlo : lo ≤ i) (hhi : i ≤ hi) :
    P (t'.cells i) := by
  obtain ⟨perm, hfix, hcells⟩ := h.permuted
  have hin : lo ≤ perm i ∧ perm i ≤ hi := by
    by_contra hout
    have heq : perm (perm i) = perm i := hfix _ (by omega)
    have : perm i = i := perm.injective heq
    omega
  rw [hcells, Function.comp_apply]
  exact hP _ hin.1 hin.2

end Rearranged

end TracedArray

end TomatOS.Foundation
