import Mathlib.Algebra.BigOperators.Fin
import Mathlib.Algebra.Order.BigOperators.Group.Finset

/-! Counting what finitely many parties hold when one of them acts at a time. A
change that balances what the acting party gives up against what is gained keeps a
total right, and where the total is at most one there is at most one holder. -/

namespace TomatOS.Foundation.Ledger

variable {κ α : Type*} [Fintype κ]

/-- What all parties hold together. -/
def total (holds : α → ℕ) (parties : κ → α) : ℕ := ∑ k, holds (parties k)

variable {holds : α → ℕ} {parties : κ → α}

theorem le_total (c : κ) : holds (parties c) ≤ total holds parties :=
  Finset.single_le_sum (f := fun k => holds (parties k)) (fun _ _ => Nat.zero_le _)
    (Finset.mem_univ c)

theorem eq_of_total_le_one (h : total holds parties ≤ 1) {c d : κ} (hc : 0 < holds (parties c))
    (hd : 0 < holds (parties d)) : c = d := by
  classical
  by_contra hne
  have hpair : holds (parties c) + holds (parties d) ≤ total holds parties := by
    rw [← Finset.sum_pair hne (f := fun k => holds (parties k))]
    exact Finset.sum_le_sum_of_subset (Finset.subset_univ _)
  omega

variable [DecidableEq κ]

theorem total_update (c : κ) (a : α) :
    total holds (Function.update parties c a) + holds (parties c) =
      total holds parties + holds a := by
  have hold := Finset.add_sum_erase Finset.univ (fun k => holds (parties k)) (Finset.mem_univ c)
  have hnew := Finset.add_sum_erase Finset.univ
    (fun k => holds (Function.update parties c a k)) (Finset.mem_univ c)
  have hrest : ∑ k ∈ Finset.univ.erase c, holds (Function.update parties c a k) =
      ∑ k ∈ Finset.univ.erase c, holds (parties k) := by
    apply Finset.sum_congr rfl
    intro k hk
    rw [Function.update_of_ne (Finset.ne_of_mem_erase hk)]
  rw [hrest] at hnew
  simp only [Function.update_self] at hnew
  unfold total
  omega

/-- A balanced change of one party moves the total as it moves the book value. -/
theorem total_update_of_balance {c : κ} {a : α} {n n' : ℕ} (h : total holds parties = n)
    (hb : holds a + n = holds (parties c) + n') :
    total holds (Function.update parties c a) = n' := by
  have hu : total holds (Function.update parties c a) + holds (parties c) =
      total holds parties + holds a := total_update c a
  omega

end TomatOS.Foundation.Ledger
