import TomatOS.Debug.Symbols
import Mathlib.Tactic.Set

/-! The quicksort of `kernel/debug/debug.c`, which takes the first element as the pivot
and moves two pointers towards each other. A round of the partition loop that moves
neither pointer exchanges the two elements, and the next round moves both; so the loop
ends. The pivot itself is passed in the first round and stays where it is until the last
exchange. -/

namespace TomatOS.Debug

open Foundation

def swapSymbols (i j : ℤ) (t : TracedArray Symbol) : TracedArray Symbol :=
  let tmp := t.cells i
  let t := ((t.touch i).touch j).write i (t.cells j)
  t.write j tmp

/-- The loop over `i` of `partition_symbols`. The element is read before the bound is
looked at. -/
def advance (p : ℕ) (high i : ℤ) (t : TracedArray Symbol) : ℤ × TracedArray Symbol :=
  if (t.cells i).address ≤ p ∧ i ≤ high - 1 then advance p high (i + 1) (t.touch i)
  else (i, t.touch i)
termination_by (high - i).toNat

/-- The loop over `j`. -/
def retreat (p : ℕ) (low j : ℤ) (t : TracedArray Symbol) : ℤ × TracedArray Symbol :=
  if p < (t.cells j).address ∧ low + 1 ≤ j then retreat p low (j - 1) (t.touch j)
  else (j, t.touch j)
termination_by (j - low).toNat

def exchange (i j : ℤ) (t : TracedArray Symbol) : TracedArray Symbol :=
  if i < j then swapSymbols i j t else t

section Pointers

variable {p : ℕ} {low high i j : ℤ} {t : TracedArray Symbol}

theorem swapSymbols_cells (i j : ℤ) (t : TracedArray Symbol) :
    (swapSymbols i j t).cells = t.cells ∘ Equiv.swap i j := by
  funext k
  simp only [swapSymbols, TracedArray.write_cells, TracedArray.touch_cells, Function.comp_apply,
    Function.update_apply, Equiv.swap_apply_def]
  split_ifs <;> simp_all

theorem swapSymbols_rearranged (hi : low ≤ i ∧ i ≤ high) (hj : low ≤ j ∧ j ≤ high)
    (t : TracedArray Symbol) : t.Rearranged low high (swapSymbols i j t) := by
  constructor
  case inside =>
    use [j, i, j, i], rfl
    simp only [List.mem_cons, List.not_mem_nil, or_false]
    omega
  case permuted =>
    use Equiv.swap i j
    constructor
    · intro k hk
      exact Equiv.swap_apply_of_ne_of_ne (by omega) (by omega)
    · exact swapSymbols_cells i j t

theorem exchange_rearranged (hi : low ≤ i ∧ i ≤ high) (hj : low ≤ j ∧ j ≤ high)
    (t : TracedArray Symbol) : t.Rearranged low high (exchange i j t) := by
  rw [exchange]
  split_ifs
  · exact swapSymbols_rearranged hi hj t
  · exact .refl low high t

theorem exchange_cells_outside {k : ℤ} (hk : k < i ∨ j < k) :
    (exchange i j t).cells k = t.cells k := by
  rw [exchange]
  split_ifs
  · have hi : k ≠ i := by omega
    have hj : k ≠ j := by omega
    rw [swapSymbols_cells, Function.comp_apply, Equiv.swap_apply_of_ne_of_ne hi hj]
  · rfl

theorem exchange_cells_left (h : i < j) : (exchange i j t).cells i = t.cells j := by
  rw [exchange, if_pos h, swapSymbols_cells, Function.comp_apply, Equiv.swap_apply_left]

@[simp] theorem advance_cells (p : ℕ) (high i : ℤ) (t : TracedArray Symbol) :
    (advance p high i t).2.cells = t.cells := by
  fun_induction advance with
  | case1 i t h ih => exact ih
  | case2 i t h => rfl

@[simp] theorem retreat_cells (p : ℕ) (low j : ℤ) (t : TracedArray Symbol) :
    (retreat p low j t).2.cells = t.cells := by
  fun_induction retreat with
  | case1 j t h ih => exact ih
  | case2 j t h => rfl

/-- `i` moves up over elements that are at most the pivot, and stops at a greater one or
at the end of the range. -/
theorem advance_spec (p : ℕ) (high i : ℤ) (t : TracedArray Symbol) :
    i ≤ (advance p high i t).1 ∧ (i ≤ high → (advance p high i t).1 ≤ high) ∧
      (∀ k, i ≤ k → k < (advance p high i t).1 → (t.cells k).address ≤ p) ∧
      (p < (t.cells (advance p high i t).1).address ∨ high ≤ (advance p high i t).1) := by
  fun_induction advance with
  | case1 i t h ih =>
    obtain ⟨hge, hle, hpassed, hstop⟩ := ih
    refine ⟨by omega, fun _ => hle (by omega), fun k hk hlt => ?_, hstop⟩
    by_cases hki : k = i
    · exact hki ▸ h.1
    · exact hpassed k (by omega) hlt
  | case2 i t h =>
    refine ⟨le_refl i, id, fun k hk hlt => ?_, ?_⟩
    · exact absurd hlt (by omega)
    · change p < (t.cells i).address ∨ high ≤ i
      rw [not_and_or, not_le] at h
      omega

/-- `j` moves down over elements that are greater than the pivot, and stops at another one
or at the start of the range. -/
theorem retreat_spec (p : ℕ) (low j : ℤ) (t : TracedArray Symbol) :
    (retreat p low j t).1 ≤ j ∧ (low ≤ j → low ≤ (retreat p low j t).1) ∧
      (∀ k, (retreat p low j t).1 < k → k ≤ j → p < (t.cells k).address) ∧
      ((t.cells (retreat p low j t).1).address ≤ p ∨ (retreat p low j t).1 ≤ low) := by
  fun_induction retreat with
  | case1 j t h ih =>
    obtain ⟨hle, hge, hpassed, hstop⟩ := ih
    refine ⟨by omega, fun _ => hge (by omega), fun k hk hle => ?_, hstop⟩
    by_cases hkj : k = j
    · exact hkj ▸ h.1
    · exact hpassed k hk (by omega)
  | case2 j t h =>
    refine ⟨le_refl j, id, fun k hk hle => ?_, ?_⟩
    · exact absurd hle (by omega)
    · change (t.cells j).address ≤ p ∨ j ≤ low
      rw [not_and_or, not_lt] at h
      omega

theorem advance_rearranged (p : ℕ) (hi : low ≤ i ∧ i ≤ high) :
    t.Rearranged low high (advance p high i t).2 := by
  fun_induction advance with
  | case1 i t h ih => exact (TracedArray.Rearranged.touch hi.1 hi.2 t).trans (ih (by omega))
  | case2 i t h => exact .touch hi.1 hi.2 t

theorem retreat_rearranged (p : ℕ) (hj : low ≤ j ∧ j ≤ high) :
    t.Rearranged low high (retreat p low j t).2 := by
  fun_induction retreat with
  | case1 j t h ih => exact (TracedArray.Rearranged.touch hj.1 hj.2 t).trans (ih (by omega))
  | case2 j t h => exact .touch hj.1 hj.2 t

/-- What a round of the partition loop makes smaller: the distance of the pointers, or
whether `i` is at an element greater than the pivot. -/
def roundMeasure (p : ℕ) (i j : ℤ) (t : TracedArray Symbol) : ℕ :=
  (2 * (j - i)).toNat + if p < (t.cells i).address then 1 else 0

theorem roundMeasure_lt (hi : low ≤ i) (hj : j ≤ high) (h : i < j) {i' j' : ℤ}
    {t' t'' : TracedArray Symbol} (hadv : advance p high i t = (i', t'))
    (hret : retreat p low j t' = (j', t'')) :
    roundMeasure p i' j' (exchange i' j' t'') < roundMeasure p i j t := by
  have hcells : t''.cells = t.cells := by
    have h1 := advance_cells p high i t
    have h2 := retreat_cells p low j t'
    rw [hadv] at h1
    rw [hret] at h2
    exact h2.trans h1
  obtain ⟨hge, -, -, hstop⟩ := advance_spec p high i t
  obtain ⟨hle, -, -, hstop'⟩ := retreat_spec p low j t'
  rw [hadv] at hge hstop
  rw [hret] at hle hstop'
  rw [roundMeasure, roundMeasure]
  by_cases hmoved : i < i' ∨ j' < j
  · split_ifs <;> omega
  · obtain rfl : i' = i := by omega
    obtain rfl : j' = j := by omega
    rw [exchange_cells_left h, hcells]
    have hgreat : p < (t.cells i').address := hstop.resolve_right (by dsimp only; omega)
    have hsmall : (t''.cells j').address ≤ p := by
      have h2 := retreat_cells p low j' t'
      rw [hret] at h2
      rw [show t''.cells = t'.cells from h2]
      exact hstop'.resolve_right (by dsimp only; omega)
    rw [hcells] at hsmall
    rw [if_pos hgreat, if_neg (Nat.not_lt.mpr hsmall)]
    omega

end Pointers

/-- The outer loop of `partition_symbols`, with `i` not below the range and `j` not above
it. -/
def partitionLoop (p : ℕ) (low high i j : ℤ) (hi : low ≤ i) (hj : j ≤ high)
    (t : TracedArray Symbol) : ℤ × TracedArray Symbol :=
  if i < j then
    partitionLoop p low high (advance p high i t).1
      (retreat p low j (advance p high i t).2).1
      (hi.trans (advance_spec p high i t).1)
      ((retreat_spec p low j (advance p high i t).2).1.trans hj)
      (exchange (advance p high i t).1 (retreat p low j (advance p high i t).2).1
        (retreat p low j (advance p high i t).2).2)
  else (j, t)
termination_by roundMeasure p i j t
decreasing_by exact roundMeasure_lt hi hj ‹i < j› rfl rfl

/-- `partition_symbols`: the index of the pivot. -/
def partitionSymbols (low high : ℤ) (t : TracedArray Symbol) : ℤ × TracedArray Symbol :=
  let p := (t.cells low).address
  let r := partitionLoop p low high low high (le_refl low) (le_refl high) (t.touch low)
  (r.1, swapSymbols low r.1 r.2)

/-- The elements before `i` are at most the pivot, those after `j` are greater. -/
structure Split (p : ℕ) (low high i j : ℤ) (t : TracedArray Symbol) : Prop where
  left : low ≤ i ∧ i ≤ high
  right : low ≤ j ∧ j ≤ high
  below : ∀ k, low ≤ k → k < i → (t.cells k).address ≤ p
  above : ∀ k, j < k → k ≤ high → p < (t.cells k).address
  pivot : (t.cells low).address = p
  meet : j ≤ i → (t.cells j).address ≤ p

section Partition

variable {p : ℕ} {low high i j i' j' : ℤ} {t t' t'' : TracedArray Symbol}

/-- A round keeps the split. -/
theorem Split.round (h : Split p low high i j t) (hij : i < j)
    (hadv : advance p high i t = (i', t')) (hret : retreat p low j t' = (j', t'')) :
    Split p low high i' j' (exchange i' j' t'') := by
  have hcells' := advance_cells p high i t
  have hcells := retreat_cells p low j t'
  obtain ⟨hge, hle, hpassed, hstop⟩ := advance_spec p high i t
  obtain ⟨hle', hge', hpassed', hstop'⟩ := retreat_spec p low j t'
  simp only [hadv] at hcells' hge hle hpassed hstop
  simp only [hret] at hcells hle' hge' hpassed' hstop'
  rw [hcells'] at hcells hpassed' hstop'
  have hleft := h.left
  have hright := h.right
  have hpivot := h.pivot
  have hlow : low < i' := by
    by_contra hnot
    obtain rfl : i' = low := by omega
    omega
  have hsmall : (t.cells j').address ≤ p := by
    rcases hstop' with hs | hs
    · exact hs
    · obtain rfl : j' = low := by omega
      exact hpivot.le
  constructor
  case left => exact ⟨by omega, hle hleft.2⟩
  case right => exact ⟨hge' hright.1, by omega⟩
  case below =>
    intro k hk hlt
    rw [exchange_cells_outside (.inl hlt), hcells]
    by_cases hki : k < i
    · exact h.below k hk hki
    · exact hpassed k (by omega) hlt
  case above =>
    intro k hk hle
    rw [exchange_cells_outside (.inr hk), hcells]
    by_cases hkj : j < k
    · exact h.above k hkj hle
    · exact hpassed' k hk (by omega)
  case pivot =>
    rw [exchange_cells_outside (.inl hlow), hcells]
    exact hpivot
  case meet =>
    intro hmeet
    rw [exchange, if_neg (by omega), hcells]
    exact hsmall

theorem partitionLoop_spec (hi : low ≤ i) (hj : j ≤ high) (h : Split p low high i j t) :
    t.Rearranged low high (partitionLoop p low high i j hi hj t).2 ∧
      ∃ i', (partitionLoop p low high i j hi hj t).1 ≤ i' ∧
        Split p low high i' (partitionLoop p low high i j hi hj t).1
          (partitionLoop p low high i j hi hj t).2 := by
  fun_induction partitionLoop with
  | case1 i j hi hj t hij ih =>
    have hnext := h.round hij rfl rfl
    obtain ⟨hrest, hfinal⟩ := ih hnext
    have hadv := advance_rearranged (t := t) p h.left
    have hret := retreat_rearranged (t := (advance p high i t).2) p h.right
    have hex := exchange_rearranged hnext.left hnext.right
      (retreat p low j (advance p high i t).2).2
    exact ⟨((hadv.trans hret).trans hex).trans hrest, hfinal⟩
  | case2 i j hi hj t hij => exact ⟨.refl low high t, i, by dsimp only; omega, h⟩

/-- Partitioning a range of two elements or more puts the elements that are at most the
pivot before it and the greater ones after it. -/
theorem partitionSymbols_spec (h : low < high) (t : TracedArray Symbol) :
    (low ≤ (partitionSymbols low high t).1 ∧ (partitionSymbols low high t).1 ≤ high) ∧
      t.Rearranged low high (partitionSymbols low high t).2 ∧
      (∀ k, low ≤ k → k ≤ (partitionSymbols low high t).1 →
        ((partitionSymbols low high t).2.cells k).address ≤ (t.cells low).address) ∧
      ∀ k, (partitionSymbols low high t).1 ≤ k → k ≤ high →
        (t.cells low).address ≤ ((partitionSymbols low high t).2.cells k).address := by
  have hstart : Split (t.cells low).address low high low high (t.touch low) :=
    { left := ⟨le_refl low, h.le⟩
      right := ⟨h.le, le_refl high⟩
      below := fun k hk hlt => absurd hlt (by omega)
      above := fun k hk hle => absurd hle (by omega)
      pivot := rfl
      meet := fun hle => absurd hle (by omega) }
  obtain ⟨hloop, i', hmeet, hsplit⟩ := partitionLoop_spec (le_refl low) (le_refl high) hstart
  rw [partitionSymbols]
  set r := partitionLoop (t.cells low).address low high low high (le_refl low) (le_refl high)
    (t.touch low) with hr
  have hswap := swapSymbols_rearranged ⟨le_refl low, h.le⟩ hsplit.right r.2
  have htouch := TracedArray.Rearranged.touch (le_refl low) h.le t
  have hmiddle : (r.2.cells r.1).address ≤ (t.cells low).address := hsplit.meet hmeet
  have hpivot := hsplit.pivot
  refine ⟨hsplit.right, (htouch.trans hloop).trans hswap, fun k hk hle => ?_, fun k hk hle => ?_⟩
  · rw [swapSymbols_cells, Function.comp_apply, Equiv.swap_apply_def]
    split_ifs with h1 h2
    · exact hmiddle
    · exact hpivot.le
    · exact hsplit.below k hk (by omega)
  · rw [swapSymbols_cells, Function.comp_apply, Equiv.swap_apply_def]
    split_ifs with h1 h2
    · subst h1
      obtain hrl : r.1 = k := by have := hsplit.right; omega
      rw [hrl]
      exact hpivot.ge
    · exact hpivot.ge
    · exact (hsplit.above k (by omega) hle).le

end Partition

def sortSymbols (low high : ℤ) (t : TracedArray Symbol) : TracedArray Symbol :=
  if low < high then
    sortSymbols ((partitionSymbols low high t).1 + 1) high
      (sortSymbols low ((partitionSymbols low high t).1 - 1) (partitionSymbols low high t).2)
  else t
termination_by (high - low + 1).toNat
decreasing_by
  all_goals
    have := (partitionSymbols_spec ‹low < high› t).1
    omega

theorem sortSymbols_spec (low high : ℤ) (t : TracedArray Symbol) :
    t.Rearranged low high (sortSymbols low high t) ∧
      SortedBetween (sortSymbols low high t).cells low high := by
  fun_induction sortSymbols with
  | case1 low high t h ihleft ihright =>
    obtain ⟨hin, hpart, hbelow, habove⟩ := partitionSymbols_spec h t
    set pi := (partitionSymbols low high t).1
    set t₁ := (partitionSymbols low high t).2
    set t₂ := sortSymbols low (pi - 1) t₁
    set t₃ := sortSymbols (pi + 1) high t₂
    obtain ⟨hleft, hsortedLeft⟩ := ihleft
    obtain ⟨hright, hsortedRight⟩ := ihright
    have hbelow₃ : ∀ k, low ≤ k → k ≤ pi → (t₃.cells k).address ≤ (t.cells low).address := by
      intro k hk hle
      rw [hright.outside (by omega)]
      have hwide : t₁.Rearranged low pi t₂ := hleft.mono (le_refl low) (by omega)
      exact hwide.forall_inside (P := fun s => s.address ≤ (t.cells low).address) hbelow k hk hle
    have habove₃ : ∀ k, pi ≤ k → k ≤ high → (t.cells low).address ≤ (t₃.cells k).address := by
      have habove₂ : ∀ k, pi ≤ k → k ≤ high → (t.cells low).address ≤ (t₂.cells k).address := by
        intro k hk hle
        rw [hleft.outside (by omega)]
        exact habove k hk hle
      have hwide : t₂.Rearranged pi high t₃ := hright.mono (by omega) (le_refl high)
      exact hwide.forall_inside (P := fun s => (t.cells low).address ≤ s.address) habove₂
    constructor
    · exact (hpart.trans (hleft.mono (le_refl low) (by omega))).trans
        (hright.mono (by omega) (le_refl high))
    · intro i j hi hij hj
      by_cases hji : j < pi
      · rw [hright.outside (by omega), hright.outside (by omega)]
        exact hsortedLeft i j hi hij (by omega)
      · by_cases hpi : pi < i
        · exact hsortedRight i j (by omega) hij hj
        · exact (hbelow₃ i hi (by omega)).trans (habove₃ j (by omega) hj)
  | case2 low high t h =>
    refine ⟨.refl low high t, fun i j hi hij hj => ?_⟩
    obtain rfl : i = j := by omega
    exact le_refl _

/-- Sorting touches the range only, leaves the symbols outside it where they are, and
makes the range a sorted permutation of what it was. -/
theorem sortSymbols_sorts (low high : ℤ) (t : TracedArray Symbol) :
    (∃ new, (sortSymbols low high t).accessed = new ++ t.accessed ∧
        ∀ i ∈ new, low ≤ i ∧ i ≤ high) ∧
      (∀ i, i < low ∨ high < i → (sortSymbols low high t).cells i = t.cells i) ∧
      (∃ perm : Equiv.Perm ℤ, (∀ i, i < low ∨ high < i → perm i = i) ∧
        (sortSymbols low high t).cells = t.cells ∘ perm) ∧
      ∀ i j, low ≤ i → i ≤ j → j ≤ high →
        ((sortSymbols low high t).cells i).address ≤
          ((sortSymbols low high t).cells j).address := by
  obtain ⟨hrearranged, hsorted⟩ := sortSymbols_spec low high t
  exact ⟨hrearranged.inside, fun i hi => hrearranged.outside hi, hrearranged.permuted, hsorted⟩

end TomatOS.Debug
