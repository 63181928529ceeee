import Mathlib.Algebra.Order.Ring.Nat

/-! The size classes of the two heaps, from `mem_alloc` of `kernel/mem/alloc.c` and
`tdn_host_gc_alloc` of `kernel/mem/gc/gc.c`, which differ only in their smallest
class. A size is rounded up by shifting the `int` 1 by the bit length of the size
less one. Up to 1GB this is the least power of two that holds the size; up to 2GB
it is the sign bit, which the conversion to `size_t` extends to the upper half: C leaves
`1 << 31` undefined, and this is what clang, which builds the kernel, makes of it. Beyond,
the shift is out of range. -/

namespace TomatOS.Heap

/-- `__builtin_clzl`, for a nonzero argument. -/
def clzl (x : ℕ) : ℕ := 63 - x.log2

/-- `1 << shift` as a `size_t`, none for a shift of the width of `int` or more. -/
def shiftedOne (shift : ℕ) : Option ℕ :=
  if 31 < shift then none
  else if shift = 31 then some (2 ^ 64 - 2 ^ 31)
  else some (1 <<< shift)

/-- The rounded size and the order for a request, the smallest class being
`2 ^ minLog` bytes. The truncated subtraction is the clamp of a negative order
at 0. -/
def sizeClassFrom (minLog size : ℕ) : Option (ℕ × ℕ) :=
  let size := if size < 2 ^ minLog then 2 ^ minLog else size
  (shiftedOne (64 - clzl (size - 1))).map fun alignedSize =>
    (alignedSize, 64 - 1 - clzl alignedSize - minLog)

variable {minLog size : ℕ}

/-- The bit length of a request less one. -/
theorem sizeClassFrom_bitLength (hm : 1 ≤ minLog) (hm' : minLog ≤ 30) (hsize : size < 2 ^ 64) :
    ∃ n, (if size < 2 ^ minLog then 2 ^ minLog else size) = n + 1 ∧ n ≠ 0 ∧
      minLog ≤ n.log2 + 1 ∧ 64 - clzl n = n.log2 + 1 ∧ size ≤ n + 1 ∧
      ∀ k, minLog ≤ k → size ≤ 2 ^ k → n < 2 ^ k := by
  have hpow : 2 ≤ 2 ^ minLog := Nat.le_self_pow (by omega) 2
  have hpow' : 2 ^ minLog ≤ 2 ^ 30 := Nat.pow_le_pow_right (by decide) hm'
  have hhalf : 2 ^ minLog = 2 * 2 ^ (minLog - 1) := by
    rw [← Nat.pow_succ']
    congr 1
    omega
  obtain ⟨n, hn⟩ : ∃ n, (if size < 2 ^ minLog then 2 ^ minLog else size) = n + 1 :=
    ⟨(if size < 2 ^ minLog then 2 ^ minLog else size) - 1, by split <;> omega⟩
  have hne : n ≠ 0 := by
    rintro rfl
    split at hn <;> omega
  refine ⟨n, hn, hne, ?_, ?_, by split at hn <;> omega, fun k hk hsk => ?_⟩
  · have hle : minLog - 1 ≤ n.log2 := (Nat.le_log2 hne).mpr (by split at hn <;> omega)
    omega
  · have hlog : n.log2 < 64 := (Nat.log2_lt hne).mpr (by split at hn <;> omega)
    unfold clzl
    omega
  · have : 2 ^ minLog ≤ 2 ^ k := Nat.pow_le_pow_right (by decide) hk
    split at hn <;> omega

/-- Up to 1GB the class is the least that holds the size. -/
theorem sizeClassFrom_least (hm : 1 ≤ minLog) (hm' : minLog ≤ 30) (hsize : size ≤ 2 ^ 30) :
    ∃ order, sizeClassFrom minLog size = some (2 ^ (order + minLog), order) ∧
      size ≤ 2 ^ (order + minLog) ∧ ∀ o, size ≤ 2 ^ (o + minLog) → order ≤ o := by
  obtain ⟨n, hn, hne, hmin, hlen, hle, hleast⟩ :=
    sizeClassFrom_bitLength hm hm' (show size < 2 ^ 64 by omega)
  have hlt : n < 2 ^ (n.log2 + 1) := Nat.lt_log2_self
  have hlog : n.log2 < 30 := (Nat.log2_lt hne).mpr (hleast 30 hm' hsize)
  have hadd : n.log2 + 1 - minLog + minLog = n.log2 + 1 := by omega
  refine ⟨n.log2 + 1 - minLog, ?_, by rw [hadd]; omega, fun o ho => ?_⟩
  · have hshift : shiftedOne (n.log2 + 1) = some (2 ^ (n.log2 + 1)) := by
      rw [shiftedOne, if_neg (by omega), if_neg (by omega), Nat.one_shiftLeft]
    have horder : 64 - 1 - clzl (2 ^ (n.log2 + 1)) - minLog = n.log2 + 1 - minLog := by
      rw [clzl, Nat.log2_two_pow]
      omega
    simp only [sizeClassFrom, hn, Nat.add_sub_cancel, hlen, hshift, Option.map_some, horder, hadd]
  · have : n.log2 < o + minLog := (Nat.log2_lt hne).mpr (hleast _ (by omega) ho)
    omega

/-- Between 1GB and 2GB it is a class far above all others. -/
theorem sizeClassFrom_signBit (hm : 1 ≤ minLog) (hm' : minLog ≤ 30) (h1 : 2 ^ 30 < size)
    (h2 : size ≤ 2 ^ 31) : sizeClassFrom minLog size = some (2 ^ 64 - 2 ^ 31, 63 - minLog) := by
  obtain ⟨n, hn, hne, -, hlen, hle, hleast⟩ :=
    sizeClassFrom_bitLength hm hm' (show size < 2 ^ 64 by omega)
  have hlog : n.log2 = 30 := by
    have h31 : n.log2 < 31 := (Nat.log2_lt hne).mpr (hleast 31 (by omega) h2)
    have h30 : 30 ≤ n.log2 := (Nat.le_log2 hne).mpr (by omega)
    omega
  have hshift : shiftedOne (n.log2 + 1) = some (2 ^ 64 - 2 ^ 31) := by
    rw [hlog]
    rfl
  have hclz : clzl (2 ^ 64 - 2 ^ 31) = 0 := by
    have h63 : 63 ≤ (2 ^ 64 - 2 ^ 31).log2 := (Nat.le_log2 (by decide)).mpr (by decide)
    unfold clzl
    omega
  simp only [sizeClassFrom, hn, Nat.add_sub_cancel, hlen, hshift, Option.map_some, hclz]

theorem sizeClassFrom_none (hm : 1 ≤ minLog) (hm' : minLog ≤ 30) (h : 2 ^ 31 < size)
    (hsize : size < 2 ^ 64) : sizeClassFrom minLog size = none := by
  obtain ⟨n, hn, hne, -, hlen, hle, -⟩ := sizeClassFrom_bitLength hm hm' hsize
  have hlog : 31 ≤ n.log2 := (Nat.le_log2 hne).mpr (by omega)
  have hshift : shiftedOne (n.log2 + 1) = none := if_pos (by omega)
  simp only [sizeClassFrom, hn, Nat.add_sub_cancel, hlen, hshift, Option.map_none]

end TomatOS.Heap
