import Mathlib.Algebra.Order.Ring.Nat
import Mathlib.Tactic.Ring

/-! The TSC frequency `init_tsc` stores, from `kernel/time/tsc.c`. With CPUID leaf
0x15 it is the crystal frequency times the ratio of the leaf; the ratio is
divided first and the product is taken in 32 bits, so the stored value is never
above the exact one, and is equal to it only for some of the ratios. -/

namespace TomatOS.Time

/-- The registers CPUID leaf 0x15 fills: the denominator and the numerator of the
ratio, and the crystal frequency. -/
structure TscLeaf where
  a : UInt32
  b : UInt32
  c : UInt32
  deriving DecidableEq, Repr

inductive CpuFault where
  | divideError
  deriving DecidableEq, Repr

namespace TscLeaf

/-- The leaf has both a ratio and a frequency. -/
def Accepted (leaf : TscLeaf) : Prop := leaf.b ≠ 0 ∧ leaf.c ≠ 0

instance (leaf : TscLeaf) : Decidable leaf.Accepted := inferInstanceAs (Decidable (_ ∧ _))

/-- The exact frequency. -/
def tscHz (leaf : TscLeaf) : ℕ := leaf.c.toNat * leaf.b.toNat / leaf.a.toNat

end TscLeaf

/-- `startTsc` and `endTsc` are the counter before and after the wait on the ACPI timer. -/
def calculateTsc (maxleaf : UInt32) (leaf : TscLeaf) (startTsc endTsc : UInt64) :
    Except CpuFault UInt32 :=
  if 0x15 ≤ maxleaf ∧ leaf.Accepted then
    if leaf.a = 0 then .error .divideError else .ok (leaf.c * (leaf.b / leaf.a))
  else
    .ok ((endTsc - startTsc) * 9861).toUInt32

/-- What `init_tsc` leaves: the global, and whether the assertion after it holds. -/
structure TscInit where
  tscFreqHz : UInt64
  nonzero : Bool
  deriving DecidableEq, Repr

def initTsc (maxleaf : UInt32) (leaf : TscLeaf) (startTsc endTsc : UInt64) :
    Except CpuFault TscInit := do
  let freq ← calculateTsc maxleaf leaf startTsc endTsc
  return ⟨freq.toUInt64, freq.toUInt64 ≠ 0⟩

section Leaf

variable {maxleaf : UInt32} {leaf : TscLeaf} (startTsc endTsc : UInt64)

theorem initTsc_fault (hmax : 0x15 ≤ maxleaf) (hacc : leaf.Accepted) (ha : leaf.a = 0) :
    initTsc maxleaf leaf startTsc endTsc = .error .divideError := by
  rw [initTsc, calculateTsc, if_pos ⟨hmax, hacc⟩, if_pos ha]
  rfl

theorem initTsc_stored (hmax : 0x15 ≤ maxleaf) (hacc : leaf.Accepted) (ha : leaf.a ≠ 0) :
    ∃ nonzero, initTsc maxleaf leaf startTsc endTsc =
      .ok ⟨(leaf.c * (leaf.b / leaf.a)).toUInt64, nonzero⟩ := by
  rw [initTsc, calculateTsc, if_pos ⟨hmax, hacc⟩, if_neg ha]
  exact ⟨_, rfl⟩

/-- No division by zero is reached exactly when the denominator is not zero. -/
theorem initTsc_fault_iff (hmax : 0x15 ≤ maxleaf) (hacc : leaf.Accepted) :
    initTsc maxleaf leaf startTsc endTsc = .error .divideError ↔ leaf.a = 0 := by
  constructor
  · intro hfault
    by_contra ha
    obtain ⟨nonzero, hok⟩ := initTsc_stored startTsc endTsc hmax hacc ha
    rw [hok] at hfault
    cases hfault
  · exact initTsc_fault startTsc endTsc hmax hacc

end Leaf

theorem scaled_toNat (leaf : TscLeaf) :
    (leaf.c * (leaf.b / leaf.a)).toUInt64.toNat =
      leaf.c.toNat * (leaf.b.toNat / leaf.a.toNat) % 2 ^ 32 := by
  rw [UInt32.toNat_toUInt64, UInt32.toNat_mul, UInt32.toNat_div]

theorem mul_div_split (a b c : ℕ) (ha : 0 < a) : c * b / a = c * (b / a) + c * (b % a) / a := by
  have hb : c * b = c * (b % a) + a * (c * (b / a)) := by
    conv_lhs => rw [← Nat.mod_add_div b a]
    ring
  rw [hb, Nat.add_mul_div_left _ _ ha, Nat.add_comm]

/-- Dividing first and reducing modulo a word gives the exact quotient exactly
when the product fits and the remainder adds less than one. -/
theorem scaled_exact_iff (a b c word : ℕ) (ha : 0 < a) (hword : 0 < word) :
    c * (b / a) % word = c * b / a ↔ c * (b / a) < word ∧ c * (b % a) < a := by
  rw [mul_div_split a b c ha]
  have hle := Nat.mod_le (c * (b / a)) word
  have hlt := Nat.mod_lt (c * (b / a)) hword
  constructor
  · intro heq
    have hnonneg := Nat.zero_le (c * (b % a) / a)
    have hzero : c * (b % a) / a = 0 := by omega
    exact ⟨by omega, Nat.lt_of_div_eq_zero ha hzero⟩
  · intro ⟨hfit, hrem⟩
    rw [Nat.mod_eq_of_lt hfit, Nat.div_eq_of_lt hrem, Nat.add_zero]

/-- For every accepted leaf: there is no division by zero and the stored value is
the exact frequency, if and only if the denominator is not zero, the product fits
in 32 bits and the remainder of the ratio adds less than one hertz. -/
theorem initTsc_exact_iff (maxleaf : UInt32) (leaf : TscLeaf) (startTsc endTsc : UInt64)
    (hmax : 0x15 ≤ maxleaf) (hacc : leaf.Accepted) :
    (∃ init, initTsc maxleaf leaf startTsc endTsc = .ok init ∧
      init.tscFreqHz.toNat = leaf.tscHz) ↔
    leaf.a ≠ 0 ∧ leaf.c.toNat * (leaf.b.toNat / leaf.a.toNat) < 2 ^ 32 ∧
      leaf.c.toNat * (leaf.b.toNat % leaf.a.toNat) < leaf.a.toNat := by
  by_cases ha : leaf.a = 0
  · rw [initTsc_fault startTsc endTsc hmax hacc ha]
    constructor
    · intro ⟨_, hok, _⟩
      cases hok
    · intro ⟨hne, _⟩
      exact absurd ha hne
  · have hpos : 0 < leaf.a.toNat := by
      rw [← UInt32.toNat_zero, ← UInt32.lt_iff_toNat_lt]
      exact UInt32.pos_iff_ne_zero.mpr ha
    obtain ⟨nonzero, hok⟩ := initTsc_stored startTsc endTsc hmax hacc ha
    have hexact := scaled_exact_iff leaf.a.toNat leaf.b.toNat leaf.c.toNat (2 ^ 32) hpos (by decide)
    rw [← scaled_toNat] at hexact
    rw [hok]
    constructor
    · intro ⟨init, hinit, hhz⟩
      cases hinit
      exact ⟨ha, hexact.mp hhz⟩
    · intro ⟨_, hfit⟩
      exact ⟨_, rfl, hexact.mpr hfit⟩

/-- A 24 MHz crystal with the ratio 125 / 1 gives 3 GHz. -/
theorem initTsc_exact_3GHz :
    (∃ init, initTsc 0x16 ⟨1, 125, 24000000⟩ 0 0 = .ok init ∧
      init.tscFreqHz.toNat = (TscLeaf.mk 1 125 24000000).tscHz) :=
  (initTsc_exact_iff 0x16 ⟨1, 125, 24000000⟩ 0 0 (by decide) (by decide)).mpr (by decide)

/-- A 24 MHz crystal with the ratio 250 / 3 gives 1992 MHz for the exact 2 GHz. -/
theorem initTsc_not_exact :
    ¬ ∀ (maxleaf : UInt32) (leaf : TscLeaf) (startTsc endTsc : UInt64),
      0x15 ≤ maxleaf → leaf.Accepted →
        ∃ init, initTsc maxleaf leaf startTsc endTsc = .ok init ∧
          init.tscFreqHz.toNat = leaf.tscHz := by
  intro hall
  obtain ⟨init, hok, hhz⟩ := hall 0x16 ⟨3, 250, 24000000⟩ 0 0 (by decide) (by decide)
  cases hok
  exact absurd hhz (by decide)

end TomatOS.Time
