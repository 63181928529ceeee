import Mathlib.Algebra.Order.Ring.Int
import Mathlib.Algebra.Order.Ring.Nat

/-! The one-shot LAPIC timer as a timer backend, from `kernel/arch/apic.c`. The
distance to the deadline is scaled to timer ticks in 64 bits, rounded down and
clamped. The count never exceeds the exact distance, so the interrupt is never
late, but a count of zero stops the timer instead of firing it: a deadline that
has passed, one less than a tick away, and a product that wraps to less than one
tick all leave the timer stopped. -/

namespace TomatOS.Time

def UINT32_MAX : UInt64 := 4294967295

/-- The count `lapic_timer_set_deadline` writes to the initial count register;
`now` is the result of `get_tsc`, `lapicTimerFreq` and `tscFreqHz` are
`m_lapic_timer_freq` and `g_tsc_freq_hz`. -/
def lapicTimerSetDeadline (lapicTimerFreq tscFreqHz now tscDeadline : UInt64) : UInt32 :=
  let timerCount : UInt64 :=
    if now < tscDeadline then
      let timerCount := (tscDeadline - now) * lapicTimerFreq / tscFreqHz
      if timerCount > UINT32_MAX then 429496730 else timerCount
    else 0
  timerCount.toUInt32

/-- The count `lapic_timer_clear` writes: zero stops the timer. -/
def lapicTimerClear : UInt32 := 0

/-- The ticks until the deadline, rounded down, without overflow. -/
def exactCount (lapicTimerFreq tscFreqHz now tscDeadline : UInt64) : ℤ :=
  ((tscDeadline.toNat : ℤ) - now.toNat) * lapicTimerFreq.toNat / tscFreqHz.toNat

/-- The scaled distance as the code computes it. -/
def wrappedDistance (lapicTimerFreq now tscDeadline : UInt64) : ℕ :=
  (tscDeadline.toNat - now.toNat) * lapicTimerFreq.toNat % 2 ^ 64

section Count

variable {lapicTimerFreq tscFreqHz now tscDeadline : UInt64}

theorem count_of_past (h : ¬ now < tscDeadline) :
    lapicTimerSetDeadline lapicTimerFreq tscFreqHz now tscDeadline = lapicTimerClear := by
  simp only [lapicTimerSetDeadline, h]
  rfl

theorem count_of_future (h : now < tscDeadline) :
    (lapicTimerSetDeadline lapicTimerFreq tscFreqHz now tscDeadline).toNat =
      if wrappedDistance lapicTimerFreq now tscDeadline / tscFreqHz.toNat > 4294967295
      then 429496730
      else wrappedDistance lapicTimerFreq now tscDeadline / tscFreqHz.toNat := by
  have hsub : ((tscDeadline - now) * lapicTimerFreq / tscFreqHz).toNat =
      wrappedDistance lapicTimerFreq now tscDeadline / tscFreqHz.toNat := by
    rw [UInt64.toNat_div, UInt64.toNat_mul, UInt64.toNat_sub_of_le _ _ (UInt64.le_of_lt h)]
    rfl
  simp only [lapicTimerSetDeadline, h, ↓reduceIte, gt_iff_lt, UInt64.lt_iff_toNat_lt, hsub,
    UInt64.toNat_toUInt32]
  rw [show UINT32_MAX.toNat = 4294967295 from rfl]
  split_ifs with hbig
  · rfl
  · rw [hsub, Nat.mod_eq_of_lt (by omega)]

theorem count_le_exact :
    ((lapicTimerSetDeadline lapicTimerFreq tscFreqHz now tscDeadline).toNat : ℤ) ≤
      max 1 (exactCount lapicTimerFreq tscFreqHz now tscDeadline) := by
  by_cases h : now < tscDeadline
  · apply le_max_of_le_right
    have hle : now.toNat ≤ tscDeadline.toNat := (UInt64.lt_iff_toNat_lt.mp h).le
    have hexact : exactCount lapicTimerFreq tscFreqHz now tscDeadline =
        (((tscDeadline.toNat - now.toNat) * lapicTimerFreq.toNat / tscFreqHz.toNat : ℕ) : ℤ) := by
      rw [exactCount, Int.natCast_ediv, Nat.cast_mul, Nat.cast_sub hle]
    have hwrap : wrappedDistance lapicTimerFreq now tscDeadline / tscFreqHz.toNat ≤
        (tscDeadline.toNat - now.toNat) * lapicTimerFreq.toNat / tscFreqHz.toNat :=
      Nat.div_le_div_right (Nat.mod_le _ _)
    rw [hexact, Nat.cast_le, count_of_future h]
    split_ifs
    · omega
    · exact hwrap
  · rw [count_of_past h]
    exact le_max_of_le_left (by decide)

/-- The timer is armed exactly when the deadline lies ahead and the wrapped
product reaches one tick. -/
theorem count_pos_iff (hf : 0 < tscFreqHz.toNat) :
    1 ≤ (lapicTimerSetDeadline lapicTimerFreq tscFreqHz now tscDeadline).toNat ↔
      now < tscDeadline ∧ tscFreqHz.toNat ≤ wrappedDistance lapicTimerFreq now tscDeadline := by
  by_cases h : now < tscDeadline
  · rw [count_of_future h, ← Nat.one_le_div_iff hf]
    simp only [h, true_and]
    split_ifs with hbig
    · omega
    · rfl
  · rw [count_of_past h]
    simp [h, lapicTimerClear]

end Count

/-- The one-shot timer is armed with a 32-bit count that does not exceed the
exact distance. -/
def ArmedInTime (lapicTimerFreq tscFreqHz now tscDeadline : UInt64) : Prop :=
  let count := (lapicTimerSetDeadline lapicTimerFreq tscFreqHz now tscDeadline).toNat
  1 ≤ count ∧ count ≤ UINT32_MAX.toNat ∧
    (count : ℤ) ≤ max 1 (exactCount lapicTimerFreq tscFreqHz now tscDeadline)

theorem armedInTime_iff (lapicTimerFreq tscFreqHz now tscDeadline : UInt64)
    (hf : 0 < tscFreqHz.toNat) :
    ArmedInTime lapicTimerFreq tscFreqHz now tscDeadline ↔
      now < tscDeadline ∧ tscFreqHz.toNat ≤ wrappedDistance lapicTimerFreq now tscDeadline := by
  rw [← count_pos_iff hf]
  constructor
  · intro h
    exact h.1
  · intro hpos
    refine ⟨hpos, ?_, count_le_exact⟩
    have := (lapicTimerSetDeadline lapicTimerFreq tscFreqHz now tscDeadline).toNat_lt
    exact Nat.le_of_lt_succ this

/-- A second ahead on a 1 GHz LAPIC timer and a 3 GHz counter. -/
theorem armedInTime_second_ahead :
    ArmedInTime 1000000000 3000000000 0 3000000000 :=
  (armedInTime_iff 1000000000 3000000000 0 3000000000 (by decide)).mpr (by decide)

/-- A deadline that has just passed stops the timer. -/
theorem past_deadline_not_armed :
    ¬ ∀ lapicTimerFreq tscFreqHz now tscDeadline : UInt64,
      0 < lapicTimerFreq.toNat ∧ lapicTimerFreq.toNat < 2 ^ 32 →
      0 < tscFreqHz.toNat ∧ tscFreqHz.toNat < 2 ^ 32 →
      ArmedInTime lapicTimerFreq tscFreqHz now tscDeadline := by
  intro h
  have hcount := (h 1000000000 3000000000 1001 1000 (by decide) (by decide)).1
  exact absurd hcount (by decide)

end TomatOS.Time
