import Mathlib.Algebra.Order.Ring.Nat
import Mathlib.Tactic.Ring

/-! The conversions between durations and TSC ticks, from `kernel/time/tsc.h`.
Each multiplies in 64 bits and then divides, so it is exact as long as the
product fits. Within a day this is so for milliseconds at every frequency; for
the finer units the product wraps from some duration on, the result falls below
the exact one, and the next longer duration gets an earlier deadline. -/

namespace TomatOS.Time

def MS_PER_S : UInt64 := 1000
def US_PER_S : UInt64 := 1000000
def NS_PER_S : UInt64 := 1000000000

/-- The shape of the conversions to ticks; `tscFreqHz` is `g_tsc_freq_hz`. -/
def durationToTsc (perS tscFreqHz duration : UInt64) : UInt64 := duration * tscFreqHz / perS

/-- The shape of the conversions from ticks. -/
def tscToDuration (perS tscFreqHz tsc : UInt64) : UInt64 := tsc * perS / tscFreqHz

def nsToTsc : UInt64 → UInt64 → UInt64 := durationToTsc NS_PER_S
def usToTsc : UInt64 → UInt64 → UInt64 := durationToTsc US_PER_S
def msToTsc : UInt64 → UInt64 → UInt64 := durationToTsc MS_PER_S

def tscToNs : UInt64 → UInt64 → UInt64 := tscToDuration NS_PER_S
def tscToUs : UInt64 → UInt64 → UInt64 := tscToDuration US_PER_S
def tscToMs : UInt64 → UInt64 → UInt64 := tscToDuration MS_PER_S

/-- The deadline `timer_sleep` sets; `now` is the result of `get_tsc`. -/
def tscMsDeadline (tscFreqHz now ms : UInt64) : UInt64 := now + msToTsc tscFreqHz ms

/-- The units of the conversions. -/
inductive TimeUnit where
  | ns
  | us
  | ms
  deriving DecidableEq, Repr

namespace TimeUnit

def perS : TimeUnit → UInt64
  | .ns => NS_PER_S
  | .us => US_PER_S
  | .ms => MS_PER_S

def toTsc : TimeUnit → UInt64 → UInt64 → UInt64
  | .ns => nsToTsc
  | .us => usToTsc
  | .ms => msToTsc

def ofTsc : TimeUnit → UInt64 → UInt64 → UInt64
  | .ns => tscToNs
  | .us => tscToUs
  | .ms => tscToMs

/-- 24 hours in the unit. -/
def day (u : TimeUnit) : ℕ := 86400 * u.perS.toNat

theorem toTsc_toNat (u : TimeUnit) (f d : UInt64) :
    (u.toTsc f d).toNat = d.toNat * f.toNat % 2 ^ 64 / u.perS.toNat := by
  rw [← UInt64.toNat_mul, ← UInt64.toNat_div]
  cases u <;> rfl

theorem ofTsc_toNat (u : TimeUnit) (f t : UInt64) :
    (u.ofTsc f t).toNat = t.toNat * u.perS.toNat % 2 ^ 64 / f.toNat := by
  rw [← UInt64.toNat_mul, ← UInt64.toNat_div]
  cases u <;> rfl

theorem perS_bounds (u : TimeUnit) : 1000 ≤ u.perS.toNat ∧ u.perS.toNat ≤ 1000000000 := by
  cases u <;> decide

end TimeUnit

/-- Dividing a product reduced modulo a machine word is exact only if nothing
was reduced. -/
theorem mod_div_eq_iff {word p q : ℕ} (hq : 0 < q) (hle : q ≤ word) :
    p % word / q = p / q ↔ p < word := by
  constructor
  · intro h
    by_contra hp
    have hsplit : p % word + word ≤ p := by
      have := Nat.mod_add_div p word
      have := Nat.le_mul_of_pos_right word (Nat.div_pos (not_lt.mp hp) (hq.trans_le hle))
      omega
    have hstep : p % word / q + 1 ≤ p / q := by
      rw [← Nat.add_div_right _ hq]
      exact Nat.div_le_div_right (by omega)
    omega
  · intro h
    rw [Nat.mod_eq_of_lt h]

section Day

variable (u : TimeUnit) {f : UInt64}

theorem toTsc_exact_iff (d : UInt64) :
    (u.toTsc f d).toNat = d.toNat * f.toNat / u.perS.toNat ↔ d.toNat * f.toNat < 2 ^ 64 := by
  have := u.perS_bounds
  rw [u.toTsc_toNat]
  exact mod_div_eq_iff (by omega) (by omega)

theorem ofTsc_exact_iff (hf : 0 < f.toNat) (t : UInt64) :
    (u.ofTsc f t).toNat = t.toNat * u.perS.toNat / f.toNat ↔
      t.toNat * u.perS.toNat < 2 ^ 64 := by
  rw [u.ofTsc_toNat]
  exact mod_div_eq_iff hf f.toNat_lt.le

theorem toTsc_mono {d d' : UInt64} (hd : d ≤ d') (hfit : d'.toNat * f.toNat < 2 ^ 64) :
    u.toTsc f d ≤ u.toTsc f d' := by
  have hmul : d.toNat * f.toNat ≤ d'.toNat * f.toNat :=
    Nat.mul_le_mul_right _ (UInt64.le_iff_toNat_le.mp hd)
  rw [UInt64.le_iff_toNat_le, (toTsc_exact_iff u d).mpr (by omega),
    (toTsc_exact_iff u d').mpr hfit]
  exact Nat.div_le_div_right hmul

theorem day_lt : u.day < 2 ^ 64 := by cases u <;> decide

theorem last_multiple_below {word f : ℕ} (hf : 0 < f) (hword : 0 < word) :
    ∃ n, n * f < word ∧ word ≤ (n + 1) * f := by
  refine ⟨(word - 1) / f, ?_, ?_⟩
  · have := Nat.div_mul_le_self (word - 1) f
    omega
  · have := Nat.lt_div_mul_add (a := word - 1) hf
    rw [add_one_mul]
    omega

theorem toTsc_drops (hf : 0 < f.toNat) (hf' : f.toNat < 2 ^ 32) (hwrap : 2 ^ 64 ≤ u.day * f.toNat) :
    ∃ d d' : UInt64, d ≤ d' ∧ d'.toNat ≤ u.day ∧ u.toTsc f d' < u.toTsc f d := by
  obtain ⟨n, hlow, hhigh⟩ := last_multiple_below hf (show 0 < 2 ^ 64 by decide)
  have hday : n + 1 ≤ u.day := by
    by_contra hlt
    have := Nat.mul_le_mul_right f.toNat (show u.day ≤ n by omega)
    omega
  have hlt := day_lt u
  have hd : (UInt64.ofNat n).toNat = n := by
    rw [UInt64.toNat_ofNat', Nat.mod_eq_of_lt (by omega)]
  have hd' : (UInt64.ofNat (n + 1)).toNat = n + 1 := by
    rw [UInt64.toNat_ofNat', Nat.mod_eq_of_lt (by omega)]
  refine ⟨UInt64.ofNat n, UInt64.ofNat (n + 1), ?_, by omega, ?_⟩
  · rw [UInt64.le_iff_toNat_le, hd, hd']
    exact Nat.le_succ n
  · have := u.perS_bounds
    have hmod : (n + 1) * f.toNat % 2 ^ 64 = (n + 1) * f.toNat - 2 ^ 64 := by
      rw [Nat.mod_eq_sub_mod hhigh, Nat.mod_eq_of_lt]
      rw [add_one_mul]
      omega
    rw [UInt64.lt_iff_toNat_lt, u.toTsc_toNat, u.toTsc_toNat, hd, hd', hmod, Nat.mod_eq_of_lt hlow]
    -- the products are further apart than the divisor
    rw [Nat.div_lt_iff_lt_mul (by omega)]
    have hdiv := Nat.lt_div_mul_add (a := n * f.toNat) (b := u.perS.toNat) (by omega)
    rw [add_one_mul] at hhigh ⊢
    omega

/-- Milliseconds never wrap within a day. -/
theorem ms_day_fits (hf : f.toNat < 2 ^ 32) : TimeUnit.ms.day * f.toNat < 2 ^ 64 := by
  have hday : TimeUnit.ms.day = 86400000 := rfl
  rw [hday]
  omega

/-- A longer sleep of at most a day never gets an earlier deadline, as long as
the counter itself does not wrap. -/
theorem tscMsDeadline_mono (hf : f.toNat < 2 ^ 32) (now : UInt64) {ms ms' : UInt64} (hms : ms ≤ ms')
    (hday : ms'.toNat ≤ TimeUnit.ms.day)
    (hnow : now.toNat + ms'.toNat * f.toNat / 1000 < 2 ^ 64) :
    tscMsDeadline f now ms ≤ tscMsDeadline f now ms' := by
  have hfit : ms'.toNat * f.toNat < 2 ^ 64 :=
    (Nat.mul_le_mul_right _ hday).trans_lt (ms_day_fits hf)
  have hle := UInt64.le_iff_toNat_le.mp (toTsc_mono .ms hms hfit)
  have hexact := (toTsc_exact_iff .ms ms').mpr hfit
  have hperS : TimeUnit.ms.perS.toNat = 1000 := rfl
  rw [hperS] at hexact
  rw [UInt64.le_iff_toNat_le]
  simp only [tscMsDeadline, UInt64.toNat_add]
  simp only [TimeUnit.toTsc] at hle hexact
  rw [Nat.mod_eq_of_lt (by omega), Nat.mod_eq_of_lt (by omega)]
  omega

end Day

/-- Over a day at frequency `f` both conversions of the unit are the floor of the
exact quotient, and more time is never fewer ticks. -/
def ConvertsExactly (u : TimeUnit) (f : UInt64) : Prop :=
  (∀ d : UInt64, d.toNat ≤ u.day →
    (u.toTsc f d).toNat = d.toNat * f.toNat / u.perS.toNat) ∧
  (∀ d d' : UInt64, d ≤ d' → d'.toNat ≤ u.day → u.toTsc f d ≤ u.toTsc f d') ∧
  ∀ t : UInt64, t.toNat ≤ 86400 * f.toNat →
    (u.ofTsc f t).toNat = t.toNat * u.perS.toNat / f.toNat

/-- For each unit and frequency: a conversion to ticks is exact exactly when its
product fits in 64 bits, and so is a conversion from ticks; more time never gives
fewer ticks over the day exactly when the product for the whole day fits, and
then everything is exact. -/
theorem conversions_exact_iff (u : TimeUnit) (f : UInt64) (hf : 1 ≤ f.toNat)
    (hf' : f.toNat < 2 ^ 32) :
    (∀ d : UInt64, d.toNat ≤ u.day →
      ((u.toTsc f d).toNat = d.toNat * f.toNat / u.perS.toNat ↔ d.toNat * f.toNat < 2 ^ 64)) ∧
    ((∀ d d' : UInt64, d ≤ d' → d'.toNat ≤ u.day → u.toTsc f d ≤ u.toTsc f d') ↔
      u.day * f.toNat < 2 ^ 64) ∧
    (∀ t : UInt64, t.toNat ≤ 86400 * f.toNat →
      ((u.ofTsc f t).toNat = t.toNat * u.perS.toNat / f.toNat ↔
        t.toNat * u.perS.toNat < 2 ^ 64)) ∧
    (ConvertsExactly u f ↔ u.day * f.toNat < 2 ^ 64) := by
  have hmono : (∀ d d' : UInt64, d ≤ d' → d'.toNat ≤ u.day → u.toTsc f d ≤ u.toTsc f d') ↔
      u.day * f.toNat < 2 ^ 64 := by
    constructor
    · intro hall
      by_contra hwrap
      obtain ⟨d, d', hd, hday, hlt⟩ := toTsc_drops u hf hf' (not_lt.mp hwrap)
      exact absurd hlt (UInt64.not_lt.mpr (hall d d' hd hday))
    · intro hfit d d' hd hday
      exact toTsc_mono u hd ((Nat.mul_le_mul_right _ hday).trans_lt hfit)
  refine ⟨fun d _ => toTsc_exact_iff u d, hmono, fun t _ => ofTsc_exact_iff u hf t,
    fun h => hmono.mp h.2.1, fun hfit => ⟨fun d hd => ?_, hmono.mpr hfit, fun t ht => ?_⟩⟩
  · exact (toTsc_exact_iff u d).mpr ((Nat.mul_le_mul_right _ hd).trans_lt hfit)
  · refine (ofTsc_exact_iff u hf t).mpr ((Nat.mul_le_mul_right _ ht).trans_lt ?_)
    rwa [TimeUnit.day, mul_right_comm] at hfit

theorem ms_exact_at_3GHz :
    TimeUnit.ms.day * UInt64.toNat 3000000000 < 2 ^ 64 ∧ ConvertsExactly .ms 3000000000 :=
  have hfit : TimeUnit.ms.day * UInt64.toNat 3000000000 < 2 ^ 64 := by decide
  ⟨hfit, (conversions_exact_iff .ms 3000000000 (by decide) (by decide)).2.2.2.mpr hfit⟩

/-- Ten seconds in nanoseconds wrap at 3 GHz. -/
theorem ns_ten_seconds_wrap :
    ¬ ∀ (u : TimeUnit) (f : UInt64), 1 ≤ f.toNat → f.toNat < 2 ^ 32 → ConvertsExactly u f := by
  intro h
  have hten := (h .ns 3000000000 (by decide) (by decide)).1 10000000000 (by decide)
  exact absurd hten (by decide)

end TomatOS.Time
