import TomatOS.Lib.PrintInteger

/-! Reading an integer back that `print_integer` of `kernel/lib/printf.c` has printed. The
reader passes over spaces, takes a sign and the mark of the base if they are there, and
then digits as long as there are some, as `strtol` does. -/

namespace TomatOS.Lib.Printf

open OutputGadget

/-! ### The reader -/

def skipSpaces : List UInt8 → List UInt8
  | [] => []
  | c :: text => if c = ch ' ' then skipSpaces text else c :: text

def readSign : List UInt8 → Bool × List UInt8
  | [] => (false, [])
  | c :: text =>
    if c = ch '-' then (true, text) else if c = ch '+' then (false, text) else (false, c :: text)

def isMark (base : ℕ) (c : UInt8) : Bool :=
  (base = baseHex ∧ (c = ch 'x' ∨ c = ch 'X')) ∨ (base = baseBinary ∧ c = ch 'b')

def readMark (base : ℕ) : List UInt8 → List UInt8
  | c :: c' :: text => if c = ch '0' ∧ isMark base c' then text else c :: c' :: text
  | text => text

def digitValue (c : UInt8) : Option ℕ :=
  if ch '0' ≤ c ∧ c ≤ ch '9' then some (c.toNat - 48)
  else if ch 'a' ≤ c ∧ c ≤ ch 'f' then some (c.toNat - 87)
  else if ch 'A' ≤ c ∧ c ≤ ch 'F' then some (c.toNat - 55)
  else none

def readDigits (base : ℕ) : List UInt8 → ℕ → ℕ
  | [], value => value
  | c :: text, value =>
    match digitValue c with
    | some d => if d < base then readDigits base text (value * base + d) else value
    | none => value

def readInteger (base : ℕ) (text : List UInt8) : ℤ :=
  let (negative, text) := readSign (skipSpaces text)
  let value := readDigits base (readMark base text) 0
  if negative then -value else value

/-! ### Its steps on a printed integer -/

theorem skipSpaces_replicate (n : ℕ) (text : List UInt8) :
    skipSpaces (List.replicate n (ch ' ') ++ text) = skipSpaces text := by
  induction n with
  | zero => rfl
  | succ n ih => rw [List.replicate_succ, List.cons_append, skipSpaces, if_pos rfl, ih]

theorem digitValue_digitChar {uppercase : Bool} {d : ℕ} (h : d < 16) :
    digitValue (digitChar uppercase d) = some d := by
  interval_cases d <;> cases uppercase <;> rfl

theorem digitChar_apart {uppercase : Bool} {base d : ℕ} (h : d < base) (hbase : base ≤ 16) :
    digitChar uppercase d ≠ ch ' ' ∧ digitChar uppercase d ≠ ch '-' ∧
      digitChar uppercase d ≠ ch '+' ∧ isMark base (digitChar uppercase d) = false := by
  have hall : ∀ uppercase : Bool, ∀ d < 16, digitChar uppercase d ≠ ch ' ' ∧
      digitChar uppercase d ≠ ch '-' ∧ digitChar uppercase d ≠ ch '+' ∧
      digitChar uppercase d ≠ ch 'x' ∧ digitChar uppercase d ≠ ch 'X' ∧
      (d < 2 → digitChar uppercase d ≠ ch 'b') := by decide
  obtain ⟨hspace, hminus, hplus, hx, hX, hb⟩ := hall uppercase d (by omega)
  refine ⟨hspace, hminus, hplus, ?_⟩
  rw [isMark, decide_eq_false]
  rintro (⟨-, hc | hc⟩ | ⟨htwo, hc⟩)
  · exact hx hc
  · exact hX hc
  · exact hb (by rw [htwo] at h; exact h) hc

theorem readDigits_map {base : ℕ} {uppercase : Bool} (hbase : base ≤ 16) {ds : List ℕ}
    (h : ∀ d ∈ ds, d < base) (n value : ℕ) :
    readDigits base (ds.map (digitChar uppercase) ++ List.replicate n (ch ' ')) value =
      ds.foldl (fun value d => value * base + d) value := by
  induction ds generalizing value with
  | nil =>
    cases n with
    | zero => rfl
    | succ n => rfl
  | cons d ds ih =>
    have hd := h d List.mem_cons_self
    rw [List.map_cons, List.cons_append, readDigits, digitValue_digitChar (by omega)]
    simp only [if_pos hd]
    exact ih (fun e he => h e (List.mem_cons_of_mem _ he)) _

theorem foldl_digits (base k value : ℕ) :
    (List.replicate k 0 ++ (Nat.digits base value).reverse).foldl
      (fun value d => value * base + d) 0 = value := by
  have hzeros : (List.replicate k 0).foldl (fun value d => value * base + d) 0 = 0 := by
    induction k with
    | zero => rfl
    | succ k ih => rw [List.replicate_succ, List.foldl_cons, Nat.zero_mul, ih]
  have hdigits : ∀ ds : List ℕ, ds.foldr (fun d value => value * base + d) 0 =
      Nat.ofDigits base ds := by
    intro ds
    induction ds with
    | nil => rfl
    | cons d ds ih =>
      rw [List.foldr_cons, ih, Nat.ofDigits_cons, Nat.mul_comm, Nat.add_comm]
  rw [List.foldl_append, hzeros, List.foldl_reverse, hdigits, Nat.ofDigits_digits]

namespace Conversion

variable {c : Conversion}

/-- Zeros and the digits of the value make up the rest of the text behind sign and mark. -/
theorem digits_eq (c : Conversion) (z : ℕ) : ∃ k, List.replicate z (ch '0') ++ c.digits =
    (List.replicate k 0 ++ (Nat.digits c.base c.value).reverse).map
      (digitChar c.flags.uppercase) := by
  have hzero : digitChar c.flags.uppercase 0 = ch '0' := by cases c.flags.uppercase <;> rfl
  have hnumber : c.number = (List.replicate (c.precision.getD 1 - c.valueDigits.length) 0 ++
      (Nat.digits c.base c.value).reverse).map (digitChar c.flags.uppercase) := by
    simp [number, valueDigits, hzero]
  have hjoin : ∀ y, List.replicate y (ch '0') ++ c.number =
      (List.replicate (y + (c.precision.getD 1 - c.valueDigits.length)) 0 ++
        (Nat.digits c.base c.value).reverse).map (digitChar c.flags.uppercase) := by
    intro y
    rw [hnumber, List.map_append, List.map_append, List.map_replicate, List.map_replicate, hzero,
      ← List.append_assoc, List.replicate_append_replicate]
  rw [digits]
  split
  · have hcons : List.replicate z (ch '0') ++ ch '0' :: c.number =
        List.replicate (z + 1) (ch '0') ++ c.number := by
      rw [← List.replicate_append_replicate, List.append_assoc]
      rfl
    exact ⟨_, hcons.trans (hjoin (z + 1))⟩
  · exact ⟨_, hjoin z⟩

theorem text_eq (c : Conversion) : ∃ a z b, c.text = List.replicate a (ch ' ') ++
    (c.sign ++ (c.mark ++ (List.replicate z (ch '0') ++ c.digits ++ List.replicate b (ch ' ')))) := by
  rw [text]
  split_ifs
  · exact ⟨0, 0, c.width - c.body.length, by simp [body]⟩
  · exact ⟨0, c.width - c.body.length, 0, by simp⟩
  · exact ⟨c.width - c.body.length, 0, 0, by simp [body]⟩

theorem readInteger_sign {base : ℕ} {text : List UInt8}
    (hsign : ∀ x l, text = x :: l → x ≠ ch '-' ∧ x ≠ ch '+')
    (hspaces : skipSpaces text = text ∨
      (skipSpaces text = [] ∧ readDigits base (readMark base text) 0 = 0)) :
    readInteger base (c.sign ++ text) =
      if c.negative then -(readDigits base (readMark base text) 0 : ℤ)
      else readDigits base (readMark base text) 0 := by
  have hplain : readSign text = (false, text) := by
    cases text with
    | nil => rfl
    | cons x l =>
      obtain ⟨hminus, hplus⟩ := hsign x l rfl
      rw [readSign, if_neg hminus, if_neg hplus]
  have hbare : readInteger base text = readDigits base (readMark base text) 0 := by
    rw [readInteger]
    obtain hkeep | ⟨hnil, hzero⟩ := hspaces
    · simp only [hkeep, hplain, Bool.false_eq_true, if_false]
    · rw [hnil, hzero]
      rfl
  rw [sign]
  cases hneg : c.negative
  · cases hplus : c.flags.plus
    · cases hspace : c.flags.space
      · simpa using hbare
      · have hskip : readInteger base (ch ' ' :: text) = readInteger base text := rfl
        simpa [hskip] using hbare
    · rfl
  · rfl

theorem readMark_mark (hbase : c.base ≤ 16) {ds : List ℕ} (h : ∀ d ∈ ds, d < c.base) (b : ℕ) :
    readMark c.base (c.mark ++ (ds.map (digitChar c.flags.uppercase) ++
      List.replicate b (ch ' '))) =
      ds.map (digitChar c.flags.uppercase) ++ List.replicate b (ch ' ') := by
  have hkeep : ∀ x y l, isMark c.base y = false → readMark c.base (x :: y :: l) = x :: y :: l := by
    intro x y l hy
    rw [readMark, if_neg (by simp [hy])]
  have hspace : isMark c.base (ch ' ') = false := by
    have hne : ch ' ' ≠ ch 'x' ∧ ch ' ' ≠ ch 'X' ∧ ch ' ' ≠ ch 'b' := by decide
    simp [isMark, hne]
  rw [mark]
  have hskip : ∀ x l, isMark c.base x = true → readMark c.base (ch '0' :: x :: l) = l := by
    intro x l hx
    rw [readMark, if_pos ⟨rfl, hx⟩]
  split_ifs with hmarked hhex hupper hbin
  · exact hskip _ _ (by simp [isMark, hhex])
  · exact hskip _ _ (by simp [isMark, hhex])
  · exact hskip _ _ (by simp [isMark, hbin])
  all_goals
    rw [List.nil_append]
    cases ds with
    | nil =>
      rcases b with - | - | b
      · rfl
      · rfl
      · exact hkeep _ _ _ hspace
    | cons d ds =>
      cases ds with
      | nil =>
        cases b with
        | zero => rfl
        | succ b => exact hkeep _ _ _ hspace
      | cons e ds => exact hkeep _ _ _ (digitChar_apart (h e (by simp)) hbase).2.2.2

/-- What comes behind the sign begins with a digit, or there are spaces only. -/
theorem rest_cases (hbase : c.base ≤ 16) {ds : List ℕ} (h : ∀ d ∈ ds, d < c.base) (b : ℕ) :
    (∃ x l, c.mark ++ (ds.map (digitChar c.flags.uppercase) ++ List.replicate b (ch ' ')) =
      x :: l ∧ x ≠ ch ' ' ∧ x ≠ ch '-' ∧ x ≠ ch '+') ∨ (c.mark = [] ∧ ds = []) := by
  have hzero : ch '0' ≠ ch ' ' ∧ ch '0' ≠ ch '-' ∧ ch '0' ≠ ch '+' := by decide
  by_cases hmark : c.mark = []
  · rw [hmark]
    cases ds with
    | nil => exact .inr ⟨rfl, rfl⟩
    | cons d ds =>
      obtain ⟨hspace, hminus, hplus, -⟩ :=
        @digitChar_apart c.flags.uppercase _ _ (h d List.mem_cons_self) hbase
      exact .inl ⟨_, _, rfl, hspace, hminus, hplus⟩
  · left
    have hcons : ∃ l, c.mark = ch '0' :: l := by
      rw [mark] at hmark ⊢
      split_ifs at hmark ⊢
      all_goals first | exact ⟨_, rfl⟩ | exact absurd rfl hmark
    obtain ⟨l, hl⟩ := hcons
    exact ⟨_, _, by rw [hl, List.cons_append], hzero⟩

/-- An integer is read back from what is printed of it, whatever its flags, width and
precision. -/
theorem readInteger_text (hbase : 2 ≤ c.base ∧ c.base ≤ 16) :
    readInteger c.base c.text = if c.negative then -(c.value : ℤ) else c.value := by
  obtain ⟨a, z, b, htext⟩ := c.text_eq
  obtain ⟨k, hdigits⟩ := c.digits_eq z
  have hlt : ∀ d ∈ List.replicate k 0 ++ (Nat.digits c.base c.value).reverse, d < c.base := by
    intro d hd
    obtain hd | hd := List.mem_append.mp hd
    · rw [(List.mem_replicate.mp hd).2]
      omega
    · exact Nat.digits_lt_base (by omega) (List.mem_reverse.mp hd)
  have hfold := foldl_digits c.base k c.value
  rw [hdigits] at htext
  generalize List.replicate k 0 ++ (Nat.digits c.base c.value).reverse = ds at htext hlt hfold
  have hvalue : readDigits c.base (readMark c.base (c.mark ++
      (ds.map (digitChar c.flags.uppercase) ++ List.replicate b (ch ' ')))) 0 = c.value := by
    rw [readMark_mark hbase.2 hlt, readDigits_map hbase.2 hlt, hfold]
  have hread : readInteger c.base c.text = readInteger c.base (c.sign ++ (c.mark ++
      (ds.map (digitChar c.flags.uppercase) ++ List.replicate b (ch ' ')))) := by
    rw [htext, readInteger, readInteger, skipSpaces_replicate]
  rw [hread, ← hvalue]
  obtain ⟨x, l, hcons, hspace, hminus, hplus⟩ | ⟨hmark, hnil⟩ := rest_cases hbase.2 hlt b
  · apply readInteger_sign
    · intro y m hym
      rw [hcons] at hym
      cases hym
      exact ⟨hminus, hplus⟩
    · rw [hcons]
      exact .inl (if_neg hspace)
  · have hrest : c.mark ++ (ds.map (digitChar c.flags.uppercase) ++ List.replicate b (ch ' ')) =
        List.replicate b (ch ' ') := by
      rw [hmark, hnil]
      rfl
    have hskip := skipSpaces_replicate b []
    rw [List.append_nil] at hskip
    apply readInteger_sign
    · intro y m hym
      have hy : y ∈ List.replicate b (ch ' ') := by
        rw [← hrest, hym]
        exact List.mem_cons_self
      rw [(List.mem_replicate.mp hy).2]
      decide
    · refine .inr ⟨by rw [hrest, hskip]; rfl, ?_⟩
      rw [hvalue, ← hfold, hnil]
      rfl

end Conversion

/-- What `print_integer` prints is read back, as long as it fits the buffer. -/
theorem printInteger_reads_back (c : Conversion) (h : c.Fits) :
    Prints (printInteger · c.value c.negative c.base (c.precision.getD 0) c.width c.flags)
      c.text ∧
    readInteger c.base c.text = if c.negative then -(c.value : ℤ) else c.value := by
  have hbase := h.two_le
  have hprints := prints_printInteger c.value c.negative c.base (c.precision.getD 0) c.width c.flags
  rw [Conversion.printIntegerText_eq h] at hprints
  exact ⟨hprints, Conversion.readInteger_text hbase⟩

def paddedConversion : Conversion :=
  ⟨42, true, 10, none, 8, { zeropad := true, plus := true, signed := true }⟩

theorem paddedConversion_reads_back : readInteger 10 paddedConversion.text = -42 := by
  have hfits : paddedConversion.Fits := by
    constructor <;> decide +kernel
  exact (printInteger_reads_back paddedConversion hfits).2

end TomatOS.Lib.Printf
