import Mathlib.Data.Nat.Digits.Defs
import Mathlib.Data.Nat.Digits.Lemmas
import Mathlib.Tactic.IntervalCases
import TomatOS.Lib.OutputGadget

/-! The integer conversions of `kernel/lib/printf.c`. `print_integer` builds the digits in
reverse in a buffer of 64 characters, adds zeros, the mark of the base and the sign after
them, and takes zeros back where the mark needs their place. As long as everything fits
the buffer, the result is what C asks for. -/

namespace TomatOS.Lib.Printf

open OutputGadget

def ch (c : Char) : UInt8 := c.toUInt8

/-- The bits of `printf_flags_t`. -/
structure PrintfFlags where
  zeropad : Bool := false
  left : Bool := false
  plus : Bool := false
  space : Bool := false
  hash : Bool := false
  uppercase : Bool := false
  char : Bool := false
  short : Bool := false
  long : Bool := false
  longLong : Bool := false
  precision : Bool := false
  pointer : Bool := false
  signed : Bool := false
  longDouble : Bool := false
  deriving DecidableEq, Repr

def baseBinary : ℕ := 2
def baseOctal : ℕ := 8
def baseDecimal : ℕ := 10
def baseHex : ℕ := 16

def printfIntegerBufferSize : ℕ := 64

/-! ### Printing a buffer in reverse -/

/-- The `while` loop of `out_rev_` behind the number; the fuel is the width. -/
def padRight (startPos width : ℕ) : ℕ → OutputGadget → OutputGadget
  | 0, g => g
  | fuel + 1, g =>
    if (g.pos + 2 ^ 32 - startPos) % 2 ^ 32 < width then
      padRight startPos width fuel (g.putcharViaGadget (ch ' '))
    else g

def outRev (g : OutputGadget) (buf : List UInt8) (width : ℕ) (flags : PrintfFlags) :
    OutputGadget :=
  let startPos := g.pos
  let g := if !flags.left && !flags.zeropad then
    g.puts (List.replicate (width - buf.length) (ch ' ')) else g
  let g := g.puts buf.reverse
  if flags.left then padRight startPos width width g else g

def outRevText (buf : List UInt8) (width : ℕ) (flags : PrintfFlags) : List UInt8 :=
  let spaces := List.replicate (width - buf.length) (ch ' ')
  (if !flags.left && !flags.zeropad then spaces else []) ++ buf.reverse ++
    if flags.left then spaces else []

/-- The loop ends at the width, however often it may go on. -/
theorem padRight_eq {startPos width fuel k : ℕ} {g : OutputGadget}
    (hpos : g.pos = startPos + k) (hlt : startPos + max k width < 2 ^ 32)
    (hfuel : width - k ≤ fuel) :
    padRight startPos width fuel g = g.puts (List.replicate (width - k) (ch ' ')) := by
  induction fuel generalizing g k with
  | zero =>
    rw [Nat.le_zero.mp hfuel]
    rfl
  | succ fuel ih =>
    have hmod : (g.pos + 2 ^ 32 - startPos) % 2 ^ 32 = k := by omega
    rw [padRight, hmod]
    by_cases hk : k < width
    · have hput : (g.putcharViaGadget (ch ' ')).pos = startPos + (k + 1) := by
        rw [putchar_pos _ (by omega), hpos]
        omega
      have hcount : width - k = width - (k + 1) + 1 := by omega
      rw [if_pos hk, ih hput (by omega) (by omega), hcount, List.replicate_succ, puts_cons]
    · rw [if_neg hk, Nat.sub_eq_zero_of_le (by omega)]
      rfl

theorem prints_outRev (buf : List UInt8) (width : ℕ) (flags : PrintfFlags) :
    Prints (outRev · buf width flags) (outRevText buf width flags) := by
  apply prints_of_eq
  intro g hlt
  rw [outRevText] at hlt
  rw [outRev, outRevText]
  cases hleft : flags.left
  · cases flags.zeropad <;> simp [puts_append]
  · simp only [hleft, Bool.not_true, Bool.false_and, Bool.false_eq_true, if_false, if_true,
      List.nil_append, List.length_append, List.length_reverse, List.length_replicate] at hlt ⊢
    have hpos : (g.puts buf.reverse).pos = g.pos + buf.length := by
      rw [puts_pos (by rw [List.length_reverse]; omega), List.length_reverse]
    rw [padRight_eq hpos (by omega) (by omega), puts_append]

/-! ### The digits and what goes around them -/

def digitChar (uppercase : Bool) (digit : ℕ) : UInt8 :=
  if digit < 10 then ch '0' + UInt8.ofNat digit
  else (if uppercase then ch 'A' else ch 'a') + UInt8.ofNat digit - 10

/-- The `do` loop of `print_integer`, with the room that is left in the buffer. -/
def digitLoop (base : ℕ) (uppercase : Bool) : ℕ → ℕ → List UInt8
  | 0, _ => []
  | room + 1, value => digitChar uppercase (value % base) ::
      if value / base ≠ 0 then digitLoop base uppercase room (value / base) else []

/-- `buf[len++] = c` where there is room. -/
def addChar (buf : List UInt8) (c : UInt8) : List UInt8 :=
  if buf.length < printfIntegerBufferSize then buf ++ [c] else buf

/-- `while (len < n && len < PRINTF_INTEGER_BUFFER_SIZE) buf[len++] = '0'`. -/
def addZeros (n : ℕ) : ℕ → List UInt8 → List UInt8
  | 0, buf => buf
  | fuel + 1, buf =>
    if buf.length < n ∧ buf.length < printfIntegerBufferSize then
      addZeros n fuel (buf ++ [ch '0'])
    else buf

/-- `width` without the place of a sign in front of the zeros. -/
def zeroWidth (negative : Bool) (width : ℕ) (flags : PrintfFlags) : ℕ :=
  if !flags.left && width ≠ 0 && flags.zeropad && (negative || flags.plus || flags.space) then
    width - 1
  else width

/-- Zeros are taken back for the mark of the base. -/
def takeBack (unpaddedLen base precision width : ℕ) (flags : PrintfFlags) (buf : List UInt8) :
    List UInt8 :=
  if !flags.precision ∧ buf.length ≠ 0 ∧ (buf.length = precision ∨ buf.length = width) then
    let buf := if unpaddedLen < buf.length then buf.dropLast else buf
    if buf.length ≠ 0 ∧ (base = baseHex ∨ base = baseBinary) ∧ unpaddedLen < buf.length then
      buf.dropLast
    else buf
  else buf

/-- The mark of the base, in reverse. -/
def addBase (base : ℕ) (flags : PrintfFlags) (buf : List UInt8) : List UInt8 :=
  let buf :=
    if base = baseHex ∧ !flags.uppercase then addChar buf (ch 'x')
    else if base = baseHex ∧ flags.uppercase then addChar buf (ch 'X')
    else if base = baseBinary then addChar buf (ch 'b')
    else buf
  addChar buf (ch '0')

def addSign (negative : Bool) (flags : PrintfFlags) (buf : List UInt8) : List UInt8 :=
  if negative then addChar buf (ch '-')
  else if flags.plus then addChar buf (ch '+')
  else if flags.space then addChar buf (ch ' ')
  else buf

/-- The buffer `print_integer_finalization` hands to `out_rev_`. -/
def finalBuffer (buf : List UInt8) (negative : Bool) (base precision width : ℕ)
    (flags : PrintfFlags) : List UInt8 :=
  let unpaddedLen := buf.length
  let width := zeroWidth negative width flags
  let buf := if !flags.left && flags.zeropad then addZeros width printfIntegerBufferSize buf else buf
  let buf := addZeros precision printfIntegerBufferSize buf
  let hash := if base = baseOctal ∧ buf.length > unpaddedLen then false else flags.hash
  let buf := if hash || flags.pointer then
    addBase base flags (takeBack unpaddedLen base precision width flags buf) else buf
  addSign negative flags buf

def printIntegerFinalization (g : OutputGadget) (buf : List UInt8) (negative : Bool)
    (base precision width : ℕ) (flags : PrintfFlags) : OutputGadget :=
  outRev g (finalBuffer buf negative base precision width flags) (zeroWidth negative width flags)
    flags

/-- The digits of `print_integer` and the flags it goes on with. -/
def integerDigits (value base : ℕ) (flags : PrintfFlags) : List UInt8 × PrintfFlags :=
  if value = 0 then
    if !flags.precision then ([ch '0'], { flags with hash := false })
    else if base = baseHex then ([], { flags with hash := false })
    else ([], flags)
  else (digitLoop base flags.uppercase printfIntegerBufferSize value, flags)

def printInteger (g : OutputGadget) (value : ℕ) (negative : Bool) (base precision width : ℕ)
    (flags : PrintfFlags) : OutputGadget :=
  let (buf, flags) := integerDigits value base flags
  printIntegerFinalization g buf negative base precision width flags

/-- The text `print_integer` prints. -/
def printIntegerText (value : ℕ) (negative : Bool) (base precision width : ℕ)
    (flags : PrintfFlags) : List UInt8 :=
  let (buf, flags) := integerDigits value base flags
  outRevText (finalBuffer buf negative base precision width flags)
    (zeroWidth negative width flags) flags

theorem prints_printInteger (value : ℕ) (negative : Bool) (base precision width : ℕ)
    (flags : PrintfFlags) : Prints (printInteger · value negative base precision width flags)
      (printIntegerText value negative base precision width flags) :=
  prints_outRev _ _ _

/-! ### What C asks for -/

/-- `fprintf` on an integer: the value in absolute terms, and no precision if it is none. -/
structure Conversion where
  value : ℕ
  negative : Bool
  base : ℕ
  precision : Option ℕ
  width : ℕ
  flags : PrintfFlags

namespace Conversion

variable (c : Conversion)

def sign : List UInt8 :=
  if c.negative then [ch '-']
  else if c.flags.plus then [ch '+']
  else if c.flags.space then [ch ' ']
  else []

/-- The mark of the base that is not part of the digits; zero has none, but a pointer has. -/
def mark : List UInt8 :=
  if (c.flags.hash ∧ c.value ≠ 0) ∨ c.flags.pointer then
    if c.base = baseHex then [ch '0', if c.flags.uppercase then ch 'X' else ch 'x']
    else if c.base = baseBinary then [ch '0', ch 'b']
    else []
  else []

/-- The digits of the value, the last one first. -/
def valueDigits : List UInt8 := (Nat.digits c.base c.value).map (digitChar c.flags.uppercase)

/-- At least as many digits as the precision. -/
def number : List UInt8 :=
  List.replicate (c.precision.getD 1 - c.valueDigits.length) (ch '0') ++ c.valueDigits.reverse

/-- The octal form begins with a zero. -/
def digits : List UInt8 :=
  if c.base = baseOctal ∧ c.flags.hash ∧ c.number.head? ≠ some (ch '0') then ch '0' :: c.number
  else c.number

def body : List UInt8 := c.sign ++ c.mark ++ c.digits

/-- A precision turns off the padding with zeros. -/
def text : List UInt8 :=
  let spaces := List.replicate (c.width - c.body.length) (ch ' ')
  if c.flags.left then c.body ++ spaces
  else if c.flags.zeropad then
    c.sign ++ c.mark ++ List.replicate (c.width - c.body.length) (ch '0') ++ c.digits
  else spaces ++ c.body

/-- The flags as the format loop leaves them, and a result that fits the buffer. -/
structure Fits : Prop where
  base : c.base = baseBinary ∨ c.base = baseOctal ∨ c.base = baseDecimal ∨ c.base = baseHex
  value : c.value < 2 ^ 64
  precision : c.flags.precision = c.precision.isSome
  zeropad : c.flags.precision → c.flags.zeropad = false
  hash : c.base = baseDecimal → c.flags.hash = false
  pointer : c.flags.pointer → c.base = baseHex
  body : c.body.length ≤ printfIntegerBufferSize
  width : c.flags.zeropad → c.flags.left = false → c.width ≤ printfIntegerBufferSize
  -- `0b` comes before no digits or zeros only
  binaryZero : c.base = baseBinary → c.value = 0 → c.flags.precision → c.flags.hash = false

end Conversion

/-! ### The result is what C asks for -/

theorem digitLoop_eq {base : ℕ} (hbase : 2 ≤ base) (uppercase : Bool) {room value : ℕ}
    (hvalue : value ≠ 0) (hroom : (Nat.digits base value).length ≤ room) :
    digitLoop base uppercase room value = (Nat.digits base value).map (digitChar uppercase) := by
  induction room generalizing value with
  | zero =>
    have := Nat.digits_ne_nil_iff_ne_zero (b := base) |>.mpr hvalue
    simp_all
  | succ room ih =>
    have hdigits := Nat.digits_def' hbase (Nat.pos_of_ne_zero hvalue)
    rw [hdigits, List.length_cons] at hroom
    rw [digitLoop, hdigits, List.map_cons]
    by_cases hnext : value / base = 0
    · rw [hnext]
      simp
    · rw [if_pos hnext, ih hnext (by omega)]

/-- A 64-bit value fits the buffer in any base. -/
theorem digits_length_le {base value : ℕ} (hbase : 2 ≤ base) (hvalue : value < 2 ^ 64) :
    (Nat.digits base value).length ≤ printfIntegerBufferSize := by
  have hpow : value < base ^ printfIntegerBufferSize :=
    lt_of_lt_of_le hvalue (Nat.pow_le_pow_left hbase _)
  exact (Nat.digits_length_le_iff hbase value).mpr hpow

theorem addZeros_eq {n fuel : ℕ} {buf : List UInt8}
    (hfuel : min n printfIntegerBufferSize - buf.length ≤ fuel) : addZeros n fuel buf =
      buf ++ List.replicate (min n printfIntegerBufferSize - buf.length) (ch '0') := by
  induction fuel generalizing buf with
  | zero => simp [addZeros, Nat.le_zero.mp hfuel]
  | succ fuel ih =>
    rw [addZeros]
    split
    case isTrue hroom =>
      have hcount : min n printfIntegerBufferSize - buf.length =
          min n printfIntegerBufferSize - (buf ++ [ch '0']).length + 1 := by
        rw [List.length_append, List.length_singleton]
        omega
      rw [ih (by omega), hcount, List.replicate_succ, List.append_assoc, List.singleton_append]
    case isFalse hfull =>
      have hcount : min n printfIntegerBufferSize - buf.length = 0 := by omega
      rw [hcount, List.replicate_zero, List.append_nil]

theorem addChar_eq {buf : List UInt8} (c : UInt8) (h : buf.length < printfIntegerBufferSize) :
    addChar buf c = buf ++ [c] := if_pos h

/-- What `addBase` puts in front. -/
def baseText (base : ℕ) (flags : PrintfFlags) : List UInt8 :=
  if base = baseHex then [ch '0', if flags.uppercase then ch 'X' else ch 'x']
  else if base = baseBinary then [ch '0', ch 'b']
  else [ch '0']

theorem addBase_eq {base : ℕ} {flags : PrintfFlags} {buf : List UInt8}
    (h : buf.length + (baseText base flags).length ≤ printfIntegerBufferSize) :
    addBase base flags buf = buf ++ (baseText base flags).reverse := by
  have htwo : ∀ c : UInt8, buf.length + 2 ≤ printfIntegerBufferSize →
      addChar (addChar buf c) (ch '0') = buf ++ [c, ch '0'] := by
    intro c hc
    rw [addChar_eq c (by omega), addChar_eq, List.append_assoc, List.singleton_append]
    rw [List.length_append, List.length_singleton]
    omega
  rw [baseText] at h ⊢
  rw [addBase]
  by_cases hhex : base = baseHex
  · rw [if_pos hhex] at h
    cases hup : flags.uppercase <;> simp [hhex, htwo _ h]
  · rw [if_neg hhex] at h
    by_cases hbin : base = baseBinary
    · rw [if_pos hbin] at h
      have hne : baseBinary ≠ baseHex := by decide
      simp [hbin, hne, htwo _ h]
    · rw [if_neg hbin] at h
      simp [hhex, hbin, addChar_eq (ch '0') h]

theorem addSign_eq {c : Conversion} {buf : List UInt8}
    (h : buf.length + c.sign.length ≤ printfIntegerBufferSize) :
    addSign c.negative c.flags buf = buf ++ c.sign.reverse := by
  rw [Conversion.sign] at h ⊢
  rw [addSign]
  split_ifs at h ⊢
  case neg => simp
  all_goals exact addChar_eq _ h

theorem dropLast_zeros (d : List UInt8) {k : ℕ} (hk : k ≠ 0) :
    (d ++ List.replicate k (ch '0')).dropLast = d ++ List.replicate (k - 1) (ch '0') := by
  rw [List.dropLast_append_of_ne_nil (by simpa using hk), List.dropLast_replicate]

/-- Zeros give way to the mark of the base, as far as there are some. -/
theorem takeBack_eq {d : List UInt8} {base width : ℕ} {flags : PrintfFlags} (hd : d ≠ [])
    (hprecision : flags.precision = false) (hbase : base = baseHex ∨ base = baseBinary) :
    takeBack d.length base 0 width flags (d ++ List.replicate (width - d.length) (ch '0')) =
      d ++ List.replicate (width - d.length - 2) (ch '0') := by
  have hlen : 0 < d.length := List.length_pos_of_ne_nil hd
  have hpadded : ∀ k, (d ++ List.replicate k (ch '0')).length = d.length + k := by simp
  rw [takeBack, hpadded]
  by_cases hk : width - d.length = 0
  · simp only [hk, List.replicate_zero, List.append_nil]
    simp
  · have hinner : d.length < d.length + (width - d.length) := by omega
    have hfull : d.length + (width - d.length) = width := by omega
    rw [if_pos ⟨by simp [hprecision], by omega, .inr hfull⟩]
    simp only [hpadded, hinner, if_true, dropLast_zeros d hk]
    by_cases hone : width - d.length - 1 = 0
    · rw [if_neg (by omega), hone, Nat.sub_eq_zero_of_le (by omega)]
    · rw [if_pos ⟨by omega, hbase, by omega⟩, dropLast_zeros d hone]
      rfl


namespace Conversion

variable {c : Conversion}

theorem digitChar_ne_zero {uppercase : Bool} {d : ℕ} (hpos : d ≠ 0) (hlt : d < 16) :
    digitChar uppercase d ≠ ch '0' := by
  interval_cases d <;> cases uppercase <;> first | exact absurd rfl hpos | decide

theorem Fits.two_le (h : c.Fits) : 2 ≤ c.base ∧ c.base ≤ 16 := by
  obtain hb | hb | hb | hb := h.base <;> rw [hb] <;> decide

theorem valueDigits_eq_nil : c.valueDigits = [] ↔ c.value = 0 := by
  rw [valueDigits, List.map_eq_nil_iff, Nat.digits_eq_nil_iff_eq_zero]

theorem number_length : c.number.length = max (c.precision.getD 1) c.valueDigits.length := by
  rw [number, List.length_append, List.length_replicate, List.length_reverse]
  omega

/-- The number begins with a zero where digits are missing. -/
theorem head_number (h : c.Fits) :
    c.number.head? = some (ch '0') ↔ c.valueDigits.length < c.precision.getD 1 := by
  constructor
  · intro hhead
    by_contra hle
    rw [number, Nat.sub_eq_zero_of_le (by omega), List.replicate_zero, List.nil_append,
      List.head?_reverse, valueDigits, List.getLast?_map] at hhead
    by_cases hvalue : c.value = 0
    · simp [hvalue] at hhead
    · have hne := Nat.digits_ne_nil_iff_ne_zero (b := c.base) |>.mpr hvalue
      rw [List.getLast?_eq_some_getLast hne, Option.map_some, Option.some.injEq] at hhead
      have hlast := Nat.getLast_digit_ne_zero c.base hvalue
      have hlt : (Nat.digits c.base c.value).getLast hne < c.base :=
        Nat.digits_lt_base (by have := h.two_le; omega) (List.getLast_mem hne)
      exact digitChar_ne_zero hlast (by have := h.two_le; omega) hhead
  · intro hlt
    have hcount : c.precision.getD 1 - c.valueDigits.length =
        c.precision.getD 1 - c.valueDigits.length - 1 + 1 := by omega
    rw [number, hcount, List.replicate_succ]
    rfl

/-- The digits `print_integer` starts with. -/
theorem integerDigits_fst (h : c.Fits) : (integerDigits c.value c.base c.flags).1 =
    if c.precision = none then c.number.reverse else c.valueDigits := by
  have hflag := h.precision
  rw [integerDigits]
  by_cases hvalue : c.value = 0
  · have hnil := valueDigits_eq_nil.mpr hvalue
    cases hp : c.precision with
    | none =>
      rw [hp, Option.isSome_none] at hflag
      simp [hvalue, hflag, number, hnil, hp]
    | some p =>
      rw [hp, Option.isSome_some] at hflag
      simp only [hvalue, hflag, if_true, hnil]
      simp
      split <;> rfl
  · have hloop := digitLoop_eq h.two_le.1 c.flags.uppercase hvalue
      (digits_length_le h.two_le.1 h.value)
    have hne : 0 < c.valueDigits.length :=
      List.length_pos_of_ne_nil (mt valueDigits_eq_nil.mp hvalue)
    rw [if_neg hvalue, hloop]
    cases hp : c.precision with
    | none =>
      simp only [if_true, number, hp, Option.getD_none]
      rw [Nat.sub_eq_zero_of_le (by omega)]
      simp [valueDigits]
    | some p => simp [valueDigits]

/-- Only the flag of the alternative form may change. -/
theorem integerDigits_snd : (integerDigits c.value c.base c.flags).2 =
    { c.flags with hash := (integerDigits c.value c.base c.flags).2.hash } := by
  rw [integerDigits]
  split_ifs <;> rfl

/-- The alternative form as `print_integer_finalization` sees it. -/
def hashed (c : Conversion) : Bool := (integerDigits c.value c.base c.flags).2.hash

theorem hashed_eq : c.hashed =
    (c.flags.hash && (c.value ≠ 0 || (c.flags.precision && c.base ≠ baseHex))) := by
  rw [hashed, integerDigits]
  split_ifs <;> simp_all

/-- The zeros `print_integer_finalization` adds for the width. -/
def widthZeros (c : Conversion) : ℕ :=
  if c.flags.zeropad ∧ c.flags.left = false then
    zeroWidth c.negative c.width c.flags - c.number.length
  else 0

theorem zeroWidth_eq (h : c.flags.zeropad ∧ c.flags.left = false) :
    zeroWidth c.negative c.width c.flags = c.width - c.sign.length := by
  rw [zeroWidth, sign]
  split_ifs <;> simp_all

/-- The digits with the zeros for the precision and for the width. -/
theorem padded_eq (h : c.Fits) :
    addZeros (c.precision.getD 0) printfIntegerBufferSize
      (if !c.flags.left && c.flags.zeropad then
        addZeros (zeroWidth c.negative c.width c.flags) printfIntegerBufferSize
          (integerDigits c.value c.base c.flags).1
      else (integerDigits c.value c.base c.flags).1) =
      c.number.reverse ++ List.replicate c.widthZeros (ch '0') := by
  have hbody := h.body
  rw [body, List.length_append, List.length_append] at hbody
  have hnumber : c.number.length ≤ c.digits.length := by
    rw [digits]
    split <;> simp
  have hflag := h.precision
  rw [integerDigits_fst h, widthZeros]
  cases hp : c.precision with
  | none =>
    have hlen : (c.number.reverse).length = c.number.length := List.length_reverse
    simp only [if_true, Option.getD_none]
    by_cases hpad : c.flags.zeropad ∧ c.flags.left = false
    · have hwidth := h.width hpad.1 hpad.2
      have hzw := zeroWidth_eq hpad
      rw [if_pos (by simp [hpad]), if_pos hpad, addZeros_eq (by omega), addZeros_eq (by omega),
        hlen, Nat.min_eq_left (by omega)]
      simp
    · have hpad' : (!c.flags.left && c.flags.zeropad) = false := by
        cases hz : c.flags.zeropad <;> cases hl : c.flags.left <;> simp_all
      rw [hpad', if_neg hpad, addZeros_eq (by omega)]
      simp
  | some p =>
    rw [hp, Option.isSome_some] at hflag
    have hzero := h.zeropad hflag
    have hlen := number_length (c := c)
    rw [hp, Option.getD_some] at hlen
    have hsub : min p printfIntegerBufferSize - c.valueDigits.length =
        p - c.valueDigits.length := by omega
    simp only [hzero, Bool.and_false, Bool.false_eq_true, if_false, false_and, Option.getD_some,
      reduceCtorEq, List.replicate_zero, List.append_nil]
    rw [addZeros_eq (by omega), hsub, number, hp]
    simp

/-- The zeros of the result that the width asks for. -/
def zeros (c : Conversion) : ℕ :=
  if c.flags.zeropad ∧ c.flags.left = false then c.width - c.body.length else 0

/-- The mark of the base takes the place of zeros. -/
theorem zeros_eq {k : ℕ} (h : c.body.length = c.sign.length + k + c.number.length) :
    c.zeros = c.widthZeros - k := by
  rw [zeros, widthZeros]
  by_cases hpad : c.flags.zeropad ∧ c.flags.left = false
  · rw [if_pos hpad, if_pos hpad, zeroWidth_eq hpad]
    omega
  · rw [if_neg hpad, if_neg hpad, Nat.zero_sub]

theorem takeBack_padded (h : c.Fits) (hbase : c.base = baseHex ∨ c.base = baseBinary) :
    takeBack (integerDigits c.value c.base c.flags).1.length c.base (c.precision.getD 0)
      (zeroWidth c.negative c.width c.flags) c.flags
      (c.number.reverse ++ List.replicate c.widthZeros (ch '0')) =
    c.number.reverse ++ List.replicate (c.widthZeros - 2) (ch '0') := by
  have hflag := h.precision
  have hlen : (c.number.reverse).length = c.number.length := List.length_reverse
  rw [integerDigits_fst h]
  cases hp : c.precision with
  | none =>
    rw [hp, Option.isSome_none] at hflag
    have hne : c.number.reverse ≠ [] := by
      rw [← List.length_pos_iff, hlen, number_length, hp, Option.getD_none]
      omega
    rw [if_pos rfl, Option.getD_none, widthZeros]
    by_cases hpad : c.flags.zeropad ∧ c.flags.left = false
    · rw [if_pos hpad, ← hlen]
      exact takeBack_eq hne hflag hbase
    · rw [if_neg hpad]
      simp [takeBack]
  | some p =>
    rw [hp, Option.isSome_some] at hflag
    have hzero := h.zeropad hflag
    simp [takeBack, widthZeros, hflag, hzero]

theorem marked_of_base (h : c.Fits) (hbase : c.base = baseHex ∨ c.base = baseBinary) :
    (if c.hashed || c.flags.pointer then
      addBase c.base c.flags (takeBack (integerDigits c.value c.base c.flags).1.length c.base
        (c.precision.getD 0) (zeroWidth c.negative c.width c.flags) c.flags
        (c.number.reverse ++ List.replicate c.widthZeros (ch '0')))
    else c.number.reverse ++ List.replicate c.widthZeros (ch '0')) =
      (c.mark ++ List.replicate c.zeros (ch '0') ++ c.digits).reverse := by
  have hoctal : c.base ≠ baseOctal := by
    obtain hb | hb := hbase <;> rw [hb] <;> decide
  have hdigits : c.digits = c.number := if_neg (by simp [hoctal])
  have hbody := h.body
  have hcond : (c.hashed || c.flags.pointer) =
      decide ((c.flags.hash ∧ c.value ≠ 0) ∨ c.flags.pointer) := by
    rw [hashed_eq]
    obtain hb | hb := hbase
    · cases c.flags.hash <;> simp [hb]
    · have hzero := h.binaryZero hb
      by_cases hvalue : c.value = 0 <;> cases hh : c.flags.hash <;> simp_all
  have hlengths : c.body.length = c.sign.length + c.mark.length + c.number.length := by
    rw [body, List.length_append, List.length_append, hdigits]
  by_cases hmark : (c.flags.hash ∧ c.value ≠ 0) ∨ c.flags.pointer
  · have hmarkText : c.mark = baseText c.base c.flags := by
      rw [mark, baseText, if_pos hmark]
      obtain hb | hb := hbase <;> simp [hb]
    have htwo : (baseText c.base c.flags).length = 2 := by
      rw [baseText]
      obtain hb | hb := hbase <;> simp [hb, baseHex, baseBinary]
    rw [hmarkText, htwo] at hlengths
    have hzeros : c.zeros = c.widthZeros - 2 := zeros_eq hlengths
    have hroom : c.number.length + (c.widthZeros - 2) + 2 ≤ printfIntegerBufferSize := by
      rw [widthZeros]
      by_cases hpad : c.flags.zeropad ∧ c.flags.left = false
      · have hwidth := h.width hpad.1 hpad.2
        rw [if_pos hpad, zeroWidth_eq hpad]
        omega
      · rw [if_neg hpad]
        omega
    rw [hcond, decide_eq_true hmark, if_pos rfl, takeBack_padded h hbase, addBase_eq, hmarkText,
      hdigits, hzeros]
    · simp
    · rw [List.length_append, List.length_reverse, List.length_replicate, htwo]
      exact hroom
  · have hmarkText : c.mark = [] := if_neg hmark
    rw [hmarkText, List.length_nil] at hlengths
    have hzeros : c.zeros = c.widthZeros := zeros_eq (k := 0) (by omega)
    rw [hcond, decide_eq_false hmark, if_neg (by decide), hmarkText, hdigits, hzeros]
    simp

theorem integerDigits_length (h : c.Fits) : (integerDigits c.value c.base c.flags).1.length =
    if c.precision = none then c.number.length else c.valueDigits.length := by
  rw [integerDigits_fst h]
  split <;> simp

/-- The octal form gets a zero of its own where neither precision nor width gives one. -/
theorem octal_hash (h : c.Fits) (hbase : c.base = baseOctal) :
    (if (c.number.reverse ++ List.replicate c.widthZeros (ch '0')).length >
      (integerDigits c.value c.base c.flags).1.length then false else c.hashed) =
    decide ((c.flags.hash ∧ c.number.head? ≠ some (ch '0')) ∧ c.widthZeros = 0) := by
  have hhex : c.base ≠ baseHex := by rw [hbase]; decide
  have hflag := h.precision
  have hvalue := valueDigits_eq_nil (c := c)
  rw [← List.length_eq_zero_iff] at hvalue
  simp only [ne_eq, head_number h]
  rw [integerDigits_length h, hashed_eq, List.length_append, List.length_reverse,
    List.length_replicate]
  cases hp : c.precision with
  | none =>
    rw [hp, Option.isSome_none] at hflag
    rw [if_pos rfl, Option.getD_none, hflag]
    by_cases hzero : c.widthZeros = 0
    · rw [if_neg (by omega)]
      have hpos : c.valueDigits.length < 1 ↔ c.value = 0 := by omega
      cases c.flags.hash <;> simp [hzero, hpos]
    · rw [if_pos (by omega)]
      simp [hzero]
  | some p =>
    rw [hp, Option.isSome_some] at hflag
    have hzero : c.widthZeros = 0 := if_neg (by simp [h.zeropad hflag])
    have hlen := number_length (c := c)
    rw [hp, Option.getD_some] at hlen
    simp only [reduceCtorEq, if_false, Option.getD_some, hflag, hzero]
    by_cases hmore : c.valueDigits.length < p
    · rw [if_pos (by omega)]
      simp [hmore]
    · rw [if_neg (by omega)]
      simp [hmore, hhex]

theorem marked_of_octal (h : c.Fits) (hbase : c.base = baseOctal) :
    (if (if (c.number.reverse ++ List.replicate c.widthZeros (ch '0')).length >
        (integerDigits c.value c.base c.flags).1.length then false else c.hashed) then
      addBase c.base c.flags (takeBack (integerDigits c.value c.base c.flags).1.length c.base
        (c.precision.getD 0) (zeroWidth c.negative c.width c.flags) c.flags
        (c.number.reverse ++ List.replicate c.widthZeros (ch '0')))
    else c.number.reverse ++ List.replicate c.widthZeros (ch '0')) =
      (c.mark ++ List.replicate c.zeros (ch '0') ++ c.digits).reverse := by
  have hhex : c.base ≠ baseHex := by rw [hbase]; decide
  have hbin : c.base ≠ baseBinary := by rw [hbase]; decide
  have hmark : c.mark = [] := by simp [mark, hhex, hbin]
  have hlengths : c.body.length = c.sign.length + c.digits.length := by
    rw [body, hmark, List.append_nil, List.length_append]
  have hbody := h.body
  rw [octal_hash h hbase, hmark, List.nil_append]
  by_cases hown : c.flags.hash ∧ c.number.head? ≠ some (ch '0')
  · have hdigits : c.digits = ch '0' :: c.number := if_pos ⟨hbase, hown⟩
    rw [hdigits, List.length_cons] at hlengths
    have hzeros : c.zeros = c.widthZeros - 1 := zeros_eq (by omega)
    rw [hdigits, hzeros]
    by_cases hnone : c.widthZeros = 0
    · have hsame : (integerDigits c.value c.base c.flags).1.length = c.number.length := by
        have hhead := mt (head_number h).mpr hown.2
        have hflag := h.precision
        have hlen := number_length (c := c)
        rw [integerDigits_length h]
        split
        · rfl
        · omega
      have hkeep : takeBack (integerDigits c.value c.base c.flags).1.length c.base
          (c.precision.getD 0) (zeroWidth c.negative c.width c.flags) c.flags c.number.reverse =
          c.number.reverse := by
        simp [takeBack, hsame]
      have htext : baseText c.base c.flags = [ch '0'] := by simp [baseText, hhex, hbin]
      rw [decide_eq_true ⟨hown, hnone⟩, if_pos rfl, hnone, List.replicate_zero, List.append_nil,
        hkeep, addBase_eq, htext]
      · simp
      · rw [htext, List.length_reverse, List.length_singleton]
        omega
    · have hcount : c.widthZeros = c.widthZeros - 1 + 1 := by omega
      rw [decide_eq_false (by simp [hnone]), if_neg (by decide), hcount]
      simp [List.replicate_succ]
  · have hdigits : c.digits = c.number := if_neg fun hall => hown hall.2
    rw [hdigits] at hlengths
    have hzeros : c.zeros = c.widthZeros := zeros_eq (k := 0) (by omega)
    rw [decide_eq_false fun hall => hown hall.1, if_neg (by decide), hdigits, hzeros]
    simp

theorem marked_of_decimal (h : c.Fits) (hbase : c.base = baseDecimal) :
    (c.hashed || c.flags.pointer) = false ∧
      c.number.reverse ++ List.replicate c.widthZeros (ch '0') =
        (c.mark ++ List.replicate c.zeros (ch '0') ++ c.digits).reverse := by
  have hhash := h.hash hbase
  have hpointer : c.flags.pointer = false := by
    by_contra hp
    have hhex := h.pointer (Bool.not_eq_false _ ▸ hp)
    rw [hbase] at hhex
    exact absurd hhex (by decide)
  have hmark : c.mark = [] := if_neg (by simp [hhash, hpointer])
  have hdigits : c.digits = c.number := if_neg (by simp [hhash])
  have hlengths : c.body.length = c.sign.length + c.number.length := by
    rw [body, hmark, hdigits, List.append_nil, List.length_append]
  have hzeros : c.zeros = c.widthZeros := zeros_eq (k := 0) (by omega)
  rw [hashed_eq, hhash, hpointer, hmark, hdigits, hzeros]
  exact ⟨rfl, by simp⟩

theorem finalBuffer_hash (buf : List UInt8) (negative : Bool) (base precision width : ℕ)
    (flags : PrintfFlags) (hash : Bool) :
    finalBuffer buf negative base precision width { flags with hash := hash } =
      let padded := addZeros precision printfIntegerBufferSize
        (if !flags.left && flags.zeropad then
          addZeros (zeroWidth negative width flags) printfIntegerBufferSize buf
        else buf)
      addSign negative flags
        (if (if base = baseOctal ∧ padded.length > buf.length then false else hash) ||
            flags.pointer then
          addBase base flags
            (takeBack buf.length base precision (zeroWidth negative width flags) flags padded)
        else padded) := rfl

theorem finalBuffer_eq (h : c.Fits) :
    finalBuffer (integerDigits c.value c.base c.flags).1 c.negative c.base (c.precision.getD 0)
      c.width (integerDigits c.value c.base c.flags).2 =
      (c.sign ++ c.mark ++ List.replicate c.zeros (ch '0') ++ c.digits).reverse := by
  have hpadded := padded_eq h
  have hroom : (c.mark ++ List.replicate c.zeros (ch '0') ++ c.digits).reverse.length +
      c.sign.length ≤ printfIntegerBufferSize := by
    have hbody := h.body
    have hlengths : c.body.length = c.sign.length + c.mark.length + c.digits.length := by
      rw [body, List.length_append, List.length_append]
    rw [List.length_reverse, List.length_append, List.length_append, List.length_replicate, zeros]
    by_cases hpad : c.flags.zeropad ∧ c.flags.left = false
    · have hwidth := h.width hpad.1 hpad.2
      rw [if_pos hpad]
      omega
    · rw [if_neg hpad]
      omega
  have hgoal : (c.sign ++ c.mark ++ List.replicate c.zeros (ch '0') ++ c.digits).reverse =
      (c.mark ++ List.replicate c.zeros (ch '0') ++ c.digits).reverse ++ c.sign.reverse := by
    rw [← List.reverse_append]
    simp only [List.append_assoc]
  have hhash : (integerDigits c.value c.base c.flags).2.hash = c.hashed := rfl
  rw [hgoal, ← addSign_eq hroom, integerDigits_snd, finalBuffer_hash, hpadded, hhash]
  simp only
  congr 1
  by_cases hoctal : c.base = baseOctal
  · have hpointer : c.flags.pointer = false := by
      by_contra hp
      have hhex := h.pointer (Bool.not_eq_false _ ▸ hp)
      rw [hoctal] at hhex
      exact absurd hhex (by decide)
    rw [hpointer, Bool.or_false, ← marked_of_octal h hoctal]
    simp only [hoctal, true_and]
  · have hkeep : ∀ (p : Prop) [Decidable p], (if c.base = baseOctal ∧ p then false else c.hashed) =
        c.hashed := by
      simp [hoctal]
    rw [hkeep]
    obtain hbase | hbase | hbase | hbase := h.base
    · exact marked_of_base h (.inr hbase)
    · exact absurd hbase hoctal
    · obtain ⟨hnone, hmarked⟩ := marked_of_decimal h hbase
      rw [hnone, if_neg (by decide), hmarked]
    · exact marked_of_base h (.inl hbase)

/-- `print_integer` does what C asks for. -/
theorem printIntegerText_eq (h : c.Fits) : printIntegerText c.value c.negative c.base
    (c.precision.getD 0) c.width c.flags = c.text := by
  have hflags : ∀ (buf : List UInt8) (hash : Bool),
      outRevText buf (zeroWidth c.negative c.width { c.flags with hash := hash })
        { c.flags with hash := hash } =
      outRevText buf (zeroWidth c.negative c.width c.flags) c.flags := fun _ _ => rfl
  rw [printIntegerText]
  simp only
  rw [finalBuffer_eq h, integerDigits_snd, hflags, outRevText, text, List.reverse_reverse,
    List.length_reverse]
  cases hleft : c.flags.left
  · cases hzero : c.flags.zeropad
    · have hzeros : c.zeros = 0 := if_neg (by simp [hzero])
      have hwidth : zeroWidth c.negative c.width c.flags = c.width := by simp [zeroWidth, hzero]
      simp [hzeros, hwidth, body]
    · have hzeros : c.zeros = c.width - c.body.length := if_pos ⟨hzero, hleft⟩
      simp [hzeros]
  · have hzeros : c.zeros = 0 := if_neg (by simp [hleft])
    have hwidth : zeroWidth c.negative c.width c.flags = c.width := by simp [zeroWidth, hleft]
    simp [hzeros, hwidth, body]

/-- In the other bases a precision of up to 60 fits with any value. -/
theorem body_length_le (hbase : 8 ≤ c.base) (hvalue : c.value < 2 ^ 64)
    (hprecision : c.precision.getD 1 ≤ 60) : c.body.length ≤ printfIntegerBufferSize := by
  have hpow : c.value < c.base ^ 22 :=
    lt_of_lt_of_le (lt_of_lt_of_le hvalue (by decide)) (Nat.pow_le_pow_left hbase 22)
  have hdigits : c.valueDigits.length ≤ 22 := by
    rw [valueDigits, List.length_map]
    exact (Nat.digits_length_le_iff (by omega) _).mpr hpow
  have hnumber := number_length (c := c)
  have hmore : c.digits.length ≤ c.number.length + 1 := by
    rw [digits]
    split <;> simp
  have hsign : c.sign.length ≤ 1 := by
    rw [sign]
    split_ifs <;> decide
  have hmark : c.mark.length ≤ 2 := by
    rw [mark]
    split_ifs <;> simp
  rw [body, List.length_append, List.length_append, printfIntegerBufferSize]
  omega

end Conversion

end TomatOS.Lib.Printf
