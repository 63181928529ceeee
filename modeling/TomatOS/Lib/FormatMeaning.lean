import TomatOS.Lib.FormatString

/-! What the formats of `kernel/lib/printf.c` mean. A format is a list of characters and
conversions; written out and read back by the format loop, each conversion comes with its
flags, width, precision and length again, takes its arguments in order, and stands for
what C asks for. -/

namespace TomatOS.Lib.Printf

/-! ### Formats -/

inductive Flag where
  | zero | minus | plus | space | hash
  deriving DecidableEq, Repr

inductive Width where
  | none
  | number (n : ℕ)
  | star
  deriving DecidableEq, Repr

/-- A point without a number is a precision of zero. -/
inductive Precision where
  | none
  | point
  | number (n : ℕ)
  | star
  deriving DecidableEq, Repr

inductive Length where
  | none | h | hh | l | ll | L | t | j | z
  deriving DecidableEq, Repr

inductive Specifier where
  | d | i | u | x | X | o | b | c | U | s | p | percent | T
  deriving DecidableEq, Repr

/-- A conversion; a width that is a number does not begin with a zero, which is a flag. -/
structure Conv where
  flags : List Flag
  width : Width
  precision : Precision
  length : Length
  specifier : Specifier
  widthNumber : ∀ n, width = .number n → 0 < n ∧ n < 2 ^ 32
  precisionNumber : ∀ n, precision = .number n → n < 2 ^ 32

/-- A character of a format stands for itself. -/
structure Literal where
  char : UInt8
  noPercent : char ≠ ch '%'

inductive Piece where
  | literal (c : Literal)
  | conv (c : Conv)

def Flag.char : Flag → UInt8
  | .zero => ch '0'
  | .minus => ch '-'
  | .plus => ch '+'
  | .space => ch ' '
  | .hash => ch '#'

def decimal (n : ℕ) : List UInt8 :=
  if n = 0 then [ch '0'] else ((Nat.digits 10 n).map (digitChar false)).reverse

def Width.format : Width → List UInt8
  | .none => []
  | .number n => decimal n
  | .star => [ch '*']

def Precision.format : Precision → List UInt8
  | .none => []
  | .point => [ch '.']
  | .number n => ch '.' :: decimal n
  | .star => [ch '.', ch '*']

def Length.format : Length → List UInt8
  | .none => []
  | .h => [ch 'h']
  | .hh => [ch 'h', ch 'h']
  | .l => [ch 'l']
  | .ll => [ch 'l', ch 'l']
  | .L => [ch 'L']
  | .t => [ch 't']
  | .j => [ch 'j']
  | .z => [ch 'z']

def Specifier.char : Specifier → UInt8
  | .d => ch 'd'
  | .i => ch 'i'
  | .u => ch 'u'
  | .x => ch 'x'
  | .X => ch 'X'
  | .o => ch 'o'
  | .b => ch 'b'
  | .c => ch 'c'
  | .U => ch 'U'
  | .s => ch 's'
  | .p => ch 'p'
  | .percent => ch '%'
  | .T => ch 'T'

def Conv.format (c : Conv) : List UInt8 :=
  ch '%' :: (c.flags.map Flag.char ++ c.width.format ++ c.precision.format ++ c.length.format ++
    [c.specifier.char])

def Piece.format : Piece → List UInt8
  | .literal c => [c.char]
  | .conv c => c.format

def formatOf (pieces : List Piece) : List UInt8 := pieces.flatMap Piece.format

/-! ### Meanings -/

def Length.bits : Length → ℕ
  | .none | .L => 32
  | .h => 16
  | .hh => 8
  | .l | .ll | .t | .j | .z => 64

/-- The base of an integer conversion. -/
def Specifier.base : Specifier → Option ℕ
  | .d | .i | .u => some 10
  | .x | .X => some 16
  | .o => some 8
  | .b => some 2
  | _ => none

def Specifier.signed (specifier : Specifier) : Bool := specifier = .d ∨ specifier = .i

namespace Conv

variable (c : Conv) (args : VaList) (arg : ℕ)

/-- The argument behind those for width and precision. -/
def valueArg : ℕ :=
  arg + (if c.width = .star then 1 else 0) + if c.precision = .star then 1 else 0

def widthValue : ℕ :=
  match c.width with
  | .none => 0
  | .number n => n
  | .star => (vaInt (args arg)).natAbs

/-- A negative width is a flag for the left and a width. -/
def left : Bool := .minus ∈ c.flags ∨ (c.width = .star ∧ vaInt (args arg) < 0)

/-- The argument behind the one for the width. -/
def precisionArg : ℤ := vaInt (args (arg + if c.width = .star then 1 else 0))

/-- A negative precision is taken as if it were omitted. -/
def precisionValue : Option ℕ :=
  match c.precision with
  | .none => none
  | .point => some 0
  | .number n => some n
  | .star =>
    if c.precisionArg args arg < 0 then none else some (c.precisionArg args arg).toNat

def argsTaken : ℕ := c.valueArg 0 + if c.specifier = .percent then 0 else 1

/-- The value of the argument as the length and the specifier take it. -/
def signedValue : ℤ :=
  let w := (args (c.valueArg arg)).setWidth c.length.bits
  if c.specifier.signed then w.toInt else w.toNat

/-- An integer conversion to some base. -/
def conversion (base : ℕ) : Conversion where
  value := (c.signedValue args arg).natAbs
  negative := c.signedValue args arg < 0
  base := base
  precision := c.precisionValue args arg
  width := c.widthValue args arg
  flags :=
    { zeropad := .zero ∈ c.flags ∧ c.precisionValue args arg = none
      left := c.left args arg
      plus := .plus ∈ c.flags ∧ c.specifier.signed
      space := .space ∈ c.flags ∧ c.specifier.signed
      hash := .hash ∈ c.flags ∧ base ≠ 10
      uppercase := c.specifier = .X
      precision := (c.precisionValue args arg).isSome }

/-- A pointer has sixteen digits behind its mark. -/
def pointerConversion : Conversion where
  value := (args (c.valueArg arg)).toNat
  negative := false
  base := 16
  precision := none
  width := 18
  flags :=
    { zeropad := true
      left := c.left args arg
      plus := .plus ∈ c.flags
      space := .space ∈ c.flags
      hash := .hash ∈ c.flags
      pointer := true }

/-- A text among spaces; `shown` is what is printed of it. -/
def spaced (length : ℕ) (shown : List UInt8) : List UInt8 :=
  let spaces := List.replicate (c.widthValue args arg - length) (ch ' ')
  if c.left args arg then shown ++ spaces else spaces ++ shown

/-- A null pointer, which the flag for zeros keeps from being padded on the left. -/
def nullSpaced : List UInt8 :=
  if .zero ∈ c.flags ∧ c.left args arg = false then nullText.reverse
  else c.spaced args arg 6 nullText.reverse

/-- The beginning of a string that the precision allows. -/
def shown {α : Type} (s : List α) : List α :=
  match c.precisionValue args arg with
  | none => s
  | some n => s.take n

def text (mem : Pointees) : List UInt8 :=
  let w := args (c.valueArg arg)
  match c.specifier with
  | .c => c.spaced args arg 1 [UInt8.ofBitVec (w.setWidth 8)]
  | .s =>
    match mem.cstring w with
    | none => c.nullSpaced args arg
    | some s => c.spaced args arg (c.shown args arg s).length (c.shown args arg s)
  | .U =>
    match mem.string w with
    | none => c.nullSpaced args arg
    | some s => c.spaced args arg (c.shown args arg s).length (asciiText (c.shown args arg s))
  | .p => (c.pointerConversion args arg).text
  | .percent => [ch '%']
  | .T =>
    match mem.type w with
    | none => c.nullSpaced args arg
    | some type => typeText type
  | specifier => (c.conversion args arg (specifier.base.getD 10)).text

/-- Where the loop prints what C asks for: a precision among the arguments is not negative,
which the loop takes for zero; numbers fit the buffer, and zero with a precision has no mark
in base two; strings are shorter than a buffer may be; a pointer has no precision. -/
structure Ok (mem : Pointees) : Prop where
  precisionArg : c.precision = .star → 0 ≤ c.precisionArg args arg
  body : ∀ base, c.specifier.base = some base →
    (c.conversion args arg base).body.length ≤ printfIntegerBufferSize
  width : ∀ base, c.specifier.base = some base → (c.conversion args arg base).flags.zeropad →
    c.left args arg = false → c.widthValue args arg ≤ printfIntegerBufferSize
  binaryZero : c.specifier = .b → c.signedValue args arg = 0 → c.precision ≠ .none →
    .hash ∉ c.flags
  cstring : c.specifier = .s → ∀ s, mem.cstring (args (c.valueArg arg)) = some s →
    s.length ≤ printfMaxPossibleBufferSize
  string : c.specifier = .U → ∀ s, mem.string (args (c.valueArg arg)) = some s →
    s.length ≤ printfMaxPossibleBufferSize
  pointer : c.specifier = .p → c.precision = .none

end Conv

/-- The text of the pieces, each with the arguments behind those of the pieces before it. -/
def textOf (mem : Pointees) (args : VaList) : List Piece → ℕ → List UInt8
  | [], _ => []
  | .literal c :: pieces, arg => c.char :: textOf mem args pieces arg
  | .conv c :: pieces, arg =>
    c.text args arg mem ++ textOf mem args pieces (arg + c.argsTaken)

def AllOk (mem : Pointees) (args : VaList) : List Piece → ℕ → Prop
  | [], _ => True
  | .literal _ :: pieces, arg => AllOk mem args pieces arg
  | .conv c :: pieces, arg => c.Ok args arg mem ∧ AllOk mem args pieces (arg + c.argsTaken)

/-! ### Reading a conversion back -/

def Flag.set (flags : PrintfFlags) : Flag → PrintfFlags
  | .zero => { flags with zeropad := true }
  | .minus => { flags with left := true }
  | .plus => { flags with plus := true }
  | .space => { flags with space := true }
  | .hash => { flags with hash := true }

def Length.set (flags : PrintfFlags) : Length → PrintfFlags
  | .none => flags
  | .h => { flags with short := true }
  | .hh => { flags with short := true, char := true }
  | .l | .t | .j | .z => { flags with long := true }
  | .ll => { flags with long := true, longLong := true }
  | .L => { flags with longDouble := true }

theorem foldl_set (flags : List Flag) (f : PrintfFlags) : flags.foldl Flag.set f =
    { f with
      zeropad := f.zeropad || .zero ∈ flags
      left := f.left || .minus ∈ flags
      plus := f.plus || .plus ∈ flags
      space := f.space || .space ∈ flags
      hash := f.hash || .hash ∈ flags } := by
  induction flags generalizing f with
  | nil => simp
  | cons flag flags ih =>
    rw [List.foldl_cons, ih]
    cases flag <;> simp [Flag.set]

/-- The characters a length or a specifier begins with. -/
def lastChars : List UInt8 :=
  [ch 'h', ch 'l', ch 'L', ch 't', ch 'j', ch 'z', ch 'd', ch 'i', ch 'u', ch 'x', ch 'X', ch 'o',
    ch 'b', ch 'c', ch 'U', ch 's', ch 'p', ch '%', ch 'T']

def flagChars : List UInt8 := [ch '0', ch '-', ch '+', ch ' ', ch '#']

theorem Specifier.char_mem (specifier : Specifier) : specifier.char ∈ lastChars := by
  cases specifier <;> decide

theorem lastChars_apart : ∀ c ∈ lastChars,
    c ∉ flagChars ∧ isDigit c = false ∧ c ≠ ch '*' ∧ c ≠ ch '.' := by decide +kernel

/-- What comes behind the precision begins with one of these characters. -/
theorem length_cons (length : Length) (specifier : Specifier) (rest : List UInt8) :
    ∃ c l, length.format ++ specifier.char :: rest = c :: l ∧ c ∈ lastChars := by
  cases length
  case none => exact ⟨_, _, rfl, specifier.char_mem⟩
  all_goals exact ⟨_, _, rfl, by decide⟩

theorem parseFlags_map (flags : List Flag) (rest : List UInt8) (f : PrintfFlags) :
    parseFlags (flags.map Flag.char ++ rest) f = parseFlags rest (flags.foldl Flag.set f) := by
  induction flags generalizing f with
  | nil => rfl
  | cons flag flags ih =>
    rw [List.map_cons, List.cons_append, List.foldl_cons, ← ih]
    cases flag <;> rfl

theorem parseFlags_stop {c : UInt8} (hc : c ∉ flagChars) (rest : List UInt8) (f : PrintfFlags) :
    parseFlags (c :: rest) f = (f, c :: rest) := by
  simp only [flagChars, List.mem_cons, List.not_mem_nil, or_false, not_or] at hc
  simp [parseFlags, hc]

/-! ### Numbers -/

theorem isDigit_digitChar {d : ℕ} (h : d < 10) :
    isDigit (digitChar false d) = true ∧ (digitChar false d).toNat - 48 = d := by
  interval_cases d <;> decide

theorem atou_map {ds : List ℕ} (h : ∀ d ∈ ds, d < 10) (rest : List UInt8) (i : ℕ) :
    atou (ds.map (digitChar false) ++ rest) i =
      atou rest (ds.foldl (fun i d => (i * 10 + d) % 2 ^ 32) i) := by
  induction ds generalizing i with
  | nil => rfl
  | cons d ds ih =>
    obtain ⟨hdigit, hvalue⟩ := isDigit_digitChar (h d List.mem_cons_self)
    rw [List.map_cons, List.cons_append, atou, if_pos hdigit, hvalue,
      ih fun d hd => h d (List.mem_cons_of_mem _ hd)]
    rfl

theorem foldr_ofDigits (ds : List ℕ) :
    ds.foldr (fun d i => (i * 10 + d) % 2 ^ 32) 0 = Nat.ofDigits 10 ds % 2 ^ 32 := by
  induction ds with
  | nil => rfl
  | cons d ds ih =>
    rw [List.foldr_cons, ih, Nat.ofDigits_cons]
    omega

/-- The digits of a decimal number, the first one first. -/
theorem decimal_eq (n : ℕ) : ∃ ds : List ℕ, decimal n = ds.map (digitChar false) ∧
    (∀ d ∈ ds, d < 10) ∧ ds.foldl (fun i d => (i * 10 + d) % 2 ^ 32) 0 = n % 2 ^ 32 ∧ ds ≠ [] ∧
    (n ≠ 0 → ds.head? ≠ some 0) := by
  rw [decimal]
  by_cases hn : n = 0
  · rw [if_pos hn, hn]
    exact ⟨[0], rfl, by simp, rfl, by simp, fun h => absurd rfl h⟩
  · have hne := Nat.digits_ne_nil_iff_ne_zero (b := 10) |>.mpr hn
    refine ⟨(Nat.digits 10 n).reverse, ?_, fun d hd => ?_, ?_, ?_, fun _ => ?_⟩
    · rw [if_neg hn, List.map_reverse]
    · exact Nat.digits_lt_base (by decide) (List.mem_reverse.mp hd)
    · rw [List.foldl_reverse, foldr_ofDigits, Nat.ofDigits_digits]
    · simpa using hne
    · rw [List.head?_reverse, List.getLast?_eq_some_getLast hne, ne_eq, Option.some.injEq]
      exact Nat.getLast_digit_ne_zero 10 hn

/-- A number is read back. -/
theorem atou_decimal {n : ℕ} (hn : n < 2 ^ 32) {c : UInt8} (hc : isDigit c = false)
    (rest : List UInt8) : atou (decimal n ++ c :: rest) 0 = (n, c :: rest) := by
  obtain ⟨ds, hds, hlt, hfold, -, -⟩ := decimal_eq n
  rw [hds, atou_map hlt, hfold, Nat.mod_eq_of_lt hn, atou, hc]
  rfl

/-- It begins with a digit, which is no flag unless it is zero. -/
theorem decimal_cons (n : ℕ) : ∃ c l, decimal n = c :: l ∧ isDigit c = true ∧
    (n ≠ 0 → c ∉ flagChars) := by
  obtain ⟨ds, hds, hlt, -, hne, hhead⟩ := decimal_eq n
  obtain ⟨d, ds, rfl⟩ := List.exists_cons_of_ne_nil hne
  have hd := hlt d List.mem_cons_self
  refine ⟨_, _, hds, (isDigit_digitChar hd).1, fun hn => ?_⟩
  have hzero : d ≠ 0 := by simpa using hhead hn
  interval_cases d <;> first | exact absurd rfl hzero | decide

/-! ### The stages -/

namespace Conv

variable {c : Conv} {args : VaList} {arg : ℕ}

/-- What comes behind the width begins with no flag, digit or star. -/
theorem precision_cons (c : Conv) (rest : List UInt8) : ∃ x l,
    c.precision.format ++ (c.length.format ++ c.specifier.char :: rest) = x :: l ∧
      x ∉ flagChars ∧ isDigit x = false ∧ x ≠ ch '*' := by
  cases c.precision
  case none =>
    obtain ⟨x, l, hcons, hx⟩ := length_cons c.length c.specifier rest
    obtain ⟨hflag, hdigit, hstar, -⟩ := lastChars_apart x hx
    exact ⟨x, l, hcons, hflag, hdigit, hstar⟩
  all_goals exact ⟨ch '.', _, rfl, by decide, by decide, by decide⟩

/-- What comes behind the flags begins with no flag. -/
theorem width_cons (c : Conv) (rest : List UInt8) : ∃ x l, c.width.format ++
    (c.precision.format ++ (c.length.format ++ c.specifier.char :: rest)) = x :: l ∧
      x ∉ flagChars := by
  cases hw : c.width
  case none =>
    obtain ⟨x, l, hcons, hflag, -⟩ := c.precision_cons rest
    exact ⟨x, l, hcons, hflag⟩
  case number n =>
    obtain ⟨x, l, hcons, -, hflag⟩ := decimal_cons n
    have hpos := (c.widthNumber n hw).1
    exact ⟨x, _, by rw [Width.format, hcons]; rfl, hflag (by omega)⟩
  case star => exact ⟨ch '*', _, rfl, by decide⟩

/-- The flags of a conversion as the loop has them in the end. -/
def readFlags (c : Conv) (args : VaList) (arg : ℕ) : PrintfFlags :=
  c.length.set
    { zeropad := .zero ∈ c.flags
      left := c.left args arg
      plus := .plus ∈ c.flags
      space := .space ∈ c.flags
      hash := .hash ∈ c.flags
      precision := c.precision ≠ .none }

theorem readWidth_eq (c : Conv) (args : VaList) (arg : ℕ) (f : PrintfFlags) {x : UInt8}
    (l : List UInt8) (hdigit : isDigit x = false) (hstar : x ≠ ch '*') :
    Directive.readWidth args ⟨f, 0, 0, c.width.format ++ x :: l, arg⟩ =
      some ⟨{ f with left := f.left || (c.width = .star ∧ vaInt (args arg) < 0) },
        c.widthValue args arg, 0, x :: l, arg + if c.width = .star then 1 else 0⟩ := by
  rw [widthValue]
  cases hw : c.width
  case none => simp [Directive.readWidth, Width.format, hdigit, hstar]
  case number n =>
    obtain ⟨y, l', hcons, hy, -⟩ := decimal_cons n
    have hread := atou_decimal (c.widthNumber n hw).2 hdigit l
    rw [hcons, List.cons_append] at hread
    simp [Directive.readWidth, Width.format, hcons, hy, hread]
  case star =>
    have hy : isDigit (ch '*') = false := by decide
    by_cases hneg : vaInt (args arg) < 0 <;>
      simp [Directive.readWidth, Width.format, hy, advance, hneg]

theorem readPrecision_eq (c : Conv) (args : VaList) (arg width : ℕ) (f : PrintfFlags) {x : UInt8}
    (l : List UInt8) (hf : f.precision = false) (hdigit : isDigit x = false) (hstar : x ≠ ch '*')
    (hpoint : x ≠ ch '.') :
    Directive.readPrecision args ⟨f, width, 0, c.precision.format ++ x :: l,
      arg + if c.width = .star then 1 else 0⟩ =
      some ⟨{ f with precision := c.precision ≠ .none }, width,
        (c.precisionValue args arg).getD 0, x :: l, c.valueArg arg⟩ := by
  rw [precisionValue, precisionArg, valueArg]
  cases hp : c.precision
  case none => simp [Directive.readPrecision, Precision.format, hpoint, ← hf]
  case point =>
    simp [Directive.readPrecision, Directive.readPrecisionNumber, Precision.format, advance, hdigit,
      hstar]
  case number n =>
    obtain ⟨y, l', hcons, hy, -⟩ := decimal_cons n
    have hread := atou_decimal (c.precisionNumber n hp) hdigit l
    rw [hcons, List.cons_append] at hread
    simp [Directive.readPrecision, Directive.readPrecisionNumber, Precision.format, advance, hcons,
      hy, hread]
  case star =>
    have hy : isDigit (ch '*') = false := by decide
    by_cases hneg : vaInt (args (arg + if c.width = .star then 1 else 0)) < 0
    · simp [Directive.readPrecision, Directive.readPrecisionNumber, Precision.format, advance, hy,
        hneg, Int.toNat_of_nonpos hneg.le]
    · simp [Directive.readPrecision, Directive.readPrecisionNumber, Precision.format, advance, hy,
        hneg]

theorem readLength_eq (length : Length) (specifier : Specifier) (f : PrintfFlags)
    (width precision arg : ℕ) (rest : List UInt8) :
    Directive.readLength ⟨f, width, precision, length.format ++ specifier.char :: rest, arg⟩ =
      some ⟨length.set f, width, precision, specifier.char :: rest, arg⟩ := by
  have hapart : specifier.char ≠ ch 'l' ∧ specifier.char ≠ ch 'L' ∧ specifier.char ≠ ch 'h' ∧
      specifier.char ≠ ch 't' ∧ specifier.char ≠ ch 'j' ∧ specifier.char ≠ ch 'z' := by
    cases specifier <;> decide
  obtain ⟨hl, hL, hh, ht, hj, hz⟩ := hapart
  have hlengths : ch 'L' ≠ ch 'l' ∧ ch 'h' ≠ ch 'l' ∧ ch 'h' ≠ ch 'L' ∧ ch 't' ≠ ch 'l' ∧
      ch 't' ≠ ch 'L' ∧ ch 't' ≠ ch 'h' ∧ ch 'j' ≠ ch 'l' ∧ ch 'j' ≠ ch 'L' ∧ ch 'j' ≠ ch 'h' ∧
      ch 'z' ≠ ch 'l' ∧ ch 'z' ≠ ch 'L' ∧ ch 'z' ≠ ch 'h' := by decide
  cases length
  case none => simp [Directive.readLength, Length.format, Length.set, hl, hL, hh, ht, hj, hz]
  all_goals simp [Directive.readLength, Length.format, Length.set, advance, hl, hh, hlengths]

/-- A conversion is read back. -/
theorem readDirective_eq (c : Conv) (args : VaList) (arg : ℕ) (rest : List UInt8) :
    readDirective args (c.format ++ rest) arg =
      some ⟨c.readFlags args arg, c.widthValue args arg, (c.precisionValue args arg).getD 0,
        c.specifier.char :: rest, c.valueArg arg⟩ := by
  have hformat : c.format ++ rest = ch '%' :: (c.flags.map Flag.char ++ (c.width.format ++
      (c.precision.format ++ (c.length.format ++ c.specifier.char :: rest)))) := by
    simp [format]
  obtain ⟨x, l, hlast, hx⟩ := length_cons c.length c.specifier rest
  obtain ⟨-, hxdigit, hxstar, hxpoint⟩ := lastChars_apart x hx
  obtain ⟨y, m, hprecision, -, hydigit, hystar⟩ := c.precision_cons rest
  obtain ⟨z, n, hwidth, hz⟩ := c.width_cons rest
  have hadvance : advance (c.format ++ rest) = some (c.flags.map Flag.char ++ (z :: n)) := by
    rw [hformat, hwidth]
    cases c.flags <;> rfl
  have hflags : Directive.readFlags ⟨{}, 0, 0, c.flags.map Flag.char ++ (z :: n), arg⟩ =
      ⟨c.flags.foldl Flag.set {}, 0, 0, z :: n, arg⟩ := by
    rw [Directive.readFlags]
    simp only
    rw [parseFlags_map, parseFlags_stop hz]
  rw [readDirective, hadvance, Option.bind_some, hflags, ← hwidth, hprecision,
    readWidth_eq c args arg _ m hydigit hystar, Option.bind_some, ← hprecision, hlast,
    readPrecision_eq c args arg _ _ l _ hxdigit hxstar hxpoint, Option.bind_some, ← hlast,
    readLength_eq, foldl_set]
  · simp [readFlags, left]
  · rw [foldl_set]

/-! ### Integers -/

/-- The directive that is read back. -/
def directive (c : Conv) (args : VaList) (arg : ℕ) (rest : List UInt8) : Directive :=
  ⟨c.readFlags args arg, c.widthValue args arg, (c.precisionValue args arg).getD 0,
    c.specifier.char :: rest, c.valueArg arg⟩

theorem readFlags_eq (c : Conv) (args : VaList) (arg : ℕ) : c.readFlags args arg =
    { c.length.set {} with
      zeropad := .zero ∈ c.flags
      left := c.left args arg
      plus := .plus ∈ c.flags
      space := .space ∈ c.flags
      hash := .hash ∈ c.flags
      precision := c.precision ≠ .none } := by
  rw [readFlags]
  cases c.length <;> rfl

theorem integerFlags_eq {specifier : Specifier} {base : ℕ} (hbase : specifier.base = some base)
    {f : PrintfFlags} (hsigned : f.signed = false) (hupper : f.uppercase = false) :
    integerFlags specifier.char f =
      { f with
        zeropad := f.zeropad && !f.precision
        plus := f.plus && specifier.signed
        space := f.space && specifier.signed
        hash := f.hash && base ≠ 10
        uppercase := specifier = .X
        signed := specifier.signed } := by
  have hbases : integerBase (ch 'x') = 16 ∧ integerBase (ch 'X') = 16 ∧ integerBase (ch 'o') = 8 ∧
      integerBase (ch 'b') = 2 ∧ integerBase (ch 'd') = 10 ∧ integerBase (ch 'i') = 10 ∧
      integerBase (ch 'u') = 10 := by decide
  have hapart : ∀ a ∈ [ch 'u', ch 'x', ch 'X', ch 'o', ch 'b'], a ≠ ch 'd' ∧ a ≠ ch 'i' := by
    decide +kernel
  have hupper' : ∀ a ∈ [ch 'd', ch 'i', ch 'u', ch 'x', ch 'o', ch 'b'], a ≠ ch 'X' := by
    decide +kernel
  simp only [List.mem_cons, List.not_mem_nil, or_false, forall_eq_or_imp, forall_eq] at hapart hupper'
  obtain ⟨zeropad, left, plus, space, hash, uppercase, char, short, long, longLong, precision,
    pointer, signed, longDouble⟩ := f
  subst hsigned hupper
  cases specifier <;> cases hbase <;> cases precision <;>
    simp [Specifier.char, integerFlags, Specifier.signed, baseDecimal, hbases, hapart, hupper']

/-- The flags for lengths and signs do not matter to `print_integer`. -/
theorem printIntegerText_flags (value : ℕ) (negative : Bool) (base precision width : ℕ)
    (f g : PrintfFlags) : printIntegerText value negative base precision width
      { f with char := g.char, short := g.short, long := g.long, longLong := g.longLong,
               signed := g.signed, longDouble := g.longDouble } =
    printIntegerText value negative base precision width f := by
  rw [printIntegerText, printIntegerText, integerDigits, integerDigits]
  split_ifs <;> rfl

theorem integerValue_eq (c : Conv) (args : VaList) (arg : ℕ) {f : PrintfFlags}
    (hsigned : f.signed = c.specifier.signed)
    (hlength : f.longLong = (c.length.set {}).longLong ∧ f.long = (c.length.set {}).long ∧
      f.char = (c.length.set {}).char ∧ f.short = (c.length.set {}).short) :
    integerValue f (args (c.valueArg arg)) =
      ((c.signedValue args arg).natAbs, decide (c.signedValue args arg < 0)) := by
  obtain ⟨hlonglong, hlong, hchar, hshort⟩ := hlength
  rw [integerValue, signedValue, hsigned, hlonglong, hlong, hchar, hshort]
  cases c.specifier.signed <;> cases c.length <;> simp [Length.set, Length.bits] <;> omega

theorem signedValue_lt (c : Conv) (args : VaList) (arg : ℕ) :
    (c.signedValue args arg).natAbs < 2 ^ 64 := by
  have hbits : 2 ^ c.length.bits ≤ 2 ^ 64 := by
    apply Nat.pow_le_pow_right (by decide)
    cases c.length <;> decide
  have hbits' : (2 : ℤ) ^ c.length.bits ≤ 2 ^ 64 := by exact_mod_cast hbits
  rw [signedValue]
  split
  · have hle := BitVec.le_two_mul_toInt (x := (args (c.valueArg arg)).setWidth c.length.bits)
    have hlt := BitVec.two_mul_toInt_lt (x := (args (c.valueArg arg)).setWidth c.length.bits)
    omega
  · have hlt := ((args (c.valueArg arg)).setWidth c.length.bits).isLt
    omega

theorem conversion_body_le (c : Conv) (args : VaList) (arg : ℕ) {base : ℕ} (hbase : 8 ≤ base)
    (hprecision : (c.precisionValue args arg).getD 1 ≤ 60) :
    (c.conversion args arg base).body.length ≤ printfIntegerBufferSize :=
  Conversion.body_length_le hbase (c.signedValue_lt args arg) hprecision

theorem Ok.precision_isSome {mem : Pointees} (h : c.Ok args arg mem) :
    (c.precisionValue args arg).isSome = decide (c.precision ≠ .none) := by
  rw [precisionValue]
  cases hp : c.precision
  case star =>
    rw [if_neg (not_lt.mpr (h.precisionArg hp))]
    rfl
  all_goals rfl

theorem Ok.precision_eq_none {mem : Pointees} (h : c.Ok args arg mem) :
    c.precisionValue args arg = none ↔ c.precision = .none := by
  rw [← Option.not_isSome_iff_eq_none, h.precision_isSome, decide_eq_true_eq, not_not]

theorem Ok.fits {mem : Pointees} {base : ℕ} (h : c.Ok args arg mem)
    (hbase : c.specifier.base = some base) : (c.conversion args arg base).Fits := by
  constructor
  case base =>
    have hbases : ∀ specifier : Specifier, specifier.base = some base →
        base = 2 ∨ base = 8 ∨ base = 10 ∨ base = 16 := by
      intro specifier hs
      cases specifier <;> cases hs <;> decide
    exact hbases c.specifier hbase
  case value => exact c.signedValue_lt args arg
  case precision => rfl
  case zeropad =>
    intro hprecision
    have hsome : c.precisionValue args arg ≠ none := Option.isSome_iff_ne_none.mp hprecision
    simp [conversion, hsome]
  case hash =>
    intro hten
    simp only [conversion, baseDecimal] at hten
    simp [conversion, hten]
  case pointer => exact nofun
  case body => exact h.body base hbase
  case width => exact h.width base hbase
  case binaryZero =>
    intro htwo hvalue hprecision
    have hb : c.specifier = .b := by
      cases hs : c.specifier <;> rw [hs] at hbase <;> cases hbase <;>
        first | rfl | exact absurd htwo (by simp [conversion, baseBinary])
    have hgiven : c.precision ≠ .none :=
      fun hnone => Option.isSome_iff_ne_none.mp hprecision (h.precision_eq_none.mpr hnone)
    have hmark := h.binaryZero hb (Int.natAbs_eq_zero.mp hvalue) hgiven
    simp [conversion, hmark]

theorem specifierText_integer {mem : Pointees} {base : ℕ} (h : c.Ok args arg mem)
    (hbase : c.specifier.base = some base) (rest : List UInt8) :
    specifierText mem args (c.directive args arg rest) c.specifier.char =
      (c.conversion args arg base).text := by
  have hmem : c.specifier.char ∈ integerSpecifiers := by
    cases hs : c.specifier <;> rw [hs] at hbase <;> cases hbase <;> decide
  have hbase' : integerBase c.specifier.char = base := by
    cases hs : c.specifier <;> rw [hs] at hbase <;> cases hbase <;> decide
  have hlength : (c.length.set {}).signed = false ∧ (c.length.set {}).uppercase = false ∧
      (c.length.set {}).pointer = false := by
    cases c.length <;> exact ⟨rfl, rfl, rfl⟩
  have hflags := integerFlags_eq hbase (f := c.readFlags args arg)
    (by rw [readFlags_eq, hlength.1]) (by rw [readFlags_eq, hlength.2.1])
  have hvalue := c.integerValue_eq args arg (f := integerFlags c.specifier.char (c.readFlags args arg))
    (by rw [hflags]) (by rw [hflags, readFlags_eq]; exact ⟨rfl, rfl, rfl, rfl⟩)
  have hshape : integerFlags c.specifier.char (c.readFlags args arg) =
      { (c.conversion args arg base).flags with
        char := (integerFlags c.specifier.char (c.readFlags args arg)).char
        short := (integerFlags c.specifier.char (c.readFlags args arg)).short
        long := (integerFlags c.specifier.char (c.readFlags args arg)).long
        longLong := (integerFlags c.specifier.char (c.readFlags args arg)).longLong
        signed := (integerFlags c.specifier.char (c.readFlags args arg)).signed
        longDouble := (integerFlags c.specifier.char (c.readFlags args arg)).longDouble } := by
    rw [hflags, readFlags_eq]
    simp [conversion, hlength, h.precision_isSome, h.precision_eq_none]
  rw [← Conversion.printIntegerText_eq (h.fits hbase), specifierText]
  simp only [if_pos hmem, directive, hvalue, hbase']
  rw [hshape, printIntegerText_flags]
  rfl

/-! ### The other specifiers -/

theorem pointer_fits : (c.pointerConversion args arg).Fits := by
  constructor
  case base => exact .inr (.inr (.inr rfl))
  case value => exact (args (c.valueArg arg)).isLt
  case precision => rfl
  case zeropad => exact nofun
  case hash => exact fun hten => absurd hten (show (16 : ℕ) ≠ 10 by decide)
  case pointer => exact fun _ => rfl
  case width => exact fun _ _ => show 18 ≤ 64 by decide
  case binaryZero => exact fun htwo => absurd htwo (show (16 : ℕ) ≠ 2 by decide)
  case body =>
    exact Conversion.body_length_le (show 8 ≤ 16 by decide) (args (c.valueArg arg)).isLt
      (show 1 ≤ 60 by decide)

theorem spaced_eq (c : Conv) (args : VaList) (arg length : ℕ) (text : List UInt8) :
    padded length (c.widthValue args arg) (c.readFlags args arg) text =
      c.spaced args arg length text := by
  rw [padded, spaced, readFlags_eq]

theorem Ok.taken_eq {α : Type} {mem : Pointees} (h : c.Ok args arg mem) (s : List α) :
    taken ((c.precisionValue args arg).getD 0) (c.readFlags args arg) s = c.shown args arg s := by
  rw [taken, shown, readFlags_eq]
  simp only [← h.precision_isSome]
  cases c.precisionValue args arg <;> rfl

theorem Ok.paddedLength_eq {α : Type} {mem : Pointees} (h : c.Ok args arg mem) {s : List α}
    (hlen : s.length ≤ printfMaxPossibleBufferSize) :
    paddedLength s.length ((c.precisionValue args arg).getD 0) (c.readFlags args arg) =
      (c.shown args arg s).length := by
  rw [paddedLength, shown, readFlags_eq]
  simp only [← h.precision_isSome]
  cases c.precisionValue args arg with
  | none => simpa using hlen
  | some n =>
    simp only [Option.getD_some, Option.isSome_some, if_true, List.length_take]
    split <;> omega

theorem nullSpaced_eq (c : Conv) (args : VaList) (arg : ℕ) :
    outRevText nullText (c.widthValue args arg) (c.readFlags args arg) =
      c.nullSpaced args arg := by
  have hlen : nullText.length = 6 := rfl
  rw [outRevText, nullSpaced, spaced, readFlags_eq, hlen]
  cases c.left args arg <;> by_cases hzero : Flag.zero ∈ c.flags <;> simp [hzero]

/-- Every conversion stands for its text. -/
theorem specifierText_eq {mem : Pointees} (h : c.Ok args arg mem) (rest : List UInt8) :
    specifierText mem args (c.directive args arg rest) c.specifier.char = c.text args arg mem := by
  rw [text]
  cases hs : c.specifier
  case c => exact c.spaced_eq args arg 1 _
  case s =>
    have htext : specifierText mem args (c.directive args arg rest) Specifier.s.char =
        cstringText (mem.cstring (args (c.valueArg arg))) (c.widthValue args arg)
          ((c.precisionValue args arg).getD 0) (c.readFlags args arg) := rfl
    rw [htext]
    cases hstring : mem.cstring (args (c.valueArg arg)) with
    | none => exact c.nullSpaced_eq args arg
    | some s =>
      rw [cstringText, h.paddedLength_eq (h.cstring hs s hstring), h.taken_eq]
      exact c.spaced_eq args arg _ _
  case U =>
    have htext : specifierText mem args (c.directive args arg rest) Specifier.U.char =
        stringText (mem.string (args (c.valueArg arg))) (c.widthValue args arg)
          ((c.precisionValue args arg).getD 0) (c.readFlags args arg) := rfl
    rw [htext]
    cases hstring : mem.string (args (c.valueArg arg)) with
    | none => exact c.nullSpaced_eq args arg
    | some s =>
      rw [stringText, h.paddedLength_eq (h.string hs s hstring), h.taken_eq]
      exact c.spaced_eq args arg _ _
  case p =>
    have hnone := h.pointer hs
    have htext : specifierText mem args (c.directive args arg rest) Specifier.p.char =
        printIntegerText (args (c.valueArg arg)).toNat false baseHex
          ((c.precisionValue args arg).getD 0) 18
          { c.readFlags args arg with zeropad := true, pointer := true } := rfl
    have hprecision : c.precisionValue args arg = none := by rw [precisionValue, hnone]
    have hshape : { c.readFlags args arg with zeropad := true, pointer := true } =
        { (c.pointerConversion args arg).flags with
          char := (c.length.set {}).char
          short := (c.length.set {}).short
          long := (c.length.set {}).long
          longLong := (c.length.set {}).longLong
          signed := (c.length.set {}).signed
          longDouble := (c.length.set {}).longDouble } := by
      have hupper : (c.length.set {}).uppercase = false := by cases c.length <;> rfl
      rw [readFlags_eq]
      simp [pointerConversion, hnone, hupper]
    rw [htext, hprecision, hshape, printIntegerText_flags]
    exact Conversion.printIntegerText_eq c.pointer_fits
  case percent => rfl
  case T =>
    have htext : specifierText mem args (c.directive args arg rest) Specifier.T.char =
        match mem.type (args (c.valueArg arg)) with
        | none => outRevText nullText (c.widthValue args arg) (c.readFlags args arg)
        | some type => typeText type := rfl
    rw [htext]
    cases mem.type (args (c.valueArg arg)) with
    | none => exact c.nullSpaced_eq args arg
    | some type => rfl
  all_goals
    have htext := specifierText_integer h (by rw [hs]; rfl) rest
    rw [hs] at htext
    exact htext

end Conv

theorem specifierArgs_eq (c : Conv) (arg : ℕ) :
    c.valueArg arg + specifierArgs c.specifier.char = arg + c.argsTaken := by
  have hspecifier : specifierArgs c.specifier.char = if c.specifier = .percent then 0 else 1 := by
    cases c.specifier <;> decide
  rw [hspecifier, Conv.argsTaken, Conv.valueArg, Conv.valueArg]
  omega

/-- What the loop prints for the pieces. -/
def printedOf (mem : Pointees) (args : VaList) : List Piece → ℕ → List UInt8
  | [], _ => []
  | .literal c :: pieces, arg => c.char :: printedOf mem args pieces arg
  | .conv c :: pieces, arg =>
    specifierText mem args (c.directive args arg []) c.specifier.char ++
      printedOf mem args pieces (arg + c.argsTaken)

/-- The pieces stand for what is printed. -/
theorem printedOf_eq {mem : Pointees} {args : VaList} {pieces : List Piece} {arg : ℕ}
    (h : AllOk mem args pieces arg) :
    printedOf mem args pieces arg = textOf mem args pieces arg := by
  induction pieces generalizing arg with
  | nil => rfl
  | cons piece pieces ih =>
    cases piece with
    | literal c => rw [printedOf, textOf, ih h]
    | conv c => rw [printedOf, textOf, ih h.2, Conv.specifierText_eq h.1]

/-- The pieces at the beginning of a format are printed one after the other. -/
theorem formatText_append (mem : Pointees) (args : VaList) (pieces : List Piece) {arg fuel : ℕ}
    {rest : List UInt8} (hfuel : (formatOf pieces).length + rest.length ≤ fuel) :
    ∃ fuel' arg', rest.length ≤ fuel' ∧ formatText mem args fuel (formatOf pieces ++ rest) arg =
      (formatText mem args fuel' rest arg').map (printedOf mem args pieces arg ++ ·) := by
  induction pieces generalizing arg fuel with
  | nil =>
    refine ⟨fuel, arg, by simpa [formatOf] using hfuel, ?_⟩
    simp [formatOf, printedOf]
  | cons piece pieces ih =>
    have hcons : formatOf (piece :: pieces) = piece.format ++ formatOf pieces := rfl
    rw [hcons, List.length_append] at hfuel
    rw [hcons, List.append_assoc]
    cases piece with
    | literal c =>
      have hlen : (Piece.literal c).format.length = 1 := rfl
      obtain ⟨fuel, rfl⟩ : ∃ k, fuel = k + 1 := ⟨fuel - 1, by omega⟩
      obtain ⟨fuel', arg', hle, htext⟩ := @ih arg fuel (by omega)
      refine ⟨fuel', arg', hle, ?_⟩
      rw [Piece.format, List.singleton_append, formatText, if_pos c.noPercent, htext,
        Option.map_map]
      rfl
    | conv c =>
      have hpiece : (Piece.conv c).format = c.format := rfl
      have hformat : c.format ++ (formatOf pieces ++ rest) =
          ch '%' :: (c.format.tail ++ (formatOf pieces ++ rest)) := rfl
      have hlen : 1 ≤ c.format.length := Nat.succ_le_succ (Nat.zero_le _)
      rw [hpiece] at hfuel ⊢
      obtain ⟨fuel, rfl⟩ : ∃ k, fuel = k + 1 := ⟨fuel - 1, by omega⟩
      obtain ⟨fuel', arg', hle, htext⟩ := @ih (arg + c.argsTaken) fuel (by omega)
      refine ⟨fuel', arg', hle, ?_⟩
      -- what is printed does not depend on the format that is left
      have hspecifier : specifierText mem args (c.directive args arg (formatOf pieces ++ rest))
          c.specifier.char =
          specifierText mem args (c.directive args arg []) c.specifier.char := rfl
      rw [hformat, formatText, if_neg (by simp), ← hformat, c.readDirective_eq]
      simp only [specifierArgs_eq]
      rw [htext, Option.map_map, printedOf, ← hspecifier]
      congr 1
      funext text
      exact (List.append_assoc _ _ _).symm

/-- A format stands for the texts of its pieces, and is never read past its end. -/
theorem formatText_eq {mem : Pointees} {args : VaList} {pieces : List Piece} {arg fuel : ℕ}
    (h : AllOk mem args pieces arg) (hfuel : (formatOf pieces).length ≤ fuel) :
    formatText mem args fuel (formatOf pieces) arg = some (textOf mem args pieces arg) := by
  obtain ⟨fuel', arg', -, htext⟩ := @formatText_append mem args pieces arg fuel [] hfuel
  have hnil : formatText mem args fuel' [] arg' = some [] := by cases fuel' <;> rfl
  rw [List.append_nil, hnil, Option.map_some, List.append_nil, printedOf_eq h] at htext
  exact htext

theorem kvsnprintf_formatOf {mem : Pointees} {args : VaList} {pieces : List Piece}
    (h : AllOk mem args pieces 0) (hlt : (textOf mem args pieces 0).length < 2 ^ 31)
    (bytes : ℕ → UInt8) (n : ℕ) : kvsnprintf mem args (some bytes) n (formatOf pieces) =
      some (.buffer (truncated (textOf mem args pieces 0) n bytes),
        BitVec.ofNat 32 (textOf mem args pieces 0).length) := by
  have htext := formatText_eq h (Nat.le_refl (formatOf pieces).length)
  rw [kvsnprintf, vsnprintfImpl_eq htext (by omega) rfl, terminated_buffer hlt]

/-- `%s`. -/
def stringConv : Conv := ⟨[], .none, .none, .none, .s, by simp, by simp⟩

/-- `%lx` with leading zeros. -/
def longHexConv (digits : ℕ) (h : 0 < digits ∧ digits < 2 ^ 32) : Conv :=
  ⟨[.zero], .number digits, .none, .l, .x, by simpa using h, by simp⟩

/-- `%s+0x%03lx`: a name, and an offset of at least three digits. -/
def symbolPieces : List Piece :=
  [.conv stringConv, .literal ⟨ch '+', by decide⟩, .literal ⟨ch '0', by decide⟩,
    .literal ⟨ch 'x', by decide⟩, .conv (longHexConv 3 (by decide))]

example : formatOf symbolPieces = "%s+0x%03lx".toList.map ch := by decide

theorem symbol_allOk {mem : Pointees} {args : VaList}
    (hname : ∀ s, mem.cstring (args 0) = some s → s.length ≤ printfMaxPossibleBufferSize) :
    AllOk mem args symbolPieces 0 := by
  refine ⟨?_, ?_, trivial⟩
  · constructor
    case cstring => exact fun _ => hname
    all_goals exact nofun
  · constructor
    case body =>
      intro base hbase
      cases hbase
      apply Conv.conversion_body_le _ args _ (by decide)
      show 1 ≤ 60
      decide
    case width => exact fun _ _ _ _ => show 3 ≤ 64 by decide
    all_goals exact nofun

def mainName : Pointees :=
  ⟨fun _ => some [ch 'm', ch 'a', ch 'i', ch 'n'], fun _ => none, fun _ => none, by
    intro p s h
    cases h
    decide⟩

theorem main_text : textOf mainName (fun _ => 42) symbolPieces 0 =
    "main+0x02a".toList.map ch := by
  decide +kernel

end TomatOS.Lib.Printf
