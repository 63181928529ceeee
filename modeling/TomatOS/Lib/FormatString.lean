import TomatOS.Lib.PrintInteger
import Mathlib.Data.BitVec
import Mathlib.Data.List.GetD

/-! The format loop of `kernel/lib/printf.c` and the functions on top of it. A directive is
read in stages, each of which returns where the string ends behind a character it steps
over; a string that ends behind flags or digits is read past its end. What is printed does
not depend on the gadget, so a buffer that is too small gets the beginning of the text and
the length of all of it is returned. -/

namespace TomatOS.Lib.Printf

open OutputGadget

/-! ### The arguments -/

/-- What is printed of a `RuntimeTypeInfo`; a string is `none` for a null pointer. -/
inductive RuntimeType where
  | mk (isGenericParameter : Bool) (name : Option (List UInt16))
      (declaringType : Option RuntimeType) (typeNamespace : Option (List UInt16))
      (genericArguments : Option (List RuntimeType))

/-- What the pointers among the arguments point to; `none` for a null pointer. -/
structure Pointees where
  cstring : BitVec 64 → Option (List UInt8)
  string : BitVec 64 → Option (List UInt16)
  type : BitVec 64 → Option RuntimeType
  terminated : ∀ p s, cstring p = some s → 0 ∉ s

/-- A `va_list`: one word for each argument. -/
abbrev VaList := ℕ → BitVec 64

def vaInt (w : BitVec 64) : ℤ := (w.setWidth 32).toInt

/-! ### Reading a directive -/

def parseFlags : List UInt8 → PrintfFlags → PrintfFlags × List UInt8
  | [], flags => (flags, [])
  | c :: format, flags =>
    if c = ch '0' then parseFlags format { flags with zeropad := true }
    else if c = ch '-' then parseFlags format { flags with left := true }
    else if c = ch '+' then parseFlags format { flags with plus := true }
    else if c = ch ' ' then parseFlags format { flags with space := true }
    else if c = ch '#' then parseFlags format { flags with hash := true }
    else (flags, c :: format)

def isDigit (c : UInt8) : Bool := ch '0' ≤ c && c ≤ ch '9'

def atou : List UInt8 → ℕ → ℕ × List UInt8
  | [], i => (i, [])
  | c :: format, i =>
    if isDigit c then atou format ((i * 10 + (c.toNat - 48)) % 2 ^ 32) else (i, c :: format)

/-- `ADVANCE_IN_FORMAT_STRING`; `none` returns from the loop. -/
def advance : List UInt8 → Option (List UInt8)
  | _ :: c :: format => some (c :: format)
  | _ => none

/-- A directive as far as it has been read, with the rest of the format and the number of
the next argument. -/
structure Directive where
  flags : PrintfFlags
  width : ℕ
  precision : ℕ
  format : List UInt8
  arg : ℕ

namespace Directive

variable (args : VaList) (d : Directive)

def readFlags : Directive :=
  let (flags, format) := parseFlags d.format d.flags
  { d with flags := flags, format := format }

def readWidth : Option Directive :=
  match d.format with
  | [] => some d
  | c :: _ =>
    if isDigit c then
      let (width, format) := atou d.format 0
      some { d with width := width, format := format }
    else if c = ch '*' then
      let w := vaInt (args d.arg)
      let flags := if w < 0 then { d.flags with left := true } else d.flags
      (advance d.format).map fun format =>
        { d with flags := flags, width := w.natAbs, format := format, arg := d.arg + 1 }
    else some d

/-- The precision behind the point. -/
def readPrecisionNumber : Option Directive :=
  match d.format with
  | [] => some d
  | c :: _ =>
    if isDigit c then
      let (precision, format) := atou d.format 0
      some { d with precision := precision, format := format }
    else if c = ch '*' then
      let p := vaInt (args d.arg)
      (advance d.format).map fun format =>
        { d with precision := p.toNat, format := format, arg := d.arg + 1 }
    else some d

def readPrecision : Option Directive :=
  if d.format.head? = some (ch '.') then
    (advance d.format).bind fun format =>
      readPrecisionNumber args { d with flags := { d.flags with precision := true }, format := format }
  else some d

/-- `l` and `h` may come twice; `t`, `j` and `z` are as good as `l`. -/
def readLength : Option Directive :=
  let long := { d with flags := { d.flags with long := true } }
  let short := { d with flags := { d.flags with short := true } }
  let step := fun d : Directive => (advance d.format).map fun format => { d with format := format }
  if d.format.head? = some (ch 'l') then
    (step long).bind fun d => if d.format.head? = some (ch 'l') then
      step { d with flags := { d.flags with longLong := true } } else some d
  else if d.format.head? = some (ch 'L') then
    step { d with flags := { d.flags with longDouble := true } }
  else if d.format.head? = some (ch 'h') then
    (step short).bind fun d => if d.format.head? = some (ch 'h') then
      step { d with flags := { d.flags with char := true } } else some d
  else if d.format.head? = some (ch 't') ∨ d.format.head? = some (ch 'j') ∨
      d.format.head? = some (ch 'z') then step long
  else some d

end Directive

/-- A directive up to its specifier, from the percent sign on. -/
def readDirective (args : VaList) (format : List UInt8) (arg : ℕ) : Option Directive :=
  (advance format).bind fun format =>
    (Directive.readWidth args (Directive.readFlags ⟨{}, 0, 0, format, arg⟩)).bind fun d =>
      (d.readPrecision args).bind Directive.readLength

/-! ### Specifiers -/

def integerSpecifiers : List UInt8 := [ch 'd', ch 'i', ch 'u', ch 'x', ch 'X', ch 'o', ch 'b']

def integerBase (c : UInt8) : ℕ :=
  if c = ch 'x' ∨ c = ch 'X' then baseHex
  else if c = ch 'o' then baseOctal
  else if c = ch 'b' then baseBinary
  else baseDecimal

def integerFlags (c : UInt8) (flags : PrintfFlags) : PrintfFlags :=
  let flags := if c = ch 'd' ∨ c = ch 'i' then { flags with signed := true } else flags
  -- decimal integers have no alternative presentation
  let flags := if integerBase c = baseDecimal then { flags with hash := false } else flags
  let flags := if c = ch 'X' then { flags with uppercase := true } else flags
  -- ignore '0' flag when precision is given
  let flags := if flags.precision then { flags with zeropad := false } else flags
  if flags.signed then flags else { flags with plus := false, space := false }

/-- The value of an argument in absolute terms, and whether it is negative. -/
def integerValue (flags : PrintfFlags) (w : BitVec 64) : ℕ × Bool :=
  if flags.signed then
    let value : ℤ :=
      if flags.longLong || flags.long then w.toInt
      else if flags.char then (w.setWidth 8).toInt
      else if flags.short then (w.setWidth 16).toInt
      else (w.setWidth 32).toInt
    (value.natAbs, value < 0)
  else
    let value :=
      if flags.longLong || flags.long then w.toNat
      else if flags.char then (w.setWidth 8).toNat
      else if flags.short then (w.setWidth 16).toNat
      else (w.setWidth 32).toNat
    (value, false)

/-- A text of some length between spaces, as `%c`, `%s` and `%U` print it. -/
def padded (length width : ℕ) (flags : PrintfFlags) (text : List UInt8) : List UInt8 :=
  let spaces := List.replicate (width - length) (ch ' ')
  if flags.left then text ++ spaces else spaces ++ text

/-- The length `%s` and `%U` reckon with. -/
def paddedLength (length precision : ℕ) (flags : PrintfFlags) : ℕ :=
  let l := min length (if precision ≠ 0 then precision else printfMaxPossibleBufferSize)
  if flags.precision then min l precision else l

def taken {α : Type} (precision : ℕ) (flags : PrintfFlags) (s : List α) : List α :=
  if flags.precision then s.take precision else s

def nullText : List UInt8 := [ch ')', ch 'l', ch 'l', ch 'u', ch 'n', ch '(']

/-- The characters of a string that are ASCII. -/
def asciiText (s : List UInt16) : List UInt8 := (s.filter (· < 0x80)).map UInt16.toUInt8

def printString (g : OutputGadget) (s : Option (List UInt16)) (width precision : ℕ)
    (flags : PrintfFlags) : OutputGadget :=
  match s with
  | none => outRev g nullText width flags
  | some s => g.puts (padded (paddedLength s.length precision flags) width flags
      (asciiText (taken precision flags s)))

def printCString (g : OutputGadget) (s : Option (List UInt8)) (width precision : ℕ)
    (flags : PrintfFlags) : OutputGadget :=
  match s with
  | none => outRev g nullText width flags
  | some s => g.puts (padded (paddedLength s.length precision flags) width flags
      (taken precision flags s))

/-- The routine that prints a type, with `none` where it reads past a format. -/
abbrev PrintType := OutputGadget → RuntimeType → Option OutputGadget

def specifierArgs (c : UInt8) : ℕ :=
  if c ∈ integerSpecifiers ++ [ch 'c', ch 'U', ch 's', ch 'p', ch 'T'] then 1 else 0

/-- The `switch` over the specifier. -/
def printSpecifier (printType : PrintType) (mem : Pointees) (args : VaList) (d : Directive)
    (c : UInt8) (g : OutputGadget) : Option OutputGadget :=
  let w := args d.arg
  if c ∈ integerSpecifiers then
    let flags := integerFlags c d.flags
    let (value, negative) := integerValue flags w
    some (printInteger g value negative (integerBase c) d.precision d.width flags)
  else if c = ch 'c' then some (g.puts (padded 1 d.width d.flags [UInt8.ofBitVec (w.setWidth 8)]))
  else if c = ch 'U' then some (printString g (mem.string w) d.width d.precision d.flags)
  else if c = ch 's' then some (printCString g (mem.cstring w) d.width d.precision d.flags)
  else if c = ch 'p' then
    let flags := { d.flags with zeropad := true, pointer := true }
    some (printInteger g w.toNat false baseHex d.precision 18 flags)
  else if c = ch '%' then some (g.putcharViaGadget (ch '%'))
  else if c = ch 'T' then
    match mem.type w with
    | none => some (outRev g nullText d.width d.flags)
    | some type => printType g type
  else some (g.putcharViaGadget c)

/-! ### The loop -/

/-- `format_string_loop`, from some argument on; `none` where it reads past the end of the
format. Each round takes a character at least, so the length of the format is fuel enough. -/
def formatStringLoopWith (printType : PrintType) (mem : Pointees) (args : VaList) :
    ℕ → List UInt8 → ℕ → OutputGadget → Option OutputGadget
  | 0, _, _, g => some g
  | _, [], _, g => some g
  | fuel + 1, c :: format, arg, g =>
    if c ≠ ch '%' then
      formatStringLoopWith printType mem args fuel format arg (g.putcharViaGadget c)
    else
      match readDirective args (c :: format) arg with
      | none => some g
      | some d =>
        match d.format with
        -- the terminator is printed and stepped over
        | [] => none
        | c :: format => (printSpecifier printType mem args d c g).bind
            (formatStringLoopWith printType mem args fuel format (d.arg + specifierArgs c))

/-- `snprintf_impl` with a string for its only argument; its formats have no `%T`. -/
def snprintfImpl (g : OutputGadget) (format : List UInt8) (s : Option (List UInt16)) :
    Option OutputGadget :=
  let mem : Pointees := ⟨fun _ => none, fun _ => s, fun _ => none, nofun⟩
  (formatStringLoopWith (fun g _ => some g) mem (fun _ => 0) format.length format 0 g).map
    appendTerminationWithGadget

mutual

def outputTypeViaGadget (g : OutputGadget) : RuntimeType → Option OutputGadget
  | .mk isGenericParameter name declaringType typeNamespace genericArguments =>
    if isGenericParameter then snprintfImpl g [ch '%', ch 'U'] name
    else
      (outputDeclaringType g declaringType).bind fun g =>
      (match typeNamespace with
        | none => some g
        | some s => snprintfImpl g [ch '%', ch 'U', ch '.'] (some s)).bind fun g =>
      (snprintfImpl g [ch '%', ch 'U'] name).bind fun g =>
      outputGenericArguments g genericArguments

def outputDeclaringType (g : OutputGadget) : Option RuntimeType → Option OutputGadget
  | none => some g
  | some type => (outputTypeViaGadget g type).bind fun g => snprintfImpl g [ch '+'] none

def outputGenericArguments (g : OutputGadget) : Option (List RuntimeType) → Option OutputGadget
  | none => some g
  | some types =>
    (snprintfImpl g [ch '<'] none).bind fun g =>
    (outputElements g true types).bind fun g =>
    snprintfImpl g [ch '>'] none

/-- The loop over the generic arguments; the first has no comma before it. -/
def outputElements (g : OutputGadget) (first : Bool) : List RuntimeType → Option OutputGadget
  | [] => some g
  | type :: types =>
    (if first then some g else snprintfImpl g [ch ',', ch ' '] none).bind fun g =>
    (outputTypeViaGadget g type).bind fun g =>
    outputElements g false types

end

def formatStringLoop (mem : Pointees) (args : VaList) (format : List UInt8) (g : OutputGadget) :
    Option OutputGadget :=
  formatStringLoopWith outputTypeViaGadget mem args format.length format 0 g

/-- What is left of the gadget, and what is returned. -/
def vsnprintfImpl (mem : Pointees) (args : VaList) (format : List UInt8) (g : OutputGadget) :
    Option (Sink × BitVec 32) :=
  (formatStringLoop mem args format g).map fun g =>
    (g.appendTerminationWithGadget.sink, BitVec.ofNat 32 g.pos)

def kvsnprintf (mem : Pointees) (args : VaList) (s : Option (ℕ → UInt8)) (n : ℕ)
    (format : List UInt8) : Option (Sink × BitVec 32) :=
  vsnprintfImpl mem args format (bufferGadget s n)

/-- `kvprintf` and `kvfctprintf`: the characters go to a function. -/
def kvfctprintf (mem : Pointees) (args : VaList) (format : List UInt8) :
    Option (Sink × BitVec 32) :=
  vsnprintfImpl mem args format functionGadget

/-! ### The text without a gadget -/

mutual

/-- The name of a type as `%T` prints it. -/
def typeText : RuntimeType → List UInt8
  | .mk isGenericParameter name declaringType typeNamespace genericArguments =>
    if isGenericParameter then nameText name
    else declaringTypeText declaringType ++
      (match typeNamespace with | none => [] | some s => asciiText s ++ [ch '.']) ++
      nameText name ++ genericArgumentsText genericArguments

def declaringTypeText : Option RuntimeType → List UInt8
  | none => []
  | some type => typeText type ++ [ch '+']

def genericArgumentsText : Option (List RuntimeType) → List UInt8
  | none => []
  | some types => [ch '<'] ++ elementsText true types ++ [ch '>']

def elementsText (first : Bool) : List RuntimeType → List UInt8
  | [] => []
  | type :: types => (if first then [] else [ch ',', ch ' ']) ++ typeText type ++
      elementsText false types

def nameText : Option (List UInt16) → List UInt8
  | none => nullText.reverse
  | some s => asciiText s

end

def stringText (s : Option (List UInt16)) (width precision : ℕ) (flags : PrintfFlags) :
    List UInt8 :=
  match s with
  | none => outRevText nullText width flags
  | some s => padded (paddedLength s.length precision flags) width flags
      (asciiText (taken precision flags s))

def cstringText (s : Option (List UInt8)) (width precision : ℕ) (flags : PrintfFlags) :
    List UInt8 :=
  match s with
  | none => outRevText nullText width flags
  | some s => padded (paddedLength s.length precision flags) width flags (taken precision flags s)

def specifierText (mem : Pointees) (args : VaList) (d : Directive) (c : UInt8) : List UInt8 :=
  let w := args d.arg
  if c ∈ integerSpecifiers then
    let flags := integerFlags c d.flags
    let (value, negative) := integerValue flags w
    printIntegerText value negative (integerBase c) d.precision d.width flags
  else if c = ch 'c' then padded 1 d.width d.flags [UInt8.ofBitVec (w.setWidth 8)]
  else if c = ch 'U' then stringText (mem.string w) d.width d.precision d.flags
  else if c = ch 's' then cstringText (mem.cstring w) d.width d.precision d.flags
  else if c = ch 'p' then
    let flags := { d.flags with zeropad := true, pointer := true }
    printIntegerText w.toNat false baseHex d.precision 18 flags
  else if c = ch '%' then [ch '%']
  else if c = ch 'T' then
    match mem.type w with
    | none => outRevText nullText d.width d.flags
    | some type => typeText type
  else [c]

/-- What a format stands for from some argument on; `none` where it is read past its end. -/
def formatText (mem : Pointees) (args : VaList) : ℕ → List UInt8 → ℕ → Option (List UInt8)
  | 0, _, _ => some []
  | _, [], _ => some []
  | fuel + 1, c :: format, arg =>
    if c ≠ ch '%' then (formatText mem args fuel format arg).map (c :: ·)
    else
      match readDirective args (c :: format) arg with
      | none => some []
      | some d =>
        match d.format with
        | [] => none
        | c :: format => (formatText mem args fuel format (d.arg + specifierArgs c)).map
            (specifierText mem args d c ++ ·)

theorem prints_printString (s : Option (List UInt16)) (width precision : ℕ) (flags : PrintfFlags) :
    Prints (printString · s width precision flags) (stringText s width precision flags) := by
  cases s with
  | none => exact prints_outRev _ _ _
  | some s => exact prints_of_eq fun _ _ => rfl

theorem prints_printCString (s : Option (List UInt8)) (width precision : ℕ) (flags : PrintfFlags) :
    Prints (printCString · s width precision flags) (cstringText s width precision flags) := by
  cases s with
  | none => exact prints_outRev _ _ _
  | some s => exact prints_of_eq fun _ _ => rfl

/-! ### Types -/

/-- The terminator of a nested call is covered. -/
theorem prints_terminated {f : OutputGadget → OutputGadget} {text : List UInt8}
    (hf : Prints f text) : PrintsSome (fun g => some (f g).appendTerminationWithGadget) text := by
  have h := (hf.comp prints_appendTermination).toSome
  rwa [List.append_nil] at h

theorem nameText_eq (name : Option (List UInt16)) : stringText name 0 0 {} = nameText name := by
  cases name with
  | none => rfl
  | some s => simp [stringText, padded, taken, nameText]

theorem snprintfImpl_name (name : Option (List UInt16)) :
    PrintsSome (snprintfImpl · [ch '%', ch 'U'] name) (nameText name) := by
  have hcall : (snprintfImpl · [ch '%', ch 'U'] name) =
      fun g => some (printString g name 0 0 {}).appendTerminationWithGadget := rfl
  rw [hcall, ← nameText_eq]
  exact prints_terminated (prints_printString name 0 0 {})

theorem snprintfImpl_namespace (s : List UInt16) :
    PrintsSome (snprintfImpl · [ch '%', ch 'U', ch '.'] (some s)) (asciiText s ++ [ch '.']) := by
  have hcall : (snprintfImpl · [ch '%', ch 'U', ch '.'] (some s)) = fun g =>
      some ((printString g (some s) 0 0 {}).putcharViaGadget (ch '.')).appendTerminationWithGadget :=
    rfl
  have hname : asciiText s = stringText (some s) 0 0 {} := (nameText_eq (some s)).symm
  rw [hcall, hname]
  exact prints_terminated ((prints_printString (some s) 0 0 {}).comp (prints_putchar (ch '.')))

theorem snprintfImpl_char {c : UInt8} (hc : c ≠ ch '%') :
    PrintsSome (snprintfImpl · [c] none) [c] := by
  have hcall : (snprintfImpl · [c] none) =
      fun g => some (g.putcharViaGadget c).appendTerminationWithGadget := by
    funext g
    simp [snprintfImpl, formatStringLoopWith, hc]
  rw [hcall]
  exact prints_terminated (prints_putchar c)

theorem snprintfImpl_comma :
    PrintsSome (snprintfImpl · [ch ',', ch ' '] none) [ch ',', ch ' '] := by
  have hcall : (snprintfImpl · [ch ',', ch ' '] none) = fun g =>
      some ((g.putcharViaGadget (ch ',')).putcharViaGadget (ch ' ')).appendTerminationWithGadget :=
    rfl
  rw [hcall]
  exact prints_terminated ((prints_putchar (ch ',')).comp (prints_putchar (ch ' ')))

theorem prints_none : PrintsSome some [] := prints_id.toSome

mutual

theorem prints_outputType : ∀ type : RuntimeType,
    PrintsSome (outputTypeViaGadget · type) (typeText type)
  | .mk true name _ _ _ => by
    simpa only [outputTypeViaGadget, typeText, if_true] using snprintfImpl_name name
  | .mk false name declaringType typeNamespace genericArguments => by
    have hnamespace : PrintsSome (fun g => match typeNamespace with
        | none => some g
        | some s => snprintfImpl g [ch '%', ch 'U', ch '.'] (some s))
        (match typeNamespace with | none => [] | some s => asciiText s ++ [ch '.']) := by
      cases typeNamespace with
      | none => exact prints_none
      | some s => exact snprintfImpl_namespace s
    have hall := (prints_outputDeclaringType declaringType).bind
      (hnamespace.bind ((snprintfImpl_name name).bind
        (prints_outputGenericArguments genericArguments)))
    simp only [outputTypeViaGadget, typeText, Bool.false_eq_true, if_false]
    simpa only [List.append_assoc] using hall

theorem prints_outputDeclaringType : ∀ type : Option RuntimeType,
    PrintsSome (outputDeclaringType · type) (declaringTypeText type)
  | none => prints_none
  | some type => by
    simp only [outputDeclaringType, declaringTypeText]
    exact (prints_outputType type).bind (snprintfImpl_char (by decide))

theorem prints_outputGenericArguments : ∀ types : Option (List RuntimeType),
    PrintsSome (outputGenericArguments · types) (genericArgumentsText types)
  | none => prints_none
  | some types => by
    have hall := (snprintfImpl_char (c := ch '<') (by decide)).bind
      ((prints_outputElements true types).bind (snprintfImpl_char (c := ch '>') (by decide)))
    simp only [outputGenericArguments, genericArgumentsText]
    simpa only [List.append_assoc] using hall

theorem prints_outputElements : ∀ (first : Bool) (types : List RuntimeType),
    PrintsSome (outputElements · first types) (elementsText first types)
  | _, [] => prints_none
  | first, type :: types => by
    have hcomma : PrintsSome (fun g => if first then some g
        else snprintfImpl g [ch ',', ch ' '] none) (if first then [] else [ch ',', ch ' ']) := by
      cases first with
      | true => exact prints_none
      | false => exact snprintfImpl_comma
    have hall := hcomma.bind ((prints_outputType type).bind (prints_outputElements false types))
    simp only [outputElements, elementsText]
    simpa only [List.append_assoc] using hall

end

/-! ### The loop prints its text -/

variable {mem : Pointees} {args : VaList}

theorem prints_printSpecifier (d : Directive) (c : UInt8) :
    PrintsSome (printSpecifier outputTypeViaGadget mem args d c) (specifierText mem args d c) := by
  have hputs : ∀ text : List UInt8, PrintsSome (fun g => some (g.puts text)) text :=
    fun text => (prints_of_eq fun _ _ => rfl).toSome
  unfold printSpecifier specifierText
  simp only
  split_ifs
  case pos => exact (prints_printInteger _ _ _ _ _ _).toSome
  case pos => exact hputs _
  case pos => exact (prints_printString _ _ _ _).toSome
  case pos => exact (prints_printCString _ _ _ _).toSome
  case pos => exact (prints_printInteger _ _ _ _ _ _).toSome
  case pos => exact (prints_putchar _).toSome
  case pos =>
    cases mem.type (args d.arg) with
    | none => exact (prints_outRev _ _ _).toSome
    | some type => exact prints_outputType type
  case neg => exact (prints_putchar c).toSome

/-- One more routine in front of the rest of the loop. -/
theorem prints_before {f : OutputGadget → Option OutputGadget} {text : List UInt8}
    {rest : Option (List UInt8)} {loop : OutputGadget → Option OutputGadget}
    (hf : PrintsSome f text)
    (hloop : match rest with | none => ∀ g, loop g = none | some text => PrintsSome loop text) :
    match rest.map (text ++ ·) with
    | none => ∀ g, (f g).bind loop = none
    | some text => PrintsSome (fun g => (f g).bind loop) text := by
  cases rest with
  | none =>
    intro g
    cases f g with
    | none => rfl
    | some k => exact hloop k
  | some text' => exact hf.bind hloop

/-- Whatever the gadget, the loop reads past the end for the same formats, and prints the
text of the others. -/
theorem formatStringLoopWith_prints (fuel : ℕ) (format : List UInt8) (arg : ℕ) :
    match formatText mem args fuel format arg with
    | none => ∀ g, formatStringLoopWith outputTypeViaGadget mem args fuel format arg g = none
    | some text =>
      PrintsSome (formatStringLoopWith outputTypeViaGadget mem args fuel format arg) text := by
  induction fuel generalizing format arg with
  | zero => exact prints_none
  | succ fuel ih =>
    cases format with
    | nil => exact prints_none
    | cons c format =>
      by_cases hc : c ≠ ch '%'
      · have hloop : formatStringLoopWith outputTypeViaGadget mem args (fuel + 1) (c :: format) arg =
            fun g => (some (g.putcharViaGadget c)).bind
              (formatStringLoopWith outputTypeViaGadget mem args fuel format arg) := by
          funext g
          rw [formatStringLoopWith, if_pos hc, Option.bind_some]
        rw [hloop, formatText, if_pos hc]
        exact prints_before (prints_putchar c).toSome (ih format arg)
      · rw [formatText, if_neg hc]
        cases hread : readDirective args (c :: format) arg with
        | none =>
          have hloop : formatStringLoopWith outputTypeViaGadget mem args (fuel + 1) (c :: format)
              arg = some := by
            funext g
            rw [formatStringLoopWith, if_neg hc, hread]
          rw [hloop]
          exact prints_none
        | some d =>
          cases hformat : d.format with
          | nil =>
            simp only [hformat]
            intro g
            rw [formatStringLoopWith, if_neg hc, hread]
            simp only [hformat]
          | cons c' format' =>
            have hloop : formatStringLoopWith outputTypeViaGadget mem args (fuel + 1) (c :: format)
                arg = fun g => (printSpecifier outputTypeViaGadget mem args d c' g).bind
                  (formatStringLoopWith outputTypeViaGadget mem args fuel format'
                    (d.arg + specifierArgs c')) := by
              funext g
              rw [formatStringLoopWith, if_neg hc, hread]
              simp only [hformat]
            rw [hloop]
            simp only [hformat]
            exact prints_before (prints_printSpecifier d c') (ih format' _)

/-- The bytes of a buffer of `n` bytes after a text: its beginning and a terminator. -/
def truncated (text : List UInt8) (n : ℕ) (bytes : ℕ → UInt8) : ℕ → UInt8 := fun i =>
  let size := min n printfMaxPossibleBufferSize
  if size = 0 then bytes i
  else if i < min text.length (size - 1) then text.getD i 0
  else if i = min text.length (size - 1) then 0
  else bytes i

theorem vsnprintfImpl_eq {format text : List UInt8}
    (h : formatText mem args format.length format 0 = some text) (hlt : text.length < 2 ^ 32)
    {g : OutputGadget} (hpos : g.pos = 0) : vsnprintfImpl mem args format g =
      some ((g.puts text).terminateSink, BitVec.ofNat 32 text.length) := by
  have hloop := @formatStringLoopWith_prints mem args format.length format 0
  rw [h] at hloop
  obtain ⟨k, hk, hprints⟩ := hloop g
  have hsame := hprints g (Same.refl g) (by omega)
  rw [vsnprintfImpl, formatStringLoop, hk, Option.map_some, hsame.pos, puts_pos (by omega), hpos,
    Nat.zero_add]
  exact congrArg (fun sink => some (sink, _)) hsame.sink

theorem terminated_buffer {text : List UInt8} (hlt : text.length < 2 ^ 31) (bytes : ℕ → UInt8)
    (n : ℕ) : ((bufferGadget (some bytes) n).puts text).terminateSink =
      .buffer (truncated text n bytes) := by
  have hmax : (bufferGadget (some bytes) n).maxChars = min n printfMaxPossibleBufferSize := by
    rw [bufferGadget]
    simp only
    split <;> omega
  obtain ⟨bytes', hsink, hbytes⟩ :=
    @puts_buffer (bufferGadget (some bytes) n) bytes text rfl (by rw [show (bufferGadget (some bytes) n).pos = 0 from rfl]; omega)
  have hpos : ((bufferGadget (some bytes) n).puts text).pos = text.length := by
    rw [puts_pos] <;> rw [show (bufferGadget (some bytes) n).pos = 0 from rfl] <;> omega
  have hzero : (bufferGadget (some bytes) n).pos = 0 := rfl
  simp only [terminateSink, hsink, nullCharPos, puts_maxChars, hmax, hpos]
  by_cases hsize : min n printfMaxPossibleBufferSize = 0
  · rw [if_pos hsize]
    congr 1
    funext i
    rw [hbytes, hmax, if_neg (by omega), truncated, if_pos hsize]
  · rw [if_neg hsize]
    have hnull : (if text.length < min n printfMaxPossibleBufferSize then text.length
        else min n printfMaxPossibleBufferSize - 1) =
        min text.length (min n printfMaxPossibleBufferSize - 1) := by
      split <;> omega
    rw [hnull]
    congr 1
    funext i
    rw [truncated, if_neg hsize]
    by_cases hi : i = min text.length (min n printfMaxPossibleBufferSize - 1)
    · rw [if_neg (by omega), if_pos hi, hi, Function.update_self]
    · rw [Function.update_of_ne hi, if_neg hi, hbytes, hmax, hzero, Nat.sub_zero]
      by_cases hin : i < min text.length (min n printfMaxPossibleBufferSize - 1)
      · rw [if_pos hin, if_pos ⟨Nat.zero_le _, by omega⟩, List.getD_eq_getElem _ _ (by omega),
          List.getD_eq_getElem _ _ (by omega)]
      · rw [if_neg hin]
        split
        · exact List.getD_eq_default _ _ (by omega)
        · rfl

theorem terminated_function {text : List UInt8} (hlt : text.length < 2 ^ 31) :
    (functionGadget.puts text).terminateSink =
      .function (text.take printfMaxPossibleBufferSize) := by
  have hsink := @puts_function functionGadget [] text rfl
    (by rw [show functionGadget.pos = 0 from rfl]; omega)
  rw [terminateSink, hsink]
  rfl

/-- A buffer of any size gets the beginning of the text a function would get, and the
length of the whole text is returned. -/
theorem kvsnprintf_truncates (mem : Pointees) (args : VaList) (format : List UInt8) :
    match formatText mem args format.length format 0 with
    | none => kvfctprintf mem args format = none ∧ ∀ s n, kvsnprintf mem args s n format = none
    | some text => text.length < 2 ^ 31 →
      kvfctprintf mem args format =
        some (.function (text.take printfMaxPossibleBufferSize), BitVec.ofNat 32 text.length) ∧
      (∀ n, kvsnprintf mem args none n format = some (.null, BitVec.ofNat 32 text.length)) ∧
      ∀ bytes n, kvsnprintf mem args (some bytes) n format =
        some (.buffer (truncated text n bytes), BitVec.ofNat 32 text.length) := by
  cases htext : formatText mem args format.length format 0 with
  | none =>
    have hloop := @formatStringLoopWith_prints mem args format.length format 0
    rw [htext] at hloop
    have hall : ∀ g, vsnprintfImpl mem args format g = none := by
      intro g
      rw [vsnprintfImpl, formatStringLoop, hloop g, Option.map_none]
    exact ⟨hall _, fun _ _ => hall _⟩
  | some text =>
    intro hlt
    refine ⟨?_, fun n => ?_, fun bytes n => ?_⟩
    · rw [kvfctprintf, vsnprintfImpl_eq htext (by omega) rfl, terminated_function hlt]
    · have hsink := puts_null (g := bufferGadget none n) rfl text
      rw [kvsnprintf, vsnprintfImpl_eq htext (by omega) rfl, terminateSink, hsink]
    · rw [kvsnprintf, vsnprintfImpl_eq htext (by omega) rfl, terminated_buffer hlt]

def noPointees : Pointees := ⟨fun _ => none, fun _ => none, fun _ => none, fun _ _ h => by cases h⟩

/-- Two bytes get one of the three characters. -/
theorem kvsnprintf_two : kvsnprintf noPointees (fun _ => 0) (some fun _ => 0xff) 2
    ("abc".toList.map ch) =
      some (.buffer (truncated ("abc".toList.map ch) 2 fun _ => 0xff), 3) := by
  have h := kvsnprintf_truncates noPointees (fun _ => 0) ("abc".toList.map ch)
  have htext : formatText noPointees (fun _ => 0) ("abc".toList.map ch).length
      ("abc".toList.map ch) 0 = some ("abc".toList.map ch) := by decide
  rw [htext] at h
  exact (h (by decide)).2.2 _ 2

end TomatOS.Lib.Printf
