import TomatOS.Debug.Lookup
import TomatOS.Lib.FormatMeaning
import TomatOS.Lib.ReadBack

/-! `debug_format_symbol` of `kernel/debug/debug.c`. The line for an address has the name
of the symbol that was looked up and the offset in it, or the sixteen digits of the
address; either way the address can be read off the line again. -/

namespace TomatOS.Debug

open Lib.Printf

variable {mem : Pointees} {symbols : ℤ → Symbol} {count addr : ℕ}

/-- `%016lx`. -/
def addressPieces : List Piece := [.conv (longHexConv 16 (by decide))]

example : formatOf addressPieces = "%016lx".toList.map ch := by decide

/-- The name of a symbol and the offset of an address in it. -/
def symbolArgs (symbol : Symbol) (addr : ℕ) : VaList := fun k =>
  if k = 0 then BitVec.ofNat 64 symbol.name else BitVec.ofNat 64 (addr - symbol.address)

def debugFormatSymbol (mem : Pointees) (symbols : ℤ → Symbol) (count addr : ℕ)
    (buffer : ℕ → UInt8) (bufferSize : ℕ) : Option (Sink × BitVec 32) :=
  match (debugLookupSymbol symbols count addr).1 with
  | none => kvsnprintf mem (fun _ => BitVec.ofNat 64 addr) (some buffer) bufferSize
      (formatOf addressPieces)
  | some i => kvsnprintf mem (symbolArgs (symbols i) addr) (some buffer) bufferSize
      (formatOf symbolPieces)

/-- The names of the table are strings, and not absurdly long. -/
def Named (mem : Pointees) (symbols : ℤ → Symbol) (count : ℕ) : Prop :=
  ∀ i : ℤ, 0 ≤ i → i < count → ∃ name,
    mem.cstring (BitVec.ofNat 64 (symbols i).name) = some name ∧ name.length < 2 ^ 30

/-- A line from which the address can be read. -/
def Tells (mem : Pointees) (symbols : ℤ → Symbol) (addr : ℕ) (text : List UInt8) :
    Option ℤ → Prop
  | none => text.length = 16 ∧ readInteger 16 text = addr
  | some i => ∃ name digits, mem.cstring (BitVec.ofNat 64 (symbols i).name) = some name ∧
    text = name ++ [ch '+', ch '0', ch 'x'] ++ digits ∧ 3 ≤ digits.length ∧
    (symbols i).address + readInteger 16 digits = addr ∧ (symbols i).Holds addr

/-- A number without flags other than the one for zeros. -/
def hexConversion (value width : ℕ) : Conversion :=
  ⟨value, false, 16, none, width, { zeropad := true }⟩

theorem hexConversion_length (value : ℕ) {width : ℕ} (hwidth : 0 < width) :
    (hexConversion value width).text.length = max width (Nat.digits 16 value).length := by
  have hdigits : (hexConversion value width).digits = (hexConversion value width).number :=
    if_neg fun hall => Bool.false_ne_true hall.2.1
  have hnumber : (hexConversion value width).number.length =
      max 1 (Nat.digits 16 value).length := by
    rw [Conversion.number_length, Conversion.valueDigits, List.length_map]
    rfl
  have hbody : (hexConversion value width).body = (hexConversion value width).number := by
    rw [Conversion.body, hdigits]
    rfl
  have htext : (hexConversion value width).text =
      List.replicate (width - (hexConversion value width).number.length) (ch '0') ++
        (hexConversion value width).number := by
    rw [Conversion.text, hbody, hdigits]
    rfl
  rw [htext, List.length_append, List.length_replicate, hnumber]
  omega

theorem hexConversion_reads (value width : ℕ) :
    readInteger 16 (hexConversion value width).text = value :=
  Conversion.readInteger_text (c := hexConversion value width)
    (show 2 ≤ 16 ∧ 16 ≤ 16 by decide)

/-- A long number with a width, padded with zeros. -/
theorem conversion_eq (args : VaList) (arg width : ℕ) (hwidth : ∀ n, Width.number width = .number n →
    0 < n ∧ n < 2 ^ 32) (hprecision : ∀ n, Precision.none = .number n → n < 2 ^ 32) :
    Conv.conversion ⟨[.zero], .number width, .none, .l, .x, hwidth, hprecision⟩ args arg 16 =
      hexConversion (args arg).toNat width := by
  have hvalue : (Conv.signedValue ⟨[.zero], .number width, .none, .l, .x, hwidth, hprecision⟩ args
      arg) = (args arg).toNat := by
    simp [Conv.signedValue, Conv.valueArg, Specifier.signed, Length.bits]
  rw [Conv.conversion, hvalue]
  simp [hexConversion, Conv.precisionValue, Conv.widthValue, Conv.left, Specifier.signed]

theorem address_allOk (mem : Pointees) (args : VaList) : AllOk mem args addressPieces 0 := by
  refine ⟨?_, trivial⟩
  constructor
  case body =>
    intro base hbase
    cases hbase
    apply Conv.conversion_body_le _ args _ (by decide)
    show 1 ≤ 60
    decide
  case width => exact fun _ _ _ _ => show 16 ≤ 64 by decide
  all_goals simp [longHexConv]

theorem address_text (mem : Pointees) (args : VaList) :
    textOf mem args addressPieces 0 = (hexConversion (args 0).toNat 16).text := by
  rw [addressPieces, textOf, textOf, List.append_nil, Conv.text]
  exact congrArg Conversion.text (conversion_eq args 0 16 _ _)

theorem symbol_text {args : VaList} {name : List UInt8} (hname : mem.cstring (args 0) = some name) :
    textOf mem args symbolPieces 0 =
      name ++ [ch '+', ch '0', ch 'x'] ++ (hexConversion (args 1).toNat 3).text := by
  have hstring : stringConv.text args 0 mem = name := by
    have harg : stringConv.valueArg 0 = 0 := rfl
    rw [Conv.text]
    simp only [harg, hname]
    simp [stringConv, Conv.spaced, Conv.shown, Conv.precisionValue, Conv.widthValue]
  have hoffset : (longHexConv 3 (by decide)).text args 1 mem =
      (hexConversion (args 1).toNat 3).text :=
    congrArg Conversion.text (conversion_eq args 1 3 _ _)
  simp only [symbolPieces, textOf, hstring]
  rw [← hoffset]
  simp [stringConv, Conv.argsTaken, Conv.valueArg]

theorem lookup_hit {i : ℤ} (h : (debugLookupSymbol symbols count addr).1 = some i) :
    0 ≤ i ∧ i ≤ count ∧ (symbols i).Holds addr := by
  rw [debugLookupSymbol] at h
  split at h
  · cases h
  · obtain ⟨hmem, hhit⟩ := lookupLoop_some h
    obtain ⟨hle, hcount⟩ := lookupLoop_inside symbols addr 0 count i hmem
    exact ⟨hle, hcount, ((lookupHit_iff _ _).mp hhit).1⟩

/-- The line tells the address, whatever table there is, unless the lookup finds the entry
behind it; a buffer that is too small gets the beginning of the line. -/
theorem debugFormatSymbol_tells (mem : Pointees) (symbols : ℤ → Symbol) (count addr : ℕ)
    (buffer : ℕ → UInt8) (bufferSize : ℕ) (haddr : addr < 2 ^ 64) (hnames : Named mem symbols count)
    (hend : (debugLookupSymbol symbols count addr).1 ≠ some (count : ℤ)) :
    ∃ text, debugFormatSymbol mem symbols count addr buffer bufferSize =
      some (.buffer (truncated text bufferSize buffer), BitVec.ofNat 32 text.length) ∧
      Tells mem symbols addr text (debugLookupSymbol symbols count addr).1 := by
  have hdigits : ∀ value < 2 ^ 64, (Nat.digits 16 value).length ≤ 16 := fun value hvalue =>
    (Nat.digits_length_le_iff (by decide) value).mpr hvalue
  cases hlookup : (debugLookupSymbol symbols count addr).1 with
  | none =>
    have htext := address_text mem fun _ => BitVec.ofNat 64 addr
    have hlen := hexConversion_length addr (show 0 < 16 by decide)
    have hmax := hdigits addr haddr
    rw [BitVec.toNat_ofNat, Nat.mod_eq_of_lt haddr] at htext
    refine ⟨_, ?_, hlen.trans (by omega), hexConversion_reads addr 16⟩
    rw [← htext, debugFormatSymbol, hlookup]
    exact kvsnprintf_formatOf (address_allOk mem _) (by rw [htext]; omega) _ _
  | some i =>
    obtain ⟨hpos, hcount, hhit⟩ := lookup_hit hlookup
    have hinside : i < count := by
      apply lt_of_le_of_ne hcount
      rintro rfl
      exact hend hlookup
    obtain ⟨name, hname, hshort⟩ := hnames i hpos hinside
    have htext := @symbol_text mem (symbolArgs (symbols i) addr) name hname
    have hoffset : (symbolArgs (symbols i) addr 1).toNat = addr - (symbols i).address := by
      rw [symbolArgs, if_neg (by decide), BitVec.toNat_ofNat, Nat.mod_eq_of_lt (by omega)]
    rw [hoffset] at htext
    have hlen := hexConversion_length (addr - (symbols i).address) (show 0 < 3 by decide)
    have hmax := hdigits (addr - (symbols i).address) (by omega)
    refine ⟨_, ?_, name, _, hname, rfl, hlen.symm ▸ le_max_left _ _, ?_, hhit⟩
    · rw [← htext, debugFormatSymbol, hlookup]
      apply kvsnprintf_formatOf (symbol_allOk fun s hs => ?_)
      · rw [htext]
        simp only [List.length_append, List.length_cons, List.length_nil]
        omega
      · obtain rfl := Option.some.inj (hname.symm.trans hs)
        rw [printfMaxPossibleBufferSize]
        omega
    · rw [hexConversion_reads]
      have := hhit.1
      omega

/-- Two symbols, and what lies behind them in memory. -/
def twoNames (i : ℤ) : Symbol :=
  if i = 0 then ⟨0x1000, 0x100, 0x5000, by decide, by decide, by decide⟩
  else if i = 1 then ⟨0x2000, 0x100, 0x5000, by decide, by decide, by decide⟩
  else ⟨0, 0, 0, by decide, by decide, by decide⟩

/-- An address in the first symbol, which the search comes to after the second. -/
theorem debugFormatSymbol_main : ∃ text,
    debugFormatSymbol mainName twoNames 2 0x102a (fun _ => 0xff) 256 =
      some (.buffer (truncated text 256 fun _ => 0xff), BitVec.ofNat 32 text.length) ∧
    Tells mainName twoNames 0x102a text (some 0) := by
  have hlookup : (debugLookupSymbol twoNames 2 0x102a).1 = some 0 := by
    simp [debugLookupSymbol, lookupLoop, lookupHit, twoNames]
  obtain ⟨text, hrun, htells⟩ := debugFormatSymbol_tells mainName twoNames 2 0x102a
    (fun _ => 0xff) 256 (by decide) (fun _ _ _ => ⟨_, rfl, by decide⟩) (by rw [hlookup]; decide)
  rw [hlookup] at htells
  exact ⟨text, hrun, htells⟩

end TomatOS.Debug
