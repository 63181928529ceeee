import Mathlib.Algebra.Order.Ring.Nat
import Mathlib.Data.List.Basic
import Mathlib.Logic.Function.Basic

/-! The output gadget of `kernel/lib/printf.c`. Characters go to a function or to a buffer
of bounded size, and the position counts those too that find no place. A routine prints a
text if it leaves every gadget as the characters of the text would, one after another, up
to the byte at which the string is to be terminated: the nested calls that print a type
write their terminators there, and the next character or the last terminator covers them. -/

namespace TomatOS.Lib.Printf

/-- `PRINTF_MAX_POSSIBLE_BUFFER_SIZE`. -/
def printfMaxPossibleBufferSize : ℕ := 2 ^ 31 - 1

/-- Where the characters go: nowhere, to a function that has got some already, or to the
bytes from an address on. -/
inductive Sink where
  | null
  | function (written : List UInt8)
  | buffer (bytes : ℕ → UInt8)

def Sink.write : Sink → ℕ → UInt8 → Sink
  | .null, _, _ => .null
  | .function written, _, c => .function (written ++ [c])
  | .buffer bytes, i, c => .buffer (Function.update bytes i c)

theorem Sink.write_eq_null {s : Sink} {i : ℕ} {c : UInt8} : s.write i c = .null ↔ s = .null := by
  cases s <;> simp [write]

/-- `output_gadget_t` with the condition its comment asks for. -/
structure OutputGadget where
  sink : Sink
  pos : ℕ
  maxChars : ℕ
  hasSink : sink = .null → maxChars = 0

namespace OutputGadget

def putcharViaGadget (g : OutputGadget) (c : UInt8) : OutputGadget where
  sink := if g.pos < g.maxChars then g.sink.write g.pos c else g.sink
  pos := (g.pos + 1) % 2 ^ 32
  maxChars := g.maxChars
  hasSink := by
    split
    · exact fun h => g.hasSink (Sink.write_eq_null.mp h)
    · exact g.hasSink

def nullCharPos (g : OutputGadget) : ℕ := if g.pos < g.maxChars then g.pos else g.maxChars - 1

def terminateSink (g : OutputGadget) : Sink :=
  match g.sink with
  | .buffer bytes =>
    if g.maxChars = 0 then .buffer bytes else .buffer (Function.update bytes g.nullCharPos 0)
  | sink => sink

def appendTerminationWithGadget (g : OutputGadget) : OutputGadget where
  sink := g.terminateSink
  pos := g.pos
  maxChars := g.maxChars
  hasSink := by
    rw [terminateSink]
    split
    · split <;> exact nofun
    · exact g.hasSink

def discardingGadget : OutputGadget := ⟨.null, 0, 0, fun _ => rfl⟩

/-- The buffer is `none` for a null pointer. -/
def bufferGadget (buffer : Option (ℕ → UInt8)) (bufferSize : ℕ) : OutputGadget :=
  let usableBufferSize :=
    if bufferSize > printfMaxPossibleBufferSize then printfMaxPossibleBufferSize else bufferSize
  match buffer with
  | none => discardingGadget
  | some bytes => ⟨.buffer bytes, 0, usableBufferSize, nofun⟩

def functionGadget : OutputGadget := ⟨.function [], 0, printfMaxPossibleBufferSize, nofun⟩

theorem putchar_sink (g : OutputGadget) (c : UInt8) : (g.putcharViaGadget c).sink =
    if g.pos < g.maxChars then g.sink.write g.pos c else g.sink := rfl

theorem putchar_pos {g : OutputGadget} (c : UInt8) (h : g.pos + 1 < 2 ^ 32) :
    (g.putcharViaGadget c).pos = g.pos + 1 := Nat.mod_eq_of_lt h

@[simp] theorem putchar_maxChars (g : OutputGadget) (c : UInt8) :
    (g.putcharViaGadget c).maxChars = g.maxChars := rfl

/-! ### Printing a text -/

def puts (g : OutputGadget) (text : List UInt8) : OutputGadget := text.foldl putcharViaGadget g

@[simp] theorem puts_nil (g : OutputGadget) : g.puts [] = g := rfl

@[simp] theorem puts_cons (g : OutputGadget) (c : UInt8) (text : List UInt8) :
    g.puts (c :: text) = (g.putcharViaGadget c).puts text := rfl

theorem puts_append (g : OutputGadget) (text text' : List UInt8) :
    g.puts (text ++ text') = (g.puts text).puts text' := List.foldl_append

@[simp] theorem puts_maxChars (g : OutputGadget) (text : List UInt8) :
    (g.puts text).maxChars = g.maxChars := by
  induction text generalizing g with
  | nil => rfl
  | cons c text ih => exact ih _

theorem puts_pos {g : OutputGadget} {text : List UInt8} (h : g.pos + text.length < 2 ^ 32) :
    (g.puts text).pos = g.pos + text.length := by
  induction text generalizing g with
  | nil => rfl
  | cons c text ih =>
    rw [List.length_cons] at h
    have hpos := putchar_pos (g := g) c (by omega)
    rw [puts_cons, ih (by omega), hpos, List.length_cons]
    omega

theorem puts_null {g : OutputGadget} (hsink : g.sink = .null) (text : List UInt8) :
    (g.puts text).sink = .null := by
  induction text generalizing g with
  | nil => exact hsink
  | cons c text ih =>
    apply ih
    rw [putchar_sink, hsink]
    split <;> rfl

/-- The characters that find a place in a buffer. -/
theorem puts_buffer {g : OutputGadget} {bytes : ℕ → UInt8} {text : List UInt8}
    (hsink : g.sink = .buffer bytes) (h : g.pos + text.length < 2 ^ 32) :
    ∃ bytes', (g.puts text).sink = .buffer bytes' ∧ ∀ i, bytes' i =
      if g.pos ≤ i ∧ i < g.maxChars then text.getD (i - g.pos) (bytes i) else bytes i := by
  induction text generalizing g bytes with
  | nil => exact ⟨bytes, hsink, by simp⟩
  | cons c text ih =>
    rw [List.length_cons] at h
    have hpos := putchar_pos (g := g) c (by omega)
    by_cases hlt : g.pos < g.maxChars
    · have hput : (g.putcharViaGadget c).sink = .buffer (Function.update bytes g.pos c) := by
        rw [putchar_sink, if_pos hlt, hsink]
        rfl
      obtain ⟨bytes', hsink', hbytes⟩ := ih hput (by omega)
      refine ⟨bytes', hsink', fun i => ?_⟩
      rw [hbytes, hpos, putchar_maxChars]
      by_cases hi : i = g.pos
      · subst hi
        rw [if_neg (by omega), if_pos ⟨Nat.le_refl _, hlt⟩, Nat.sub_self, List.getD_cons_zero,
          Function.update_self]
      · rw [Function.update_of_ne hi]
        by_cases hle : g.pos ≤ i
        · have hsucc : i - g.pos = i - (g.pos + 1) + 1 := by omega
          rw [hsucc, List.getD_cons_succ]
          exact if_congr (by omega) rfl rfl
        · rw [if_neg (by omega), if_neg (by omega)]
    · have hput : (g.putcharViaGadget c).sink = .buffer bytes := by
        rw [putchar_sink, if_neg hlt, hsink]
      obtain ⟨bytes', hsink', hbytes⟩ := ih hput (by omega)
      refine ⟨bytes', hsink', fun i => ?_⟩
      rw [hbytes, hpos, putchar_maxChars, if_neg (by omega), if_neg (by omega)]

/-- The characters a function gets. -/
theorem puts_function {g : OutputGadget} {written text : List UInt8}
    (hsink : g.sink = .function written) (h : g.pos + text.length < 2 ^ 32) :
    (g.puts text).sink = .function (written ++ text.take (g.maxChars - g.pos)) := by
  induction text generalizing g written with
  | nil => simpa using hsink
  | cons c text ih =>
    rw [List.length_cons] at h
    have hpos := putchar_pos (g := g) c (by omega)
    by_cases hlt : g.pos < g.maxChars
    · have hput : (g.putcharViaGadget c).sink = .function (written ++ [c]) := by
        rw [putchar_sink, if_pos hlt, hsink]
        rfl
      have hsucc : g.maxChars - g.pos = g.maxChars - (g.pos + 1) + 1 := by omega
      rw [puts_cons, ih hput (by omega), hpos, putchar_maxChars, hsucc, List.take_succ_cons,
        List.append_assoc, List.singleton_append]
    · have hput : (g.putcharViaGadget c).sink = .function written := by
        rw [putchar_sink, if_neg hlt, hsink]
      have hnone : g.maxChars - g.pos = 0 := by omega
      have hnone' : g.maxChars - (g.pos + 1) = 0 := by omega
      rw [puts_cons, ih hput (by omega), hpos, putchar_maxChars, hnone, hnone', List.take_zero, List.take_zero]

/-! ### Gadgets that are the same up to the terminator -/

structure Same (g h : OutputGadget) : Prop where
  pos : g.pos = h.pos
  maxChars : g.maxChars = h.maxChars
  sink : g.terminateSink = h.terminateSink

theorem Same.refl (g : OutputGadget) : Same g g := ⟨rfl, rfl, rfl⟩

theorem Same.trans {g h k : OutputGadget} (hgh : Same g h) (hhk : Same h k) : Same g k :=
  ⟨hgh.pos.trans hhk.pos, hgh.maxChars.trans hhk.maxChars, hgh.sink.trans hhk.sink⟩

theorem same_appendTermination (g : OutputGadget) : Same g.appendTerminationWithGadget g := by
  refine ⟨rfl, rfl, ?_⟩
  rw [terminateSink, appendTerminationWithGadget]
  simp only
  cases hsink : g.sink with
  | null => simp [terminateSink, hsink]
  | function written => simp [terminateSink, hsink]
  | buffer bytes =>
    by_cases hmax : g.maxChars = 0
    · simp [terminateSink, hsink, hmax]
    · simp [terminateSink, hsink, hmax, nullCharPos]

/-- Same gadgets differ in one byte of a buffer at most. -/
theorem Same.bytes {g h : OutputGadget} (hgh : Same g h) : g.sink = h.sink ∨
    ∃ bytes bytes', g.sink = .buffer bytes ∧ h.sink = .buffer bytes' ∧ g.maxChars ≠ 0 ∧
      ∀ i, i ≠ g.nullCharPos → bytes i = bytes' i := by
  obtain ⟨hpos, hmax, hsink⟩ := hgh
  have hnull : h.nullCharPos = g.nullCharPos := by rw [nullCharPos, nullCharPos, hpos, hmax]
  cases hg : g.sink <;> cases hh : h.sink <;> simp only [terminateSink, hg, hh] at hsink
  case null.null => exact .inl rfl
  case function.function => exact .inl hsink
  case buffer.buffer bytes bytes' =>
    rw [← hmax, hnull] at hsink
    by_cases hzero : g.maxChars = 0
    · rw [if_pos hzero, if_pos hzero] at hsink
      exact .inl hsink
    · rw [if_neg hzero, if_neg hzero, Sink.buffer.injEq] at hsink
      refine .inr ⟨bytes, bytes', rfl, rfl, hzero, fun i hi => ?_⟩
      have := congrFun hsink i
      rwa [Function.update_of_ne hi, Function.update_of_ne hi] at this
  case null.function => cases hsink
  case function.null => cases hsink
  all_goals split at hsink <;> cases hsink

theorem same_of_sink {g h : OutputGadget} (hpos : g.pos = h.pos) (hmax : g.maxChars = h.maxChars)
    (hsink : g.sink = h.sink) : Same g h :=
  ⟨hpos, hmax, by rw [terminateSink, terminateSink, hsink, hmax, nullCharPos, nullCharPos, hpos, hmax]⟩

theorem same_of_bytes {g h : OutputGadget} (hpos : g.pos = h.pos) (hmax : g.maxChars = h.maxChars)
    {bytes bytes' : ℕ → UInt8} (hg : g.sink = .buffer bytes) (hh : h.sink = .buffer bytes')
    (hzero : g.maxChars ≠ 0) (hbytes : ∀ i, i ≠ g.nullCharPos → bytes i = bytes' i) : Same g h := by
  have hnull : h.nullCharPos = g.nullCharPos := by rw [nullCharPos, nullCharPos, hpos, hmax]
  refine ⟨hpos, hmax, ?_⟩
  simp only [terminateSink, hg, hh]
  rw [← hmax, if_neg hzero, if_neg hzero, hnull]
  congr 1
  funext i
  by_cases hi : i = g.nullCharPos
  · rw [hi, Function.update_self, Function.update_self]
  · rw [Function.update_of_ne hi, Function.update_of_ne hi, hbytes i hi]

/-- The next character covers a terminator. -/
theorem Same.putchar {g h : OutputGadget} (hgh : Same g h) (c : UInt8)
    (hlt : g.pos + 1 < 2 ^ 32) : Same (g.putcharViaGadget c) (h.putcharViaGadget c) := by
  have hpos : (g.putcharViaGadget c).pos = (h.putcharViaGadget c).pos := by
    simp only [putcharViaGadget, hgh.pos]
  obtain hsink | ⟨bytes, bytes', hg, hh, hzero, hbytes⟩ := hgh.bytes
  · apply same_of_sink hpos hgh.maxChars
    rw [putchar_sink, putchar_sink, hsink, hgh.pos, hgh.maxChars]
  · by_cases hroom : g.pos < g.maxChars
    · have hnull : g.nullCharPos = g.pos := if_pos hroom
      apply same_of_sink hpos hgh.maxChars
      rw [putchar_sink, putchar_sink, if_pos hroom, if_pos (hgh.pos ▸ hgh.maxChars ▸ hroom), hg, hh,
        ← hgh.pos]
      simp only [Sink.write, Sink.buffer.injEq]
      funext i
      by_cases hi : i = g.pos
      · rw [hi, Function.update_self, Function.update_self]
      · rw [Function.update_of_ne hi, Function.update_of_ne hi, hbytes i (hnull ▸ hi)]
    · have hnull : (g.putcharViaGadget c).nullCharPos = g.nullCharPos := by
        rw [nullCharPos, nullCharPos, putchar_pos c hlt, putchar_maxChars, if_neg hroom,
          if_neg (by omega)]
      have hgput : (g.putcharViaGadget c).sink = .buffer bytes := by
        rw [putchar_sink, if_neg hroom, hg]
      have hhput : (h.putcharViaGadget c).sink = .buffer bytes' := by
        rw [putchar_sink, if_neg (by rwa [← hgh.pos, ← hgh.maxChars]), hh]
      exact same_of_bytes hpos hgh.maxChars hgput hhput hzero fun i hi => hbytes i (hnull ▸ hi)

theorem Same.puts {g h : OutputGadget} (hgh : Same g h) (text : List UInt8)
    (hlt : g.pos + text.length < 2 ^ 32) : Same (g.puts text) (h.puts text) := by
  induction text generalizing g h with
  | nil => exact hgh
  | cons c text ih =>
    rw [List.length_cons] at hlt
    apply ih (hgh.putchar c (by omega))
    rw [putchar_pos c (by omega)]
    omega

/-! ### Routines that print a text -/

/-- Over any gadget the routine is as good as the characters of the text. -/
def Prints (f : OutputGadget → OutputGadget) (text : List UInt8) : Prop :=
  ∀ g h, Same g h → g.pos + text.length < 2 ^ 32 → Same (f g) (h.puts text)

theorem prints_of_eq {f : OutputGadget → OutputGadget} {text : List UInt8}
    (h : ∀ g : OutputGadget, g.pos + text.length < 2 ^ 32 → f g = g.puts text) :
    Prints f text := by
  intro g k hgk hlt
  rw [h g hlt]
  exact hgk.puts text hlt

theorem prints_putchar (c : UInt8) : Prints (putcharViaGadget · c) [c] :=
  prints_of_eq fun _ _ => rfl

theorem prints_id : Prints id [] := fun _ _ hgh _ => hgh

theorem prints_appendTermination : Prints appendTerminationWithGadget [] :=
  fun g _ hgh _ => (same_appendTermination g).trans hgh

theorem Prints.comp {f f' : OutputGadget → OutputGadget} {text text' : List UInt8}
    (hf : Prints f text) (hf' : Prints f' text') : Prints (fun g => f' (f g)) (text ++ text') := by
  intro g h hgh hlt
  rw [List.length_append] at hlt
  have hfg := hf g h hgh (by omega)
  rw [puts_append]
  apply hf' _ _ hfg
  rw [hfg.pos, puts_pos (by rw [← hgh.pos]; omega), ← hgh.pos]
  omega

/-- The same for a routine that may read past the end of a format, but does not. -/
def PrintsSome (f : OutputGadget → Option OutputGadget) (text : List UInt8) : Prop :=
  ∀ g, ∃ k, f g = some k ∧
    ∀ h, Same g h → g.pos + text.length < 2 ^ 32 → Same k (h.puts text)

theorem Prints.toSome {f : OutputGadget → OutputGadget} {text : List UInt8} (hf : Prints f text) :
    PrintsSome (fun g => some (f g)) text :=
  fun g => ⟨f g, rfl, fun h => hf g h⟩

theorem PrintsSome.bind {f f' : OutputGadget → Option OutputGadget} {text text' : List UInt8}
    (hf : PrintsSome f text) (hf' : PrintsSome f' text') :
    PrintsSome (fun g => (f g).bind f') (text ++ text') := by
  intro g
  obtain ⟨k, hk, hsame⟩ := hf g
  obtain ⟨k', hk', hsame'⟩ := hf' k
  refine ⟨k', by simp only [hk, Option.bind_some, hk'], fun h hgh hlt => ?_⟩
  rw [List.length_append] at hlt
  have hkh := hsame h hgh (by omega)
  have hpos : k.pos = g.pos + text.length := by
    rw [hkh.pos, puts_pos (by rw [← hgh.pos]; omega), ← hgh.pos]
  rw [puts_append]
  exact hsame' _ hkh (by omega)

end OutputGadget

end TomatOS.Lib.Printf
