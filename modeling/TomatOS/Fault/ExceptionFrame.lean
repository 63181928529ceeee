import TomatOS.Thread.ContextSwitch

/-! The way of an exception through the table of `init_idt`, the stubs of
`kernel/arch/intr.c` and `common_exception_stub` of `kernel/arch/intr.S`. The stub of the
vector brings the stack to one layout, with or without an error code of the processor,
`common_exception_stub` completes it to an `exception_frame_t`, and when
`common_exception_handler` returns, the interrupted code goes on as it was. -/

namespace TomatOS.Fault

open Foundation.StackMachine
open Thread (Reg)

/-! ### The descriptor table -/

/-- `idt_entry_t` without the fields that are always zero. -/
structure IdtEntry where
  handlerLow : BitVec 16
  selector : BitVec 16
  ist : BitVec 3
  gateType : BitVec 4
  ring : BitVec 2
  present : BitVec 1
  handlerHigh : BitVec 48
  deriving DecidableEq

def IdtEntry.zero : IdtEntry := ⟨0, 0, 0, 0, 0, 0, 0⟩

/-- The bits of an entry in memory. -/
def IdtEntry.packed (e : IdtEntry) : BitVec (32 + 48 + 1 + 2 + 1 + 4 + 5 + 3 + 16 + 16) :=
  (0 : BitVec 32) ++ e.handlerHigh ++ e.present ++ e.ring ++ (0 : BitVec 1) ++ e.gateType ++
    (0 : BitVec 5) ++ e.ist ++ e.selector ++ e.handlerLow

def idtTypeInterrupt32 : BitVec 4 := 0xE
def idtTypeTrap32 : BitVec 4 := 0xF

abbrev IdtEntries := ℕ → IdtEntry

def setIdtEntry (entries : IdtEntries) (vector : ℕ) (func : Word) (ist : ℕ) (cli : Bool) :
    IdtEntries :=
  Function.update entries vector
    { handlerLow := func.setWidth 16
      handlerHigh := (func >>> 16).setWidth 48
      gateType := if cli then idtTypeInterrupt32 else idtTypeTrap32
      selector := 8
      present := 1
      ring := 0
      ist := BitVec.ofNat 3 ist }

/-- Where the linker has put the code; the stubs are at different addresses. -/
structure Image where
  exceptionHandler : ℕ → Word
  timerInterruptHandler : Word
  commonExceptionHandler : Word
  afterCall : Word
  apart : ∀ i < 32, ∀ j < 32, exceptionHandler i = exceptionHandler j → i = j

/-- The stack table entry of each exception. -/
def exceptionIst (vector : ℕ) : ℕ :=
  match vector with
  | 0x02 => 2
  | 0x03 => 5
  | 0x08 => 3
  | 0x0E => 1
  | _ => 0

def initIdt (image : Image) : IdtEntries :=
  let entries := (List.range 32).foldl (fun entries vector =>
    setIdtEntry entries vector (image.exceptionHandler vector) (exceptionIst vector) true)
    fun _ => .zero
  setIdtEntry entries 0x20 image.timerInterruptHandler 0 true

/-- What the processor reads in a descriptor. -/
structure Gate where
  offset : Word
  selector : BitVec 16
  ist : BitVec 3
  gateType : BitVec 4
  present : Bool
  deriving DecidableEq

def gateOf {w : ℕ} (d : BitVec w) : Gate where
  offset := d.extractLsb' 64 32 ++ d.extractLsb' 48 16 ++ d.extractLsb' 0 16
  selector := d.extractLsb' 16 16
  ist := d.extractLsb' 32 3
  gateType := d.extractLsb' 40 4
  present := d.extractLsb' 47 1 == 1

theorem offset_eq (func : Word) : (func >>> 16).setWidth 48 ++ func.setWidth 16 = func := by
  ext i hi
  simp only [BitVec.getElem_append, BitVec.getElem_setWidth, BitVec.getLsbD_ushiftRight]
  split
  · exact BitVec.getLsbD_eq_getElem hi
  · rw [show 16 + (i - 16) = i by omega]
    exact BitVec.getLsbD_eq_getElem hi

theorem extract_handlerHigh (x : BitVec 48) : x.extractLsb' 16 32 ++ x.extractLsb' 0 16 = x := by
  ext i hi
  simp only [BitVec.getElem_append, BitVec.getElem_extractLsb', Nat.zero_add]
  split
  · exact BitVec.getLsbD_eq_getElem hi
  · rw [show 16 + (i - 16) = i by omega]
    exact BitVec.getLsbD_eq_getElem hi

theorem IdtEntry.gateOf_packed (e : IdtEntry) : gateOf e.packed =
    { offset := e.handlerHigh ++ e.handlerLow
      selector := e.selector
      ist := e.ist
      gateType := e.gateType
      present := e.present == 1 } := by
  simp (disch := decide) only [gateOf, IdtEntry.packed, BitVec.extractLsb'_append_eq_of_le,
    BitVec.extractLsb'_append_eq_of_add_le, -Nat.reduceAdd]
  simp [extract_handlerHigh]

theorem gateOf_setIdtEntry (entries : IdtEntries) (vector : ℕ) (func : Word) (ist : ℕ)
    (cli : Bool) : gateOf (setIdtEntry entries vector func ist cli vector).packed =
      { offset := func
        selector := 8
        ist := BitVec.ofNat 3 ist
        gateType := if cli then idtTypeInterrupt32 else idtTypeTrap32
        present := true } := by
  rw [setIdtEntry, Function.update_self, IdtEntry.gateOf_packed]
  simp only [offset_eq]
  rfl

/-- Every exception has the gate of its own stub, with interrupts off. -/
theorem initIdt_gate (image : Image) {vector : ℕ} (h : vector < 32) :
    gateOf (initIdt image vector).packed =
      { offset := image.exceptionHandler vector
        selector := 8
        ist := BitVec.ofNat 3 (exceptionIst vector)
        gateType := idtTypeInterrupt32
        present := true } := by
  have hset : ∀ n, vector < n → n ≤ 32 → (List.range n).foldl (fun entries v =>
      setIdtEntry entries v (image.exceptionHandler v) (exceptionIst v) true)
      (fun _ => .zero) vector = setIdtEntry (fun _ => .zero) vector
        (image.exceptionHandler vector) (exceptionIst vector) true vector := by
    intro n hn hle
    induction n with
    | zero => cases hn
    | succ n ih =>
      rw [List.range_succ, List.foldl_append, List.foldl_cons, List.foldl_nil]
      by_cases heq : vector = n
      · subst heq
        simp [setIdtEntry]
      · rw [← ih (by omega) (by omega)]
        simp only [setIdtEntry]
        rw [Function.update_of_ne heq]
  have htimer : initIdt image vector = setIdtEntry (fun _ => .zero) vector
      (image.exceptionHandler vector) (exceptionIst vector) true vector := by
    rw [← hset 32 h le_rfl, initIdt, setIdtEntry, Function.update_of_ne (by omega)]
  rw [htimer, gateOf_setIdtEntry]
  rfl

/-! ### The processor and the stubs -/

/-- The registers an exception saves; `rip` and `rflags` are those the processor saves. -/
@[ext] structure Core where
  regs : Reg → Word
  rip : Word
  rflags : Word
  cs : Word
  ss : Word
  memory : Memory

namespace Core

variable (core : Core)

def push (words : List Word) : Core :=
  { core with
    regs := Function.update core.regs .rsp (core.regs .rsp - BitVec.ofNat 64 (8 * words.length))
    memory := pushWords core.memory (core.regs .rsp) words }

/-- Code that only moves words between registers and the stack. -/
def run (code : List (Instr Reg)) : Core :=
  let m := Machine.run .rsp
    { regs := core.regs, rip := core.rip, interrupts := false, memory := core.memory } code
  { core with regs := m.regs, memory := m.memory }

/-- The flags TF, NT and RF go off, and at an interrupt gate IF too. -/
def clearFlags (rflags : Word) (gateType : BitVec 4) : Word :=
  let rflags := rflags &&& ~~~(1#64 <<< 8 ||| 1#64 <<< 14 ||| 1#64 <<< 16)
  if gateType = idtTypeInterrupt32 then rflags &&& ~~~(1#64 <<< 9) else rflags

/-- The vectors at which the processor pushes an error code. -/
def pushesErrorCode : List ℕ := [8, 10, 11, 12, 13, 14, 17, 21, 29, 30]

/-- What the processor does through a gate; `ists` is the stack table of the TSS. -/
def deliver (ists : BitVec 3 → Word) (gate : Gate) (errorCode : List Word) : Core :=
  let stack := (if gate.ist = 0 then core.regs .rsp else ists gate.ist) &&& ~~~15#64
  let pushed := { core with regs := Function.update core.regs .rsp stack }.push
    ([core.ss, core.regs .rsp, core.rflags, core.cs, core.rip] ++ errorCode)
  { pushed with
    rip := gate.offset
    cs := gate.selector.setWidth 64
    rflags := clearFlags core.rflags gate.gateType }

def iretq : Core :=
  let stack := core.regs .rsp
  { core with
    rip := loadWord core.memory stack
    cs := loadWord core.memory (stack + 8)
    rflags := loadWord core.memory (stack + 16)
    regs := Function.update core.regs .rsp (loadWord core.memory (stack + 24))
    ss := loadWord core.memory (stack + 32) }

/-- The vectors of `EXCEPTION_ERROR_STUB`. -/
def exceptionErrorStubs : List ℕ := [0x08, 0x0A, 0x0B, 0x0C, 0x0D, 0x0E, 0x11, 0x15, 0x1D, 0x1E]

/-- The pushes of `EXCEPTION_STUB` and `EXCEPTION_ERROR_STUB`. -/
def exceptionStub (num : ℕ) : List Word :=
  if num ∈ exceptionErrorStubs then [BitVec.ofNat 64 num] else [0, BitVec.ofNat 64 num]

/-- The fields of `exception_frame_t` that `common_exception_stub` pushes, in their order;
`int_num`, `error_code` and what the processor pushes come after them. -/
def exceptionFrame : List Reg :=
  [.r15, .r14, .r13, .r12, .r11, .r10, .r9, .r8, .rbp, .rdi, .rsi, .rdx, .rcx, .rbx, .rax]

def commonExceptionSave : List (Instr Reg) :=
  [.push .rax, .push .rbx, .push .rcx, .push .rdx, .push .rsi, .push .rdi, .push .rbp,
    .push .r8, .push .r9, .push .r10, .push .r11, .push .r12, .push .r13, .push .r14, .push .r15,
    .mov .rsp .rdi]

def commonExceptionRestore : List (Instr Reg) :=
  [.pop .r15, .pop .r14, .pop .r13, .pop .r12, .pop .r11, .pop .r10, .pop .r9, .pop .r8,
    .pop .rbp, .pop .rdi, .pop .rsi, .pop .rdx, .pop .rcx, .pop .rbx, .pop .rax]

/-- `common_exception_stub` up to the first instruction of the handler; `cld` comes first. -/
def commonExceptionStub (image : Image) : Core :=
  let core := { core with rflags := core.rflags &&& ~~~(1#64 <<< 10) }
  let core := core.run commonExceptionSave
  { core.push [image.afterCall] with rip := image.commonExceptionHandler }

/-- The rest of `common_exception_stub`; `addq $16, %rsp` drops the number and the code. -/
def commonExceptionReturn : Core :=
  let core := core.run commonExceptionRestore
  iretq { core with regs := Function.update core.regs .rsp (core.regs .rsp + 16) }

/-- An exception up to the call of `common_exception_handler`. -/
def enter (image : Image) (ists : BitVec 3 → Word) (vector : ℕ) (errorCode : Word) :
    Option Core :=
  let gate := gateOf (initIdt image vector).packed
  let core := core.deliver ists gate (if vector ∈ pushesErrorCode then [errorCode] else [])
  -- the code at the address in the gate
  ((List.range 32).find? fun num => gate.present && image.exceptionHandler num = core.rip).map
    fun num => (core.push (exceptionStub num)).commonExceptionStub image

/-- The stub goes on where its `call` returns to. -/
def exception (image : Image) (ists : BitVec 3 → Word) (handler : Core → Core) (vector : ℕ)
    (errorCode : Word) : Option Core :=
  (core.enter image ists vector errorCode).bind fun entered =>
    if (handler entered).rip = image.afterCall then some (handler entered).commonExceptionReturn
    else none

/-! ### The frame -/

/-- Where the frame ends. -/
def stackTop (ists : BitVec 3 → Word) (vector : ℕ) : Word :=
  (if BitVec.ofNat 3 (exceptionIst vector) = 0 then core.regs .rsp
    else ists (BitVec.ofNat 3 (exceptionIst vector))) &&& ~~~15#64

/-- The `error_code` of the frame. -/
def frameCode (vector : ℕ) (errorCode : Word) : Word :=
  if vector ∈ pushesErrorCode then errorCode else 0

/-- An `exception_frame_t` of the interrupted code. -/
structure FrameAt (memory : Memory) (frame : Word) (vector : ℕ) (errorCode : Word) : Prop where
  regs : ∀ r ∈ exceptionFrame,
    loadWord memory (frame + BitVec.ofNat 64 (8 * exceptionFrame.idxOf r)) = core.regs r
  intNum : loadWord memory (frame + 120) = BitVec.ofNat 64 vector
  errorCode : loadWord memory (frame + 128) = frameCode vector errorCode
  rip : loadWord memory (frame + 136) = core.rip
  cs : loadWord memory (frame + 144) = core.cs
  rflags : loadWord memory (frame + 152) = core.rflags
  rsp : loadWord memory (frame + 160) = core.regs .rsp
  ss : loadWord memory (frame + 168) = core.ss

/-- `common_exception_handler` is called with a frame; 184 bytes of the stack are written. -/
structure Entered (image : Image) (ists : BitVec 3 → Word) (vector : ℕ) (errorCode : Word)
    (entered : Core) : Prop where
  rip : entered.rip = image.commonExceptionHandler
  frame : core.FrameAt entered.memory (entered.regs .rdi) vector errorCode
  rdi : entered.regs .rdi = core.stackTop ists vector - 176
  rsp : entered.regs .rsp = entered.regs .rdi - 8
  returns : loadWord entered.memory (entered.regs .rsp) = image.afterCall
  aligned : (entered.regs .rsp).toNat % 16 = 8
  interruptsOff : entered.rflags.getLsbD 9 = false
  forward : entered.rflags.getLsbD 10 = false
  outside : ∀ x, 184 ≤ (core.stackTop ists vector - 1 - x).toNat → entered.memory x = core.memory x

/-- What a handler does that returns: the frame of its caller stays as it is. -/
structure Returns (handler : Core → Core) (entered : Core) : Prop where
  rip : (handler entered).rip = loadWord entered.memory (entered.regs .rsp)
  rsp : (handler entered).regs .rsp = entered.regs .rsp + 8
  frame : ∀ i < 176, (handler entered).memory (entered.regs .rdi + BitVec.ofNat 64 i) =
    entered.memory (entered.regs .rdi + BitVec.ofNat 64 i)

/-- The words of the frame from the last to the first, the order they are pushed in. -/
def frameWords (vector : ℕ) (errorCode : Word) : List Word :=
  [core.ss, core.regs .rsp, core.rflags, core.cs, core.rip, frameCode vector errorCode,
    BitVec.ofNat 64 vector] ++ exceptionFrame.reverse.map core.regs

theorem frameWords_length (vector : ℕ) (errorCode : Word) :
    (core.frameWords vector errorCode).length = 22 := rfl

/-- The stubs push a code of zero exactly where the processor pushes none. -/
theorem stub_words (vector : ℕ) (errorCode : Word) :
    (if vector ∈ pushesErrorCode then [errorCode] else []) ++ exceptionStub vector =
      [frameCode vector errorCode, BitVec.ofNat 64 vector] := by
  have hstubs : exceptionErrorStubs = pushesErrorCode := rfl
  rw [exceptionStub, frameCode, hstubs]
  split <;> rfl

theorem push_push (words words' : List Word) :
    (core.push words).push words' = core.push (words ++ words') := by
  have hsub : ∀ a : Word, a - BitVec.ofNat 64 (8 * words.length) -
      BitVec.ofNat 64 (8 * words'.length) = a - BitVec.ofNat 64 (8 * (words ++ words').length) := by
    intro a
    rw [List.length_append]
    bv_omega
  simp only [push, Function.update_self, Function.update_idem, pushWords_append, hsub]

theorem run_commonExceptionSave : core.run commonExceptionSave =
    { core.push (exceptionFrame.reverse.map core.regs) with
      regs := Function.update (Function.update core.regs .rsp (core.regs .rsp - 120)) .rdi
        (core.regs .rsp - 120) } := by
  have hcode : commonExceptionSave = exceptionFrame.reverse.map .push ++ [.mov .rsp .rdi] := rfl
  rw [run, hcode, Machine.run_append, Machine.run_push _ (by decide)]
  rfl

theorem commonExceptionStub_eq (image : Image) : core.commonExceptionStub image =
    { core.push (exceptionFrame.reverse.map core.regs ++ [image.afterCall]) with
      regs := Function.update (Function.update core.regs .rsp (core.regs .rsp - 128)) .rdi
        (core.regs .rsp - 120)
      rip := image.commonExceptionHandler
      rflags := core.rflags &&& ~~~(1#64 <<< 10) } := by
  have hsub : core.regs .rsp - 120 - BitVec.ofNat 64 (8 * 1) = core.regs .rsp - 128 := by bv_omega
  rw [commonExceptionStub, run_commonExceptionSave]
  simp only [push, pushWords_append, List.length_cons, List.length_nil]
  congr 1
  rw [Function.update_of_ne (by decide), Function.update_self, hsub,
    Function.update_comm (by decide), Function.update_idem]

/-- The gate of the vector leads to the stub of the vector. -/
theorem find_stub (image : Image) {vector : ℕ} (h : vector < 32) :
    ((List.range 32).find? fun num => true && image.exceptionHandler num =
      image.exceptionHandler vector) = some vector := by
  rw [List.find?_range_eq_some]
  refine ⟨by simp, List.mem_range.mpr h, fun num hnum => ?_⟩
  have hne : image.exceptionHandler num ≠ image.exceptionHandler vector := by
    intro heq
    exact absurd (image.apart num (by omega) vector h heq) (by omega)
  simpa using hne

/-- The processor's pushes and those of the stub. -/
theorem deliver_push (ists : BitVec 3 → Word) (image : Image) {vector : ℕ} (h : vector < 32)
    (errorCode : Word) :
    (core.deliver ists (gateOf (initIdt image vector).packed)
      (if vector ∈ pushesErrorCode then [errorCode] else [])).push (exceptionStub vector) =
    { Core.push { core with regs := Function.update core.regs .rsp (core.stackTop ists vector) }
        [core.ss, core.regs .rsp, core.rflags, core.cs, core.rip, frameCode vector errorCode,
          BitVec.ofNat 64 vector] with
      rip := image.exceptionHandler vector
      cs := 8
      rflags := clearFlags core.rflags idtTypeInterrupt32 } := by
  have hwords : [core.ss, core.regs .rsp, core.rflags, core.cs, core.rip,
      frameCode vector errorCode, BitVec.ofNat 64 vector] =
      ([core.ss, core.regs .rsp, core.rflags, core.cs, core.rip] ++
        (if vector ∈ pushesErrorCode then [errorCode] else [])) ++ exceptionStub vector := by
    rw [List.append_assoc, stub_words]
    rfl
  rw [hwords, ← push_push, initIdt_gate image h]
  rfl

theorem enter_eq (image : Image) (ists : BitVec 3 → Word) {vector : ℕ} (h : vector < 32)
    (errorCode : Word) : core.enter image ists vector errorCode = some
      { regs := Function.update (Function.update core.regs .rsp (core.stackTop ists vector - 184))
          .rdi (core.stackTop ists vector - 176)
        rip := image.commonExceptionHandler
        rflags := clearFlags core.rflags idtTypeInterrupt32 &&& ~~~(1#64 <<< 10)
        cs := 8
        ss := core.ss
        memory := pushWords core.memory (core.stackTop ists vector)
          (core.frameWords vector errorCode ++ [image.afterCall]) } := by
  have hgate := initIdt_gate image h
  have hrip : (core.deliver ists (gateOf (initIdt image vector).packed)
      (if vector ∈ pushesErrorCode then [errorCode] else [])).rip =
      image.exceptionHandler vector := by
    rw [hgate]
    rfl
  have hpresent : (gateOf (initIdt image vector).packed).present = true := by rw [hgate]
  have hregs : (core.stackTop ists vector) - BitVec.ofNat 64 (8 * 7) - 128 =
      core.stackTop ists vector - 184 := by bv_omega
  have hrdi : (core.stackTop ists vector) - BitVec.ofNat 64 (8 * 7) - 120 =
      core.stackTop ists vector - 176 := by bv_omega
  simp only [enter]
  rw [hrip, hpresent, find_stub image h, Option.map_some, deliver_push core ists image h,
    commonExceptionStub_eq]
  rw [frameWords, List.append_assoc, pushWords_append]
  simp only [push, Function.update_self, Function.update_idem, List.length_cons, List.length_nil,
    Nat.reduceAdd, hregs, hrdi]
  rfl

variable {core : Core} {vector : ℕ} {errorCode : Word}

/-- The words of the frame, from its beginning. -/
theorem loadWord_frameWords {memory : Memory} {top ret v : Word} {k : ℕ}
    (h : (core.frameWords vector errorCode).reverse[k]? = some v) :
    loadWord (pushWords memory top (core.frameWords vector errorCode ++ [ret]))
      (top - 176 + BitVec.ofNat 64 (8 * k)) = v := by
  have hlen := core.frameWords_length vector errorCode
  obtain ⟨hk, hv⟩ := List.getElem?_eq_some_iff.mp h
  rw [List.length_reverse, hlen] at hk
  have hslot : top - 176 + BitVec.ofNat 64 (8 * k) = top - BitVec.ofNat 64 (8 * (21 - k + 1)) := by
    bv_omega
  have hall : (core.frameWords vector errorCode ++ [ret]).length = 23 := by
    rw [List.length_append, hlen]
    rfl
  rw [hslot, loadWord_pushWords (by omega) (by omega), ← hv, List.getElem_reverse,
    List.getElem_append_left (by omega)]
  congr 1

theorem frameAt_pushWords (memory : Memory) (top ret : Word) :
    core.FrameAt (pushWords memory top (core.frameWords vector errorCode ++ [ret])) (top - 176)
      vector errorCode := by
  constructor
  case regs =>
    intro r hr
    apply loadWord_frameWords
    cases r
    case rsp => exact absurd hr (by decide)
    all_goals rfl
  case intNum => exact loadWord_frameWords (k := 15) rfl
  case errorCode => exact loadWord_frameWords (k := 16) rfl
  case rip => exact loadWord_frameWords (k := 17) rfl
  case cs => exact loadWord_frameWords (k := 18) rfl
  case rflags => exact loadWord_frameWords (k := 19) rfl
  case rsp => exact loadWord_frameWords (k := 20) rfl
  case ss => exact loadWord_frameWords (k := 21) rfl

theorem FrameAt.congr {memory memory' : Memory} {frame : Word}
    (h : core.FrameAt memory frame vector errorCode)
    (hsame : ∀ i < 176, memory' (frame + BitVec.ofNat 64 i) = memory (frame + BitVec.ofNat 64 i)) :
    core.FrameAt memory' frame vector errorCode := by
  have hword : ∀ k ≤ 168, loadWord memory' (frame + BitVec.ofNat 64 k) =
      loadWord memory (frame + BitVec.ofNat 64 k) := by
    intro k hk
    apply loadWord_congr
    intro i hi
    rw [BitVec.add_assoc, ← BitVec.ofNat_add]
    exact hsame (k + i) (by omega)
  constructor
  case regs =>
    intro r hr
    have hk : exceptionFrame.idxOf r < 15 := List.idxOf_lt_length_iff.mpr hr
    rw [hword _ (by omega), h.regs r hr]
  case intNum => exact (hword 120 (by decide)).trans h.intNum
  case errorCode => exact (hword 128 (by decide)).trans h.errorCode
  case rip => exact (hword 136 (by decide)).trans h.rip
  case cs => exact (hword 144 (by decide)).trans h.cs
  case rflags => exact (hword 152 (by decide)).trans h.rflags
  case rsp => exact (hword 160 (by decide)).trans h.rsp
  case ss => exact (hword 168 (by decide)).trans h.ss

theorem run_commonExceptionRestore {c : Core}
    (h : core.FrameAt c.memory (c.regs .rsp) vector errorCode) :
    (c.run commonExceptionRestore).memory = c.memory ∧
    (c.run commonExceptionRestore).regs .rsp = c.regs .rsp + 120 ∧
    ∀ r, r ≠ .rsp → (c.run commonExceptionRestore).regs r = core.regs r := by
  have hcode : commonExceptionRestore = exceptionFrame.map .pop := rfl
  obtain ⟨hmem, -, hsp, -, hread⟩ := Machine.run_pop
    { regs := c.regs, rip := c.rip, interrupts := false, memory := c.memory }
    (show Reg.rsp ∉ exceptionFrame by decide) (by decide)
  rw [run, hcode]
  refine ⟨hmem, hsp, fun r hr => ?_⟩
  have hmem' : r ∈ exceptionFrame := by
    cases r
    case rsp => exact absurd rfl hr
    all_goals decide
  have hr' := hread (exceptionFrame.idxOf r) (List.idxOf_lt_length_iff.mpr hmem')
  rw [List.getElem_idxOf] at hr'
  rw [← h.regs r hmem']
  exact hr'

/-- The rest of the stub brings the interrupted code back from its frame. -/
theorem commonExceptionReturn_eq {c : Core}
    (h : core.FrameAt c.memory (c.regs .rsp) vector errorCode) :
    c.commonExceptionReturn = { core with memory := c.memory } := by
  obtain ⟨hmem, hsp, hregs⟩ := run_commonExceptionRestore h
  have hslot : ∀ a : Word, c.regs .rsp + 120 + 16 + a = c.regs .rsp + (136 + a) := by
    intro a
    bv_omega
  have hfirst : c.regs .rsp + 120 + 16 = c.regs .rsp + 136 := by bv_omega
  rw [commonExceptionReturn, iretq]
  simp only [Function.update_self, Function.update_idem, hmem, hsp, hslot]
  ext1
  case regs =>
    funext r
    by_cases hr : r = .rsp
    · subst hr
      simpa using h.rsp
    · simp only [Function.update_of_ne hr, hregs r hr]
  case rip => simpa only [hfirst] using h.rip
  case cs => exact h.cs
  case rflags => exact h.rflags
  case ss => exact h.ss
  case memory => rfl

theorem stackTop_aligned (ists : BitVec 3 → Word) : (core.stackTop ists vector).toNat % 16 = 0 := by
  have hlow : core.stackTop ists vector &&& 15#64 = 0 := by
    rw [stackTop, BitVec.and_assoc, show ~~~15#64 &&& 15#64 = 0#64 by decide, BitVec.and_zero]
    rfl
  have hnat := congrArg BitVec.toNat hlow
  rw [BitVec.toNat_and] at hnat
  exact (Nat.and_two_pow_sub_one_eq_mod _ 4).symm.trans hnat

theorem entered_of_enter {image : Image} {ists : BitVec 3 → Word} (h : vector < 32)
    {entered : Core} (henter : core.enter image ists vector errorCode = some entered) :
    core.Entered image ists vector errorCode entered := by
  have haligned : (core.stackTop ists vector).toNat % 16 = 0 := core.stackTop_aligned ists
  have hbelow : core.stackTop ists vector - 176 - 8 = core.stackTop ists vector - 184 := by bv_omega
  have hlen : (core.frameWords vector errorCode ++ [image.afterCall]).length = 23 := rfl
  rw [enter_eq core image ists h, Option.some.injEq] at henter
  subst henter
  constructor
  case rip => rfl
  case frame => exact frameAt_pushWords _ _ _
  case rdi => rfl
  case rsp => exact hbelow.symm
  case returns =>
    exact loadWord_pushWords (k := 22) (by rw [hlen]; decide) (by rw [hlen]; decide)
  case aligned =>
    have hmod : (core.stackTop ists vector - 184).toNat % 16 = 8 := by bv_omega
    exact hmod
  case interruptsOff => simp [clearFlags]
  case forward => simp
  case outside =>
    intro x hx
    exact pushWords_outside (by rw [hlen]; exact hx)

/-- When `common_exception_handler` returns, the interrupted code goes on, and only what
the handler and the frame have written is different. -/
theorem exception_resumes (core : Core) (image : Image) (ists : BitVec 3 → Word)
    (handler : Core → Core) {vector : ℕ} (errorCode : Word) (h : vector < 32)
    (hreturns : ∀ entered, core.enter image ists vector errorCode = some entered →
      Returns handler entered) :
    ∃ entered, core.enter image ists vector errorCode = some entered ∧
      core.Entered image ists vector errorCode entered ∧
      core.exception image ists handler vector errorCode =
        some { core with memory := (handler entered).memory } := by
  obtain ⟨entered, henter⟩ : ∃ entered, core.enter image ists vector errorCode = some entered :=
    ⟨_, enter_eq core image ists h errorCode⟩
  have hentered := entered_of_enter h henter
  obtain ⟨hrip, hrsp, hframe⟩ := hreturns entered henter
  have hback : (handler entered).regs .rsp = entered.regs .rdi := by
    rw [hrsp, hentered.rsp, BitVec.sub_add_cancel]
  have hkept : core.FrameAt (handler entered).memory ((handler entered).regs .rsp) vector
      errorCode := by
    rw [hback]
    exact hentered.frame.congr hframe
  refine ⟨entered, henter, hentered, ?_⟩
  rw [exception, henter, Option.bind_some, hrip, hentered.returns, if_pos rfl,
    commonExceptionReturn_eq hkept]

/-- A handler that writes one byte and all registers, for the witness. -/
def mapPage (core : Core) : Core :=
  { core with
    regs := fun r => if r = .rsp then core.regs .rsp + 8 else 0
    rip := loadWord core.memory (core.regs .rsp)
    memory := Function.update core.memory 0x9000 7 }

def stubs : Image where
  exceptionHandler vector := BitVec.ofNat 64 (16 * vector)
  timerInterruptHandler := 0x400
  commonExceptionHandler := 0x500
  afterCall := 0x620
  apart i hi j hj heq := by
    have := congrArg BitVec.toNat heq
    simp only [BitVec.toNat_ofNat] at this
    omega

def faulting : Core := ⟨fun _ => 0x7ff8, 0x1234, 0x202, 8, 16, fun _ => 0⟩

/-- A page fault with stack 1 of the TSS and a code of 2. -/
theorem pageFault_resumes : ∃ entered,
    faulting.exception stubs (fun _ => 0x4ff0) mapPage 14 2 =
      some { faulting with memory := (mapPage entered).memory } := by
  have htop : faulting.stackTop (fun _ => 0x4ff0) 14 = 0x4ff0 := by decide
  obtain ⟨entered, -, -, h⟩ := exception_resumes faulting stubs (fun _ => 0x4ff0) mapPage 2
    (show 14 < 32 by decide) fun entered henter => by
      have hrdi := (entered_of_enter (by decide) henter).rdi
      rw [htop] at hrdi
      refine ⟨rfl, rfl, fun i hi => ?_⟩
      rw [hrdi]
      exact Function.update_of_ne (by bv_omega) _ _
  exact ⟨entered, h⟩

end Core

end TomatOS.Fault
