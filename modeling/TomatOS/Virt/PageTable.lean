import TomatOS.Foundation.PageTree
import TomatOS.MemoryLayout

/-! The page tables of `kernel/mem/virt.c`. Memory is seen as tables of entries,
one for each physical frame. The answers of `phys_alloc` are taken from outside: it
returns no page, or the frame of one that is neither a table nor a page handed out
before. Calls that would need more answers than are given are not finished. The
functions run under the page table lock and are taken as one step each. -/

namespace TomatOS.Virt

open Foundation

def size16TB : ℕ := 0x100000000000
/-- The width of the frame field. -/
def frameSize : ℕ := 2 ^ 40

/-- `page_entry_t`, with the bits that the kernel sets. -/
structure Entry where
  present : Bool
  writeable : Bool
  noExecute : Bool
  frame : ℕ
  deriving DecidableEq, Repr

def Entry.zero : Entry := ⟨false, false, false, 0⟩

/-- The table or page a present entry leads to. -/
def Entry.link (e : Entry) : Option ℕ := if e.present then some e.frame else none

def pml4Index (va : ℕ) : ℕ := (va >>> 39) % 512
def pml3Index (va : ℕ) : ℕ := (va >>> 30) % 512
def pml2Index (va : ℕ) : ℕ := (va >>> 21) % 512
def pml1Index (va : ℕ) : ℕ := (va >>> 12) % 512

structure MapFlags where
  permW : Bool
  permX : Bool
  deriving DecidableEq, Repr

inductive Err where
  | outOfMemory
  | checkFailed
  deriving DecidableEq, Repr

inductive Fault where
  | assertion
  /-- `phys_alloc` has not answered yet. -/
  | unanswered
  deriving DecidableEq, Repr

abbrev Result := Except Fault

/-- The tables with the frames in use: as tables, and handed out by the allocator
otherwise. -/
structure PageTables where
  mem : ℕ → ℕ → Entry
  cr3 : ℕ
  tables : List ℕ
  pages : List ℕ
  answers : List (Option ℕ)

namespace PageTables

/-- `phys_alloc(PAGE_SIZE)`. -/
def physAlloc (s : PageTables) : Result (Option ℕ × PageTables) :=
  match s.answers with
  | [] => .error .unanswered
  | none :: answers => .ok (none, { s with answers := answers })
  | some frame :: answers =>
    if frame < frameSize ∧ frame ∉ s.tables ∧ frame ∉ s.pages then
      .ok (some frame, { s with answers := answers, pages := frame :: s.pages })
    else .ok (none, { s with answers := answers })

def physFree (s : PageTables) (frame : ℕ) : PageTables := { s with pages := s.pages.erase frame }

/-- Turn a page into a cleared table and link it. -/
def linkTable (s : PageTables) (page table index : ℕ) (e : Entry) : PageTables := { s with
  mem := PageTree.linkNew s.mem .zero page table index e
  tables := page :: s.tables
  pages := s.pages.erase page }

def setEntry (s : PageTables) (table index : ℕ) (e : Entry) : PageTables :=
  { s with mem := PageTree.write s.mem table index e }

def getNextLevel (s : PageTables) (table index : ℕ) : Result (Option ℕ × PageTables) :=
  let entry := s.mem table index
  if entry.present then .ok (some entry.frame, s)
  else do
    let (phys, s) ← s.physAlloc
    match phys with
    | none => return (none, s)
    | some page =>
      let e := { entry with present := true, writeable := true, frame := page % frameSize }
      return (some e.frame, s.linkTable page table index e)

/-- The three levels above the leaf, as every function goes through them. -/
def getPml1 (s : PageTables) (virt : ℕ) : Result (Option ℕ × PageTables) := do
  let (pml3, s) ← s.getNextLevel s.cr3 (pml4Index virt)
  match pml3 with
  | none => return (none, s)
  | some pml3 =>
    let (pml2, s) ← s.getNextLevel pml3 (pml3Index virt)
    match pml2 with
    | none => return (none, s)
    | some pml2 => s.getNextLevel pml2 (pml2Index virt)

def leafEntry (phys : ℕ) (flags : MapFlags) : Entry where
  present := true
  writeable := flags.permW
  noExecute := !flags.permX
  frame := (phys >>> 12) % frameSize

def virtMapPage (s : PageTables) (phys virt : ℕ) (flags : MapFlags) :
    Result (Option Err × PageTables) := do
  let (pml1, s) ← s.getPml1 virt
  match pml1 with
  | none => return (some .outOfMemory, s)
  | some pml1 => return (none, s.setEntry pml1 (pml1Index virt) (leafEntry phys flags))

/-- The page `i` of a range. -/
def pageAt (base i : ℕ) : ℕ := (base + i * pageSize) % wordSize

/-- The loop of `virt_map_range` from page `i` on. -/
def mapPages (phys virt : ℕ) (flags : MapFlags) :
    ℕ → ℕ → PageTables → Result (Option Err × PageTables)
  | 0, _, s => .ok (none, s)
  | n + 1, i, s => do
    let (err, s) ← s.virtMapPage (pageAt phys i) (pageAt virt i) flags
    match err with
    | some err => return (some err, s)
    | none => mapPages phys virt flags n (i + 1) s

def virtMapRange (s : PageTables) (phys virt pageCount : ℕ) (flags : MapFlags) :
    Result (Option Err × PageTables) := mapPages phys virt flags pageCount 0 s

/-- The loop of `virt_alloc_range` from page `i` on; an error comes with the page
at which it was met. -/
def allocPages (virt : ℕ) : ℕ → ℕ → PageTables → Result (Option (Err × ℕ) × PageTables)
  | 0, _, s => .ok (none, s)
  | n + 1, i, s => do
    let vaddr := pageAt virt i
    let (phys, s) ← s.physAlloc
    match phys with
    | none => return (some (.outOfMemory, i), s)
    | some page =>
      let (pml1, s) ← s.getPml1 vaddr
      match pml1 with
      | none => return (some (.outOfMemory, i), s)
      | some pml1 =>
        if (s.mem pml1 (pml1Index vaddr)).present then return (some (.checkFailed, i), s)
        else
          let e : Entry := ⟨true, true, true, page % frameSize⟩
          allocPages virt n (i + 1) (s.setEntry pml1 (pml1Index vaddr) e)

/-- One pass of the clean-up loop. It goes over the page that failed, `i`, every
time. -/
def cleanupPass (virt i : ℕ) : ℕ → PageTables → Result (Option Err × PageTables)
  | 0, s => .ok (none, s)
  | n + 1, s => do
    let vaddr := pageAt virt i
    let (pml1, s) ← s.getPml1 vaddr
    match pml1 with
    | none => return (some .outOfMemory, s)
    | some pml1 =>
      let e := s.mem pml1 (pml1Index vaddr)
      if e.present then
        cleanupPass virt i n ((s.physFree e.frame).setEntry pml1 (pml1Index vaddr) .zero)
      else .error .assertion

/-- The clean-up. A pass that runs out of memory jumps back to its own start, having
used at least one answer. -/
def cleanup (virt i : ℕ) : ℕ → PageTables → Err → Result (Err × PageTables)
  | 0, _, _ => .error .unanswered
  | passes + 1, s, err => do
    let (again, s) ← cleanupPass virt i i s
    match again with
    | none => return (err, s)
    | some err => cleanup virt i passes s err

def virtAllocRange (s : PageTables) (virt pageCount : ℕ) : Result (Option Err × PageTables) := do
  let (failed, s) ← allocPages virt pageCount 0 s
  match failed with
  | none => return (none, s)
  | some (err, i) =>
    let (err, s) ← cleanup virt i (s.answers.length + 1) s err
    return (some err, s)

/-- The loop of `virt_remap_range` from page `i` on. -/
def remapPages (virt : ℕ) (flags : MapFlags) :
    ℕ → ℕ → PageTables → Result (Option Err × PageTables)
  | 0, _, s => .ok (none, s)
  | n + 1, i, s => do
    let vaddr := pageAt virt i
    let (pml1, s) ← s.getPml1 vaddr
    match pml1 with
    | none => return (some .outOfMemory, s)
    | some pml1 =>
      let e := s.mem pml1 (pml1Index vaddr)
      if e.present then
        let e := { e with writeable := flags.permW, noExecute := !flags.permX }
        remapPages virt flags n (i + 1) (s.setEntry pml1 (pml1Index vaddr) e)
      else return (some .checkFailed, s)

def virtRemapRange (s : PageTables) (virt pageCount : ℕ) (flags : MapFlags) :
    Result (Option Err × PageTables) := remapPages virt flags pageCount 0 s

def virtIsMapped (s : PageTables) (virt : ℕ) : Result (Bool × PageTables) := do
  let (pml1, s) ← s.getPml1 virt
  match pml1 with
  | none => return (false, s)
  | some pml1 => return ((s.mem pml1 (pml1Index virt)).present, s)

end PageTables

/-! ### Initialisation -/

/-- A program header of the kernel image. -/
structure Phdr where
  load : Bool
  vaddr : ℕ
  memsz : ℕ
  flagW : Bool
  flagX : Bool
  deriving DecidableEq, Repr

structure Boot where
  virtualBase : ℕ
  physicalBase : ℕ
  phdrs : List Phdr
  /-- What physical memory holds before any table is cleared. -/
  mem : ℕ → ℕ → Entry

/-- `(x - virtual_base) + physical_base`. -/
def Boot.toPhys (b : Boot) (x : ℕ) : ℕ :=
  (x + (wordSize - b.virtualBase % wordSize) + b.physicalBase) % wordSize

namespace PageTables

/-- The loop over the program headers. -/
def mapSegments (b : Boot) : List Phdr → PageTables → Result (Option Err × PageTables)
  | [], s => .ok (none, s)
  | ph :: phdrs, s =>
    if ph.load then
      if ph.flagW && ph.flagX then .ok (some .checkFailed, s)
      else do
        let vend := (ph.vaddr + ph.memsz) % wordSize
        let paddr := b.toPhys ph.vaddr
        let pend := b.toPhys vend
        let pageNum := ((pend + (wordSize - paddr)) % wordSize + (pageSize - 1)) % wordSize /
          pageSize
        let (err, s) ← s.virtMapRange paddr ph.vaddr pageNum ⟨ph.flagW, ph.flagX⟩
        match err with
        | some err => return (some err, s)
        | none => mapSegments b phdrs s
    else mapSegments b phdrs s

/-- The addresses of the GC heap, whose shadow is not writable. -/
def inGcHeap (virt : ℕ) : Bool := 0xFFFF810000000000 ≤ virt && virt < 0xFFFF8E8000000000

/-- One round of the shadow loop: slot `i` of the first 16TB and its shadow. -/
def shadowRound (s : PageTables) (i : ℕ) : Result (Option Err × PageTables) := do
  let virt := directMapOffset + i * size512GB
  let slot := pml4Index virt
  let shadow := pml4Index (virt + size16TB)
  let copy (s : PageTables) : PageTables :=
    let e := s.mem s.cr3 slot
    s.setEntry s.cr3 shadow { e with writeable := e.writeable && !inGcHeap virt }
  let entry := s.mem s.cr3 slot
  if entry.present then return (none, copy s)
  else
    let (phys, s) ← s.physAlloc
    match phys with
    | none => return (some .outOfMemory, s)
    | some page =>
      let e : Entry := ⟨true, true, true, page % frameSize⟩
      return (none, copy (s.linkTable page s.cr3 slot e))

def shadowRounds : ℕ → ℕ → PageTables → Result (Option Err × PageTables)
  | 0, _, s => .ok (none, s)
  | n + 1, i, s => do
    let (err, s) ← s.shadowRound i
    match err with
    | some err => return (some err, s)
    | none => shadowRounds n (i + 1) s

/-- The number of top level slots of the shadowed range. -/
def shadowSlots : ℕ := size16TB / size512GB

def initVirt (b : Boot) (answers : List (Option ℕ)) : Result (Option Err × PageTables) := do
  let (root, s) ← physAlloc ⟨b.mem, 0, [], [], answers⟩
  match root with
  | none => return (some .checkFailed, s)
  | some root =>
    let s : PageTables := { s with
      mem := Function.update s.mem root fun _ => .zero
      cr3 := root
      tables := [root]
      pages := [] }
    let (err, s) ← mapSegments b b.phdrs s
    match err with
    | some err => return (some err, s)
    | none => shadowRounds shadowSlots 0 s

/-- The page entry the hardware finds for an address. -/
def walk (s : PageTables) (virt : ℕ) : Option Entry :=
  PageTree.leaf Entry.link s.mem s.cr3 [pml4Index virt, pml3Index virt, pml2Index virt]
    (pml1Index virt)

end PageTables

/-! ### Page faults -/

def threadsAddr : ℕ := 0xFFFFB00000000000
def threadsAddrEnd : ℕ := 0xFFFFB08000000000
def stacksAddrEnd : ℕ := 0xFFFF8F8000000000
def smallStacksAddr : ℕ := 0xFFFF8F8000000000
def smallStacksAddrEnd : ℕ := 0xFFFF900000000000

def alignDown (x align : ℕ) : ℕ := x - x % align

/-- What the handler does with an address. -/
inductive FaultAction where
  | allocate
  | overflow
  | direct
  | unknown
  deriving DecidableEq, Repr

def faultAction (addr : ℕ) : FaultAction :=
  if (threadsAddr ≤ addr ∧ addr < threadsAddrEnd) ∨
      (0xFFFF810000000000 ≤ addr ∧ addr < 0xFFFF8E8000000000) ∨
      (0xFFFFC00000000000 ≤ addr ∧ addr < 0xFFFFD00000000000) then .allocate
  else if stacksAddr ≤ addr ∧ addr < stacksAddrEnd then
    -- the lowest 2MB of each 8MB are the guard
    if alignDown addr 0x800000 + 0x200000 ≤ addr then .allocate else .overflow
  else if smallStacksAddr ≤ addr ∧ addr < smallStacksAddrEnd then
    if alignDown addr 0x8000 + 0x1000 ≤ addr then .allocate else .overflow
  else if directMapOffset ≤ addr ∧ addr < directMapOffset + size512GB then .direct
  else .unknown

def directToPhys (x : ℕ) : ℕ := (x + (wordSize - directMapOffset)) % wordSize

namespace PageTables

def clearPage (s : PageTables) (page : ℕ) : PageTables :=
  { s with mem := Function.update s.mem page fun _ => .zero }

/-- The handler returns whether the fault is dealt with. -/
def virtHandlePageFault (s : PageTables) (addr : ℕ) : Result (Bool × PageTables) :=
  match faultAction addr with
  | .overflow | .unknown => .ok (false, s)
  | .direct => do
    let (err, s) ← s.virtMapPage (directToPhys addr) (alignDown addr pageSize) ⟨true, false⟩
    return (err.isNone, s)
  | .allocate => do
    let (phys, s) ← s.physAlloc
    match phys with
    | none => return (false, s)
    | some page =>
      let (err, s) ← (s.clearPage page).virtMapPage (page * pageSize) (alignDown addr pageSize)
        ⟨true, false⟩
      return (err.isNone, s)

end PageTables

end TomatOS.Virt
