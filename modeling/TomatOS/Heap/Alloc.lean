import TomatOS.Foundation.LinkedMemory
import TomatOS.Foundation.Transition
import TomatOS.Heap.SizeClass
import TomatOS.MemoryLayout

/-! The kernel heap of `kernel/mem/alloc.c`: 24 regions of 512GB, one for each
power-of-two block size from 8 bytes on. A region hands out the blocks on its free
list, which is linked through the blocks themselves, and else the next one at its
watermark. The order of a block is not stored anywhere: `mem_free` and
`mem_realloc` recompute it from the address. -/

namespace TomatOS.Heap

open Foundation.LinkedMemory

def size1GB : ℕ := 0x40000000

/-- Where the heap starts. -/
def allocBase : ℕ := 0xFFFFC00000000000

def allocRegionBottom (order : ℕ) : ℕ := order * size512GB + allocBase

def allocRegionTop (order : ℕ) : ℕ := (order + 1) * size512GB + allocBase

/-- `alloc_region_t`, with 0 for the null pointer. -/
structure AllocRegion where
  freelist : ℕ
  watermark : ℕ
  top : ℕ

/-- `m_mem_global_regions` and the memory the blocks lie in. -/
structure HeapState where
  regions : Fin 24 → AllocRegion
  memory : Memory

/-- What C leaves undefined: a shift of the `int` 1 by its width or more, an index past the
array of regions. C leaves `1 << 31` undefined too; clang, which builds the kernel, computes
the sign bit. -/
inductive Fault where
  | intShift
  | regionIndex

abbrev Result (α : Type) := Except Fault α

def HeapState.setRegion (h : HeapState) (order : Fin 24) (region : AllocRegion) : HeapState :=
  { h with regions := Function.update h.regions order region }

def initAlloc (memory : Memory) : HeapState where
  regions := fun i => ⟨0, allocRegionBottom i, allocRegionTop i⟩
  memory := memory

/-- The rounded size and the order that `mem_alloc` computes for a request; the
smallest class is 8 bytes. -/
def sizeClass (size : ℕ) : Result (ℕ × ℕ) :=
  match sizeClassFrom 3 size with
  | some c => .ok c
  | none => .error .intShift

/-- The locked part of `mem_alloc`: a block of the free list, else the block at the
watermark, else nothing. -/
def takeBlock (h : HeapState) (order : Fin 24) (alignedSize : ℕ) : ℕ × HeapState :=
  let region := h.regions order
  if region.freelist ≠ 0 then
    (region.freelist, h.setRegion order { region with freelist := next h.memory region.freelist })
  else if region.watermark < region.top then
    (region.watermark,
      h.setRegion order { region with watermark := region.watermark + alignedSize })
  else (0, h)

def memAlloc (h : HeapState) (size : ℕ) : Result (ℕ × HeapState) := do
  let (alignedSize, order) ← sizeClass size
  if hi : order < 24 then return takeBlock h ⟨order, hi⟩ alignedSize
  else return (0, h)

/-- The order of the block at `ptr`, recomputed from its address in 64-bit
arithmetic. -/
def orderOf (ptr : ℕ) : ℕ := (ptr + (2 ^ 64 - allocBase)) % 2 ^ 64 / size512GB

def memFree (h : HeapState) (ptr : ℕ) : Result HeapState :=
  if ptr = 0 then .ok h
  else if hi : orderOf ptr < 24 then
    let order : Fin 24 := ⟨orderOf ptr, hi⟩
    let region := h.regions order
    .ok { h.setRegion order { region with freelist := ptr } with
      memory := setNext h.memory ptr region.freelist }
  else .error .regionIndex

/-- The part of `mem_realloc` that moves the block, `oldMaxSize` being 0 when there
is none. -/
def moveBlock (h : HeapState) (ptr oldMaxSize size : ℕ) : Result (ℕ × HeapState) := do
  let (newPtr, h) ← memAlloc h size
  if newPtr = 0 then return (0, h)
  else if ptr = 0 then return (newPtr, h)
  else
    let h ← memFree { h with memory := copyBytes h.memory newPtr ptr oldMaxSize } ptr
    return (newPtr, h)

def memRealloc (h : HeapState) (ptr size : ℕ) : Result (ℕ × HeapState) :=
  if size = 0 then do
    let h ← memFree h ptr
    return (0, h)
  else if ptr = 0 then moveBlock h ptr 0 size
  else
    let oldMaxSize := 1 <<< (orderOf ptr + 3)
    if size ≤ oldMaxSize then .ok (ptr, h)
    else moveBlock h ptr oldMaxSize size

/-! ### Runs -/

/-- A block a client holds, with the order it was allocated from and the size that
was last asked for. -/
structure Block where
  ptr : ℕ
  order : ℕ
  requested : ℕ
  deriving DecidableEq

/-- The bytes of a block of the given order. -/
def blockSize (order : ℕ) : ℕ := 2 ^ (order + 3)

def Block.bytes (b : Block) : Set ℕ := {a | b.ptr ≤ a ∧ a < b.ptr + blockSize b.order}

/-- The heap and the blocks its clients hold. -/
structure Clients where
  heap : HeapState
  live : List Block

def Clients.IsLive (s : Clients) (ptr : ℕ) : Prop := ∃ b ∈ s.live, b.ptr = ptr

/-- Forget the block at `ptr`. -/
def drop (live : List Block) (ptr : ℕ) : List Block := live.filter (·.ptr ≠ ptr)

/-- The record of a block that was handed out, none for the null pointer. -/
def granted (ptr size : ℕ) : List Block :=
  if ptr = 0 then []
  else
    match sizeClass size with
    | .ok (_, order) => [⟨ptr, order, size⟩]
    | .error _ => []

/-- What clients do: the three calls, and writing a byte. -/
inductive Call where
  | alloc (size : ℕ)
  | free (ptr : ℕ)
  | realloc (ptr size : ℕ)
  | write (addr : ℕ) (byte : UInt8)

/-- What the blocks are after `mem_realloc(ptr, size)` has returned `newPtr`. -/
def relocated (live : List Block) (ptr size newPtr : ℕ) : List Block :=
  if size = 0 then drop live ptr
  else if newPtr = 0 then live
  else if newPtr = ptr then
    live.map fun b => if b.ptr = ptr then { b with requested := size } else b
  else granted newPtr size ++ drop live ptr

def Clients.step (s : Clients) : Call → Result Clients
  | .alloc size => do
    let (ptr, heap) ← memAlloc s.heap size
    return ⟨heap, granted ptr size ++ s.live⟩
  | .free ptr => do
    let heap ← memFree s.heap ptr
    return ⟨heap, drop s.live ptr⟩
  | .realloc ptr size => do
    let (newPtr, heap) ← memRealloc s.heap ptr size
    return ⟨heap, relocated s.live ptr size newPtr⟩
  | .write addr byte =>
    .ok { s with heap := { s.heap with memory := Function.update s.heap.memory addr byte } }

/-- Sizes up to 1GB, only pointers of live blocks or null, only writes inside live
blocks. -/
def Permitted (s : Clients) : Call → Prop
  | .alloc size => size ≤ size1GB
  | .free ptr => ptr = 0 ∨ s.IsLive ptr
  | .realloc ptr size => (ptr = 0 ∨ s.IsLive ptr) ∧ size ≤ size1GB
  | .write addr _ => ∃ b ∈ s.live, addr ∈ b.bytes

/-- Where `init_alloc` leaves the heap, whatever memory holds. -/
def booted (memory : Memory) : Clients := ⟨initAlloc memory, []⟩

/-- The states of runs that start at `init_alloc`. -/
def Reachable (s : Clients) : Prop :=
  ∃ memory, Foundation.Transition.Reaches Clients.step Permitted (booted memory) s

end TomatOS.Heap
