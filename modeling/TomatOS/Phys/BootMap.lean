import TomatOS.Foundation.Runs
import TomatOS.Foundation.Transition
import TomatOS.Phys.Allocator

/-! Building the memory regions from the bootloader's memory map, from
`create_memory_regions` and `add_memory` in `kernel/mem/phys.c`: a pass that counts
regions and pages, a pass that lays the regions and their metadata out at the end of
the largest usable entry, and a pass that frees the usable memory into them. -/

namespace TomatOS

/-- The four types whose memory belongs to a region. -/
def MemmapType.formsRegion : MemmapType → Bool
  | .usable | .bootloaderReclaimable | .executableAndModules | .acpiReclaimable => true
  | _ => false

def MemmapEntry.end (entry : MemmapEntry) : ℕ := entry.base + entry.length

theorem MemmapEntry.base_le_end (entry : MemmapEntry) : entry.base ≤ entry.end :=
  Nat.le_add_right ..

namespace Phys

/-- `sizeof(memory_region_t)`: the count, the base, 24 list heads and the metadata
pointer. -/
def sizeofMemoryRegion : ℕ := 8 + 8 + buddyLevelCount * 16 + 8

/-- `ALIGN_UP`. -/
def alignUp (x align : ℕ) : ℕ := (x + align - 1) / align * align

/-- The value of `region_end` while no region is open, -1. -/
def noRegionEnd : ℕ := 2 ^ 64 - 1

/-! ### Counting -/

/-- The variables of the first pass; the largest region with its index. -/
structure Census where
  totalUsablePages : ℕ
  regionEnd : ℕ
  memoryRegionCount : ℕ
  largestRegion : Option (MemmapEntry × ℕ)

/-- The check for a larger usable entry. -/
def larger (largest : Option (MemmapEntry × ℕ)) (entry : MemmapEntry) (i : ℕ) :
    Option (MemmapEntry × ℕ) :=
  match entry.type, largest with
  | .usable, none => some (entry, i)
  | .usable, some (e, j) => if entry.length > e.length then some (entry, i) else some (e, j)
  | _, largest => largest

def countEntry (s : Census) (item : MemmapEntry × ℕ) : Census :=
  let (entry, i) := item
  if entry.type.formsRegion then
    { totalUsablePages := s.totalUsablePages + entry.length / pageSize
      regionEnd := entry.end
      memoryRegionCount := if s.regionEnd ≠ entry.base then s.memoryRegionCount + 1
        else s.memoryRegionCount
      largestRegion := larger s.largestRegion entry i }
  else { s with regionEnd := noRegionEnd }

def census (entries : List MemmapEntry) : Census :=
  entries.zipIdx.foldl countEntry ⟨0, noRegionEnd, 0, none⟩

/-! ### Laying the regions out -/

/-- A `memory_region_t` with the address of its first metadata byte. -/
structure BootRegion where
  region : MemoryRegion
  metadataPtr : ℕ

/-- Zeroed by `memset`, with its lists initialised. -/
def BootRegion.zeroed : BootRegion := ⟨⟨0, 0, fun _ => [], fun _ => ⟨0, false⟩⟩, 0⟩

/-- `err_t`, without `NO_ERROR`. -/
inductive Err where
  | checkFailed
  | outOfMemory

/-- How the code stops short of `NO_ERROR`: it returns an error, or runs into a
fault. -/
inductive Stop where
  | returns (err : Err)
  | faults (fault : Fault)

/-- The variables of the second pass, with `region_i + 1` as `started`. -/
structure Layout where
  regions : List BootRegion
  started : ℕ
  regionEnd : ℕ
  metadata : ℕ
  metadataLeft : ℕ

/-- Start the next region at an entry. -/
def Layout.startRegion (s : Layout) (entry : MemmapEntry) : Layout :=
  { s with
    started := s.started + 1
    regions := s.regions.modify s.started fun r =>
      ⟨{ r.region with base := physToDirect entry.base }, s.metadata⟩ }

/-- Add the pages of an entry to the current region; before the first region there is
none to add them to. -/
def Layout.addPages (s : Layout) (entry : MemmapEntry) (pageCount : ℕ) : Except Stop Layout :=
  if s.started = 0 then .error (.faults .nullAccess)
  else .ok { s with
    regions := s.regions.modify (s.started - 1) fun r =>
      { r with region := { r.region with pageCount := r.region.pageCount + pageCount } }
    regionEnd := entry.end
    metadata := s.metadata + pageCount }

def layoutEntry (s : Layout) (entry : MemmapEntry) : Except Stop Layout :=
  if entry.type.formsRegion then
    let pageCount := entry.length / pageSize
    if s.metadataLeft ≥ pageCount then
      let s := { s with metadataLeft := s.metadataLeft - pageCount }
      if s.regionEnd ≠ entry.base then
        if s.started < s.regions.length then (s.startRegion entry).addPages entry pageCount
        else .error (.returns .checkFailed)
      else s.addPages entry pageCount
    else .error (.returns .checkFailed)
  else .ok { s with regionEnd := noRegionEnd }

/-! ### Freeing the usable memory -/

/-- One round of `add_memory` for an entry of the right type. -/
def addEntry (regions : List BootRegion) (entry : MemmapEntry) : Except Stop (List BootRegion) :=
  let base := physToDirect entry.base
  match findRegion (regions.map (·.region)) base with
  | none => .error (.returns .checkFailed)
  | some i =>
    match regions[i]? with
    | none => .error (.faults .nullAccess)
    | some r =>
      match addMemoryToRegion r.region base (entry.length / pageSize) with
      | .error fault => .error (.faults fault)
      | .ok region => .ok (regions.set i { r with region := region })

def addMemory (type : MemmapType) (entries : List MemmapEntry) (regions : List BootRegion) :
    Except Stop (List BootRegion) :=
  entries.foldlM (fun regions entry =>
    if entry.type = type then addEntry regions entry else .ok regions) regions

/-- `m_memory_regions` and the overhead area its elements and their metadata are
in. -/
structure PhysBoot where
  regions : List BootRegion
  overheadStart : ℕ
  overhead : ℕ

def createMemoryRegions (entries : List MemmapEntry) : Except Stop PhysBoot :=
  if entries.length > 0 then
    let s := census entries
    if s.memoryRegionCount > 0 then
      let overhead :=
        alignUp (s.memoryRegionCount * sizeofMemoryRegion + s.totalUsablePages) pageSize
      match s.largestRegion with
      | none => .error (.faults .nullAccess)
      | some (largestRegion, i) =>
        if largestRegion.length > overhead then do
          let metadata := physToDirect (largestRegion.base + (largestRegion.length - overhead))
          let layout ← entries.foldlM layoutEntry
            { regions := List.replicate s.memoryRegionCount BootRegion.zeroed
              started := 0
              regionEnd := noRegionEnd
              metadata := metadata + s.memoryRegionCount * sizeofMemoryRegion
              metadataLeft := s.totalUsablePages }
          let reduced := { largestRegion with length := largestRegion.length - overhead }
          let regions ← addMemory .usable (entries.set i reduced) layout.regions
          return ⟨regions, metadata, overhead⟩
        else .error (.returns .outOfMemory)
    else .error (.returns .checkFailed)
  else .error (.returns .checkFailed)

end Phys

end TomatOS
