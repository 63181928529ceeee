import TomatOS.MemoryLayout
import Mathlib.Logic.Function.Basic
import Mathlib.Data.Nat.Log
import Mathlib.Data.Nat.Bitwise

/-! The buddy allocator of one memory region, from `kernel/mem/phys.c`: the
size classes, the per-page metadata, the free lists, allocation by splitting
and release by coalescing. Addresses are direct-map addresses as naturals; the
direct map ends far below `2^64`, so no sum of an address and a block size
wraps. A free list is the sequence of its entries from `next` on; linking an
entry that is already linked or unlinking one that is not would corrupt the
intrusive links, and is a fault of its own. -/

namespace TomatOS.Phys

/-- `BUDDY_LEVEL_COUNT`. -/
def buddyLevelCount : ℕ := 24

/-- `BUDDY_FIRST_LEVEL`. -/
def buddyFirstLevel : ℕ := 4

/-- `BUDDY_TOP_LEVEL_SIZE`, 128MB. -/
def buddyTopLevelSize : ℕ := 1 <<< ((buddyLevelCount - 1) + buddyFirstLevel)

/-- The function whose `ASSERT` failed. -/
inductive Site where
  | allocateFromLevel | freeAtLevel | physFree | irqAlloc
  deriving DecidableEq, Repr

inductive Fault where
  | assertion (site : Site)
  | listCorruption
  | nullAccess
  deriving DecidableEq, Repr

abbrev Result := Except Fault

/-- `page_metadata_t`: five bits of level, every level being below 24, and the
free bit. -/
structure PageMetadata where
  level : ℕ
  free : Bool
  deriving DecidableEq, Repr

structure MemoryRegion where
  pageCount : ℕ
  base : ℕ
  freeList : ℕ → List ℕ
  metadata : ℕ → PageMetadata

/-- The index of the metadata entry of an address, `none` for `NULL`. -/
def pageMetadata (region : MemoryRegion) (addr : ℕ) : Option ℕ :=
  if addr < region.base then none
  else
    let index := (addr - region.base) / pageSize
    if index ≥ region.pageCount then none else some index

/-- `__builtin_clz` of a nonzero 32-bit value. -/
def clz32 (x : ℕ) : ℕ := 31 - x.log2

/-- `none` is the invalid level -1. The argument is the 32-bit value the callee
receives. -/
def getLevelBySize (size : ℕ) : Option ℕ :=
  if size > buddyTopLevelSize then none
  else
    let size := if size < 16 then 16 else size
    let size := 1 <<< (32 - clz32 (size - 1))
    let level := 32 - clz32 size - 1
    some (level - buddyFirstLevel)

namespace MemoryRegion

/-- Whether an entry sits on one of the free lists. -/
def linked (region : MemoryRegion) (entry : ℕ) : Bool :=
  (List.range buddyLevelCount).any fun l => entry ∈ region.freeList l

/-- `list_add(&region->free_list[level], entry)`. -/
def listAdd (region : MemoryRegion) (level entry : ℕ) : Result MemoryRegion :=
  if region.linked entry then .error .listCorruption
  else .ok { region with
    freeList := Function.update region.freeList level (entry :: region.freeList level) }

/-- `list_del(entry)`, which does not name the list the entry is on. -/
def listDel (region : MemoryRegion) (entry : ℕ) : Result MemoryRegion :=
  if region.linked entry then
    .ok { region with freeList := fun l => (region.freeList l).erase entry }
  else .error .listCorruption

/-- Look the entry of `addr` up, assert that there is one and overwrite it. -/
def setMetadata (region : MemoryRegion) (site : Site) (addr level : ℕ) (free : Bool) :
    Result MemoryRegion :=
  match pageMetadata region addr with
  | none => .error (.assertion site)
  | some index => .ok { region with
      metadata := Function.update region.metadata index ⟨level, free⟩ }

end MemoryRegion

/-- The search for a level with a free block, over the `n` levels from `level`
up: the level found and the first block of its list. -/
def findBlock (region : MemoryRegion) : ℕ → ℕ → Option (ℕ × ℕ)
  | 0, _ => none
  | n + 1, level =>
    match region.freeList level with
    | [] => findBlock region n (level + 1)
    | block :: _ => some (level, block)

/-- Split a block `n` levels above `level`, each time giving the higher half to
the level below. -/
def splitBlock (level block : ℕ) : ℕ → MemoryRegion → Result MemoryRegion
  | 0, region => .ok region
  | n + 1, region => do
    let blockSize := 1 <<< (level + n + 1 + buddyFirstLevel)
    let upper := block + blockSize / 2
    let region ← region.listAdd (level + n) upper
    let region ← region.setMetadata .allocateFromLevel upper (level + n) true
    splitBlock level block n region

def allocateFromLevel (region : MemoryRegion) :
    Option ℕ → Result (Option ℕ × MemoryRegion)
  | none => .ok (none, region)
  | some level =>
    if level < buddyLevelCount then
      match findBlock region (buddyLevelCount - level) level with
      | none => .ok (none, region)
      | some (blockAtLevel, block) => do
        let region ← region.listDel block
        let region ← splitBlock level block (blockAtLevel - level) region
        let region ← region.setMetadata .allocateFromLevel block level false
        return (some block, region)
    else .error (.assertion .allocateFromLevel)

/-- The merging loop of `free_at_level` with `n` levels left below the top: the
region, the pointer and the level on exit. -/
def coalesce : ℕ → MemoryRegion → ℕ → ℕ → Result (MemoryRegion × ℕ × ℕ)
  | 0, region, ptr, level => .ok (region, ptr, level)
  | n + 1, region, ptr, level =>
    let blockSize := 1 <<< (level + buddyFirstLevel)
    let above : Bool := ptr &&& (blockSize * 2 - 1) = 0
    let neighbor := if above then ptr + blockSize else ptr - blockSize
    match pageMetadata region neighbor with
    | none => .ok (region, ptr, level)
    | some index =>
      if !(region.metadata index).free then .ok (region, ptr, level)
      else if (region.metadata index).level ≠ level then .ok (region, ptr, level)
      else do
        let region ← region.listDel neighbor
        coalesce n region (if above then ptr else ptr - blockSize) (level + 1)

def freeAtLevel (region : MemoryRegion) (ptr level : ℕ) : Result MemoryRegion :=
  if level < buddyLevelCount then do
    let (region, ptr, level) ← coalesce (buddyLevelCount - 1 - level) region ptr level
    let region ← region.setMetadata .freeAtLevel ptr level true
    region.listAdd level ptr
  else .error (.assertion .freeAtLevel)

/-- `get_level_by_size(SIZE_4KB)`. -/
def pageLevel : ℕ := 8

example : getLevelBySize pageSize = some pageLevel := by decide

/-- The first loop of `add_memory_to_region`: single pages up to the first
128MB boundary. -/
def addUntilTop : ℕ → MemoryRegion → ℕ → Result (MemoryRegion × ℕ × ℕ)
  | 0, region, base => .ok (region, base, 0)
  | n + 1, region, base =>
    if base % buddyTopLevelSize ≠ 0 then do
      let region ← freeAtLevel region base pageLevel
      addUntilTop n region (base + pageSize)
    else .ok (region, base, n + 1)

/-- The second loop, run `n` times: whole 128MB blocks. -/
def addTopBlocks : ℕ → MemoryRegion → ℕ → Result (MemoryRegion × ℕ)
  | 0, region, base => .ok (region, base)
  | n + 1, region, base => do
    let region ← freeAtLevel region base (buddyLevelCount - 1)
    addTopBlocks n region (base + buddyTopLevelSize)

/-- The third loop: the single pages left. -/
def addPages : ℕ → MemoryRegion → ℕ → Result MemoryRegion
  | 0, region, _ => .ok region
  | n + 1, region, base => do
    let region ← freeAtLevel region base pageLevel
    addPages n region (base + pageSize)

def addMemoryToRegion (region : MemoryRegion) (base pageCount : ℕ) : Result MemoryRegion := do
  let (region, base, pageCount) ← addUntilTop pageCount region base
  let perTop := buddyTopLevelSize / pageSize
  let (region, base) ← addTopBlocks (pageCount / perTop) region base
  addPages (pageCount % perTop) region base

/-! ### Size classes -/

section Levels

theorem buddyTopLevelSize_eq : buddyTopLevelSize = 2 ^ 27 := by decide

private theorem log2_pow (k : ℕ) : (2 ^ k).log2 = k := by
  rw [Nat.log2_eq_log_two, Nat.log_pow Nat.one_lt_two]

/-- For a size above 16 the level is the bit length of its predecessor. -/
private theorem getLevelBySize_eq {size : ℕ} (h16 : 16 ≤ size) (htop : size ≤ 2 ^ 27) :
    getLevelBySize size = some ((size - 1).log2 + 1 - 4) ∧ (size - 1).log2 < 27 := by
  have hlog : (size - 1).log2 < 27 := by
    rw [Nat.log2_lt (by omega)]
    omega
  have hle : ¬ size > buddyTopLevelSize := by
    rw [buddyTopLevelSize_eq]
    omega
  refine ⟨?_, hlog⟩
  rw [getLevelBySize, if_neg hle, if_neg (by omega)]
  simp only [Nat.one_shiftLeft, clz32, log2_pow, buddyFirstLevel, Option.some.injEq]
  omega

/-- The level of a size is a level of the allocator whose blocks hold the size,
and no level below it does. -/
theorem getLevelBySize_spec {size level : ℕ} (h : getLevelBySize size = some level) :
    level < buddyLevelCount ∧ size ≤ 2 ^ (level + buddyFirstLevel) ∧
      (0 < level → 2 ^ (level - 1 + buddyFirstLevel) < size) := by
  have htop : size ≤ 2 ^ 27 := by
    by_contra hgt
    have : size > buddyTopLevelSize := by
      rw [buddyTopLevelSize_eq]
      omega
    rw [getLevelBySize, if_pos this] at h
    cases h
  by_cases h16 : 16 ≤ size
  · obtain ⟨he, hlog⟩ := getLevelBySize_eq h16 htop
    obtain rfl : (size - 1).log2 + 1 - 4 = level := by rw [he] at h; exact Option.some.inj h
    have h3 : 3 ≤ (size - 1).log2 := (Nat.le_log2 (by omega)).mpr (by omega)
    have hlo := Nat.log2_self_le (n := size - 1) (by omega)
    have hhi := Nat.lt_log2_self (n := size - 1)
    simp only [buddyLevelCount, buddyFirstLevel]
    refine ⟨by omega, ?_, fun hp => ?_⟩
    · rw [show (size - 1).log2 + 1 - 4 + 4 = (size - 1).log2 + 1 by omega]
      omega
    · rw [show (size - 1).log2 + 1 - 4 - 1 + 4 = (size - 1).log2 by omega]
      omega
  · have hle : ¬ size > buddyTopLevelSize := by
      rw [buddyTopLevelSize_eq]
      omega
    rw [getLevelBySize, if_neg hle, if_pos (by omega)] at h
    obtain rfl : 0 = level := Option.some.inj (h.symm.trans (by decide)).symm
    exact ⟨by decide, by simp [buddyFirstLevel]; omega, fun hp => absurd hp (lt_irrefl 0)⟩

/-- Sizes above half a page get whole pages. -/
theorem pageLevel_le_of_size {size level : ℕ} (h : getLevelBySize size = some level)
    (hs : 2048 < size) : pageLevel ≤ level := by
  have hle := (getLevelBySize_spec h).2.1
  by_contra hlt
  have h7 : level + buddyFirstLevel ≤ 11 := by
    simp only [pageLevel, buddyFirstLevel] at hlt ⊢
    omega
  have := Nat.pow_le_pow_right (n := 2) (by omega) h7
  omega

end Levels

end TomatOS.Phys
