import Mathlib.Algebra.Order.Ring.Nat

/-! What several parts of the kernel know of memory: the sizes and addresses of
`kernel/mem/memory.h` that more than one of them uses, the direct map, and the memory map
that the bootloader hands over. -/

namespace TomatOS

/-- The width of addresses. -/
def wordSize : ℕ := 2 ^ 64

/-- `PAGE_SIZE`, which is `SIZE_4KB`. -/
def pageSize : ℕ := 0x1000

def size512GB : ℕ := 0x0000008000000000

def directMapOffset : ℕ := 0xFFFF800000000000

/-- `PHYS_TO_DIRECT`. -/
def physToDirect (x : ℕ) : ℕ := (x + directMapOffset) % wordSize

theorem physToDirect_eq {x : ℕ} (h : x + directMapOffset < wordSize) :
    physToDirect x = x + directMapOffset := Nat.mod_eq_of_lt h

theorem pageSize_dvd_physToDirect {x : ℕ} (h : pageSize ∣ x) : pageSize ∣ physToDirect x := by
  unfold pageSize at h
  unfold pageSize physToDirect directMapOffset wordSize
  omega

def stacksAddr : ℕ := 0xFFFF8F0000000000

/-- `LIMINE_MEMMAP_*`. -/
inductive MemmapType where
  | usable
  | reserved
  | acpiReclaimable
  | acpiNvs
  | badMemory
  | bootloaderReclaimable
  | executableAndModules
  | framebuffer
  | acpiTables
  | unknown (type : ℕ)
  deriving DecidableEq, Repr

/-- `struct limine_memmap_entry`. -/
structure MemmapEntry where
  base : ℕ
  length : ℕ
  type : MemmapType
  deriving DecidableEq, Repr

end TomatOS
