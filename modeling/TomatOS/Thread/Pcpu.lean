import TomatOS.Heap.Requests
import Mathlib.Data.List.Nodup
import Mathlib.Data.List.Perm.Subperm

/-! The per-CPU variables of `kernel/thread/pcpu.c`. The boot processor keeps them in
the kernel image, at offset zero and with id zero; every other core gets a block of the
heap, the offset to it, and its position in the list of the bootloader as its id. The
two sources of ids agree only if the list starts with the boot processor. -/

namespace TomatOS.Thread

open Foundation.LinkedMemory Foundation.Transition
open Heap (Clients memAlloc size1GB blockSize allocBase allocRegionBottom allocRegionTop)

/-- The section of the per-CPU variables in the kernel image. -/
structure PcpuImage where
  /-- `__start_pcpu_data` and `__stop_pcpu_data`. -/
  start : ℕ
  stop : ℕ
  /-- The addresses of `m_cpu_id` and `m_cpu_fs_base` in it. -/
  cpuId : ℕ
  cpuFsBase : ℕ
  kernel_le : 0xFFFFFFFF80000000 ≤ start
  stop_lt : stop < 2 ^ 64
  cpuId_mem : start ≤ cpuId ∧ cpuId + 4 ≤ stop
  cpuFsBase_mem : start ≤ cpuFsBase ∧ cpuFsBase + 8 ≤ stop
  apart : cpuId + 4 ≤ cpuFsBase ∨ cpuFsBase + 8 ≤ cpuId

/-- The response of the bootloader: the local APIC ids of the CPUs, none of which is
the broadcast id, and that of the boot processor. -/
structure CpuList where
  lapicIds : List ℕ
  bspLapicId : ℕ
  nodup : lapicIds.Nodup
  lapicId_lt : ∀ id ∈ lapicIds, id < 2 ^ 32 - 1
  bsp_mem : bspLapicId ∈ lapicIds

namespace CpuList

/-- `g_cpu_count`. -/
def count (cpus : CpuList) : ℕ := cpus.lapicIds.length

/-- The position of the boot processor. -/
def bsp (cpus : CpuList) : ℕ := cpus.lapicIds.idxOf cpus.bspLapicId

theorem bsp_lt (cpus : CpuList) : cpus.bsp < cpus.count := List.idxOf_lt_length_iff.mpr cpus.bsp_mem

theorem count_lt (cpus : CpuList) : cpus.count < 2 ^ 32 := by
  have hsub : cpus.lapicIds ⊆ List.range (2 ^ 32 - 1) :=
    fun id hid => List.mem_range.mpr (cpus.lapicId_lt id hid)
  have hle := (cpus.nodup.subperm hsub).length_le
  rw [List.length_range] at hle
  rw [count]
  omega

end CpuList

/-- What a conversion to `int` leaves of a number. -/
def toInt (x : ℕ) : ℤ :=
  if x % 2 ^ 32 < 2 ^ 31 then (x % 2 ^ 32 : ℕ) else (x % 2 ^ 32 : ℕ) - 2 ^ 32

/-- An address relative to the segment base. -/
def fsAddress (base ptr : ℕ) : ℕ := (base + ptr) % 2 ^ 64

/-- `&m_all_fs_bases[cpu_id]`. -/
def fsBaseEntry (allFsBases : ℕ) (cpuId : ℤ) : ℕ :=
  ((allFsBases + 8 * cpuId) % 2 ^ 64).toNat

/-- `memset` to zero. -/
def clearBytes (m : Memory) (a n : ℕ) : Memory := fun x => if a ≤ x ∧ x < a + n then 0 else m x

/-- The heap with all of memory, the segment base of each core by its position in the
list, `m_all_fs_bases`, and the cores whose `pcpu_init_per_core` got memory or did not. -/
structure Smp where
  clients : Clients
  fsBase : ℕ → ℕ
  allFsBases : ℕ
  online : List ℕ
  refused : List ℕ

inductive StartFault where
  | heap
  | outOfMemory
  deriving DecidableEq, Repr

/-- `init_pcpu`, `pcpu_init_per_core` on the core at a position, and whatever the rest of
the kernel does to the heap and to memory. -/
inductive StartEvent where
  | initPcpu
  | perCore (i : ℕ)
  | others (clients : Clients)

namespace Smp

def memory (s : Smp) : Memory := s.clients.heap.memory

/-- The heap after an allocation, with further writes to memory. -/
def allocated (s : Smp) (heap : Heap.HeapState) (memory : Memory) (ptr size : ℕ) : Clients :=
  ⟨{ heap with memory := memory }, Heap.granted ptr size ++ s.clients.live⟩

variable (img : PcpuImage) (cpus : CpuList)

/-- `init_early_pcpu` on the boot processor; the other cores come up with base zero. -/
def initEarlyPcpu (memory : Memory) : Smp where
  clients := Heap.booted (storeBytes (storeBytes memory (fsAddress 0 img.cpuId) 0 4)
    (fsAddress 0 img.cpuFsBase) 0 8)
  fsBase := fun _ => 0
  allFsBases := 0
  online := []
  refused := []

def initPcpu (s : Smp) : Except StartFault Smp :=
  let size := ((8 * toInt cpus.count) % 2 ^ 64).toNat
  match memAlloc s.clients.heap size with
  | .error _ => .error .heap
  | .ok (ptr, heap) =>
    if ptr = 0 then .error .outOfMemory
    else
      let memory := storeBytes (clearBytes heap.memory ptr size) (fsBaseEntry ptr 0) 0 8
      .ok { s with clients := s.allocated heap memory ptr size, allFsBases := ptr }

/-- The caller does not look at the error. -/
def pcpuInitPerCore (s : Smp) (i : ℕ) : Except StartFault Smp :=
  let cpuId := toInt i
  let size := img.stop - img.start
  match memAlloc s.clients.heap size with
  | .error _ => .error .heap
  | .ok (data, heap) =>
    if data = 0 then
      .ok { s with clients := { s.clients with heap := heap }, refused := i :: s.refused }
    else
      let offset := (data + (2 ^ 64 - img.start)) % 2 ^ 64
      let memory := storeBytes heap.memory (fsBaseEntry s.allFsBases cpuId) offset 8
      let memory := storeBytes memory (fsAddress offset img.cpuId) (cpuId % 2 ^ 32).toNat 4
      let memory := storeBytes memory (fsAddress offset img.cpuFsBase) offset 8
      .ok { s with
        clients := s.allocated heap memory data size
        fsBase := Function.update s.fsBase i offset
        online := i :: s.online }

def step (s : Smp) : StartEvent → Except StartFault Smp
  | .initPcpu => s.initPcpu cpus
  | .perCore i => s.pcpuInitPerCore img i
  | .others clients => .ok { s with clients := clients }

/-- `get_cpu_id` on the core `c`. -/
def getCpuId (s : Smp) (c : ℕ) : ℤ :=
  toInt (loadBytes s.memory (fsAddress (s.fsBase c) img.cpuId) 4)

/-- `pcpu_get_pointer` on the core `c`. -/
def pcpuGetPointer (s : Smp) (c ptr : ℕ) : ℕ :=
  (loadBytes s.memory (fsAddress (s.fsBase c) img.cpuFsBase) 8 + ptr) % 2 ^ 64

def pcpuGetPointerOf (s : Smp) (ptr : ℕ) (cpuId : ℤ) : ℕ :=
  (loadBytes s.memory (fsBaseEntry s.allFsBases cpuId) 8 + ptr) % 2 ^ 64

/-! ### Runs of the start-up -/

/-- The block a core has its variables in. -/
def block (s : Smp) (i : ℕ) : ℕ := fsAddress (s.fsBase i) img.start

/-- The bytes of the ids, of the segment bases and of their table. -/
def Protected (s : Smp) (a : ℕ) : Prop :=
  (∃ c, fsAddress (s.fsBase c) img.cpuId ≤ a ∧ a < fsAddress (s.fsBase c) img.cpuId + 4) ∨
    (∃ c, fsAddress (s.fsBase c) img.cpuFsBase ≤ a ∧
      a < fsAddress (s.fsBase c) img.cpuFsBase + 8) ∨
    (s.allFsBases ≠ 0 ∧ s.allFsBases ≤ a ∧ a < s.allFsBases + 8 * cpus.count)

/-- `_start` prepares the table once, then starts each other core once. The rest of the
kernel keeps the heap in order, does not free the blocks of this component and does not
write its variables. -/
def Allows (s : Smp) : StartEvent → Prop
  | .initPcpu => s.allFsBases = 0
  | .perCore i => s.allFsBases ≠ 0 ∧ i < cpus.count ∧ i ≠ cpus.bsp ∧ i ∉ s.online ∧ i ∉ s.refused
  | .others clients => (∃ free, Heap.Invariant clients.heap clients.live free) ∧
      (∀ b ∈ s.clients.live, (b.ptr = s.allFsBases ∨ ∃ i ∈ s.online, b.ptr = s.block img i) →
        b ∈ clients.live) ∧
      ∀ a, s.Protected img cpus a → clients.heap.memory a = s.memory a

/-- Every other core of the list has been through `pcpu_init_per_core`. -/
def Started (s : Smp) : Prop :=
  s.allFsBases ≠ 0 ∧ ∀ i < cpus.count, i ≠ cpus.bsp → i ∈ s.online ∨ i ∈ s.refused

/-- The ids are distinct and below the count, and each leads to the variables of its core. -/
structure Consistent (s : Smp) : Prop where
  below : ∀ c < cpus.count, 0 ≤ s.getCpuId img c ∧ s.getCpuId img c < cpus.count
  distinct : ∀ c < cpus.count, ∀ d < cpus.count, c ≠ d → s.getCpuId img c ≠ s.getCpuId img d
  pointers : ∀ c < cpus.count, ∀ ptr, img.start ≤ ptr → ptr < img.stop →
    s.pcpuGetPointerOf ptr (s.getCpuId img c) = s.pcpuGetPointer img c ptr

/-! ### Addresses -/

theorem toInt_small {x : ℕ} (h : x < 2 ^ 31) : toInt x = x := by
  unfold toInt
  split_ifs <;> omega

theorem fsBaseEntry_eq {table i : ℕ} (hi : i < 2 ^ 31) (hend : table + 8 * i < 2 ^ 64) :
    fsBaseEntry table (toInt i) = table + 8 * i := by
  rw [fsBaseEntry, toInt_small hi]
  omega

/-- A table for the whole list is allocated only if the list is short enough. -/
theorem tableSize_eq {n : ℕ} (hn : n < 2 ^ 32)
    (hsize : ((8 * toInt n) % 2 ^ 64).toNat ≤ size1GB) :
    n ≤ 2 ^ 27 ∧ ((8 * toInt n) % 2 ^ 64).toNat = 8 * n := by
  rw [size1GB] at hsize
  by_cases hsmall : n < 2 ^ 31
  · rw [toInt_small hsmall] at hsize ⊢
    omega
  · unfold toInt at hsize
    split_ifs at hsize <;> omega

variable {img : PcpuImage} {cpus : CpuList} {s s' : Smp}

theorem fsAddress_zero {ptr : ℕ} (h : ptr < 2 ^ 64) : fsAddress 0 ptr = ptr := by
  rw [fsAddress, Nat.zero_add, Nat.mod_eq_of_lt h]

/-- The offset of a block leads to the variable in the block. -/
theorem fsAddress_offset {data ptr : ℕ} (hdata : data + img.stop - img.start < 2 ^ 64)
    (hlow : img.start ≤ ptr) (hhigh : ptr ≤ img.stop) :
    fsAddress ((data + (2 ^ 64 - img.start)) % 2 ^ 64) ptr = data + (ptr - img.start) := by
  have := img.stop_lt
  rw [fsAddress]
  omega

theorem heap_top : allocRegionTop 23 = 0xFFFFCC0000000000 := by
  unfold allocRegionTop size512GB allocBase
  omega

/-! ### The invariant -/

variable (img cpus s) in
/-- The core has a block of its own, apart from the table, and its segment base leads there. -/
def HasBlock (i : ℕ) : Prop :=
  ∃ b ∈ s.clients.live, b.requested = img.stop - img.start ∧ b.ptr ≠ s.allFsBases ∧
    s.fsBase i = (b.ptr + (2 ^ 64 - img.start)) % 2 ^ 64

variable (img cpus s) in
/-- Each core finds its base, and its position if it has a block of its own; the table
holds the bases by position. -/
structure Inv : Prop where
  heap : ∃ free, Heap.Invariant s.clients.heap s.clients.live free
  early : s.allFsBases = 0 → s.online = []
  offline : ∀ i, i ∉ s.online → s.fsBase i = 0
  blocks : ∀ i ∈ s.online, HasBlock img s i
  others : ∀ i, i ∈ s.online ∨ i ∈ s.refused → i < cpus.count ∧ i ≠ cpus.bsp
  failed : ∀ i ∈ s.refused, i ∉ s.online
  ids : ∀ c, loadBytes s.memory (fsAddress (s.fsBase c) img.cpuId) 4 =
    if c ∈ s.online then c else 0
  bases : ∀ c, loadBytes s.memory (fsAddress (s.fsBase c) img.cpuFsBase) 8 = s.fsBase c
  tableBlock : s.allFsBases ≠ 0 → cpus.count ≤ 2 ^ 27 ∧
    ∃ b ∈ s.clients.live, b.ptr = s.allFsBases ∧ b.requested = 8 * cpus.count
  table : s.allFsBases ≠ 0 → ∀ j < cpus.count,
    loadBytes s.memory (s.allFsBases + 8 * j) 8 = s.fsBase j

/-- A variable of a core is in the kernel image, or in a block of its own. -/
theorem Inv.cell_cases (h : Inv img cpus s) (c : ℕ) {ptr : ℕ} (hlow : img.start ≤ ptr)
    (hhigh : ptr < img.stop) :
    (c ∉ s.online ∧ fsAddress (s.fsBase c) ptr = ptr) ∨
    (c ∈ s.online ∧ ∃ b ∈ s.clients.live, b.ptr ≠ s.allFsBases ∧
      img.stop - img.start ≤ blockSize b.order ∧
      fsAddress (s.fsBase c) ptr = b.ptr + (ptr - img.start)) := by
  have hstop := img.stop_lt
  by_cases hc : c ∈ s.online
  · obtain ⟨b, hb, hreq, hne, hbase⟩ := h.blocks c hc
    obtain ⟨free, hheap⟩ := h.heap
    have hend := (hheap.bounds hb).2
    have hfit := (hheap.sound hb).large_enough
    have := heap_top
    refine .inr ⟨hc, b, hb, hne, by omega, ?_⟩
    rw [hbase]
    exact fsAddress_offset (by omega) hlow hhigh.le
  · refine .inl ⟨hc, ?_⟩
    rw [h.offline c hc]
    exact fsAddress_zero (by omega)

/-- Bytes of the heap that are in no block but the table's hold no variable of a core. -/
theorem Inv.cell_apart (h : Inv img cpus s) (c : ℕ) {ptr n x k : ℕ} (hlow : img.start ≤ ptr)
    (hhigh : ptr + n ≤ img.stop) (hn : 0 < n) (hx : x + k ≤ allocRegionTop 23)
    (hout : ∀ b ∈ s.clients.live, b.ptr ≠ s.allFsBases →
      b.ptr + blockSize b.order ≤ x ∨ x + k ≤ b.ptr) :
    fsAddress (s.fsBase c) ptr + n ≤ x ∨ x + k ≤ fsAddress (s.fsBase c) ptr := by
  rcases h.cell_cases c hlow (by omega) with ⟨-, hcell⟩ | ⟨-, b, hb, hne, hfit, hcell⟩
  · have := heap_top
    have := img.kernel_le
    omega
  · have := hout b hb hne
    omega

/-! ### What each event does -/

theorem initPcpu_spec (h : Inv img cpus s) (hs : s.initPcpu cpus = .ok s') :
    ∃ heap ptr order free, ptr ≠ 0 ∧ cpus.count ≤ 2 ^ 27 ∧ 8 * cpus.count ≤ blockSize order ∧
      heap.memory = s.memory ∧
      Heap.Invariant heap (⟨ptr, order, 8 * cpus.count⟩ :: s.clients.live) free ∧
      s' = { s with
        clients := ⟨{ heap with memory := storeBytes (clearBytes s.memory ptr (8 * cpus.count)) ptr 0 8 },
          ⟨ptr, order, 8 * cpus.count⟩ :: s.clients.live⟩
        allFsBases := ptr } := by
  obtain ⟨free, hheap⟩ := h.heap
  unfold initPcpu at hs
  rcases halloc : memAlloc s.clients.heap ((8 * toInt cpus.count) % 2 ^ 64).toNat with f | ⟨ptr, heap⟩
  · simp only [halloc] at hs
    cases hs
  · simp only [halloc] at hs
    rcases Heap.memAlloc_returns hheap (by omega) halloc with
      ⟨rfl, -⟩ | ⟨hptr, hsize, hmem, order, free', hgrant, hfit, hheap'⟩
    · simp only [if_true] at hs
      cases hs
    · obtain ⟨hcount, hsize⟩ := tableSize_eq cpus.count_lt hsize
      rw [hsize] at hgrant hfit hheap' hs
      have hbound := (hheap'.bounds List.mem_cons_self).2
      have hentry : fsBaseEntry ptr 0 = ptr := by
        have := heap_top
        dsimp only at hbound
        rw [fsBaseEntry]
        omega
      rw [if_neg hptr, allocated, hgrant, hentry, hmem] at hs
      cases hs
      exact ⟨heap, ptr, order, free', hptr, hcount, hfit, hmem, hheap', rfl⟩

theorem clearBytes_inside {m : Memory} {a n x : ℕ} (h : a ≤ x) (h' : x < a + n) :
    clearBytes m a n x = 0 := if_pos ⟨h, h'⟩

theorem clearBytes_outside {m : Memory} {a n x : ℕ} (h : x < a ∨ a + n ≤ x) :
    clearBytes m a n x = m x := if_neg (by omega)

theorem table_cleared {m : Memory} {ptr n j : ℕ} (hj : j < n) :
    loadBytes (storeBytes (clearBytes m ptr (8 * n)) ptr 0 8) (ptr + 8 * j) 8 = 0 := by
  by_cases h0 : j = 0
  · rw [h0, Nat.mul_zero, Nat.add_zero, loadBytes_storeBytes]
    rfl
  · rw [loadBytes_storeBytes_apart (by omega)]
    apply loadBytes_zero
    intro x hx hx'
    exact clearBytes_inside (by omega) (by omega)

/-- What is read outside the new table is what was there. -/
theorem table_frame {m : Memory} {ptr n a k size : ℕ} (hn : 0 < n) (hsize : 8 * n ≤ size)
    (h : a + k ≤ ptr ∨ ptr + size ≤ a) :
    loadBytes (storeBytes (clearBytes m ptr (8 * n)) ptr 0 8) a k = loadBytes m a k := by
  rw [loadBytes_storeBytes_apart (by omega)]
  apply loadBytes_congr
  intro x hx hx'
  exact clearBytes_outside (by omega)

theorem Inv.initPcpu (h : Inv img cpus s) (hnone : s.allFsBases = 0)
    (hs : s.initPcpu cpus = .ok s') : Inv img cpus s' := by
  obtain ⟨heap, ptr, order, free, hptr, hcount, hfit, hmem, hheap, rfl⟩ := initPcpu_spec h hs
  have hoff := h.early hnone
  have hpos : 0 < cpus.count := (Nat.zero_le _).trans_lt cpus.bsp_lt
  have hbound := (hheap.bounds List.mem_cons_self).2
  dsimp only at hbound
  have htop := heap_top
  have hcell : ∀ c p n, img.start ≤ p → p + n ≤ img.stop → 0 < n →
      fsAddress (s.fsBase c) p + n ≤ ptr ∨
        ptr + blockSize order ≤ fsAddress (s.fsBase c) p := by
    intro c p n hlow hhigh hn
    have := img.kernel_le
    have := img.stop_lt
    rw [h.offline c (by simp [hoff]), fsAddress_zero (by omega)]
    omega
  have hcpuId := img.cpuId_mem
  have hcpuFsBase := img.cpuFsBase_mem
  constructor
  case heap =>
    refine ⟨free, hheap.write fun a ha => ?_⟩
    have hout : a < ptr ∨ ptr + blockSize order ≤ a := by
      by_contra hin
      exact ha _ List.mem_cons_self ⟨by dsimp only; omega, by dsimp only; omega⟩
    rw [hmem, storeBytes_apply_of_outside (by omega), clearBytes_outside (by omega)]
  case early => exact fun h0 => absurd h0 hptr
  case offline => exact h.offline
  case blocks =>
    intro i hi
    rw [hoff] at hi
    cases hi
  case others => exact h.others
  case failed => exact h.failed
  case ids =>
    intro c
    exact (table_frame hpos hfit (hcell c _ 4 hcpuId.1 hcpuId.2 (by omega))).trans (h.ids c)
  case bases =>
    intro c
    exact (table_frame hpos hfit (hcell c _ 8 hcpuFsBase.1 hcpuFsBase.2 (by omega))).trans
      (h.bases c)
  case tableBlock => exact fun _ => ⟨hcount, _, List.mem_cons_self, rfl, rfl⟩
  case table =>
    intro _ j hj
    rw [h.offline j (by simp [hoff])]
    exact table_cleared hj

/-- The other parts of the kernel leave what they must not touch. -/
theorem Inv.others_step (h : Inv img cpus s) {clients : Clients}
    (hallow : s.Allows img cpus (.others clients)) : Inv img cpus { s with clients := clients } := by
  obtain ⟨hheap, hlive, hmem⟩ := hallow
  constructor
  case heap => exact hheap
  case early => exact h.early
  case offline => exact h.offline
  case blocks =>
    intro i hi
    obtain ⟨b, hb, hreq, hne, hbase⟩ := h.blocks i hi
    obtain ⟨free, hold⟩ := h.heap
    have hend := (hold.bounds hb).2
    have hfit := (hold.sound hb).large_enough
    have htop := heap_top
    have hblock : s.block img i = b.ptr := by
      have := img.cpuId_mem
      rw [block, hbase, fsAddress_offset (by omega) le_rfl (by omega), Nat.sub_self, Nat.add_zero]
    exact ⟨b, hlive b hb (.inr ⟨i, hi, hblock.symm⟩), hreq, hne, hbase⟩
  case others => exact h.others
  case failed => exact h.failed
  case ids =>
    intro c
    rw [← h.ids c]
    exact loadBytes_congr fun a ha ha' => hmem a (.inl ⟨c, ha, ha'⟩)
  case bases =>
    intro c
    refine (loadBytes_congr fun a ha ha' => ?_).trans (h.bases c)
    exact hmem a (.inr (.inl ⟨c, ha, ha'⟩))
  case tableBlock =>
    intro h0
    obtain ⟨hcount, b, hb, hptr, hreq⟩ := h.tableBlock h0
    exact ⟨hcount, b, hlive b hb (.inl hptr), hptr, hreq⟩
  case table =>
    intro h0 j hj
    refine (loadBytes_congr fun a ha ha' => ?_).trans (h.table h0 j hj)
    dsimp only at ha ha'
    exact hmem a (.inr (.inr ⟨h0, by omega, by omega⟩))

variable (img) in
/-- The three writes of a core with a block: its entry of the table, its id and its base. -/
def coreWrites (m : Memory) (entry data i offset : ℕ) : Memory :=
  storeBytes (storeBytes (storeBytes m entry offset 8) (data + (img.cpuId - img.start)) i 4)
    (data + (img.cpuFsBase - img.start)) offset 8

theorem coreWrites_frame {m : Memory} {entry data i offset a n : ℕ}
    (hentry : a + n ≤ entry ∨ entry + 8 ≤ a)
    (hdata : a + n ≤ data ∨ data + (img.stop - img.start) ≤ a) :
    loadBytes (coreWrites img m entry data i offset) a n = loadBytes m a n := by
  have := img.cpuId_mem
  have := img.cpuFsBase_mem
  rw [coreWrites, loadBytes_storeBytes_apart (by omega), loadBytes_storeBytes_apart (by omega),
    loadBytes_storeBytes_apart hentry]

theorem coreWrites_cpuId {m : Memory} {entry data i offset : ℕ} (hi : i < 2 ^ 32) :
    loadBytes (coreWrites img m entry data i offset) (data + (img.cpuId - img.start)) 4 = i := by
  have := img.cpuId_mem
  have := img.cpuFsBase_mem
  have := img.apart
  rw [coreWrites, loadBytes_storeBytes_apart (by omega), loadBytes_storeBytes]
  exact Nat.mod_eq_of_lt hi

theorem coreWrites_cpuFsBase {m : Memory} {entry data i offset : ℕ} (h : offset < 2 ^ 64) :
    loadBytes (coreWrites img m entry data i offset) (data + (img.cpuFsBase - img.start)) 8 =
      offset := by
  rw [coreWrites, loadBytes_storeBytes]
  exact Nat.mod_eq_of_lt h

theorem coreWrites_entry {m : Memory} {entry data i offset : ℕ} (h : offset < 2 ^ 64)
    (hdata : entry + 8 ≤ data ∨ data + (img.stop - img.start) ≤ entry) :
    loadBytes (coreWrites img m entry data i offset) entry 8 = offset := by
  have := img.cpuId_mem
  have := img.cpuFsBase_mem
  rw [coreWrites, loadBytes_storeBytes_apart (by omega), loadBytes_storeBytes_apart (by omega),
    loadBytes_storeBytes]
  exact Nat.mod_eq_of_lt h

variable (img s) in
/-- The state once the core `i` has its variables in the block at `data`. -/
def withCore (heap : Heap.HeapState) (data order i offset : ℕ) : Smp :=
  { s with
    clients := ⟨{ heap with
        memory := coreWrites img s.memory (s.allFsBases + 8 * i) data i offset },
      ⟨data, order, img.stop - img.start⟩ :: s.clients.live⟩
    fsBase := Function.update s.fsBase i offset
    online := i :: s.online }

variable (img cpus s) in
/-- The block at `data` is a new one, for the core `i`. -/
structure NewBlock (heap : Heap.HeapState) (free : Fin 24 → List ℕ) (data order i offset : ℕ) :
    Prop where
  inv : Inv img cpus s
  table : s.allFsBases ≠ 0
  index : i < cpus.count
  fit : img.stop - img.start ≤ blockSize order
  offset_eq : offset = (data + (2 ^ 64 - img.start)) % 2 ^ 64
  memory : heap.memory = s.memory
  heap : Heap.Invariant heap (⟨data, order, img.stop - img.start⟩ :: s.clients.live) free

/-- Without memory the core goes on as it came up; else it gets a block, and three words
are written. -/
theorem pcpuInitPerCore_spec (h : Inv img cpus s) {i : ℕ} (hi : i < cpus.count)
    (htable : s.allFsBases ≠ 0) (hs : s.pcpuInitPerCore img i = .ok s') :
    s' = { s with refused := i :: s.refused } ∨
    ∃ heap data order free offset, NewBlock img cpus s heap free data order i offset ∧
      s' = withCore img s heap data order i offset := by
  obtain ⟨free, hheap⟩ := h.heap
  have hstop := img.stop_lt
  rw [pcpuInitPerCore] at hs
  rcases halloc : memAlloc s.clients.heap (img.stop - img.start) with f | ⟨data, heap⟩
  · simp only [halloc] at hs
    cases hs
  · simp only [halloc] at hs
    rcases Heap.memAlloc_returns hheap (by omega) halloc with
      ⟨rfl, rfl⟩ | ⟨hdata, -, hmem, order, free', hgrant, hfit, hheap'⟩
    · simp only [if_true] at hs
      cases hs
      exact .inl rfl
    · obtain ⟨hcount, b, hb, hptr, hreq⟩ := h.tableBlock htable
      have hbound := (hheap'.bounds List.mem_cons_self).2
      have hbound' := (hheap.bounds hb).2
      have hfit' := (hheap.sound hb).large_enough
      have htop := heap_top
      have hcpuId := img.cpuId_mem
      have hcpuFsBase := img.cpuFsBase_mem
      dsimp only at hbound
      have hid : (toInt i % 2 ^ 32).toNat = i := by
        rw [toInt_small (by omega)]
        omega
      rw [if_neg hdata, allocated, hgrant, fsBaseEntry_eq (by omega) (by omega), hid,
        fsAddress_offset (by omega) hcpuId.1 (by omega),
        fsAddress_offset (by omega) hcpuFsBase.1 (by omega), hmem] at hs
      cases hs
      exact .inr ⟨heap, data, order, free', _, ⟨h, htable, hi, hfit, rfl, hmem, hheap'⟩, rfl⟩

theorem Inv.refused_step (h : Inv img cpus s) {i : ℕ} (hi : i < cpus.count) (hbsp : i ≠ cpus.bsp)
    (hnew : i ∉ s.online) : Inv img cpus { s with refused := i :: s.refused } := by
  refine { h with others := ?_, failed := ?_ }
  · rintro j (hj | hj)
    · exact h.others j (.inl hj)
    · rcases List.mem_cons.mp hj with rfl | hj
      · exact ⟨hi, hbsp⟩
      · exact h.others j (.inr hj)
  · intro j hj
    rcases List.mem_cons.mp hj with rfl | hj
    · exact hnew
    · exact h.failed j hj

namespace NewBlock

variable {heap : Heap.HeapState} {free : Fin 24 → List ℕ} {data order i offset : ℕ}

theorem bound (h : NewBlock img cpus s heap free data order i offset) :
    data + blockSize order ≤ allocRegionTop 23 := (h.heap.bounds List.mem_cons_self).2

theorem fresh (h : NewBlock img cpus s heap free data order i offset) :
    ∀ c ∈ s.clients.live, c.ptr ≠ data ∧
      (c.ptr + blockSize c.order ≤ data ∨ data + blockSize order ≤ c.ptr) := by
  intro c hc
  have hne : c.ptr ≠ data := ((List.pairwise_cons.mp h.heap.distinct).1 c hc).symm
  exact ⟨hne, h.heap.apart (List.mem_cons_of_mem _ hc) List.mem_cons_self hne⟩

theorem tableBlock (h : NewBlock img cpus s heap free data order i offset) :
    ∃ b ∈ s.clients.live, b.ptr = s.allFsBases ∧ 8 * cpus.count ≤ blockSize b.order ∧
      b.ptr + blockSize b.order ≤ allocRegionTop 23 := by
  obtain ⟨-, b, hb, hptr, hreq⟩ := h.inv.tableBlock h.table
  have hmem := List.mem_cons_of_mem (⟨data, order, img.stop - img.start⟩ : Heap.Block) hb
  have hlarge := (h.heap.sound hmem).large_enough
  exact ⟨b, hb, hptr, by omega, (h.heap.bounds hmem).2⟩

/-- An entry of the table is apart from the new block, and from the old ones but its own. -/
theorem entry_apart (h : NewBlock img cpus s heap free data order i offset) {j : ℕ}
    (hj : j < cpus.count) :
    (s.allFsBases + 8 * j + 8 ≤ data ∨ data + blockSize order ≤ s.allFsBases + 8 * j) ∧
    ∀ c ∈ s.clients.live, c.ptr ≠ s.allFsBases →
      c.ptr + blockSize c.order ≤ s.allFsBases + 8 * j ∨ s.allFsBases + 8 * j + 8 ≤ c.ptr := by
  obtain ⟨b, hb, hptr, hfit, -⟩ := h.tableBlock
  constructor
  · have := (h.fresh b hb).2
    omega
  · intro c hc hne
    have := h.heap.apart (List.mem_cons_of_mem _ hc) (List.mem_cons_of_mem _ hb) (by omega)
    omega

theorem cell (h : NewBlock img cpus s heap free data order i offset) {ptr : ℕ}
    (hlow : img.start ≤ ptr) (hhigh : ptr ≤ img.stop) :
    fsAddress offset ptr = data + (ptr - img.start) := by
  have hbound := h.bound
  have hfit := h.fit
  have htop := heap_top
  rw [h.offset_eq]
  exact fsAddress_offset (by omega) hlow hhigh

theorem offset_lt (h : NewBlock img cpus s heap free data order i offset) : offset < 2 ^ 64 := by
  rw [h.offset_eq]
  exact Nat.mod_lt _ (by decide)

theorem frame (h : NewBlock img cpus s heap free data order i offset) (c : ℕ) {ptr n : ℕ}
    (hlow : img.start ≤ ptr) (hhigh : ptr + n ≤ img.stop) (hn : 0 < n) :
    loadBytes (coreWrites img s.memory (s.allFsBases + 8 * i) data i offset)
      (fsAddress (s.fsBase c) ptr) n = loadBytes s.memory (fsAddress (s.fsBase c) ptr) n := by
  obtain ⟨b, -, hptr, hsize, hend⟩ := h.tableBlock
  have hindex := h.index
  have hfit := h.fit
  have hdata := h.inv.cell_apart c hlow hhigh hn h.bound fun b hb _ => (h.fresh b hb).2
  have hentry := h.inv.cell_apart c hlow hhigh hn (x := s.allFsBases + 8 * i) (k := 8) (by omega)
    (h.entry_apart h.index).2
  exact coreWrites_frame hentry (by omega)

/-- The writes are in the new block and in the table. -/
theorem heap_written (h : NewBlock img cpus s heap free data order i offset) :
    Heap.Invariant (withCore img s heap data order i offset).clients.heap
      (withCore img s heap data order i offset).clients.live free := by
  obtain ⟨b, hb, hptr, hsize, -⟩ := h.tableBlock
  have hindex := h.index
  have hfit := h.fit
  have hcpuId := img.cpuId_mem
  have hcpuFsBase := img.cpuFsBase_mem
  apply h.heap.write
  intro a ha
  have hdata : a < data ∨ data + blockSize order ≤ a := by
    by_contra hin
    exact ha _ List.mem_cons_self ⟨by dsimp only; omega, by dsimp only; omega⟩
  have htable : a < b.ptr ∨ b.ptr + blockSize b.order ≤ a := by
    by_contra hin
    exact ha b (List.mem_cons_of_mem _ hb) ⟨by omega, by omega⟩
  rw [h.memory, coreWrites, storeBytes_apply_of_outside (by omega),
    storeBytes_apply_of_outside (by omega), storeBytes_apply_of_outside (by omega)]

theorem blocks (h : NewBlock img cpus s heap free data order i offset) :
    ∀ j ∈ i :: s.online, HasBlock img (withCore img s heap data order i offset) j := by
  intro j hj
  by_cases hji : j = i
  · subst hji
    obtain ⟨b, hb, hptr, -, -⟩ := h.tableBlock
    refine ⟨_, List.mem_cons_self, rfl, ?_, (Function.update_self ..).trans h.offset_eq⟩
    show data ≠ s.allFsBases
    rw [← hptr]
    exact (h.fresh b hb).1.symm
  · obtain ⟨c, hc, hreq, hne, hbase⟩ := h.inv.blocks j ((List.mem_cons.mp hj).resolve_left hji)
    exact ⟨c, List.mem_cons_of_mem _ hc, hreq, hne, (Function.update_of_ne hji ..).trans hbase⟩

theorem ids (h : NewBlock img cpus s heap free data order i offset) (hcount : cpus.count ≤ 2 ^ 27)
    (c : ℕ) :
    loadBytes (coreWrites img s.memory (s.allFsBases + 8 * i) data i offset)
      (fsAddress (Function.update s.fsBase i offset c) img.cpuId) 4 =
        if c ∈ i :: s.online then c else 0 := by
  obtain ⟨hlow, hhigh⟩ := img.cpuId_mem
  have hindex := h.index
  by_cases hc : c = i
  · subst hc
    rw [Function.update_self, if_pos List.mem_cons_self, h.cell hlow (by omega)]
    exact coreWrites_cpuId (by omega)
  · rw [Function.update_of_ne hc, h.frame c hlow hhigh (by omega), h.inv.ids c]
    simp only [List.mem_cons, hc, false_or]

theorem bases (h : NewBlock img cpus s heap free data order i offset) (c : ℕ) :
    loadBytes (coreWrites img s.memory (s.allFsBases + 8 * i) data i offset)
      (fsAddress (Function.update s.fsBase i offset c) img.cpuFsBase) 8 =
        Function.update s.fsBase i offset c := by
  obtain ⟨hlow, hhigh⟩ := img.cpuFsBase_mem
  by_cases hc : c = i
  · subst hc
    rw [Function.update_self, h.cell hlow (by omega)]
    exact coreWrites_cpuFsBase h.offset_lt
  · rw [Function.update_of_ne hc, h.frame c hlow hhigh (by omega), h.inv.bases c]

theorem entries (h : NewBlock img cpus s heap free data order i offset) {j : ℕ}
    (hj : j < cpus.count) :
    loadBytes (coreWrites img s.memory (s.allFsBases + 8 * i) data i offset)
      (s.allFsBases + 8 * j) 8 = Function.update s.fsBase i offset j := by
  have hfit := h.fit
  have hdata := (h.entry_apart hj).1
  by_cases hji : j = i
  · subst hji
    rw [Function.update_self]
    exact coreWrites_entry h.offset_lt (by omega)
  · rw [Function.update_of_ne hji, coreWrites_frame (by omega) (by omega)]
    exact h.inv.table h.table j hj

end NewBlock

/-- The three writes of a core reach none of the variables of the others, and none of the
other entries. -/
theorem Inv.perCore (h : Inv img cpus s) {i : ℕ} (hallow : s.Allows img cpus (.perCore i))
    (hs : s.pcpuInitPerCore img i = .ok s') : Inv img cpus s' := by
  obtain ⟨htable, hi, hbsp, hnew, hnew'⟩ := hallow
  rcases pcpuInitPerCore_spec h hi htable hs with
    rfl | ⟨heap, data, order, free, offset, hblock, rfl⟩
  · exact h.refused_step hi hbsp hnew
  obtain ⟨hcount, b, hb, hptr, hreq⟩ := h.tableBlock htable
  constructor
  case heap => exact ⟨free, hblock.heap_written⟩
  case early => exact fun h0 => absurd h0 htable
  case offline =>
    intro j hj
    have hne : j ≠ i := fun he => hj (he ▸ List.mem_cons_self)
    show Function.update s.fsBase i offset j = 0
    rw [Function.update_of_ne hne]
    exact h.offline j fun hon => hj (List.mem_cons_of_mem _ hon)
  case blocks => exact hblock.blocks
  case others =>
    rintro j (hj | hj)
    · rcases List.mem_cons.mp hj with rfl | hj
      · exact ⟨hi, hbsp⟩
      · exact h.others j (.inl hj)
    · exact h.others j (.inr hj)
  case failed =>
    intro j hj hj'
    rcases List.mem_cons.mp hj' with rfl | hj'
    · exact hnew' hj
    · exact h.failed j hj hj'
  case ids => exact hblock.ids hcount
  case bases => exact hblock.bases
  case tableBlock => exact fun _ => ⟨hcount, b, List.mem_cons_of_mem _ hb, hptr, hreq⟩
  case table => exact fun _ j hj => hblock.entries hj

/-! ### Runs -/

theorem Inv.initial (img : PcpuImage) (cpus : CpuList) (memory : Memory) :
    Inv img cpus (initEarlyPcpu img memory) := by
  have hcpuId := img.cpuId_mem
  have hcpuFsBase := img.cpuFsBase_mem
  have hsep := img.apart
  have hstop := img.stop_lt
  have hid : fsAddress 0 img.cpuId = img.cpuId := fsAddress_zero (by omega)
  have hbase : fsAddress 0 img.cpuFsBase = img.cpuFsBase := fsAddress_zero (by omega)
  constructor
  case heap => exact ⟨_, Heap.initAlloc_invariant _⟩
  case early => exact fun _ => rfl
  case offline => exact fun _ _ => rfl
  case blocks =>
    intro i hi
    cases hi
  case others => rintro i (hi | hi) <;> cases hi
  case failed =>
    intro i hi
    cases hi
  case ids =>
    intro c
    show loadBytes (storeBytes _ _ _ _) (fsAddress 0 img.cpuId) 4 = 0
    rw [hid, hbase, loadBytes_storeBytes_apart (by omega), loadBytes_storeBytes]
    rfl
  case bases =>
    intro c
    show loadBytes (storeBytes _ _ _ _) (fsAddress 0 img.cpuFsBase) 8 = 0
    rw [loadBytes_storeBytes]
    rfl
  case tableBlock => exact fun h => absurd rfl h
  case table => exact fun h => absurd rfl h

theorem Inv.step (h : Inv img cpus s) {e : StartEvent} (hallow : s.Allows img cpus e)
    (hs : s.step img cpus e = .ok s') : Inv img cpus s' := by
  cases e with
  | initPcpu => exact h.initPcpu hallow hs
  | perCore i => exact h.perCore hallow hs
  | others clients =>
    cases hs
    exact h.others_step hallow

/-- The id a core reads: its position, or the zero of the boot processor. -/
theorem Inv.getCpuId_eq (h : Inv img cpus s) (htable : s.allFsBases ≠ 0) (c : ℕ) :
    s.getCpuId img c = if c ∈ s.online then (c : ℤ) else 0 := by
  obtain ⟨hcount, -⟩ := h.tableBlock htable
  rw [getCpuId, h.ids c]
  split_ifs with hc
  · have := (h.others c (.inl hc)).1
    exact toInt_small (by omega)
  · rfl

/-- The base of the position is found in the table. -/
theorem Inv.pcpuGetPointerOf_eq (h : Inv img cpus s) (htable : s.allFsBases ≠ 0) {j : ℕ}
    (hj : j < cpus.count) (ptr : ℕ) :
    s.pcpuGetPointerOf ptr j = fsAddress (s.fsBase j) ptr := by
  obtain ⟨hcount, b, hb, hptr, hreq⟩ := h.tableBlock htable
  obtain ⟨free, hheap⟩ := h.heap
  have hbound := (hheap.bounds hb).2
  have hfit := (hheap.sound hb).large_enough
  have htop := heap_top
  have hentry : fsBaseEntry s.allFsBases j = s.allFsBases + 8 * j := by
    rw [← toInt_small (x := j) (by omega)]
    exact fsBaseEntry_eq (by omega) (by omega)
  rw [pcpuGetPointerOf, hentry, h.table htable j hj]
  rfl

theorem Inv.pcpuGetPointer_eq (h : Inv img cpus s) (c ptr : ℕ) :
    s.pcpuGetPointer img c ptr = fsAddress (s.fsBase c) ptr := by
  rw [pcpuGetPointer, h.bases c]
  rfl

theorem Inv.consistent_iff (h : Inv img cpus s) (hstart : s.Started cpus) :
    s.Consistent img cpus ↔ cpus.bsp = 0 ∧ s.refused = [] := by
  obtain ⟨htable, hothers⟩ := hstart
  have hbsp : s.getCpuId img cpus.bsp = 0 := by
    rw [h.getCpuId_eq htable, if_neg fun hon => (h.others _ (.inl hon)).2 rfl]
  constructor
  · intro hcons
    refine ⟨by_contra fun hne => ?_, List.eq_nil_iff_forall_not_mem.mpr fun i hi => ?_⟩
    · -- the core at position zero has the id of the boot processor
      have hid : s.getCpuId img 0 = 0 := by
        rw [h.getCpuId_eq htable]
        split_ifs <;> rfl
      exact hcons.distinct 0 ((Nat.zero_le _).trans_lt cpus.bsp_lt) _ cpus.bsp_lt
        (fun he => hne he.symm) (hid.trans hbsp.symm)
    · have hid : s.getCpuId img i = 0 := by
        rw [h.getCpuId_eq htable, if_neg (h.failed i hi)]
      obtain ⟨hlt, hne⟩ := h.others i (.inr hi)
      exact hcons.distinct i hlt _ cpus.bsp_lt hne (hid.trans hbsp.symm)
  · intro ⟨hzero, hnone⟩
    have hid : ∀ c < cpus.count, s.getCpuId img c = c := by
      intro c hc
      rw [h.getCpuId_eq htable]
      split_ifs with hon
      · rfl
      · by_contra hne
        have hother : c ≠ cpus.bsp := by
          rintro rfl
          exact hne (by rw [hzero]; rfl)
        rcases hothers c hc hother with hin | hin
        · exact hon hin
        · rw [hnone] at hin
          cases hin
    constructor
    case below =>
      intro c hc
      rw [hid c hc]
      omega
    case distinct =>
      intro c hc d hd hne
      rw [hid c hc, hid d hd]
      omega
    case pointers =>
      intro c hc ptr _ _
      rw [hid c hc, h.pcpuGetPointerOf_eq htable hc, h.pcpuGetPointer_eq]

end Smp

/-- After the start-up of the CPUs of any list, in any order and with anything else going
on in between, the ids are right if and only if the boot processor is the first of the
list and every core got memory for its variables. -/
theorem cpu_ids_consistent_iff (img : PcpuImage) (cpus : CpuList) (memory : Memory) (s : Smp)
    (hrun : Reaches (Smp.step img cpus) (Smp.Allows img cpus) (Smp.initEarlyPcpu img memory) s)
    (hstart : s.Started cpus) :
    s.Consistent img cpus ↔ cpus.bsp = 0 ∧ s.refused = [] := by
  have hinv : Smp.Inv img cpus s := by
    apply hrun.invariant (motive := Smp.Inv img cpus) (Smp.Inv.initial img cpus memory)
    intro u e v hu hallow hv
    exact hu.step hallow hv
  exact hinv.consistent_iff hstart

/-! ### Two CPUs -/

/-- A section with the two variables of this component alone. -/
def smallImage : PcpuImage where
  start := 0xFFFFFFFF80010000
  stop := 0xFFFFFFFF80010010
  cpuId := 0xFFFFFFFF80010000
  cpuFsBase := 0xFFFFFFFF80010008
  kernel_le := by omega
  stop_lt := by omega
  cpuId_mem := by omega
  cpuFsBase_mem := by omega
  apart := by omega

/-- The local APIC ids 0 and 2, with either as the boot processor. -/
def twoCpus (bspLapicId : ℕ) (h : bspLapicId ∈ [0, 2]) : CpuList where
  lapicIds := [0, 2]
  bspLapicId := bspLapicId
  nodup := by decide
  lapicId_lt := by decide
  bsp_mem := h

/-- The start-up of a single core with nothing else going on. -/
def startsUp (cpus : CpuList) (core : ℕ) : Bool :=
  leadsTo (Smp.step smallImage cpus)
    (fun s e => match e with
      | .initPcpu => decide (s.allFsBases = 0)
      | .perCore i => decide (s.allFsBases ≠ 0 ∧ i < cpus.count ∧ i ≠ cpus.bsp ∧ i ∉ s.online ∧
          i ∉ s.refused)
      | .others _ => false)
    (fun s => decide (s.allFsBases ≠ 0 ∧ s.online = [core] ∧ s.refused = []))
    (Smp.initEarlyPcpu smallImage fun _ => 0) [.initPcpu, .perCore core]

theorem exists_start (cpus : CpuList) (core : ℕ) (h : startsUp cpus core = true) :
    ∃ s, Reaches (Smp.step smallImage cpus) (Smp.Allows smallImage cpus)
        (Smp.initEarlyPcpu smallImage fun _ => 0) s ∧
      s.allFsBases ≠ 0 ∧ s.online = [core] ∧ s.refused = [] := by
  obtain ⟨s, hrun, htest⟩ := reaches_of_leadsTo (Smp.Allows smallImage cpus) (by
    intro s e he
    cases e with
    | initPcpu =>
      rw [decide_eq_true_eq] at he
      exact he
    | perCore i =>
      rw [decide_eq_true_eq] at he
      exact he
    | others clients => cases he) h
  exact ⟨s, hrun, of_decide_eq_true htest⟩

theorem cpu_ids_consistent_two :
    ∃ s, Reaches (Smp.step smallImage (twoCpus 0 (by decide)))
        (Smp.Allows smallImage (twoCpus 0 (by decide)))
        (Smp.initEarlyPcpu smallImage fun _ => 0) s ∧
      s.Started (twoCpus 0 (by decide)) ∧
      s.Consistent smallImage (twoCpus 0 (by decide)) := by
  obtain ⟨s, hrun, htable, honline, hrefused⟩ :=
    exists_start (twoCpus 0 (by decide)) 1 (by decide +kernel)
  have hstart : s.Started (twoCpus 0 (by decide)) := by
    refine ⟨htable, fun i hi hne => .inl ?_⟩
    have hcount : (twoCpus 0 (by decide)).count = 2 := rfl
    have hbsp : (twoCpus 0 (by decide)).bsp = 0 := rfl
    rw [honline, List.mem_singleton]
    omega
  exact ⟨s, hrun, hstart, (cpu_ids_consistent_iff _ _ _ s hrun hstart).mpr ⟨rfl, hrefused⟩⟩

/-- The boot processor second: both CPUs have the id zero. -/
theorem cpu_ids_not_consistent :
    ¬ ∀ (img : PcpuImage) (cpus : CpuList) (memory : Memory) (s : Smp),
      Reaches (Smp.step img cpus) (Smp.Allows img cpus) (Smp.initEarlyPcpu img memory) s →
        s.Started cpus → s.Consistent img cpus := by
  intro hall
  obtain ⟨s, hrun, htable, honline, -⟩ :=
    exists_start (twoCpus 2 (by decide)) 0 (by decide +kernel)
  have hcount : (twoCpus 2 (by decide)).count = 2 := rfl
  have hbsp : (twoCpus 2 (by decide)).bsp = 1 := by decide
  have hstart : s.Started (twoCpus 2 (by decide)) := by
    refine ⟨htable, fun i hi hne => .inl ?_⟩
    rw [honline, List.mem_singleton]
    omega
  have hinv : Smp.Inv smallImage (twoCpus 2 (by decide)) s :=
    hrun.invariant (motive := Smp.Inv smallImage (twoCpus 2 (by decide)))
      (Smp.Inv.initial _ _ _) fun _ _ _ hu hallow hv => hu.step hallow hv
  have hcons := (hinv.consistent_iff hstart).mp (hall _ _ _ s hrun hstart)
  omega

end TomatOS.Thread
