import TomatOS.Heap.Alloc
import Mathlib.Data.Set.Lattice
import Mathlib.Order.Bounds.Basic
import Mathlib.Order.CompletePartialOrder
import Mathlib.Algebra.Order.Ring.Nat

/-! The garbage-collected heap of `kernel/mem/gc/gc.c`: 27 regions of 512GB for
objects from 32 bytes to 2GB, handed out at a watermark; nothing is freed yet. A
request of at most 1GB from a region with room gets a fresh object of the least
order. The others go wrong: up to 2GB the order computed is past the last one,
beyond the shift is out of range, and an empty region is not noticed before the
header of the object is written. -/

namespace TomatOS.Gc

open Foundation.LinkedMemory Foundation.Transition
open Heap (sizeClassFrom)

def gcBase : ℕ := 0xFFFF810000000000

def gcRegionBottom (order : ℕ) : ℕ := order * size512GB + gcBase

def gcRegionTop (order : ℕ) : ℕ := (order + 1) * size512GB + gcBase

/-- `gc_region_t`, with 0 for the null pointer. -/
structure GcRegion where
  freelist : ℕ
  watermark : ℕ
  top : ℕ

/-- `m_gc_global_regions` and the memory the objects lie in. -/
structure GcHeap where
  regions : Fin 27 → GcRegion
  memory : Memory

/-- A shift of the `int` 1 by its width or more, a write through the null pointer. C leaves
`1 << 31` undefined too; clang, which builds the kernel, computes the sign bit. -/
inductive Fault where
  | intShift
  | nullWrite
  deriving DecidableEq

abbrev Result (α : Type) := Except Fault α

def GcHeap.setRegion (h : GcHeap) (order : Fin 27) (region : GcRegion) : GcHeap :=
  { h with regions := Function.update h.regions order region }

def gcInit (memory : Memory) : GcHeap where
  regions := fun i => ⟨0, gcRegionBottom i, gcRegionTop i⟩
  memory := memory

/-- The rounded size and the order of a request; the smallest class is 32 bytes. -/
def sizeClass (size : ℕ) : Result (ℕ × ℕ) :=
  match sizeClassFrom 5 size with
  | some c => .ok c
  | none => .error .intShift

/-- The locked part: a block of the free list, else the block at the watermark, else
nothing. -/
def takeBlock (h : GcHeap) (order : Fin 27) (alignedSize : ℕ) : ℕ × GcHeap :=
  let region := h.regions order
  if region.freelist ≠ 0 then
    (region.freelist, h.setRegion order { region with freelist := next h.memory region.freelist })
  else if region.watermark < region.top then
    (region.watermark,
      h.setRegion order { region with watermark := region.watermark + alignedSize })
  else (0, h)

/-- The offset of `VTable` in an object is that of the runtime's headers. -/
def tdnHostGcAlloc (vtableOffset : ℕ) (h : GcHeap) (vtable size _alignment : ℕ) :
    Result (ℕ × GcHeap) := do
  let (alignedSize, order) ← sizeClass size
  if hi : order < 27 then
    let (block, h) := takeBlock h ⟨order, hi⟩ alignedSize
    if block = 0 then .error .nullWrite
    else return (block, { h with memory := setNext h.memory (block + vtableOffset) vtable })
  else return (0, h)

/-! ### Runs -/

/-- The bytes of an object of the given order. -/
def objectSize (order : ℕ) : ℕ := 2 ^ (order + 5)

/-- An object that was handed out. -/
structure GcObject where
  ptr : ℕ
  order : ℕ

def bytesAt (ptr order : ℕ) : Set ℕ := {a | ptr ≤ a ∧ a < ptr + objectSize order}

structure Mutator where
  heap : GcHeap
  objects : List GcObject

/-- One call, as its arguments. -/
structure Request where
  vtable : ℕ
  size : ℕ
  alignment : ℕ

/-- The record of an object, none for the null pointer. -/
def granted (ptr size : ℕ) : List GcObject :=
  if ptr = 0 then []
  else
    match sizeClass size with
    | .ok (_, order) => [⟨ptr, order⟩]
    | .error _ => []

def Mutator.step (vtableOffset : ℕ) (s : Mutator) (r : Request) : Result Mutator := do
  let (ptr, heap) ← tdnHostGcAlloc vtableOffset s.heap r.vtable r.size r.alignment
  return ⟨heap, granted ptr r.size ++ s.objects⟩

/-- The states after `gc_init` and any calls that returned. -/
def Reachable (vtableOffset : ℕ) (s : Mutator) : Prop :=
  ∃ memory, Reaches (Mutator.step vtableOffset) (fun _ r => r.size < 2 ^ 64) ⟨gcInit memory, []⟩ s

/-- The region of the order has neither a free block nor room for one. -/
def Exhausted (h : GcHeap) (order : ℕ) : Prop :=
  ∀ hi : order < 27, (h.regions ⟨order, hi⟩).freelist = 0 ∧
    (h.regions ⟨order, hi⟩).top ≤ (h.regions ⟨order, hi⟩).watermark

/-- A request whose least order is `order`: up to 2GB and with room, it gets an
object inside the region of that order and apart from all earlier ones; otherwise it
gets null and nothing changes. -/
def Served (vtableOffset : ℕ) (s : Mutator) (r : Request) (order : ℕ) : Prop :=
  (r.size ≤ 2 ^ 31 ∧ ¬ Exhausted s.heap order →
    ∃ p h', tdnHostGcAlloc vtableOffset s.heap r.vtable r.size r.alignment = .ok (p, h') ∧
      p ≠ 0 ∧ gcRegionBottom order ≤ p ∧ p + objectSize order ≤ gcRegionTop order ∧
      ∀ o ∈ s.objects, Disjoint (bytesAt o.ptr o.order) (bytesAt p order)) ∧
  (¬ (r.size ≤ 2 ^ 31 ∧ ¬ Exhausted s.heap order) →
    tdnHostGcAlloc vtableOffset s.heap r.vtable r.size r.alignment = .ok (0, s.heap))

/-! ### The invariant -/

/-- One region: its free list stays empty and its watermark aligned within its
window. -/
structure RegionInv (region : GcRegion) (order : ℕ) : Prop where
  freelist : region.freelist = 0
  top : region.top = gcRegionTop order
  bottom_le : gcRegionBottom order ≤ region.watermark
  le_top : region.watermark ≤ gcRegionTop order
  aligned : objectSize order ∣ region.watermark

/-- Every object lies below the watermark of its order. The last region is never
used. -/
structure Invariant (s : Mutator) : Prop where
  region : ∀ i : Fin 27, RegionInv (s.heap.regions i) i
  last : (s.heap.regions 26).watermark = gcRegionBottom 26
  object : ∀ o ∈ s.objects, ∃ i : Fin 27, o.order = i ∧ gcRegionBottom i ≤ o.ptr ∧
    o.ptr + objectSize i ≤ (s.heap.regions i).watermark

theorem objectSize_dvd_bottom {order : ℕ} (h : order < 27) : objectSize order ∣ gcRegionBottom order := by
  have hdvd : objectSize order ∣ size512GB := Nat.pow_dvd_pow 2 (show order + 5 ≤ 39 by omega)
  exact Nat.dvd_add (hdvd.mul_left order) (hdvd.trans (by decide))

theorem objectSize_dvd_top {order : ℕ} (h : order < 27) : objectSize order ∣ gcRegionTop order := by
  have hdvd : objectSize order ∣ size512GB := Nat.pow_dvd_pow 2 (show order + 5 ≤ 39 by omega)
  exact Nat.dvd_add (hdvd.mul_left (order + 1)) (hdvd.trans (by decide))

theorem gcRegionTop_le_bottom {i j : ℕ} (h : i < j) : gcRegionTop i ≤ gcRegionBottom j := by
  unfold gcRegionTop gcRegionBottom
  have : (i + 1) * size512GB ≤ j * size512GB := Nat.mul_le_mul_right _ h
  omega

theorem gcInit_invariant (memory : Memory) : Invariant ⟨gcInit memory, []⟩ where
  region := fun i => {
    freelist := rfl
    top := rfl
    bottom_le := Nat.le_refl _
    le_top := by
      show gcRegionBottom i ≤ gcRegionTop i
      unfold gcRegionBottom gcRegionTop
      rw [Nat.add_mul]
      omega
    aligned := objectSize_dvd_bottom i.isLt }
  last := congrArg gcRegionBottom rfl
  object := fun _ ho => absurd ho List.not_mem_nil

variable {vtableOffset : ℕ} {s s' : Mutator} {r : Request} {order : ℕ}

/-! ### One call -/

section Call

variable {h : GcHeap} {vtable size alignment : ℕ} {i : Fin 27}

theorem alloc_eq (hc : sizeClass size = .ok (objectSize i, (i : ℕ))) :
    tdnHostGcAlloc vtableOffset h vtable size alignment =
      if (takeBlock h i (objectSize i)).1 = 0 then .error .nullWrite
      else .ok ((takeBlock h i (objectSize i)).1, { (takeBlock h i (objectSize i)).2 with
        memory := setNext (takeBlock h i (objectSize i)).2.memory
          ((takeBlock h i (objectSize i)).1 + vtableOffset) vtable }) := by
  unfold tdnHostGcAlloc
  rw [hc]
  simp only [bind, Except.bind, dif_pos i.isLt]
  rfl

theorem alloc_room (hc : sizeClass size = .ok (objectSize i, (i : ℕ)))
    (hf : (h.regions i).freelist = 0) (hw : (h.regions i).watermark ≠ 0)
    (hlt : (h.regions i).watermark < (h.regions i).top) :
    tdnHostGcAlloc vtableOffset h vtable size alignment =
      .ok ((h.regions i).watermark,
        { h.setRegion i { h.regions i with watermark := (h.regions i).watermark + objectSize i } with
          memory := setNext h.memory ((h.regions i).watermark + vtableOffset) vtable }) := by
  have htake : takeBlock h i (objectSize i) = ((h.regions i).watermark,
      h.setRegion i { h.regions i with watermark := (h.regions i).watermark + objectSize i }) := by
    unfold takeBlock
    rw [if_neg (not_not_intro hf), if_pos hlt]
  rw [alloc_eq hc, htake, if_neg hw]
  rfl

/-- A region without room leads to a write through the null pointer. -/
theorem alloc_full (hc : sizeClass size = .ok (objectSize i, (i : ℕ)))
    (hf : (h.regions i).freelist = 0) (hle : (h.regions i).top ≤ (h.regions i).watermark) :
    tdnHostGcAlloc vtableOffset h vtable size alignment = .error .nullWrite := by
  have htake : takeBlock h i (objectSize i) = (0, h) := by
    unfold takeBlock
    rw [if_neg (not_not_intro hf), if_neg (not_lt.mpr hle)]
  rw [alloc_eq hc, htake, if_pos rfl]

/-- Between 1GB and 2GB the order is past the last region. -/
theorem alloc_signBit (h1 : 2 ^ 30 < size) (h2 : size ≤ 2 ^ 31) :
    tdnHostGcAlloc vtableOffset h vtable size alignment = .ok (0, h) := by
  have hc := Heap.sizeClassFrom_signBit (show 1 ≤ 5 by decide) (by decide) h1 h2
  unfold tdnHostGcAlloc sizeClass
  rw [hc]
  rfl

theorem alloc_outOfRange (h1 : 2 ^ 31 < size) (h2 : size < 2 ^ 64) :
    tdnHostGcAlloc vtableOffset h vtable size alignment = .error .intShift := by
  have hc := Heap.sizeClassFrom_none (show 1 ≤ 5 by decide) (by decide) h1 h2
  unfold tdnHostGcAlloc sizeClass
  rw [hc]
  rfl

/-- Up to 1GB the order is the least that holds the request, and not the last one. -/
theorem sizeClass_least (hsize : size ≤ 2 ^ 30) :
    ∃ i : Fin 27, sizeClass size = .ok (objectSize i, (i : ℕ)) ∧ i ≠ 26 ∧
      IsLeast {o | size ≤ objectSize o} (i : ℕ) := by
  obtain ⟨order, hc, hle, hleast⟩ :=
    Heap.sizeClassFrom_least (show 1 ≤ 5 by decide) (by decide) hsize
  have h25 : order ≤ 25 := hleast 25 hsize
  refine ⟨⟨order, by omega⟩, ?_, ?_, hle, fun o ho => hleast o ho⟩
  · rw [sizeClass, hc]
    rfl
  · intro heq
    have : order = 26 := congrArg Fin.val heq
    omega

end Call

theorem RegionInv.watermark_ne_zero {region : GcRegion} (hr : RegionInv region order) :
    region.watermark ≠ 0 := by
  have := hr.bottom_le
  unfold gcRegionBottom gcBase at this
  omega

/-- A watermark below the top leaves room for a whole object. -/
theorem RegionInv.room {region : GcRegion} (hr : RegionInv region order) (ho : order < 27)
    (hlt : region.watermark < region.top) :
    region.watermark + objectSize order ≤ gcRegionTop order := by
  rw [hr.top] at hlt
  obtain ⟨a, ha⟩ := hr.aligned
  obtain ⟨b, hb⟩ := objectSize_dvd_top ho
  rw [ha, hb] at hlt ⊢
  have hab : a < b := lt_of_mul_lt_mul_left hlt (Nat.zero_le _)
  calc objectSize order * a + objectSize order = objectSize order * (a + 1) :=
        (Nat.mul_succ _ a).symm
    _ ≤ objectSize order * b := Nat.mul_le_mul_left _ hab

theorem RegionInv.bump {region : GcRegion} (hr : RegionInv region order) (ho : order < 27)
    (hlt : region.watermark < region.top) :
    RegionInv { region with watermark := region.watermark + objectSize order } order where
  freelist := hr.freelist
  top := hr.top
  bottom_le := hr.bottom_le.trans (Nat.le_add_right _ _)
  le_top := hr.room ho hlt
  aligned := Nat.dvd_add hr.aligned (Nat.dvd_refl _)

/-- The block at a watermark is apart from every object. -/
theorem Invariant.fresh (hinv : Invariant s) {i : Fin 27}
    (hlt : (s.heap.regions i).watermark < (s.heap.regions i).top) {o : GcObject}
    (ho : o ∈ s.objects) :
    Disjoint (bytesAt o.ptr o.order) (bytesAt (s.heap.regions i).watermark i) := by
  obtain ⟨j, hj, hbot, hend⟩ := hinv.object o ho
  have hroom := (hinv.region i).room i.isLt hlt
  have hwi := (hinv.region i).bottom_le
  have hwj := (hinv.region j).le_top
  rw [Set.disjoint_left]
  rintro a ⟨ha, ha'⟩ ⟨hb, hb'⟩
  rw [hj] at ha'
  rcases lt_trichotomy (i : ℕ) j with hij | hij | hij
  · have := gcRegionTop_le_bottom hij
    omega
  · obtain rfl := Fin.ext hij
    omega
  · have := gcRegionTop_le_bottom hij
    omega

theorem Invariant.alloc (hinv : Invariant s) {i : Fin 27} (hi : i ≠ 26)
    (hlt : (s.heap.regions i).watermark < (s.heap.regions i).top) (memory : Memory) :
    Invariant ⟨{ s.heap.setRegion i { s.heap.regions i with
        watermark := (s.heap.regions i).watermark + objectSize i } with memory := memory },
      ⟨(s.heap.regions i).watermark, i⟩ :: s.objects⟩ := by
  refine ⟨fun j => ?_, ?_, fun o ho => ?_⟩
  · simp only [GcHeap.setRegion, Function.update_apply]
    split_ifs with hj
    · rw [hj]
      exact (hinv.region i).bump i.isLt hlt
    · exact hinv.region j
  · simp only [GcHeap.setRegion, Function.update_of_ne hi.symm]
    exact hinv.last
  · rcases List.mem_cons.mp ho with rfl | ho
    · refine ⟨i, rfl, (hinv.region i).bottom_le, ?_⟩
      simp only [GcHeap.setRegion, Function.update_self]
      exact Nat.le_refl _
    · obtain ⟨j, hj, hbot, hend⟩ := hinv.object o ho
      refine ⟨j, hj, hbot, hend.trans ?_⟩
      simp only [GcHeap.setRegion, Function.update_apply]
      split_ifs with hji
      · rw [hji]
        exact Nat.le_add_right _ _
      · exact Nat.le_refl _

theorem alloc_cases (vtableOffset : ℕ) (hinv : Invariant s) (hsize : r.size < 2 ^ 64) :
    (∃ i : Fin 27, r.size ≤ 2 ^ 30 ∧ i ≠ 26 ∧ IsLeast {o | r.size ≤ objectSize o} (i : ℕ) ∧
      sizeClass r.size = .ok (objectSize i, (i : ℕ)) ∧
      if (s.heap.regions i).watermark < (s.heap.regions i).top then
        ∃ memory, tdnHostGcAlloc vtableOffset s.heap r.vtable r.size r.alignment =
          .ok ((s.heap.regions i).watermark, { s.heap.setRegion i { s.heap.regions i with
            watermark := (s.heap.regions i).watermark + objectSize i } with memory := memory })
      else tdnHostGcAlloc vtableOffset s.heap r.vtable r.size r.alignment = .error .nullWrite) ∨
    (2 ^ 30 < r.size ∧ r.size ≤ 2 ^ 31 ∧
      tdnHostGcAlloc vtableOffset s.heap r.vtable r.size r.alignment = .ok (0, s.heap)) ∨
    (2 ^ 31 < r.size ∧
      tdnHostGcAlloc vtableOffset s.heap r.vtable r.size r.alignment = .error .intShift) := by
  by_cases h30 : r.size ≤ 2 ^ 30
  · obtain ⟨i, hc, hi, hleast⟩ := sizeClass_least h30
    refine .inl ⟨i, h30, hi, hleast, hc, ?_⟩
    have hr := hinv.region i
    split_ifs with hlt
    · exact ⟨_, alloc_room hc hr.freelist hr.watermark_ne_zero hlt⟩
    · exact alloc_full hc hr.freelist (not_lt.mp hlt)
  · by_cases h31 : r.size ≤ 2 ^ 31
    · exact .inr (.inl ⟨by omega, h31, alloc_signBit (by omega) h31⟩)
    · exact .inr (.inr ⟨by omega, alloc_outOfRange (by omega) hsize⟩)

theorem step_invariant (hinv : Invariant s) (hsize : r.size < 2 ^ 64)
    (hs : s.step vtableOffset r = .ok s') : Invariant s' := by
  unfold Mutator.step at hs
  rcases alloc_cases vtableOffset hinv hsize with
    ⟨i, -, hi, -, hc, hcall⟩ | ⟨-, -, hcall⟩ | ⟨-, hcall⟩
  · split_ifs at hcall with hlt
    · obtain ⟨memory, hcall⟩ := hcall
      have hgrant : granted (s.heap.regions i).watermark r.size =
          [⟨(s.heap.regions i).watermark, i⟩] := by
        unfold granted
        rw [if_neg (hinv.region i).watermark_ne_zero, hc]
      rw [hcall] at hs
      simp only [bind, Except.bind, pure, Except.pure, hgrant] at hs
      cases hs
      exact hinv.alloc hi hlt memory
    · rw [hcall] at hs
      cases hs
  · rw [hcall] at hs
    cases hs
    exact hinv
  · rw [hcall] at hs
    cases hs

theorem Reachable.invariant (h : Reachable vtableOffset s) : Invariant s := by
  obtain ⟨memory, hrun⟩ := h
  apply hrun.invariant (motive := Invariant)
  · exact gcInit_invariant memory
  · intro u r v hu hr hv
    exact step_invariant hu hr hv

/-! ### When a request is served -/

theorem exhausted_iff (hinv : Invariant s) (i : Fin 27) :
    Exhausted s.heap i ↔ ¬ (s.heap.regions i).watermark < (s.heap.regions i).top := by
  rw [not_lt]
  constructor
  · intro h
    exact (h i.isLt).2
  · intro hle _
    exact ⟨(hinv.region i).freelist, hle⟩

/-- In every state of a run a request is served as it should be exactly when it is
for at most 1GB and the region of its order has room. -/
theorem served_iff (hrun : Reachable vtableOffset s) (hsize : r.size < 2 ^ 64)
    (hleast : IsLeast {o | r.size ≤ objectSize o} order) :
    Served vtableOffset s r order ↔ r.size ≤ 2 ^ 30 ∧ ¬ Exhausted s.heap order := by
  have hinv := hrun.invariant
  rcases alloc_cases vtableOffset hinv hsize with
    ⟨i, h30, -, hi, -, hcall⟩ | ⟨h30, h31, hcall⟩ | ⟨h31, hcall⟩
  · obtain rfl : (i : ℕ) = order := hi.unique hleast
    have hr := hinv.region i
    have hex := exhausted_iff hinv i
    split_ifs at hcall with hlt
    · obtain ⟨memory, hcall⟩ := hcall
      have hroom : ¬ Exhausted s.heap i := fun h => hex.mp h hlt
      refine iff_of_true ⟨fun _ => ?_, fun hnot => absurd ⟨by omega, hroom⟩ hnot⟩ ⟨h30, hroom⟩
      exact ⟨_, _, hcall, hr.watermark_ne_zero, hr.bottom_le, hr.room i.isLt hlt,
        fun o ho => hinv.fresh hlt ho⟩
    · -- the write through null
      have hfull : Exhausted s.heap i := hex.mpr hlt
      refine iff_of_false (fun h => ?_) fun h => h.2 hfull
      have := h.2 fun hboth => hboth.2 hfull
      rw [hcall] at this
      cases this
  · -- the last region has room, but null is returned
    have h26 : order = 26 := by
      have hle : order ≤ 26 := hleast.2 (show r.size ≤ objectSize 26 from h31)
      have hge : ¬ order ≤ 25 := by
        intro h25
        have hmono : objectSize order ≤ objectSize 25 := Nat.pow_le_pow_right (by decide) (by omega)
        have hin : r.size ≤ objectSize order := hleast.1
        have h25' : objectSize 25 = 2 ^ 30 := rfl
        omega
      omega
    subst h26
    have hroom : ¬ Exhausted s.heap 26 := by
      intro h
      have hle := (h (by decide)).2
      have hlast := hinv.last
      have htop := (hinv.region 26).top
      rw [show (⟨26, by decide⟩ : Fin 27) = 26 from rfl, hlast, htop] at hle
      exact absurd hle (by decide)
    refine iff_of_false (fun h => ?_) fun h => absurd h.1 (by omega)
    obtain ⟨p, h', hp, hne, -⟩ := h.1 ⟨h31, hroom⟩
    rw [hcall] at hp
    cases hp
    exact hne rfl
  · refine iff_of_false (fun h => ?_) fun h => absurd h.1 (by omega)
    have := h.2 fun hboth => absurd hboth.1 (by omega)
    rw [hcall] at this
    cases this

/-- The state after `gc_init`. -/
def started : Mutator := ⟨gcInit fun _ => 0, []⟩

theorem started_reachable : Reachable 0 started := ⟨fun _ => 0, Reaches.refl _⟩

theorem served_first : Served 0 started ⟨1, 24, 8⟩ 0 := by
  apply (served_iff (r := ⟨1, 24, 8⟩) started_reachable (by decide) ?_).mpr
  · refine ⟨by decide, fun h => ?_⟩
    exact absurd (h (by decide)).2 (by decide)
  · exact ⟨show 24 ≤ objectSize 0 by decide, fun o _ => Nat.zero_le o⟩

/-- A first object of 2GB is refused although its region is empty. -/
theorem object_of_2GB_refused :
    ¬ ∀ (vtableOffset : ℕ) (s : Mutator) (r : Request) (order : ℕ), Reachable vtableOffset s →
      r.size < 2 ^ 64 → IsLeast {o | r.size ≤ objectSize o} order →
      Served vtableOffset s r order := by
  intro h
  have hleast : IsLeast {o | 2 ^ 31 ≤ objectSize o} 26 := by
    refine ⟨show 2 ^ 31 ≤ objectSize 26 by decide, fun o ho => ?_⟩
    have := (Nat.pow_le_pow_iff_right (show 1 < 2 by decide)).mp ho
    omega
  have hserved := h 0 started ⟨1, 2 ^ 31, 8⟩ 26 started_reachable (by decide) hleast
  obtain ⟨p, h', hp, hne, -⟩ := hserved.1 ⟨Nat.le_refl _, fun hex =>
    absurd (hex (by decide)).2 (by decide)⟩
  rw [alloc_signBit (by decide) (by decide)] at hp
  cases hp
  exact hne rfl

end TomatOS.Gc
