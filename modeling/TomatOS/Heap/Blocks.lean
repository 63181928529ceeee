import TomatOS.Heap.Alloc
import Mathlib.Data.Set.Lattice
import Mathlib.Order.CompletePartialOrder
import Mathlib.Algebra.Order.Ring.Nat

/-! The blocks of the kernel heap. Every block of an order lies aligned between the
bottom of the order's window and its watermark, is on the free list or held by one
client, and never both. Blocks of one order are apart because they are aligned,
blocks of different orders because their windows are. -/

namespace TomatOS.Heap

open Foundation.LinkedMemory Foundation.Transition

/-! ### Where blocks lie -/

/-- A block of the given order below the watermark `w`. -/
structure IsBlock (w order p : ℕ) : Prop where
  aligned : blockSize order ∣ p
  bottom_le : allocRegionBottom order ≤ p
  end_le : p + blockSize order ≤ w

theorem blockSize_pos (order : ℕ) : 0 < blockSize order := by
  unfold blockSize
  exact Nat.two_pow_pos _

theorem eight_le_blockSize (order : ℕ) : 8 ≤ blockSize order := by
  unfold blockSize
  rw [Nat.pow_add]
  have : 0 < 2 ^ order := Nat.two_pow_pos order
  omega

theorem blockSize_dvd_size512GB {order : ℕ} (h : order < 24) : blockSize order ∣ size512GB :=
  Nat.pow_dvd_pow 2 (show order + 3 ≤ 39 by omega)

theorem blockSize_dvd_bottom {order : ℕ} (h : order < 24) :
    blockSize order ∣ allocRegionBottom order := by
  have hbase : size512GB ∣ allocBase := by decide
  exact Nat.dvd_add ((blockSize_dvd_size512GB h).mul_left order)
    ((blockSize_dvd_size512GB h).trans hbase)

theorem blockSize_dvd_top {order : ℕ} (h : order < 24) :
    blockSize order ∣ allocRegionTop order := by
  have hbase : size512GB ∣ allocBase := by decide
  exact Nat.dvd_add ((blockSize_dvd_size512GB h).mul_left (order + 1))
    ((blockSize_dvd_size512GB h).trans hbase)

theorem allocRegionTop_le_bottom {i j : ℕ} (h : i < j) :
    allocRegionTop i ≤ allocRegionBottom j := by
  unfold allocRegionTop allocRegionBottom
  have : (i + 1) * size512GB ≤ j * size512GB := Nat.mul_le_mul_right _ h
  omega

/-- The windows end before the top of the address space. -/
theorem allocRegionTop_lt {order : ℕ} (h : order < 24) : allocRegionTop order < 2 ^ 64 := by
  unfold allocRegionTop size512GB allocBase
  omega

/-- A multiple below another one ends before it starts. -/
theorem add_le_of_dvd_of_lt {n p q : ℕ} (hp : n ∣ p) (hq : n ∣ q) (h : p < q) : p + n ≤ q := by
  obtain ⟨a, rfl⟩ := hp
  obtain ⟨b, rfl⟩ := hq
  have hab : a < b := lt_of_mul_lt_mul_left h (Nat.zero_le n)
  calc n * a + n = n * (a + 1) := (Nat.mul_succ n a).symm
    _ ≤ n * b := Nat.mul_le_mul_left n hab

theorem IsBlock.apart {i j w w' p q : ℕ} (hp : IsBlock w i p) (hq : IsBlock w' j q)
    (hw : w ≤ allocRegionTop i) (hw' : w' ≤ allocRegionTop j) (hne : p ≠ q) :
    p + blockSize i ≤ q ∨ q + blockSize j ≤ p := by
  have hpi := hp.end_le
  have hqj := hq.end_le
  have hpb := hp.bottom_le
  have hqb := hq.bottom_le
  rcases Nat.lt_trichotomy i j with h | rfl | h
  · have := allocRegionTop_le_bottom h
    omega
  · rcases Nat.lt_or_gt_of_ne hne with h | h
    · exact .inl (add_le_of_dvd_of_lt hp.aligned hq.aligned h)
    · exact .inr (add_le_of_dvd_of_lt hq.aligned hp.aligned h)
  · have := allocRegionTop_le_bottom h
    omega

/-- The address gives the order back. -/
theorem IsBlock.orderOf_eq {i w p : ℕ} (h : IsBlock w i p) (hi : i < 24)
    (hw : w ≤ allocRegionTop i) : orderOf p = i := by
  have hb := h.bottom_le
  have he := h.end_le
  have hpos := blockSize_pos i
  unfold allocRegionBottom size512GB allocBase at hb
  unfold allocRegionTop size512GB allocBase at hw
  unfold orderOf size512GB allocBase
  omega

theorem IsBlock.ne_zero {i w p : ℕ} (h : IsBlock w i p) : p ≠ 0 := by
  have hb := h.bottom_le
  unfold allocRegionBottom allocBase at hb
  omega

theorem IsBlock.mono {i w w' p : ℕ} (h : IsBlock w i p) (hw : w ≤ w') : IsBlock w' i p where
  aligned := h.aligned
  bottom_le := h.bottom_le
  end_le := h.end_le.trans hw

/-! ### The size classes -/

theorem sizeClass_spec {size : ℕ} (h : size ≤ size1GB) :
    ∃ order, sizeClass size = .ok (blockSize order, order) ∧ size ≤ blockSize order ∧
      ∀ o, size ≤ blockSize o → order ≤ o := by
  obtain ⟨order, hc, hle, hleast⟩ := sizeClassFrom_least (show 1 ≤ 3 by decide) (by decide) h
  refine ⟨order, ?_, hle, hleast⟩
  rw [sizeClass, hc]
  rfl

/-! ### The invariant -/

/-- One region: its window, its watermark, and the blocks on its free list. -/
structure RegionInv (m : Memory) (region : AllocRegion) (order : ℕ) (free : List ℕ) : Prop where
  top_eq : region.top = allocRegionTop order
  bottom_le : allocRegionBottom order ≤ region.watermark
  watermark_le : region.watermark ≤ allocRegionTop order
  aligned : blockSize order ∣ region.watermark
  linked : Linked m region.freelist free
  isBlock : ∀ p ∈ free, IsBlock region.watermark order p
  nodup : free.Nodup

/-- A live block lies below the watermark of its order and is large enough. -/
def Held (regions : Fin 24 → AllocRegion) (b : Block) : Prop :=
  ∃ i : Fin 24, b.order = i ∧ IsBlock (regions i).watermark i b.ptr ∧ b.requested ≤ blockSize i

/-- The whole heap, with the free list of each order. -/
structure Invariant (h : HeapState) (live : List Block) (free : Fin 24 → List ℕ) : Prop where
  region : ∀ i, RegionInv h.memory (h.regions i) i (free i)
  held : ∀ b ∈ live, Held h.regions b
  distinct : live.Pairwise fun b c => b.ptr ≠ c.ptr
  notFree : ∀ i, ∀ p ∈ free i, ∀ b ∈ live, b.ptr ≠ p

theorem Held.mono {regions regions' : Fin 24 → AllocRegion} {b : Block} (h : Held regions b)
    (hw : ∀ i, (regions i).watermark ≤ (regions' i).watermark) : Held regions' b := by
  obtain ⟨i, hi, hb, hr⟩ := h
  exact ⟨i, hi, hb.mono (hw i), hr⟩

variable {h : HeapState} {live : List Block} {free : Fin 24 → List ℕ}

theorem IsBlock.order_inj {w w' p : ℕ} {i j : Fin 24} (hi : IsBlock w i p) (hj : IsBlock w' j p)
    (hw : w ≤ allocRegionTop i) (hw' : w' ≤ allocRegionTop j) : i = j := by
  apply Fin.ext
  rw [← hi.orderOf_eq i.isLt hw, hj.orderOf_eq j.isLt hw']

theorem initAlloc_invariant (memory : Memory) : Invariant (initAlloc memory) [] fun _ => [] where
  region := fun i => {
    top_eq := rfl
    bottom_le := Nat.le_refl _
    watermark_le := by
      show allocRegionBottom i ≤ allocRegionTop i
      unfold allocRegionBottom allocRegionTop
      rw [Nat.add_mul]
      omega
    aligned := blockSize_dvd_bottom i.isLt
    linked := Linked.nil
    isBlock := fun _ hp => absurd hp List.not_mem_nil
    nodup := List.nodup_nil }
  held := fun _ hb => absurd hb List.not_mem_nil
  distinct := List.Pairwise.nil
  notFree := fun _ _ hp => absurd hp List.not_mem_nil

/-- A region's watermark may be below its top only by a whole block. -/
theorem RegionInv.bump {m : Memory} {region : AllocRegion} {order : ℕ} {free : List ℕ}
    (hr : RegionInv m region order free) (ho : order < 24) (hlt : region.watermark < region.top) :
    region.watermark + blockSize order ≤ allocRegionTop order := by
  rw [hr.top_eq] at hlt
  exact add_le_of_dvd_of_lt hr.aligned (blockSize_dvd_top ho) hlt

theorem region_update {m : Memory} {regions : Fin 24 → AllocRegion} {i : Fin 24}
    {region : AllocRegion} {l : List ℕ}
    (hrest : ∀ j, j ≠ i → RegionInv m (regions j) j (free j)) (hi : RegionInv m region i l)
    (j : Fin 24) :
    RegionInv m (Function.update regions i region j) j (Function.update free i l j) := by
  by_cases hj : j = i
  · subst hj
    rw [Function.update_self, Function.update_self]
    exact hi
  · rw [Function.update_of_ne hj, Function.update_of_ne hj]
    exact hrest j hj

theorem watermark_update_le {regions : Fin 24 → AllocRegion} {i : Fin 24} {region : AllocRegion}
    (hw : (regions i).watermark ≤ region.watermark) (j : Fin 24) :
    (regions j).watermark ≤ (Function.update regions i region j).watermark := by
  by_cases hj : j = i
  · subst hj
    rw [Function.update_self]
    exact hw
  · rw [Function.update_of_ne hj]

/-- Handing a block out, the region left with the free list `l`. -/
theorem Invariant.grant (hinv : Invariant h live free) {i : Fin 24} {region : AllocRegion}
    {l : List ℕ} {p requested : ℕ} (hr : RegionInv h.memory region i l)
    (hw : (h.regions i).watermark ≤ region.watermark) (hp : IsBlock region.watermark i p)
    (hreq : requested ≤ blockSize i) (hl : ∀ q ∈ l, q ∈ free i ∧ q ≠ p)
    (hlive : ∀ b ∈ live, b.ptr ≠ p) :
    Invariant (h.setRegion i region) (⟨p, i, requested⟩ :: live) (Function.update free i l) where
  region := region_update (fun j _ => hinv.region j) hr
  held := by
    intro b hb
    rcases List.mem_cons.mp hb with rfl | hb
    · refine ⟨i, rfl, ?_, hreq⟩
      show IsBlock (Function.update h.regions i region i).watermark i p
      rw [Function.update_self]
      exact hp
    · exact (hinv.held b hb).mono (watermark_update_le hw)
  distinct := List.pairwise_cons.mpr ⟨fun b hb => (hlive b hb).symm, hinv.distinct⟩
  notFree := by
    intro j q hq b hb
    by_cases hj : j = i
    · subst hj
      rw [Function.update_self] at hq
      rcases List.mem_cons.mp hb with rfl | hb
      · exact (hl q hq).2.symm
      · exact hinv.notFree j q (hl q hq).1 b hb
    · rw [Function.update_of_ne hj] at hq
      rcases List.mem_cons.mp hb with rfl | hb
      · rintro rfl
        exact hj (((hinv.region j).isBlock p hq).order_inj hp (hinv.region j).watermark_le
          hr.watermark_le)
      · exact hinv.notFree j q hq b hb

/-- What an order hands out is a block no one holds, or nothing. -/
theorem takeBlock_spec (hinv : Invariant h live free) (i : Fin 24) {requested : ℕ}
    (hreq : requested ≤ blockSize i) :
    takeBlock h i (blockSize i) = (0, h) ∨
      ∃ p h' free', takeBlock h i (blockSize i) = (p, h') ∧ p ≠ 0 ∧
        Invariant h' (⟨p, i, requested⟩ :: live) free' := by
  have hr := hinv.region i
  unfold takeBlock
  by_cases hf : (h.regions i).freelist ≠ 0
  · obtain ⟨l, hl, hlinked⟩ := hr.linked.pop hf
    have hmem : (h.regions i).freelist ∈ free i := hl ▸ List.mem_cons_self
    have hnodup := hr.nodup
    rw [hl] at hnodup
    refine .inr ⟨_, _, _, if_pos hf, hf, hinv.grant (l := l) ?_ (Nat.le_refl _)
      (hr.isBlock _ hmem) hreq ?_ fun b hb => hinv.notFree i _ hmem b hb⟩
    · exact ⟨hr.top_eq, hr.bottom_le, hr.watermark_le, hr.aligned, hlinked,
        fun q hq => hr.isBlock q (hl ▸ List.mem_cons_of_mem _ hq), (List.nodup_cons.mp hnodup).2⟩
    · intro q hq
      refine ⟨hl ▸ List.mem_cons_of_mem _ hq, ?_⟩
      rintro rfl
      exact (List.nodup_cons.mp hnodup).1 hq
  · rw [if_neg hf]
    by_cases hlt : (h.regions i).watermark < (h.regions i).top
    · have htop := hr.bump i.isLt hlt
      have hblock : IsBlock ((h.regions i).watermark + blockSize i) i (h.regions i).watermark :=
        ⟨hr.aligned, hr.bottom_le, Nat.le_refl _⟩
      -- a block of the same order ends below the watermark, another order has another window
      have hfresh : ∀ {j : Fin 24} {q : ℕ}, IsBlock (h.regions j).watermark j q →
          q ≠ (h.regions i).watermark := by
        intro j q hq heq
        subst heq
        have hij := hq.order_inj hblock (hinv.region j).watermark_le htop
        subst hij
        have := hq.end_le
        have := blockSize_pos j
        omega
      refine .inr ⟨_, _, _, if_pos hlt, hblock.ne_zero, hinv.grant (l := free i) ?_
        (Nat.le_add_right _ _) hblock hreq (fun q hq => ⟨hq, hfresh (hr.isBlock q hq)⟩) ?_⟩
      · exact ⟨hr.top_eq, hr.bottom_le.trans (Nat.le_add_right _ _), htop,
          Nat.dvd_add hr.aligned (Nat.dvd_refl _), hr.linked,
          fun q hq => (hr.isBlock q hq).mono (Nat.le_add_right _ _), hr.nodup⟩
      · intro b hb
        obtain ⟨j, _, hbj, _⟩ := hinv.held b hb
        exact hfresh hbj
    · exact .inl (if_neg hlt)

/-- A region depends on nothing but the words that link its free blocks. -/
theorem RegionInv.frame {m m' : Memory} {region : AllocRegion} {order : ℕ} {free : List ℕ}
    (hr : RegionInv m region order free)
    (hm : ∀ p ∈ free, ∀ x, p ≤ x → x < p + 8 → m' x = m x) : RegionInv m' region order free where
  top_eq := hr.top_eq
  bottom_le := hr.bottom_le
  watermark_le := hr.watermark_le
  aligned := hr.aligned
  linked := hr.linked.frame fun p hp => next_congr (hm p hp)
  isBlock := hr.isBlock
  nodup := hr.nodup

theorem Invariant.apart_free (hinv : Invariant h live free) {b : Block} (hb : b ∈ live)
    {i : Fin 24} {p : ℕ} (hp : p ∈ free i) :
    b.ptr + blockSize b.order ≤ p ∨ p + blockSize i ≤ b.ptr := by
  obtain ⟨j, hj, hbj, _⟩ := hinv.held b hb
  have hr := hinv.region i
  rw [hj]
  exact hbj.apart (hr.isBlock p hp) (hinv.region j).watermark_le hr.watermark_le
    (hinv.notFree i p hp b hb)

/-- Writes inside live blocks leave the free lists as they are. -/
theorem Invariant.write (hinv : Invariant h live free) {m : Memory}
    (hm : ∀ a, (∀ b ∈ live, a ∉ b.bytes) → m a = h.memory a) :
    Invariant { h with memory := m } live free where
  region := by
    intro i
    apply (hinv.region i).frame
    intro p hp x hx hx8
    apply hm
    rintro b hb ⟨hbx, hxb⟩
    have hapart := hinv.apart_free hb hp
    have := eight_le_blockSize i
    omega
  held := hinv.held
  distinct := hinv.distinct
  notFree := hinv.notFree

theorem mem_drop {b : Block} {p : ℕ} : b ∈ drop live p ↔ b ∈ live ∧ b.ptr ≠ p := by
  simp [drop]

theorem RegionInv.freelist_lt {m : Memory} {region : AllocRegion} {i : Fin 24} {l : List ℕ}
    (hr : RegionInv m region i l) : region.freelist < 2 ^ 64 := by
  by_cases hf : region.freelist = 0
  · omega
  · obtain ⟨l', hl, _⟩ := hr.linked.pop hf
    have hend := (hr.isBlock _ (hl ▸ List.mem_cons_self)).end_le
    have := hr.watermark_le
    have := allocRegionTop_lt i.isLt
    omega

theorem RegionInv.push {m : Memory} {region : AllocRegion} {i : Fin 24} {l : List ℕ} {p : ℕ}
    (hr : RegionInv m region i l) (hb : IsBlock region.watermark i p) (hnew : p ∉ l)
    (hapart : ∀ q ∈ l, q + 8 ≤ p ∨ p + 8 ≤ q) :
    RegionInv (setNext m p region.freelist) { region with freelist := p } i (p :: l) where
  top_eq := hr.top_eq
  bottom_le := hr.bottom_le
  watermark_le := hr.watermark_le
  aligned := hr.aligned
  linked := hr.linked.push hb.ne_zero hr.freelist_lt hapart
  isBlock := by
    intro q hq
    rcases List.mem_cons.mp hq with rfl | hq
    · exact hb
    · exact hr.isBlock q hq
  nodup := List.nodup_cons.mpr ⟨hnew, hr.nodup⟩

/-- A live block goes to the front of the free list of its order, and only its
first word is written. -/
theorem memFree_spec (hinv : Invariant h live free) {b : Block} (hb : b ∈ live) :
    ∃ (i : Fin 24) (h' : HeapState), b.order = i ∧ memFree h b.ptr = .ok h' ∧
      h'.memory = setNext h.memory b.ptr (h.regions i).freelist ∧
      Invariant h' (drop live b.ptr) (Function.update free i (b.ptr :: free i)) := by
  obtain ⟨i, horder', hbi, _⟩ := hinv.held b hb
  have hr := hinv.region i
  have horder : orderOf b.ptr = i := hbi.orderOf_eq i.isLt hr.watermark_le
  have hlt : orderOf b.ptr < 24 := horder ▸ i.isLt
  have hi : (⟨orderOf b.ptr, hlt⟩ : Fin 24) = i := Fin.ext horder
  -- the words that link the free blocks are outside the block that is freed
  have hnode : ∀ j, ∀ q ∈ free j, q + 8 ≤ b.ptr ∨ b.ptr + 8 ≤ q := by
    intro j q hq
    have hapart := hinv.apart_free hb hq
    have := eight_le_blockSize b.order
    have := eight_le_blockSize j
    omega
  have hfree : memFree h b.ptr = .ok { h.setRegion i { h.regions i with freelist := b.ptr } with
      memory := setNext h.memory b.ptr (h.regions i).freelist } := by
    unfold memFree
    rw [if_neg hbi.ne_zero, dif_pos hlt, hi]
  refine ⟨i, _, horder', hfree, rfl, ?_, ?_, ?_, ?_⟩
  · refine region_update ?_ ?_
    · intro j _
      apply (hinv.region j).frame
      intro q hq x _ _
      have := hnode j q hq
      exact storeBytes_apply_of_outside (by omega)
    · exact hr.push hbi (fun hmem => hinv.notFree i _ hmem b hb rfl) (hnode i)
  · intro c hc
    apply (hinv.held c (mem_drop.mp hc).1).mono
    exact watermark_update_le (Nat.le_refl _)
  · exact hinv.distinct.filter _
  · intro j q hq c hc
    obtain ⟨hcl, hcp⟩ := mem_drop.mp hc
    by_cases hj : j = i
    · subst hj
      rw [Function.update_self] at hq
      rcases List.mem_cons.mp hq with rfl | hq
      · exact hcp
      · exact hinv.notFree j q hq c hcl
    · rw [Function.update_of_ne hj] at hq
      exact hinv.notFree j q hq c hcl

theorem Invariant.resize (hinv : Invariant h live free) {ptr size : ℕ}
    (hsize : ∀ b ∈ live, b.ptr = ptr → size ≤ blockSize b.order) :
    Invariant h (live.map fun b => if b.ptr = ptr then { b with requested := size } else b) free := by
  have hptr : ∀ b : Block, (if b.ptr = ptr then { b with requested := size } else b).ptr = b.ptr := by
    intro b
    split <;> rfl
  refine ⟨hinv.region, ?_, ?_, ?_⟩
  · intro c hc
    obtain ⟨b, hb, rfl⟩ := List.mem_map.mp hc
    obtain ⟨i, hi, hbi, hreq⟩ := hinv.held b hb
    by_cases hp : b.ptr = ptr
    · rw [if_pos hp]
      exact ⟨i, hi, hbi, hi ▸ hsize b hb hp⟩
    · rw [if_neg hp]
      exact ⟨i, hi, hbi, hreq⟩
  · rw [List.pairwise_map]
    simp only [hptr]
    exact hinv.distinct
  · intro i p hp c hc
    obtain ⟨b, hb, rfl⟩ := List.mem_map.mp hc
    rw [hptr]
    exact hinv.notFree i p hp b hb

theorem granted_of_ne {ptr size order : ℕ} (hp : ptr ≠ 0)
    (hc : sizeClass size = .ok (blockSize order, order)) :
    granted ptr size = [⟨ptr, order, size⟩] := by
  unfold granted
  rw [if_neg hp, hc]

theorem memAlloc_eq {size order : ℕ} (hc : sizeClass size = .ok (blockSize order, order)) :
    memAlloc h size =
      if hi : order < 24 then .ok (takeBlock h ⟨order, hi⟩ (blockSize order)) else .ok (0, h) := by
  unfold memAlloc
  rw [hc]
  rfl

theorem takeBlock_memory (h : HeapState) (i : Fin 24) (alignedSize : ℕ) :
    (takeBlock h i alignedSize).2.memory = h.memory := by
  unfold takeBlock
  simp only
  split_ifs <;> rfl

/-- A request is refused and changes nothing, or it gets a block no one holds. -/
theorem memAlloc_cases (hinv : Invariant h live free) {size : ℕ} (hsize : size ≤ size1GB) :
    memAlloc h size = .ok (0, h) ∨
      ∃ p h' free' order, memAlloc h size = .ok (p, h') ∧ p ≠ 0 ∧
        sizeClass size = .ok (blockSize order, order) ∧ size ≤ blockSize order ∧
        h'.memory = h.memory ∧ Invariant h' (⟨p, order, size⟩ :: live) free' := by
  obtain ⟨order, hc, hle, -⟩ := sizeClass_spec hsize
  have halloc := memAlloc_eq (h := h) hc
  by_cases ho : order < 24
  · rw [dif_pos ho] at halloc
    rcases takeBlock_spec hinv ⟨order, ho⟩ hle with hb | ⟨p, h', free', hb, hp, hinv'⟩
    · exact .inl (by rw [halloc, hb])
    · have hmem := takeBlock_memory h ⟨order, ho⟩ (blockSize order)
      simp only at hb
      rw [hb] at halloc hmem
      exact .inr ⟨p, h', free', order, halloc, hp, hc, hle, hmem, hinv'⟩
  · rw [dif_neg ho] at halloc
    exact .inl halloc

theorem memAlloc_spec (hinv : Invariant h live free) {size : ℕ} (hsize : size ≤ size1GB) :
    ∃ p h' free', memAlloc h size = .ok (p, h') ∧ Invariant h' (granted p size ++ live) free' := by
  rcases memAlloc_cases hinv hsize with halloc | ⟨p, h', free', order, halloc, hp, hc, -, -, hinv'⟩
  · exact ⟨0, h, free, halloc, hinv⟩
  · refine ⟨p, h', free', halloc, ?_⟩
    rw [granted_of_ne hp hc]
    exact hinv'

theorem Invariant.drop_zero (hinv : Invariant h live free) : drop live 0 = live := by
  unfold drop
  rw [List.filter_eq_self]
  intro b hb
  obtain ⟨i, _, hbi, _⟩ := hinv.held b hb
  exact decide_eq_true hbi.ne_zero

theorem memFree_total (hinv : Invariant h live free) {ptr : ℕ}
    (hptr : ptr = 0 ∨ ∃ b ∈ live, b.ptr = ptr) :
    ∃ h' free', memFree h ptr = .ok h' ∧ Invariant h' (drop live ptr) free' := by
  rcases hptr with rfl | ⟨b, hb, rfl⟩
  · refine ⟨h, free, rfl, ?_⟩
    rw [hinv.drop_zero]
    exact hinv
  · obtain ⟨i, h', -, hfree, -, hinv'⟩ := memFree_spec hinv hb
    exact ⟨h', _, hfree, hinv'⟩

/-- What `mem_realloc` does to memory when it moves a block: the copy goes into the
new block, which is larger than the old one, and the free into the old one. -/
structure BytesMoved (m m' : Memory) (ptr oldMaxSize p newSize : ℕ) : Prop where
  copied : ∀ i < oldMaxSize, m' (p + i) = m (ptr + i)
  kept : ∀ a, (a < p ∨ p + newSize ≤ a) → (a < ptr ∨ ptr + 8 ≤ a) → m' a = m a

/-- Moving a live block to a larger one: nothing happens, or a new block takes over
its bytes and it goes to the free list. -/
theorem moveBlock_cases (hinv : Invariant h live free) {b : Block} (hb : b ∈ live) {size : ℕ}
    (hsize : size ≤ size1GB) (hgrow : blockSize b.order ≤ size) :
    moveBlock h b.ptr (blockSize b.order) size = .ok (0, h) ∨
      ∃ p h' free' order i, moveBlock h b.ptr (blockSize b.order) size = .ok (p, h') ∧ p ≠ 0 ∧
        p ≠ b.ptr ∧ sizeClass size = .ok (blockSize order, order) ∧ size ≤ blockSize order ∧
        BytesMoved h.memory h'.memory b.ptr (blockSize b.order) p (blockSize order) ∧
        b.ptr ∈ free' i ∧ Invariant h' (⟨p, order, size⟩ :: drop live b.ptr) free' := by
  obtain ⟨j, hj, hbj, _⟩ := hinv.held b hb
  rcases memAlloc_cases hinv hsize with
    halloc | ⟨p, h₁, free₁, order, halloc, hp, hc, hle, hmem, hinv₁⟩
  · left
    unfold moveBlock
    rw [halloc]
    rfl
  right
  have hmove : moveBlock h b.ptr (blockSize b.order) size =
      (memFree { h₁ with memory := copyBytes h₁.memory p b.ptr (blockSize b.order) } b.ptr).map
        (p, ·) := by
    unfold moveBlock
    rw [halloc]
    simp only [bind, Except.bind, if_neg hp, if_neg hbj.ne_zero]
    rfl
  have hne : p ≠ b.ptr := List.rel_of_pairwise_cons hinv₁.distinct hb
  have hinv₂ : Invariant { h₁ with memory := copyBytes h₁.memory p b.ptr (blockSize b.order) }
      (⟨p, order, size⟩ :: live) free₁ := by
    apply hinv₁.write
    intro a ha
    apply copyBytes_apply_of_outside
    have hout : ¬ (p ≤ a ∧ a < p + blockSize order) := ha _ List.mem_cons_self
    omega
  obtain ⟨i, h₃, -, hfree, hmem₃, hinv₃⟩ := memFree_spec hinv₂ (List.mem_cons_of_mem _ hb)
  have hdrop : drop (⟨p, order, size⟩ :: live) b.ptr = ⟨p, order, size⟩ :: drop live b.ptr :=
    List.filter_cons_of_pos (decide_eq_true hne)
  rw [hdrop] at hinv₃
  refine ⟨p, h₃, _, order, i, by rw [hmove, hfree]; rfl, hp, hne, hc, hle, ⟨?_, ?_⟩, ?_, hinv₃⟩
  · -- the free writes into the old block, apart from the new one
    intro k hk
    obtain ⟨i', hi', hpi', _⟩ := hinv₁.held _ List.mem_cons_self
    obtain ⟨j', hj', hbj', _⟩ := hinv₁.held b (List.mem_cons_of_mem _ hb)
    have hapart := hpi'.apart hbj' (hinv₁.region i').watermark_le (hinv₁.region j').watermark_le hne
    rw [← hi', ← hj'] at hapart
    have := eight_le_blockSize b.order
    simp only at hapart
    rw [hmem₃, setNext, storeBytes_apply_of_outside (by omega)]
    simp only
    rw [copyBytes, if_pos (by omega), Nat.add_sub_cancel_left, hmem]
  · intro a hnew hold
    rw [hmem₃, setNext, storeBytes_apply_of_outside (by omega)]
    simp only
    rw [copyBytes_apply_of_outside (by omega), hmem]
  · rw [Function.update_self]
    exact List.mem_cons_self

theorem moveBlock_null {size : ℕ} : moveBlock h 0 0 size = memAlloc h size := by
  unfold moveBlock
  cases memAlloc h size with
  | error e => rfl
  | ok r =>
    simp only [bind, Except.bind, ↓reduceIte]
    split_ifs with hr
    · rw [← hr]
      rfl
    · rfl

/-- The ways `mem_realloc` of a nonzero size ends: with the result and the heap
after it. -/
inductive ReallocOutcome (h : HeapState) (live : List Block) (ptr size : ℕ) :
    ℕ → HeapState → Prop
  | refused : ReallocOutcome h live ptr size 0 h
  | inPlace {b : Block} : b ∈ live → b.ptr = ptr → size ≤ blockSize b.order →
      ReallocOutcome h live ptr size ptr h
  | fresh {p order : ℕ} {h' : HeapState} {free' : Fin 24 → List ℕ} : ptr = 0 → p ≠ 0 →
      sizeClass size = .ok (blockSize order, order) → size ≤ blockSize order →
      h'.memory = h.memory → Invariant h' (⟨p, order, size⟩ :: live) free' →
      ReallocOutcome h live ptr size p h'
  | moved {b : Block} {p order : ℕ} {h' : HeapState} {free' : Fin 24 → List ℕ} {i : Fin 24} :
      b ∈ live → b.ptr = ptr → p ≠ 0 → p ≠ ptr →
      sizeClass size = .ok (blockSize order, order) → size ≤ blockSize order →
      BytesMoved h.memory h'.memory ptr (blockSize b.order) p (blockSize order) →
      ptr ∈ free' i → Invariant h' (⟨p, order, size⟩ :: drop live ptr) free' →
      ReallocOutcome h live ptr size p h'

theorem memRealloc_outcome (hinv : Invariant h live free) {ptr size : ℕ}
    (hptr : ptr = 0 ∨ ∃ b ∈ live, b.ptr = ptr) (hpos : size ≠ 0) (hsize : size ≤ size1GB) :
    ∃ p h', memRealloc h ptr size = .ok (p, h') ∧ ReallocOutcome h live ptr size p h' := by
  unfold memRealloc
  rw [if_neg hpos]
  rcases hptr with rfl | ⟨b, hb, rfl⟩
  · rw [if_pos rfl, moveBlock_null]
    rcases memAlloc_cases hinv hsize with
      halloc | ⟨p, h', free', order, halloc, hp, hc, hle, hmem, hinv'⟩
    · exact ⟨0, h, halloc, .refused⟩
    · exact ⟨p, h', halloc, .fresh rfl hp hc hle hmem hinv'⟩
  · obtain ⟨i, hi, hbi, _⟩ := hinv.held b hb
    have hcap : 1 <<< (orderOf b.ptr + 3) = blockSize b.order := by
      rw [hbi.orderOf_eq i.isLt (hinv.region i).watermark_le, Nat.one_shiftLeft, hi]
      rfl
    rw [if_neg hbi.ne_zero, hcap]
    by_cases hfits : size ≤ blockSize b.order
    · exact ⟨b.ptr, h, if_pos hfits, .inPlace hb rfl hfits⟩
    · simp only [if_neg hfits]
      rcases moveBlock_cases hinv hb hsize (by omega) with
        hmove | ⟨p, h', free', order, i, hmove, hp, hne, hc, hle, hbytes, hfree, hinv'⟩
      · exact ⟨0, h, hmove, .refused⟩
      · exact ⟨p, h', hmove, .moved hb rfl hp hne hc hle hbytes hfree hinv'⟩

/-- What the blocks are after each of the ways. -/
theorem ReallocOutcome.invariant (hinv : Invariant h live free) {ptr size p : ℕ} {h' : HeapState}
    (hpos : size ≠ 0) (hout : ReallocOutcome h live ptr size p h') :
    ∃ free', Invariant h' (relocated live ptr size p) free' := by
  unfold relocated
  rw [if_neg hpos]
  cases hout with
  | refused => exact ⟨free, by rw [if_pos rfl]; exact hinv⟩
  | @inPlace b hb hptr hle =>
    subst hptr
    obtain ⟨i, hi, hbi, _⟩ := hinv.held b hb
    refine ⟨free, ?_⟩
    rw [if_neg hbi.ne_zero, if_pos rfl]
    apply hinv.resize
    intro c hc hcb
    obtain ⟨j, hj, hcj, _⟩ := hinv.held c hc
    rw [hcb] at hcj
    have hij := hbi.order_inj hcj (hinv.region i).watermark_le (hinv.region j).watermark_le
    rwa [hj, ← hij, ← hi]
  | @fresh p order h' free' hptr hp hc _ _ hinv' =>
    subst hptr
    refine ⟨free', ?_⟩
    rw [if_neg hp, if_neg hp, granted_of_ne hp hc, hinv.drop_zero]
    exact hinv'
  | @moved b p order h' free' i _ _ hp hne hc _ _ _ hinv' =>
    refine ⟨free', ?_⟩
    rw [if_neg hp, if_neg hne, granted_of_ne hp hc]
    exact hinv'

theorem memRealloc_spec (hinv : Invariant h live free) {ptr size : ℕ}
    (hptr : ptr = 0 ∨ ∃ b ∈ live, b.ptr = ptr) (hsize : size ≤ size1GB) :
    ∃ p h' free', memRealloc h ptr size = .ok (p, h') ∧
      Invariant h' (relocated live ptr size p) free' := by
  by_cases hs : size = 0
  · obtain ⟨h', free', hfree, hinv'⟩ := memFree_total hinv hptr
    unfold memRealloc relocated
    simp only [if_pos hs, hfree]
    exact ⟨0, h', free', rfl, hinv'⟩
  · obtain ⟨p, h', hre, hout⟩ := memRealloc_outcome hinv hptr hs hsize
    obtain ⟨free', hinv'⟩ := hout.invariant hinv hs
    exact ⟨p, h', free', hre, hinv'⟩

/-! ### Runs -/

/-- Every permitted call returns and keeps the invariant. -/
theorem step_invariant {s : Clients} {free : Fin 24 → List ℕ} (hinv : Invariant s.heap s.live free)
    {c : Call} (hc : Permitted s c) :
    ∃ s' free', s.step c = .ok s' ∧ Invariant s'.heap s'.live free' := by
  cases c with
  | alloc size =>
    obtain ⟨p, h', free', halloc, hinv'⟩ := memAlloc_spec hinv hc
    exact ⟨⟨h', granted p size ++ s.live⟩, free', by simp only [Clients.step, halloc]; rfl, hinv'⟩
  | free ptr =>
    obtain ⟨h', free', hfree, hinv'⟩ := memFree_total hinv hc
    exact ⟨⟨h', drop s.live ptr⟩, free', by simp only [Clients.step, hfree]; rfl, hinv'⟩
  | realloc ptr size =>
    obtain ⟨p, h', free', hre, hinv'⟩ := memRealloc_spec hinv hc.1 hc.2
    exact ⟨⟨h', relocated s.live ptr size p⟩, free', by simp only [Clients.step, hre]; rfl, hinv'⟩
  | write addr byte =>
    obtain ⟨b, hb, hbyte⟩ := hc
    refine ⟨_, free, rfl, hinv.write ?_⟩
    intro a ha
    apply Function.update_of_ne
    rintro rfl
    exact ha b hb hbyte

theorem Reachable.invariant {s : Clients} (h : Reachable s) :
    ∃ free, Invariant s.heap s.live free := by
  obtain ⟨memory, hrun⟩ := h
  apply hrun.invariant (motive := fun s => ∃ free, Invariant s.heap s.live free)
  · exact ⟨_, initAlloc_invariant memory⟩
  · rintro u c v ⟨free, hinv⟩ hc hv
    obtain ⟨s', free', hs', hinv'⟩ := step_invariant hinv hc
    rw [hs'] at hv
    cases hv
    exact ⟨free', hinv'⟩

theorem Invariant.apart (hinv : Invariant h live free) {b c : Block} (hb : b ∈ live)
    (hc : c ∈ live) (hne : b.ptr ≠ c.ptr) :
    b.ptr + blockSize b.order ≤ c.ptr ∨ c.ptr + blockSize c.order ≤ b.ptr := by
  obtain ⟨i, hi, hbi, _⟩ := hinv.held b hb
  obtain ⟨j, hj, hcj, _⟩ := hinv.held c hc
  rw [hi, hj]
  exact hbi.apart hcj (hinv.region i).watermark_le (hinv.region j).watermark_le hne

/-- Two live blocks share no byte. -/
theorem Invariant.disjoint (hinv : Invariant h live free) {b c : Block} (hb : b ∈ live)
    (hc : c ∈ live) (hne : b.ptr ≠ c.ptr) : Disjoint b.bytes c.bytes := by
  have hapart := hinv.apart hb hc hne
  rw [Set.disjoint_left]
  rintro a ⟨hba, hab⟩ ⟨hca, hac⟩
  omega

/-- A block that a client may use for what it asked, whose order its address tells. -/
structure Block.Sound (b : Block) : Prop where
  large_enough : b.requested ≤ blockSize b.order
  aligned : blockSize b.order ∣ b.ptr
  window : allocRegionBottom b.order ≤ b.ptr ∧ b.ptr + blockSize b.order ≤ allocRegionTop b.order
  order_eq : orderOf b.ptr = b.order

theorem Invariant.sound (hinv : Invariant h live free) {b : Block} (hb : b ∈ live) : b.Sound := by
  obtain ⟨i, hi, hbi, hreq⟩ := hinv.held b hb
  have hw := (hinv.region i).watermark_le
  constructor
  · rw [hi]
    exact hreq
  · rw [hi]
    exact hbi.aligned
  · rw [hi]
    exact ⟨hbi.bottom_le, hbi.end_le.trans hw⟩
  · rw [hi]
    exact hbi.orderOf_eq i.isLt hw

/-- The blocks lie between the start of the heap and the end of its last window. -/
theorem Invariant.bounds (hinv : Invariant h live free) {b : Block} (hb : b ∈ live) :
    allocBase ≤ b.ptr ∧ b.ptr + blockSize b.order ≤ allocRegionTop 23 := by
  obtain ⟨i, hi, -⟩ := hinv.held b hb
  obtain ⟨hlow, hhigh⟩ := (hinv.sound hb).window
  have hlt := i.isLt
  rw [hi, allocRegionBottom] at hlow
  refine ⟨by omega, hhigh.trans ?_⟩
  rw [hi, allocRegionTop, allocRegionTop]
  have := Nat.mul_le_mul_right size512GB (show (i : ℕ) + 1 ≤ 23 + 1 by omega)
  omega

/-- After any run of calls, and no permitted call goes wrong. -/
theorem live_blocks_sound {s : Clients} (h : Reachable s) :
    (s.live.Pairwise fun b c => Disjoint b.bytes c.bytes) ∧ (∀ b ∈ s.live, b.Sound) ∧
      (∀ i, ∃ l, Linked s.heap.memory (s.heap.regions i).freelist l ∧ ∀ b ∈ s.live, b.ptr ∉ l) ∧
      (∀ i, (s.heap.regions i).watermark ≤ (s.heap.regions i).top) ∧
      ∀ c, Permitted s c → ∃ s', s.step c = .ok s' := by
  obtain ⟨free, hinv⟩ := h.invariant
  refine ⟨?_, fun b hb => hinv.sound hb, ?_, ?_, ?_⟩
  · exact hinv.distinct.imp_of_mem fun hb hc hne => hinv.disjoint hb hc hne
  · intro i
    exact ⟨free i, (hinv.region i).linked, fun b hb hmem => hinv.notFree i _ hmem b hb rfl⟩
  · intro i
    rw [(hinv.region i).top_eq]
    exact (hinv.region i).watermark_le
  · intro c hc
    obtain ⟨s', _, hs', _⟩ := step_invariant hinv hc
    exact ⟨s', hs'⟩

instance (s : Clients) (ptr : ℕ) : Decidable (s.IsLive ptr) :=
  inferInstanceAs (Decidable (∃ b ∈ s.live, b.ptr = ptr))

instance (s : Clients) : (c : Call) → Decidable (Permitted s c)
  | .alloc size => inferInstanceAs (Decidable (size ≤ size1GB))
  | .free ptr => inferInstanceAs (Decidable (ptr = 0 ∨ s.IsLive ptr))
  | .realloc ptr size =>
    inferInstanceAs (Decidable ((ptr = 0 ∨ s.IsLive ptr) ∧ size ≤ size1GB))
  | .write addr _ =>
    inferInstanceAs (Decidable (∃ b ∈ s.live, b.ptr ≤ addr ∧ addr < b.ptr + blockSize b.order))

/-- Two blocks of 32 bytes are freed, and one of them is given out again; the third block
is moved to the next order. -/
def fewCalls : List Call :=
  [.alloc 24, .alloc 20, .alloc 100, .write 0xFFFFC20000000005 7, .free 0xFFFFC10000000000,
    .free 0xFFFFC10000000020, .realloc 0xFFFFC20000000000 200, .alloc 32]

theorem live_blocks_sound_fewCalls : ∃ s, Reachable s ∧
    s.live = [⟨0xFFFFC10000000020, 2, 32⟩, ⟨0xFFFFC28000000000, 5, 200⟩] ∧
    (s.live.Pairwise fun b c => Disjoint b.bytes c.bytes) ∧ (∀ b ∈ s.live, b.Sound) ∧
    Linked s.heap.memory (s.heap.regions 2).freelist [0xFFFFC10000000000] ∧
    s.heap.memory 0xFFFFC28000000005 = 7 := by
  obtain ⟨s, hrun, htest⟩ := reaches_of_leadsTo Permitted
    (fun _ _ => of_decide_eq_true)
    (show leadsTo Clients.step _ (fun s =>
        s.live = [⟨0xFFFFC10000000020, 2, 32⟩, ⟨0xFFFFC28000000000, 5, 200⟩] ∧
        (s.heap.regions 2).freelist = 0xFFFFC10000000000 ∧
        next s.heap.memory 0xFFFFC10000000000 = 0 ∧ s.heap.memory 0xFFFFC28000000005 = 7)
      (booted fun _ => 0) fewCalls = true by decide +kernel)
  simp only [decide_eq_true_eq] at htest
  obtain ⟨hlive, hlist, hnext, hbyte⟩ := htest
  have hreach : Reachable s := ⟨fun _ => 0, hrun⟩
  obtain ⟨hdisjoint, hsound, -⟩ := live_blocks_sound hreach
  refine ⟨s, hreach, hlive, hdisjoint, hsound, ?_, hbyte⟩
  rw [hlist]
  exact .cons (by decide) (hnext ▸ .nil)

end TomatOS.Heap
