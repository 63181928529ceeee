import TomatOS.Foundation.Dyadic
import TomatOS.Phys.Region
import Mathlib.Algebra.BigOperators.Group.Multiset.Basic
import Mathlib.Algebra.BigOperators.Group.Finset.Basic

/-! The invariant of one region. The blocks on the free lists and the blocks in
use tile the addresses given to the allocator. A block of at least a page has
its own mark, since no other block starts on its first page; smaller blocks
share the mark of their page, of which only the level staying below the page
level is known. A page that was never given is never marked free. During an
operation one block is a hole: neither free nor in use. -/

namespace TomatOS.Phys

open Foundation.Dyadic

/-- Where a region lies. -/
structure Span where
  base : ℕ
  pageCount : ℕ
  base_dvd : pageSize ∣ base

namespace Span

def Contains (sp : Span) (x : ℕ) : Prop := sp.base ≤ x ∧ x < sp.base + sp.pageCount * pageSize

instance (sp : Span) (x : ℕ) : Decidable (sp.Contains x) := by unfold Contains; infer_instance

/-- The region `r` lies at `sp`. -/
def Locates (sp : Span) (r : MemoryRegion) : Prop := r.base = sp.base ∧ r.pageCount = sp.pageCount

theorem pageMetadata_eq {sp : Span} {r : MemoryRegion} (hr : sp.Locates r) {x : ℕ}
    (h : sp.Contains x) : pageMetadata r x = some ((x - r.base) / pageSize) := by
  obtain ⟨h1, h2⟩ := h
  have hlt : (x - sp.base) / pageSize < sp.pageCount := by
    rw [Nat.div_lt_iff_lt_mul (by decide)]
    omega
  rw [pageMetadata, hr.1, hr.2, if_neg (by omega)]
  simp only [ge_iff_le, not_le.mpr hlt, ↓reduceIte]

theorem contains_of_pageMetadata {sp : Span} {r : MemoryRegion} (hr : sp.Locates r) {x i : ℕ}
    (h : pageMetadata r x = some i) : sp.Contains x ∧ i = (x - r.base) / pageSize := by
  rw [pageMetadata] at h
  split_ifs at h with hlo
  simp only [ge_iff_le] at h
  split_ifs at h with hhi
  rw [not_le, hr.1, hr.2, Nat.div_lt_iff_lt_mul (by decide)] at hhi
  rw [hr.1] at hlo
  exact ⟨⟨by omega, by omega⟩, (Option.some.inj h).symm⟩

end Span

namespace MemoryRegion

/-- The mark read for an address of the region. -/
def mark (r : MemoryRegion) (x : ℕ) : PageMetadata := r.metadata ((x - r.base) / pageSize)

/-- The region after a push on a free list. -/
def pushed (r : MemoryRegion) (level entry : ℕ) : MemoryRegion :=
  { r with freeList := Function.update r.freeList level (entry :: r.freeList level) }

/-- The region after unlinking an entry. -/
def unlinked (r : MemoryRegion) (entry : ℕ) : MemoryRegion :=
  { r with freeList := fun l => (r.freeList l).erase entry }

/-- The region after marking the page of an address. -/
def marked (r : MemoryRegion) (x level : ℕ) (free : Bool) : MemoryRegion :=
  { r with metadata := Function.update r.metadata ((x - r.base) / pageSize) ⟨level, free⟩ }

/-- The blocks of one free list, with multiplicity. -/
def listBlocks (level : ℕ) (entries : List ℕ) : Multiset Block :=
  (entries.map (fun a => (⟨a, level + buddyFirstLevel⟩ : Block)) : Multiset Block)

/-- The blocks on the free lists, with multiplicity. -/
def freeBlocks (r : MemoryRegion) : Multiset Block :=
  ∑ l ∈ Finset.range buddyLevelCount, listBlocks l (r.freeList l)

theorem mem_freeBlocks {r : MemoryRegion} {b : Block} :
    b ∈ r.freeBlocks ↔
      ∃ l < buddyLevelCount, b.base ∈ r.freeList l ∧ b.order = l + buddyFirstLevel := by
  simp only [freeBlocks, listBlocks, Multiset.mem_sum, Finset.mem_range, Multiset.mem_coe,
    List.mem_map]
  constructor
  · rintro ⟨l, hl, a, ha, rfl⟩
    exact ⟨l, hl, ha, rfl⟩
  · rintro ⟨l, hl, ha, ho⟩
    exact ⟨l, hl, b.base, ha, by cases b; simp_all⟩

theorem mem_freeBlocks_mk {r : MemoryRegion} {a l : ℕ} :
    (⟨a, l + buddyFirstLevel⟩ : Block) ∈ r.freeBlocks ↔ l < buddyLevelCount ∧ a ∈ r.freeList l := by
  rw [mem_freeBlocks]
  constructor
  · rintro ⟨l', hl, ha, ho⟩
    obtain rfl : l = l' := Nat.add_right_cancel ho
    exact ⟨hl, ha⟩
  · rintro ⟨hl, ha⟩
    exact ⟨l, hl, ha, rfl⟩

theorem linked_iff {r : MemoryRegion} {a : ℕ} :
    r.linked a = true ↔ ∃ b ∈ r.freeBlocks, b.base = a := by
  simp only [linked, List.any_eq_true, List.mem_range, decide_eq_true_eq]
  constructor
  · rintro ⟨l, hl, ha⟩
    exact ⟨⟨a, l + buddyFirstLevel⟩, mem_freeBlocks_mk.mpr ⟨hl, ha⟩, rfl⟩
  · rintro ⟨b, hb, rfl⟩
    obtain ⟨l, hl, ha, -⟩ := mem_freeBlocks.mp hb
    exact ⟨l, hl, ha⟩

theorem freeBlocks_pushed {r : MemoryRegion} {level a : ℕ} (hl : level < buddyLevelCount) :
    (r.pushed level a).freeBlocks = ⟨a, level + buddyFirstLevel⟩ ::ₘ r.freeBlocks := by
  have hm : level ∈ Finset.range buddyLevelCount := Finset.mem_range.mpr hl
  have hother : ∀ l ∈ (Finset.range buddyLevelCount).erase level,
      listBlocks l ((r.pushed level a).freeList l) = listBlocks l (r.freeList l) := by
    intro l hl'
    simp only [pushed, Function.update_of_ne (Finset.ne_of_mem_erase hl')]
  unfold freeBlocks
  rw [← Finset.add_sum_erase _ _ hm, ← Finset.add_sum_erase _ _ hm, Finset.sum_congr rfl hother]
  simp only [pushed, Function.update_self, listBlocks, List.map_cons, ← Multiset.cons_coe,
    Multiset.cons_add]

/-- Unlinking the entry of a free block that shares its address with no other
free block removes exactly that block. -/
theorem freeBlocks_unlinked {r : MemoryRegion} {b : Block} (hb : b ∈ r.freeBlocks)
    (hu : ∀ c ∈ r.freeBlocks, c.base = b.base → c = b) :
    b ::ₘ (r.unlinked b.base).freeBlocks = r.freeBlocks := by
  obtain ⟨level, hl, ha, ho⟩ := mem_freeBlocks.mp hb
  have hm : level ∈ Finset.range buddyLevelCount := Finset.mem_range.mpr hl
  have hself : b ::ₘ listBlocks level ((r.unlinked b.base).freeList level) =
      listBlocks level (r.freeList level) := by
    have hb' : b = ⟨b.base, level + buddyFirstLevel⟩ := by cases b; simp_all
    simp only [unlinked, listBlocks, Multiset.cons_coe, Multiset.coe_eq_coe]
    nth_rewrite 1 [hb']
    exact ((List.perm_cons_erase ha).map
      (fun a => (⟨a, level + buddyFirstLevel⟩ : Block))).symm
  have hother : ∀ l ∈ (Finset.range buddyLevelCount).erase level,
      listBlocks l ((r.unlinked b.base).freeList l) = listBlocks l (r.freeList l) := by
    intro l hl'
    have hn : b.base ∉ r.freeList l := by
      intro hin
      have hl24 : l < buddyLevelCount := Finset.mem_range.mp (Finset.mem_of_mem_erase hl')
      have he := hu ⟨b.base, l + buddyFirstLevel⟩ (mem_freeBlocks_mk.mpr ⟨hl24, hin⟩) rfl
      have : l + buddyFirstLevel = b.order := congrArg Block.order he
      exact Finset.ne_of_mem_erase hl' (by omega)
    simp only [unlinked, List.erase_of_not_mem hn]
  unfold freeBlocks
  rw [← Finset.add_sum_erase _ _ hm, ← Finset.add_sum_erase _ _ hm, ← Multiset.cons_add, hself,
    Finset.sum_congr rfl hother]

@[simp] theorem freeBlocks_marked (r : MemoryRegion) (x level : ℕ) (free : Bool) :
    (r.marked x level free).freeBlocks = r.freeBlocks := rfl

@[simp] theorem mark_pushed (r : MemoryRegion) (level entry x : ℕ) :
    (r.pushed level entry).mark x = r.mark x := rfl

@[simp] theorem mark_unlinked (r : MemoryRegion) (entry x : ℕ) :
    (r.unlinked entry).mark x = r.mark x := rfl

end MemoryRegion

theorem Span.mark_marked {sp : Span} {r : MemoryRegion} (hr : sp.Locates r) {x y : ℕ}
    (hx : sp.base ≤ x) (hy : sp.base ≤ y) (level : ℕ) (free : Bool) :
    (r.marked y level free).mark x =
      if x / pageSize = y / pageSize then ⟨level, free⟩ else r.mark x := by
  have hpage : (x - r.base) / pageSize = (y - r.base) / pageSize ↔
      x / pageSize = y / pageSize := by
    obtain ⟨k, hk⟩ := sp.base_dvd
    have hp : 0 < pageSize := by decide
    rw [hr.1, hk, Nat.sub_mul_div, Nat.sub_mul_div]
    have h1 : k ≤ x / pageSize := (Nat.le_div_iff_mul_le hp).mpr (by rw [mul_comm]; omega)
    have h2 : k ≤ y / pageSize := (Nat.le_div_iff_mul_le hp).mpr (by rw [mul_comm]; omega)
    omega
  simp only [MemoryRegion.marked, MemoryRegion.mark, Function.update_apply, hpage]

/-- The region `r` at `sp`, given the addresses `G`, has its free blocks and the
blocks `U` in use tiling `T`; no block is smaller than order `m`, and above the
page size no two buddies are both free. -/
structure Sound (m : ℕ) (sp : Span) (r : MemoryRegion) (G T : ℕ → Prop)
    (U : Multiset Block) : Prop where
  located : sp.Locates r
  inside : ∀ x, G x → sp.Contains x
  pages : ∀ x y, x / pageSize = y / pageSize → G x → G y
  tiled : ∀ x, T x → G x
  tiles : Tiles (r.freeBlocks + U) T
  orders : ∀ b ∈ r.freeBlocks + U, m ≤ b.order ∧ b.order ≤ 27
  freeMark : ∀ b ∈ r.freeBlocks, 12 ≤ b.order → r.mark b.base = ⟨b.order - buddyFirstLevel, true⟩
  usedMark : ∀ b ∈ U, 12 ≤ b.order → r.mark b.base = ⟨b.order - buddyFirstLevel, false⟩
  subMark : ∀ b ∈ r.freeBlocks + U, b.order < 12 → (r.mark b.base).level < pageLevel
  ungiven : ∀ x, sp.Contains x → ¬ G x → (r.mark x).free = false
  merged : 12 ≤ m → Merged 27 r.freeBlocks

/-- The addresses of `G` outside the hole `X`. -/
def Around (G : ℕ → Prop) (X : Block) : ℕ → Prop := fun x => G x ∧ ¬ X.Covers x

section Around

variable {G : ℕ → Prop} {X : Block}

theorem around_fill (hG : ∀ x, X.Covers x → G x) (x : ℕ) : Around G X x ∨ X.Covers x ↔ G x := by
  constructor
  · rintro (h | h)
    · exact h.1
    · exact hG x h
  · intro h
    by_cases hx : X.Covers x
    · exact Or.inr hx
    · exact Or.inl ⟨h, hx⟩

theorem around_split (ho : 0 < X.order) (hG : ∀ x, X.Covers x → G x) (x : ℕ) :
    Around G X x ∨ X.upper.Covers x ↔ Around G X.lower x := by
  have hhal := Block.covers_halves ho x
  constructor
  · rintro (h | h)
    · exact ⟨h.1, fun hl => h.2 (hhal.mpr (Or.inl hl))⟩
    · exact ⟨hG x (hhal.mpr (Or.inr h)), fun hl => X.halves_disjoint x ⟨hl, h⟩⟩
  · rintro ⟨hg, hl⟩
    by_cases hu : X.upper.Covers x
    · exact Or.inr hu
    · exact Or.inl ⟨hg, fun hx => (hhal.mp hx).elim hl hu⟩

theorem around_merge (hX : X.Aligned) (x : ℕ) :
    Around (Around G X) X.buddyBlock x ↔ Around G X.parent x := by
  simp only [Around, hX.covers_parent x, not_or, and_assoc]

end Around

namespace Sound

variable {m : ℕ} {sp : Span} {r : MemoryRegion} {G T : ℕ → Prop} {U : Multiset Block}

theorem congr {T' : ℕ → Prop} (h : Sound m sp r G T U) (hT : ∀ x, T x ↔ T' x) :
    Sound m sp r G T' U := by
  rwa [show T' = T from funext fun x => propext (hT x).symm]

theorem base_mem (h : Sound m sp r G T U) {b : Block} (hb : b ∈ r.freeBlocks + U) : T b.base :=
  h.tiles.mem_of_covers hb b.covers_base

theorem base_le (h : Sound m sp r G T U) {x : ℕ} (hx : T x) : sp.base ≤ x :=
  (h.inside x (h.tiled x hx)).1

/-- No block of the tiling starts on the first page of a hole of a page or
more, and those starting on the page of a smaller hole are smaller than a page. -/
theorem order_lt_of_same_page (h : Sound m sp r G T U) {Y b : Block} (hY : Y.Aligned)
    (hn : ∀ x, Y.Covers x → ¬ T x) (hb : b ∈ r.freeBlocks + U)
    (hp : b.base / pageSize = Y.base / pageSize) : Y.order < 12 ∧ b.order < 12 := by
  have hp' : b.base / 2 ^ 12 = Y.base / 2 ^ 12 := hp
  constructor
  · by_contra hge
    exact hn b.base (hY.covers_of_div_eq (by omega) hp' Y.covers_base) (h.base_mem hb)
  · by_contra hge
    have hc := (h.tiles.aligned b hb).covers_of_div_eq (by omega) hp'.symm b.covers_base
    exact hn Y.base Y.covers_base (h.tiles.mem_of_covers hb hc)

/-- Marking the page of a hole with the hole's level keeps every other mark
meaningful. -/
theorem marked (h : Sound m sp r G T U) {Y : Block} (hY : Y.Aligned) (hG : G Y.base)
    (hn : ∀ x, Y.Covers x → ¬ T x) (free : Bool) :
    Sound m sp (r.marked Y.base (Y.order - buddyFirstLevel) free) G T U := by
  have hYb : sp.base ≤ Y.base := (h.inside _ hG).1
  have hmark : ∀ b ∈ r.freeBlocks + U, 12 ≤ b.order →
      (r.marked Y.base (Y.order - buddyFirstLevel) free).mark b.base = r.mark b.base := by
    intro b hb ho
    rw [Span.mark_marked h.located (h.base_le (h.base_mem hb)) hYb, if_neg]
    intro hp
    have := (h.order_lt_of_same_page hY hn hb hp).2
    omega
  exact
    { located := h.located
      inside := h.inside
      pages := h.pages
      tiled := h.tiled
      tiles := h.tiles
      orders := h.orders
      freeMark := fun b hb ho =>
        (hmark b (Multiset.mem_add.mpr (Or.inl hb)) ho).trans (h.freeMark b hb ho)
      usedMark := fun b hb ho =>
        (hmark b (Multiset.mem_add.mpr (Or.inr hb)) ho).trans (h.usedMark b hb ho)
      subMark := by
        intro b hb ho
        rw [Span.mark_marked h.located (h.base_le (h.base_mem hb)) hYb]
        split_ifs with hp
        · have hlt := (h.order_lt_of_same_page hY hn hb hp).1
          simp only [pageLevel, buddyFirstLevel]
          omega
        · exact h.subMark b hb ho
      ungiven := by
        intro x hx hxG
        rw [Span.mark_marked h.located hx.1 hYb, if_neg]
        · exact h.ungiven x hx hxG
        · intro hp
          exact hxG (h.pages _ _ hp.symm hG)
      merged := h.merged }

theorem mark_self (h : Sound m sp r G T U) {y : ℕ} (hG : G y) (level : ℕ) (free : Bool) :
    (r.marked y level free).mark y = ⟨level, free⟩ := by
  rw [Span.mark_marked h.located (h.inside _ hG).1 (h.inside _ hG).1, if_pos rfl]

variable {Y : Block}

/-- The tiling after a hole is filled, whoever gets the block. -/
private theorem tiles_cons (h : Sound m sp r G T U) (hY : Y.Aligned)
    (hn : ∀ x, Y.Covers x → ¬ T x) :
    Tiles (Y ::ₘ (r.freeBlocks + U)) (fun x => T x ∨ Y.Covers x) := h.tiles.insert hY hn

/-- Fill a hole with a block on its free list. -/
theorem fillFree (h : Sound m sp r G T U) (hY : Y.Aligned) (hm : m ≤ Y.order) (h4 : 4 ≤ m)
    (hmax : Y.order ≤ 27) (hG : ∀ x, Y.Covers x → G x) (hn : ∀ x, Y.Covers x → ¬ T x)
    (hbuddy : 12 ≤ m → Y.order < 27 → Y.buddyBlock ∉ r.freeBlocks) :
    Sound m sp ((r.marked Y.base (Y.order - buddyFirstLevel) true).pushed
      (Y.order - buddyFirstLevel) Y.base) G (fun x => T x ∨ Y.Covers x) U := by
  have hGb := hG _ Y.covers_base
  have hk := h.marked hY hGb hn true
  have hself := h.mark_self hGb (Y.order - buddyFirstLevel) true
  have hlev : Y.order - buddyFirstLevel + buddyFirstLevel = Y.order := by
    simp only [buddyFirstLevel]; omega
  have hfree : ((r.marked Y.base (Y.order - buddyFirstLevel) true).pushed
      (Y.order - buddyFirstLevel) Y.base).freeBlocks = Y ::ₘ r.freeBlocks := by
    rw [MemoryRegion.freeBlocks_pushed (by simp only [buddyFirstLevel, buddyLevelCount]; omega),
      hlev, MemoryRegion.freeBlocks_marked]
  refine
    { located := h.located
      inside := h.inside
      pages := h.pages
      tiled := ?_
      tiles := ?_
      orders := ?_
      freeMark := ?_
      usedMark := hk.usedMark
      subMark := ?_
      ungiven := hk.ungiven
      merged := ?_ }
  · rintro x (hx | hx)
    · exact h.tiled x hx
    · exact hG x hx
  · rw [hfree, Multiset.cons_add]
    exact h.tiles_cons hY hn
  · intro b hb
    rw [hfree, Multiset.cons_add, Multiset.mem_cons] at hb
    rcases hb with rfl | hb
    · exact ⟨hm, hmax⟩
    · exact h.orders b hb
  · intro b hb ho
    rw [hfree, Multiset.mem_cons] at hb
    rcases hb with rfl | hb
    · exact hself
    · exact hk.freeMark b hb ho
  · intro b hb ho
    rw [hfree, Multiset.cons_add, Multiset.mem_cons] at hb
    rcases hb with rfl | hb
    · rw [MemoryRegion.mark_pushed, hself]
      simp only [pageLevel, buddyFirstLevel]
      omega
    · exact hk.subMark b hb ho
  · intro h12
    rw [hfree]
    exact (h.merged h12).cons (fun c hc => h.tiles.aligned c (Multiset.mem_add.mpr (Or.inl hc))) hY
      (hbuddy h12)

theorem fillUsed (h : Sound m sp r G T U) (hY : Y.Aligned) (hm : m ≤ Y.order)
    (hmax : Y.order ≤ 27) (hG : ∀ x, Y.Covers x → G x) (hn : ∀ x, Y.Covers x → ¬ T x) :
    Sound m sp (r.marked Y.base (Y.order - buddyFirstLevel) false) G
      (fun x => T x ∨ Y.Covers x) (Y ::ₘ U) := by
  have hGb := hG _ Y.covers_base
  have hk := h.marked hY hGb hn false
  have hself := h.mark_self hGb (Y.order - buddyFirstLevel) false
  refine
    { located := h.located
      inside := h.inside
      pages := h.pages
      tiled := ?_
      tiles := ?_
      orders := ?_
      freeMark := hk.freeMark
      usedMark := ?_
      subMark := ?_
      ungiven := hk.ungiven
      merged := hk.merged }
  · rintro x (hx | hx)
    · exact h.tiled x hx
    · exact hG x hx
  · rw [MemoryRegion.freeBlocks_marked, Multiset.add_cons]
    exact h.tiles_cons hY hn
  · intro b hb
    rw [MemoryRegion.freeBlocks_marked, Multiset.add_cons, Multiset.mem_cons] at hb
    rcases hb with rfl | hb
    · exact ⟨hm, hmax⟩
    · exact h.orders b hb
  · intro b hb ho
    rcases Multiset.mem_cons.mp hb with rfl | hb
    · exact hself
    · exact hk.usedMark b hb ho
  · intro b hb ho
    rw [MemoryRegion.freeBlocks_marked, Multiset.add_cons, Multiset.mem_cons] at hb
    rcases hb with rfl | hb
    · rw [hself]
      simp only [pageLevel, buddyFirstLevel]
      omega
    · exact hk.subMark b hb ho

/-- Two free blocks with one address are one block. -/
theorem free_unique (h : Sound m sp r G T U) {b c : Block} (hb : b ∈ r.freeBlocks)
    (hc : c ∈ r.freeBlocks) (hbc : c.base = b.base) : c = b :=
  h.tiles.eq_of_covers (Multiset.mem_add.mpr (Or.inl hb)) (Multiset.mem_add.mpr (Or.inl hc))
    b.covers_base (hbc ▸ c.covers_base)

/-- Take a block off its free list: it becomes a hole. -/
theorem takeFree (h : Sound m sp r G T U) (hY : Y ∈ r.freeBlocks) :
    Sound m sp (r.unlinked Y.base) G (Around T Y) U := by
  have hfree := MemoryRegion.freeBlocks_unlinked hY
    (fun c hc hbc => h.free_unique hY hc hbc)
  have hmem : ∀ b, b ∈ (r.unlinked Y.base).freeBlocks → b ∈ r.freeBlocks := by
    intro b hb
    rw [← hfree]
    exact Multiset.mem_cons_of_mem hb
  have hall : ∀ b, b ∈ (r.unlinked Y.base).freeBlocks + U → b ∈ r.freeBlocks + U := by
    intro b hb
    rw [Multiset.mem_add] at hb ⊢
    exact hb.imp_left (hmem b)
  exact
    { located := h.located
      inside := h.inside
      pages := h.pages
      tiled := fun x hx => h.tiled x hx.1
      tiles := by
        have ht := h.tiles
        rw [← hfree, Multiset.cons_add] at ht
        exact ht.remove
      orders := fun b hb => h.orders b (hall b hb)
      freeMark := fun b hb ho => h.freeMark b (hmem b hb) ho
      usedMark := h.usedMark
      subMark := fun b hb ho => h.subMark b (hall b hb) ho
      ungiven := h.ungiven
      merged := fun h12 => (h.merged h12).mono hmem }

theorem takeUsed (h : Sound m sp r G T (Y ::ₘ U)) : Sound m sp r G (Around T Y) U := by
  have hall : ∀ b, b ∈ r.freeBlocks + U → b ∈ r.freeBlocks + Y ::ₘ U := by
    intro b hb
    rw [Multiset.add_cons]
    exact Multiset.mem_cons_of_mem hb
  exact
    { located := h.located
      inside := h.inside
      pages := h.pages
      tiled := fun x hx => h.tiled x hx.1
      tiles := by
        have ht := h.tiles
        rw [Multiset.add_cons] at ht
        exact ht.remove
      orders := fun b hb => h.orders b (hall b hb)
      freeMark := h.freeMark
      usedMark := fun b hb ho => h.usedMark b (Multiset.mem_cons_of_mem hb) ho
      subMark := fun b hb ho => h.subMark b (hall b hb) ho
      ungiven := h.ungiven
      merged := h.merged }

/-- The start of a hole is on no free list. -/
theorem not_linked (h : Sound m sp r G T U) {y : ℕ} (hn : ¬ T y) : r.linked y = false := by
  rw [Bool.eq_false_iff]
  intro hl
  obtain ⟨b, hb, rfl⟩ := MemoryRegion.linked_iff.mp hl
  exact hn (h.base_mem (Multiset.mem_add.mpr (Or.inl hb)))

theorem listAdd_eq (h : Sound m sp r G T U) {y : ℕ} (hn : ¬ T y) (level : ℕ) :
    r.listAdd level y = .ok (r.pushed level y) := by
  rw [MemoryRegion.listAdd, h.not_linked hn]
  rfl

theorem listDel_eq (hY : Y ∈ r.freeBlocks) :
    r.listDel Y.base = .ok (r.unlinked Y.base) := by
  rw [MemoryRegion.listDel, if_pos (MemoryRegion.linked_iff.mpr ⟨Y, hY, rfl⟩)]
  rfl

theorem setMetadata_eq (hl : sp.Locates r) {y : ℕ} (hy : sp.Contains y) (site : Site)
    (level : ℕ) (free : Bool) :
    r.setMetadata site y level free = .ok (r.marked y level free) := by
  rw [MemoryRegion.setMetadata, Span.pageMetadata_eq hl hy]
  rfl

end Sound

end TomatOS.Phys
