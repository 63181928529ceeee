import TomatOS.Phys.RegionOperations

/-! Setting a region up: an empty region with zeroed metadata receives a list
of page ranges through `add_memory_to_region`. The ranges are page aligned,
disjoint and inside the region, as the usable entries of a memory map are; what
comes out is a sound region whose free blocks tile exactly the ranges. -/

namespace TomatOS.Phys

open Foundation.Dyadic

variable {m : ℕ} {sp : Span} {r : MemoryRegion} {G : ℕ → Prop} {U : Multiset Block}

theorem Sound.mono {k : ℕ} (h : Sound m sp r G G U) (hk : k ≤ m) : Sound k sp r G G U :=
  { h with
    orders := fun b hb => ⟨hk.trans (h.orders b hb).1, (h.orders b hb).2⟩
    merged := fun h12 => h.merged (h12.trans hk) }

/-- The addresses `G` together with the interval from `lo` to `hi`. -/
def Extended (G : ℕ → Prop) (lo hi : ℕ) : ℕ → Prop := fun x => G x ∨ lo ≤ x ∧ x < hi

theorem Extended.trans (G : ℕ → Prop) {lo mid hi : ℕ} (h1 : lo ≤ mid) (h2 : mid ≤ hi) :
    Extended (Extended G lo mid) mid hi = Extended G lo hi := by
  funext x
  simp only [Extended, eq_iff_iff]
  constructor
  · rintro ((h | h) | h)
    · exact Or.inl h
    · exact Or.inr ⟨h.1, by omega⟩
    · exact Or.inr ⟨by omega, h.2⟩
  · rintro (h | h)
    · exact Or.inl (Or.inl h)
    · by_cases hx : x < mid
      · exact Or.inl (Or.inr ⟨h.1, hx⟩)
      · exact Or.inr ⟨by omega, h.2⟩

theorem Extended.empty (G : ℕ → Prop) (lo : ℕ) : Extended G lo lo = G := by
  funext x
  simp only [Extended, eq_iff_iff]
  constructor
  · rintro (h | h)
    · exact h
    · omega
  · exact Or.inl

/-- The interval can be given: it is in the region and not given yet. -/
def Fresh (sp : Span) (G : ℕ → Prop) (lo hi : ℕ) : Prop :=
  ∀ x, lo ≤ x → x < hi → sp.Contains x ∧ ¬ G x

theorem Fresh.left {lo mid hi : ℕ} (h : Fresh sp G lo hi) (hm : mid ≤ hi) : Fresh sp G lo mid :=
  fun x h1 h2 => h x h1 (by omega)

theorem Fresh.right {lo mid hi : ℕ} (h : Fresh sp G lo hi) (hm : lo ≤ mid) :
    Fresh sp (Extended G lo mid) mid hi := by
  intro x h1 h2
  obtain ⟨hc, hn⟩ := h x (by omega) h2
  refine ⟨hc, ?_⟩
  rintro (hg | hg)
  · exact hn hg
  · omega

/-- Freeing one fresh block of at least a page adds it to the given addresses. -/
theorem giveBlock {X : Block} (h4 : 4 ≤ m) (hm : m ≤ 12) (h : Sound m sp r G G U)
    (hX : X.Aligned) (ho : 12 ≤ X.order) (hmax : X.order ≤ 27)
    (hf : Fresh sp G X.base (X.base + 2 ^ X.order)) :
    ∃ r', freeAtLevel r X.base (X.order - buddyFirstLevel) = .ok r' ∧
      Sound m sp r' (Extended G X.base (X.base + 2 ^ X.order))
        (Extended G X.base (X.base + 2 ^ X.order)) U := by
  set G' := Extended G X.base (X.base + 2 ^ X.order) with hG'
  have hGX : ∀ x, G' x ↔ G x ∨ X.Covers x := fun x => Iff.rfl
  have hhole : Sound m sp r G' (Around G' X) U := by
    have hT : ∀ x, G x ↔ Around G' X x := by
      intro x
      have hn := hf x
      simp only [Around, hGX]
      simp only [Block.Covers]
      tauto
    refine Sound.congr ?_ hT
    exact
      { h with
        inside := by
          rintro x (hx | hx)
          · exact h.inside x hx
          · exact (hf x hx.1 hx.2).1
        pages := by
          intro x y hxy hx
          rw [hGX] at hx ⊢
          rcases hx with hx | hx
          · exact Or.inl (h.pages x y hxy hx)
          · exact Or.inr (hX.covers_of_div_eq ho hxy.symm hx)
        tiled := fun x hx => Or.inl hx
        ungiven := fun x hx hn => h.ungiven x hx fun hg => hn (Or.inl hg) }
  exact freeAtLevel_spec h4 hX (by omega) hmax (fun x hx => (hGX x).mpr (Or.inr hx)) hhole
    (fun hlt => absurd hlt (by omega))

private theorem givePage (h4 : 4 ≤ m) (hm : m ≤ 12) (h : Sound m sp r G G U) {base : ℕ}
    (hb : pageSize ∣ base) (hf : Fresh sp G base (base + pageSize)) :
    ∃ r', freeAtLevel r base pageLevel = .ok r' ∧
      Sound m sp r' (Extended G base (base + pageSize)) (Extended G base (base + pageSize)) U :=
  giveBlock (X := ⟨base, 12⟩) h4 hm h hb le_rfl (show 12 ≤ 27 by decide) hf

private theorem giveTop (h4 : 4 ≤ m) (hm : m ≤ 12) (h : Sound m sp r G G U) {base : ℕ}
    (hb : buddyTopLevelSize ∣ base) (hf : Fresh sp G base (base + buddyTopLevelSize)) :
    ∃ r', freeAtLevel r base (buddyLevelCount - 1) = .ok r' ∧
      Sound m sp r' (Extended G base (base + buddyTopLevelSize))
        (Extended G base (base + buddyTopLevelSize)) U := by
  rw [buddyTopLevelSize_eq] at hb hf ⊢
  exact giveBlock (X := ⟨base, 27⟩) h4 hm h hb (show 12 ≤ 27 by decide) le_rfl hf

theorem addPages_spec (h4 : 4 ≤ m) (hm : m ≤ 12) (n : ℕ) {base : ℕ} (h : Sound m sp r G G U)
    (hb : pageSize ∣ base) (hf : Fresh sp G base (base + n * pageSize)) :
    ∃ r', addPages n r base = .ok r' ∧ Sound m sp r' (Extended G base (base + n * pageSize))
      (Extended G base (base + n * pageSize)) U := by
  induction n generalizing r G base with
  | zero =>
    refine ⟨r, rfl, ?_⟩
    rw [zero_mul, add_zero, Extended.empty]
    exact h
  | succ n ih =>
    have he : base + (n + 1) * pageSize = base + pageSize + n * pageSize := by ring
    rw [he] at hf ⊢
    obtain ⟨r₁, hr₁, hs₁⟩ := givePage h4 hm h hb (hf.left (by omega))
    obtain ⟨r', hr', hs'⟩ := ih hs₁ (Nat.dvd_add hb (dvd_refl _)) (hf.right (by omega))
    rw [Extended.trans G (by omega) (by omega)] at hs'
    refine ⟨r', ?_, hs'⟩
    simp only [addPages, hr₁, bind, Except.bind]
    exact hr'

theorem addTopBlocks_spec (h4 : 4 ≤ m) (hm : m ≤ 12) (n : ℕ) {base : ℕ} (h : Sound m sp r G G U)
    (hb : buddyTopLevelSize ∣ base) (hf : Fresh sp G base (base + n * buddyTopLevelSize)) :
    ∃ r', addTopBlocks n r base = .ok (r', base + n * buddyTopLevelSize) ∧
      Sound m sp r' (Extended G base (base + n * buddyTopLevelSize))
        (Extended G base (base + n * buddyTopLevelSize)) U := by
  induction n generalizing r G base with
  | zero =>
    refine ⟨r, by simp [addTopBlocks], ?_⟩
    rw [zero_mul, add_zero, Extended.empty]
    exact h
  | succ n ih =>
    have he : base + (n + 1) * buddyTopLevelSize =
        base + buddyTopLevelSize + n * buddyTopLevelSize := by ring
    rw [he] at hf ⊢
    obtain ⟨r₁, hr₁, hs₁⟩ := giveTop h4 hm h hb (hf.left (by omega))
    obtain ⟨r', hr', hs'⟩ := ih hs₁ (Nat.dvd_add hb (dvd_refl _)) (hf.right (by omega))
    rw [Extended.trans G (by omega) (by omega)] at hs'
    refine ⟨r', ?_, hs'⟩
    simp only [addTopBlocks, hr₁, bind, Except.bind]
    exact hr'

/-- The first loop stops at a 128MB boundary or at the end of the range. -/
theorem addUntilTop_spec (h4 : 4 ≤ m) (hm : m ≤ 12) (n : ℕ) {base : ℕ} (h : Sound m sp r G G U)
    (hb : pageSize ∣ base) (hf : Fresh sp G base (base + n * pageSize)) :
    ∃ r' base' n', addUntilTop n r base = .ok (r', base', n') ∧ base ≤ base' ∧
      base' + n' * pageSize = base + n * pageSize ∧ (buddyTopLevelSize ∣ base' ∨ n' = 0) ∧
      Sound m sp r' (Extended G base base') (Extended G base base') U := by
  induction n generalizing r G base with
  | zero =>
    refine ⟨r, base, 0, rfl, le_rfl, rfl, Or.inr rfl, ?_⟩
    rw [Extended.empty]
    exact h
  | succ n ih =>
    rw [addUntilTop]
    split_ifs with htop
    · have he : base + (n + 1) * pageSize = base + pageSize + n * pageSize := by ring
      rw [he] at hf ⊢
      obtain ⟨r₁, hr₁, hs₁⟩ := givePage h4 hm h hb (hf.left (by omega))
      obtain ⟨r', base', n', hr', hle, hend, hstop, hs'⟩ :=
        ih hs₁ (Nat.dvd_add hb (dvd_refl _)) (hf.right (by omega))
      rw [Extended.trans G (by omega) hle] at hs'
      refine ⟨r', base', n', ?_, by omega, hend, hstop, hs'⟩
      simp only [hr₁, bind, Except.bind]
      exact hr'
    · refine ⟨r, base, n + 1, rfl, le_rfl, rfl, Or.inl ?_, ?_⟩
      · exact Nat.dvd_of_mod_eq_zero (not_not.mp htop)
      · rw [Extended.empty]
        exact h

/-- Adding a fresh range of pages makes exactly that range available. -/
theorem addMemoryToRegion_spec (h4 : 4 ≤ m) (hm : m ≤ 12) {base n : ℕ} (h : Sound m sp r G G U)
    (hb : pageSize ∣ base) (hf : Fresh sp G base (base + n * pageSize)) :
    ∃ r', addMemoryToRegion r base n = .ok r' ∧ Sound m sp r'
      (Extended G base (base + n * pageSize)) (Extended G base (base + n * pageSize)) U := by
  obtain ⟨r₁, b₁, n₁, hr₁, hle₁, hend, hstop, hs₁⟩ := addUntilTop_spec h4 hm n h hb hf
  have hper : buddyTopLevelSize = buddyTopLevelSize / pageSize * pageSize := by decide
  have hsplit : b₁ + n₁ * pageSize = b₁ + n₁ / (buddyTopLevelSize / pageSize) * buddyTopLevelSize +
      n₁ % (buddyTopLevelSize / pageSize) * pageSize := by
    have hq : ∀ q, b₁ + n₁ * pageSize = b₁ + n₁ / q * (q * pageSize) + n₁ % q * pageSize := by
      intro q
      conv_lhs => rw [← Nat.div_add_mod n₁ q]
      ring
    have := hq (buddyTopLevelSize / pageSize)
    rwa [← hper] at this
  have hf₁ := hf.right hle₁
  rw [← hend] at hf₁ ⊢
  rw [hsplit] at hf₁ ⊢
  set k := n₁ / (buddyTopLevelSize / pageSize)
  set j := n₁ % (buddyTopLevelSize / pageSize)
  -- the second loop runs only from an aligned base
  obtain ⟨r₂, hr₂, hs₂⟩ : ∃ r₂, addTopBlocks k r₁ b₁ = .ok (r₂, b₁ + k * buddyTopLevelSize) ∧
      Sound m sp r₂ (Extended G base (b₁ + k * buddyTopLevelSize))
        (Extended G base (b₁ + k * buddyTopLevelSize)) U := by
    rcases hstop with hd | h0
    · obtain ⟨r₂, hr₂, hs₂⟩ := addTopBlocks_spec h4 hm k hs₁ hd (hf₁.left (by omega))
      rw [Extended.trans G hle₁ (by omega)] at hs₂
      exact ⟨r₂, hr₂, hs₂⟩
    · have hk : k = 0 := by simp only [k, h0, Nat.zero_div]
      rw [hk]
      exact ⟨r₁, by simp [addTopBlocks], by rwa [zero_mul, add_zero]⟩
  have hb₁ : pageSize ∣ b₁ := by
    have h1 : pageSize ∣ b₁ + n₁ * pageSize := hend ▸ Nat.dvd_add hb (Nat.dvd_mul_left _ _)
    exact (Nat.dvd_add_left (Nat.dvd_mul_left _ _)).mp h1
  have hb₂ : pageSize ∣ b₁ + k * buddyTopLevelSize :=
    Nat.dvd_add hb₁ (Dvd.dvd.mul_left ⟨buddyTopLevelSize / pageSize, by decide⟩ _)
  have hle₂ : b₁ ≤ b₁ + k * buddyTopLevelSize := Nat.le_add_right _ _
  have hf₂ := hf₁.right hle₂
  rw [Extended.trans G hle₁ (by omega)] at hf₂
  obtain ⟨r₃, hr₃, hs₃⟩ := addPages_spec h4 hm j hs₂ hb₂ hf₂
  rw [Extended.trans G (by omega) (by omega)] at hs₃
  refine ⟨r₃, ?_, hs₃⟩
  simp only [addMemoryToRegion, hr₁, bind, Except.bind]
  rw [show addTopBlocks (n₁ / (buddyTopLevelSize / pageSize)) r₁ b₁ =
    .ok (r₂, b₁ + k * buddyTopLevelSize) from hr₂]
  exact hr₃

/-- A region and the page ranges handed to `add_memory_to_region` for it. -/
structure RegionSpec extends Span where
  ranges : List (ℕ × ℕ)
  ranges_dvd : ∀ p ∈ ranges, pageSize ∣ p.1
  ranges_inside : ∀ p ∈ ranges,
    base ≤ p.1 ∧ p.1 + p.2 * pageSize ≤ base + pageCount * pageSize
  ranges_disjoint : ranges.Pairwise fun p q =>
    p.1 + p.2 * pageSize ≤ q.1 ∨ q.1 + q.2 * pageSize ≤ p.1

/-- The addresses of a list of page ranges. -/
def InRanges (ranges : List (ℕ × ℕ)) (x : ℕ) : Prop :=
  ∃ p ∈ ranges, p.1 ≤ x ∧ x < p.1 + p.2 * pageSize

instance (ranges : List (ℕ × ℕ)) (x : ℕ) : Decidable (InRanges ranges x) := by
  unfold InRanges; infer_instance

namespace RegionSpec

/-- The addresses given to the allocator. -/
def Given (spec : RegionSpec) : ℕ → Prop := InRanges spec.ranges

/-- A region as `create_memory_regions` leaves it: lists initialised, metadata
zeroed. -/
def emptyRegion (spec : RegionSpec) : MemoryRegion where
  pageCount := spec.pageCount
  base := spec.base
  freeList := fun _ => []
  metadata := fun _ => ⟨0, false⟩

def initRegion (spec : RegionSpec) : Result MemoryRegion :=
  spec.ranges.foldlM (fun r p => addMemoryToRegion r p.1 p.2) spec.emptyRegion

theorem emptyRegion_sound (spec : RegionSpec) :
    Sound 12 spec.toSpan spec.emptyRegion (fun _ => False) (fun _ => False) 0 := by
  have hfree : spec.emptyRegion.freeBlocks = 0 := by
    simp [MemoryRegion.freeBlocks, MemoryRegion.listBlocks, emptyRegion]
  refine
    { located := ⟨rfl, rfl⟩
      inside := fun x hx => hx.elim
      pages := fun x y _ hx => hx
      tiled := fun x hx => hx
      tiles := ?_
      orders := ?_
      freeMark := ?_
      usedMark := ?_
      subMark := ?_
      ungiven := fun x _ _ => rfl
      merged := ?_ }
  · rw [hfree]
    exact ⟨by simp, fun x hx => hx.elim, fun x _ => cover_zero x⟩
  all_goals simp [hfree, Merged]

private theorem addRanges_spec (ranges : List (ℕ × ℕ)) (hd : ∀ p ∈ ranges, pageSize ∣ p.1)
    (hfresh : ∀ p ∈ ranges, Fresh sp G p.1 (p.1 + p.2 * pageSize))
    (hdis : ranges.Pairwise fun p q => p.1 + p.2 * pageSize ≤ q.1 ∨ q.1 + q.2 * pageSize ≤ p.1)
    (h : Sound 12 sp r G G U) :
    ∃ r', ranges.foldlM (fun r p => addMemoryToRegion r p.1 p.2) r = .ok r' ∧
      Sound 12 sp r' (fun x => G x ∨ InRanges ranges x) (fun x => G x ∨ InRanges ranges x) U := by
  induction ranges generalizing r G with
  | nil => exact ⟨r, rfl, by simpa [InRanges] using h⟩
  | cons p ranges ih =>
    rw [List.pairwise_cons] at hdis
    obtain ⟨r₁, hr₁, hs₁⟩ := addMemoryToRegion_spec (by decide) le_rfl h
      (hd p List.mem_cons_self) (hfresh p List.mem_cons_self)
    have hfresh' : ∀ q ∈ ranges, Fresh sp (Extended G p.1 (p.1 + p.2 * pageSize)) q.1
        (q.1 + q.2 * pageSize) := by
      intro q hq x h1 h2
      obtain ⟨hc, hn⟩ := hfresh q (List.mem_cons_of_mem _ hq) x h1 h2
      refine ⟨hc, ?_⟩
      rintro (hg | hg)
      · exact hn hg
      · have := hdis.1 q hq
        omega
    obtain ⟨r', hr', hs'⟩ := ih (fun q hq => hd q (List.mem_cons_of_mem _ hq)) hfresh' hdis.2 hs₁
    have hset : (fun x => Extended G p.1 (p.1 + p.2 * pageSize) x ∨ InRanges ranges x) =
        fun x => G x ∨ InRanges (p :: ranges) x := by
      funext x
      simp only [Extended, InRanges, List.mem_cons, exists_eq_or_imp, or_assoc]
    rw [hset] at hs'
    refine ⟨r', ?_, hs'⟩
    rw [List.foldlM_cons, hr₁]
    exact hr'

/-- Initialisation never fails, and the free blocks tile the ranges added. -/
theorem initRegion_spec (spec : RegionSpec) :
    ∃ r, spec.initRegion = .ok r ∧ Sound 12 spec.toSpan r spec.Given spec.Given 0 := by
  obtain ⟨r, hr, hs⟩ := addRanges_spec spec.ranges spec.ranges_dvd (fun p hp x h1 h2 => by
    have := spec.ranges_inside p hp
    exact ⟨⟨by omega, by omega⟩, not_false⟩) spec.ranges_disjoint spec.emptyRegion_sound
  refine ⟨r, hr, ?_⟩
  have hset : (fun x => False ∨ InRanges spec.ranges x) = spec.Given := by
    funext x
    simp only [false_or, Given]
  rwa [hset] at hs

end RegionSpec

end TomatOS.Phys
