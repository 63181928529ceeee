import TomatOS.Phys.RegionInvariant

/-! What the operations of one region do to its invariant: allocation turns a
free block into a block in use of the requested level, release turns a block
back into free memory whatever the coalescing loop merges it with, and adding
memory extends the given addresses. None of them fails an assertion or
corrupts a list. The coalescing loop only reads marks of blocks that start at a
buddy, so the stale marks inside merged blocks are never consulted. -/

namespace TomatOS.Phys

open Foundation.Dyadic

variable {m : ℕ} {sp : Span} {r : MemoryRegion} {G : ℕ → Prop} {U : Multiset Block}

section Allocation

/-- Splitting gives away upper halves until the hole has the level asked for. -/
theorem splitBlock_spec (h4 : 4 ≤ m) {level block : ℕ} (hm : m ≤ level + buddyFirstLevel)
    (n : ℕ) (hn : level + n < buddyLevelCount) (X : Block) (hXb : X.base = block)
    (hXo : X.order = level + n + buddyFirstLevel) (hX : X.Aligned) (hG : ∀ x, X.Covers x → G x)
    (h : Sound m sp r G (Around G X) U) :
    ∃ r', splitBlock level block n r = .ok r' ∧
      Sound m sp r' G (Around G ⟨block, level + buddyFirstLevel⟩) U := by
  induction n generalizing r X with
  | zero =>
    obtain rfl : X = ⟨block, level + buddyFirstLevel⟩ := by cases X; simp_all
    exact ⟨r, rfl, h⟩
  | succ n ih =>
    have ho : 0 < X.order := by rw [hXo]; simp only [buddyFirstLevel]; omega
    have hupo : X.upper.order = level + n + buddyFirstLevel := by
      simp only [Block.upper, hXo]; omega
    have hsub : ∀ x, X.upper.Covers x → X.Covers x :=
      fun x hx => (Block.covers_halves ho x).mpr (Or.inr hx)
    have hout : ∀ x, X.upper.Covers x → ¬ Around G X x := fun x hx hA => hA.2 (hsub x hx)
    -- the buddy of the upper half is what stays of the hole
    have hlower : X.upper.buddyBlock ∉ r.freeBlocks := by
      rw [hX.upper_buddy ho]
      intro hmem
      exact (h.base_mem (Multiset.mem_add.mpr (Or.inl hmem))).2 X.covers_base
    have hfill := h.fillFree hX.upper (by rw [hupo]; omega) h4
      (by rw [hupo]; simp only [buddyFirstLevel, buddyLevelCount] at *; omega)
      (fun x hx => hG x (hsub x hx)) hout (fun _ _ => hlower)
    have hshrink := hfill.congr (around_split ho hG)
    rw [show X.upper.order - buddyFirstLevel = level + n by rw [hupo]; omega] at hshrink
    obtain ⟨r', hr', hs'⟩ := ih (by omega) X.lower hXb hupo hX.lower
      (fun x hx => hG x ((Block.covers_halves ho x).mpr (Or.inl hx))) hshrink
    refine ⟨r', ?_, hs'⟩
    have hupper : block + 1 <<< (level + n + 1 + buddyFirstLevel) / 2 = X.upper.base := by
      simp only [Block.upper, hXb, hXo, Nat.one_shiftLeft]
      rw [show level + n + 1 + buddyFirstLevel = level + n + buddyFirstLevel + 1 by omega,
        pow_succ, Nat.mul_div_cancel _ two_pos,
        show level + (n + 1) + buddyFirstLevel - 1 = level + n + buddyFirstLevel by omega]
    have hcont := h.inside _ (hG _ (hsub _ X.upper.covers_base))
    simp only [splitBlock, hupper, h.listAdd_eq (hout _ X.upper.covers_base), bind, Except.bind]
    have hloc : sp.Locates (r.pushed (level + n) X.upper.base) := h.located
    rw [Sound.setMetadata_eq hloc hcont]
    exact hr'

theorem findBlock_some {n l bl block : ℕ} (h : findBlock r n l = some (bl, block)) :
    l ≤ bl ∧ bl < l + n ∧ block ∈ r.freeList bl := by
  induction n generalizing l with
  | zero => cases h
  | succ n ih =>
    rw [findBlock] at h
    split at h
    · obtain ⟨h1, h2, h3⟩ := ih h
      exact ⟨by omega, by omega, h3⟩
    · rename_i head tail heq
      cases h
      exact ⟨le_rfl, by omega, by rw [heq]; exact List.mem_cons_self⟩

theorem findBlock_none {n l : ℕ} (h : findBlock r n l = none) {bl : ℕ} (hle : l ≤ bl)
    (hlt : bl < l + n) : r.freeList bl = [] := by
  induction n generalizing l with
  | zero => omega
  | succ n ih =>
    rw [findBlock] at h
    split at h
    · rename_i hempty
      rcases Nat.eq_or_lt_of_le hle with rfl | hgt
      · exact hempty
      · exact ih h hgt (by omega)
    · cases h

/-- No block is left from `level` up. -/
def MemoryRegion.Exhausted (r : MemoryRegion) (level : ℕ) : Prop :=
  ∀ bl, level ≤ bl → bl < buddyLevelCount → r.freeList bl = []

instance (r : MemoryRegion) (level : ℕ) : Decidable (r.Exhausted level) :=
  decidable_of_iff (∀ bl < buddyLevelCount, level ≤ bl → r.freeList bl = [])
    ⟨fun h bl hle hlt => h bl hlt hle, fun h bl hlt hle => h bl hle hlt⟩

/-- Allocation finds no block from the level up, or turns one into a block in
use of the level asked for. -/
theorem allocateFromLevel_spec (h4 : 4 ≤ m) (h : Sound m sp r G G U) {level : ℕ}
    (hl : level < buddyLevelCount) (hm : m ≤ level + buddyFirstLevel) :
    (r.Exhausted level ∧ allocateFromLevel r (some level) = .ok (none, r)) ∨
    ¬ r.Exhausted level ∧ ∃ a r', allocateFromLevel r (some level) = .ok (some a, r') ∧
      Sound m sp r' G G (⟨a, level + buddyFirstLevel⟩ ::ₘ U) := by
  rw [allocateFromLevel, if_pos hl]
  rcases hf : findBlock r (buddyLevelCount - level) level with _ | ⟨bl, block⟩
  · exact Or.inl ⟨fun bl hle hlt => findBlock_none hf hle (by omega), rfl⟩
  · right
    obtain ⟨hle, hlt', hmem⟩ := findBlock_some hf
    have hlt : bl < buddyLevelCount := by omega
    have hleft : ¬ r.Exhausted level := by
      intro hex
      rw [hex bl hle hlt] at hmem
      exact List.not_mem_nil hmem
    have hX : (⟨block, bl + buddyFirstLevel⟩ : Block) ∈ r.freeBlocks :=
      MemoryRegion.mem_freeBlocks_mk.mpr ⟨hlt, hmem⟩
    have hXM := Multiset.mem_add.mpr (Or.inl hX : _ ∨ _ ∈ U)
    have hal := h.tiles.aligned _ hXM
    have hcov : ∀ x, (⟨block, bl + buddyFirstLevel⟩ : Block).Covers x → G x :=
      fun x hx => h.tiles.mem_of_covers hXM hx
    have hhole := h.takeFree hX
    have hbl : level + (bl - level) = bl := by omega
    obtain ⟨r₁, hr₁, hs₁⟩ := splitBlock_spec h4 hm (bl - level) (by omega) _ rfl
      (by rw [hbl]) hal hcov hhole
    set Y : Block := ⟨block, level + buddyFirstLevel⟩ with hYdef
    have hYal : Y.Aligned := (pow_dvd_pow 2 (by simp only [hYdef]; omega)).trans hal
    have hYsub : ∀ x, Y.Covers x → G x := by
      intro x hx
      refine hcov x ⟨hx.1, hx.2.trans_le ?_⟩
      exact Nat.add_le_add_left (Nat.pow_le_pow_right two_pos (by simp only [hYdef]; omega)) _
    have hfill := hs₁.fillUsed hYal hm
      (by simp only [hYdef, buddyFirstLevel, buddyLevelCount] at *; omega) hYsub
      (fun x hx hA => hA.2 hx)
    refine ⟨hleft, block, _, ?_, hfill.congr (around_fill hYsub)⟩
    have hdel := Sound.listDel_eq hX
    simp only at hdel
    simp only [hdel, hr₁, bind, Except.bind, pure, Except.pure]
    rw [Sound.setMetadata_eq hs₁.located (hs₁.inside _ (hYsub _ Y.covers_base))]
    rfl

end Allocation

section Release

theorem coalesce_step {X : Block} (ho : 4 ≤ X.order) (n : ℕ) (r : MemoryRegion) :
    coalesce (n + 1) r X.base (X.order - buddyFirstLevel) =
      match pageMetadata r X.buddy with
      | none => .ok (r, X.base, X.order - buddyFirstLevel)
      | some i =>
        if !(r.metadata i).free then .ok (r, X.base, X.order - buddyFirstLevel)
        else if (r.metadata i).level ≠ X.order - buddyFirstLevel then
          .ok (r, X.base, X.order - buddyFirstLevel)
        else r.listDel X.buddy >>= fun r =>
          coalesce n r X.parent.base (X.parent.order - buddyFirstLevel) := by
  have hlev : X.order - buddyFirstLevel + buddyFirstLevel = X.order := by
    simp only [buddyFirstLevel]; omega
  have hmod : X.base &&& (2 ^ X.order * 2 - 1) = X.base % (2 ^ X.order * 2) := by
    rw [← pow_succ, Nat.and_two_pow_sub_one_eq_mod]
  have hpo : X.parent.order - buddyFirstLevel = X.order - buddyFirstLevel + 1 := by
    rw [X.parent_order]
    simp only [buddyFirstLevel]; omega
  rw [coalesce, hpo]
  simp only [hlev, Nat.one_shiftLeft, hmod, decide_eq_true_eq]
  unfold Block.buddy Block.parent
  split_ifs <;> rfl

private theorem mergeBuddy {X : Block} (hX : X.Aligned) (h : Sound m sp r G (Around G X) U)
    (hb : X.buddyBlock ∈ r.freeBlocks) (hG : ∀ x, X.Covers x → G x) :
    r.listDel X.buddy = .ok (r.unlinked X.buddy) ∧
      Sound m sp (r.unlinked X.buddy) G (Around G X.parent) U ∧
      ∀ x, X.parent.Covers x → G x := by
  have hbG : ∀ x, X.buddyBlock.Covers x → G x := fun x hx =>
    (h.tiles.mem_of_covers (Multiset.mem_add.mpr (Or.inl hb)) hx).1
  refine ⟨Sound.listDel_eq hb, (h.takeFree hb).congr (around_merge hX), fun x hx => ?_⟩
  exact ((hX.covers_parent x).mp hx).elim (hG x) (hbG x)

/-- The exit of the coalescing loop: a hole containing the block released, with a
buddy that is not free when there are only blocks of a page and more. -/
def Coalesced (m : ℕ) (sp : Span) (G : ℕ → Prop) (U : Multiset Block) (X : Block)
    (res : Result (MemoryRegion × ℕ × ℕ)) : Prop :=
  ∃ r' X', res = .ok (r', X'.base, X'.order - buddyFirstLevel) ∧ X'.Aligned ∧
    X.order ≤ X'.order ∧ X'.order ≤ 27 ∧ (∀ x, X'.Covers x → G x) ∧
    Sound m sp r' G (Around G X') U ∧ (12 ≤ m → X'.order < 27 → X'.buddyBlock ∉ r'.freeBlocks)

private theorem buddy_mark {X : Block} (ho : 12 ≤ X.order) (h : Sound m sp r G (Around G X) U)
    (hb : X.buddyBlock ∈ r.freeBlocks) :
    pageMetadata r X.buddy = some ((X.buddy - r.base) / pageSize) ∧
      r.metadata ((X.buddy - r.base) / pageSize) = ⟨X.order - buddyFirstLevel, true⟩ := by
  have hmem := h.base_mem (Multiset.mem_add.mpr (Or.inl hb))
  exact ⟨Span.pageMetadata_eq h.located (h.inside _ hmem.1), h.freeMark _ hb ho⟩

/-- From a hole of at least a page, a mark that says free at the hole's level
belongs to a free block of that level at the buddy. -/
private theorem buddy_free_of_mark {X : Block} (ho : 12 ≤ X.order) (hX : X.Aligned)
    (h : Sound m sp r G (Around G X) U) (hin : sp.Contains X.buddy)
    (hmark : r.mark X.buddy = ⟨X.order - buddyFirstLevel, true⟩) :
    X.buddyBlock ∈ r.freeBlocks := by
  -- a page that was never given is not marked free
  have hGy : G X.buddy := by
    by_contra hng
    have hfree := h.ungiven _ hin hng
    rw [hmark] at hfree
    cases hfree
  have hTy : Around G X X.buddy :=
    ⟨hGy, fun hc => hX.buddy_disjoint _ ⟨hc, X.buddyBlock.covers_base⟩⟩
  obtain ⟨c, hc, hcb, hco⟩ := h.tiles.tile_at_buddy hX (fun hA => hA.2 X.covers_base) hTy
  have hc12 : 12 ≤ c.order := by
    by_contra hlt
    have hs := h.subMark c hc (by omega)
    rw [hcb, hmark] at hs
    simp only [pageLevel, buddyFirstLevel] at hs
    omega
  have hcfree : c ∈ r.freeBlocks := by
    rcases Multiset.mem_add.mp hc with hc | hc
    · exact hc
    · have hu := h.usedMark c hc hc12
      rw [hcb, hmark] at hu
      exact absurd (congrArg PageMetadata.free hu) (by simp)
  have hlev := h.freeMark c hcfree hc12
  rw [hcb, hmark] at hlev
  have hceq : c = X.buddyBlock := by
    cases c
    simp only [buddyFirstLevel, Block.buddyBlock, Block.mk.injEq, PageMetadata.mk.injEq] at *
    omega
  exact hceq ▸ hcfree

/-- From a hole of at least a page the loop merges as long as the buddy is free. -/
theorem coalesce_page : ∀ (n : ℕ) (r : MemoryRegion) (X : Block), X.order + n = 27 →
    12 ≤ X.order → X.Aligned → (∀ x, X.Covers x → G x) → Sound m sp r G (Around G X) U →
    Coalesced m sp G U X (coalesce n r X.base (X.order - buddyFirstLevel))
  | 0, r, X, hn, _, hX, hG, h => ⟨r, X, rfl, hX, le_rfl, by omega, hG, h, by omega⟩
  | n + 1, r, X, hn, ho, hX, hG, h => by
    -- every way out of the loop contradicts the mark of a free buddy
    have hstop : X.buddyBlock ∉ r.freeBlocks →
        Coalesced m sp G U X (.ok (r, X.base, X.order - buddyFirstLevel)) := fun hb =>
      ⟨r, X, rfl, hX, le_rfl, by omega, hG, h, fun _ _ => hb⟩
    rw [coalesce_step (by omega)]
    split
    · rename_i hi
      apply hstop
      intro hb
      rw [(buddy_mark ho h hb).1] at hi
      cases hi
    · rename_i i hi
      have hmark : X.buddyBlock ∈ r.freeBlocks →
          r.metadata i = ⟨X.order - buddyFirstLevel, true⟩ := by
        intro hb
        obtain ⟨hpm, hmd⟩ := buddy_mark ho h hb
        rw [hi] at hpm
        rw [Option.some.inj hpm, hmd]
      split_ifs with hfree hlevel
      · apply hstop
        intro hb
        simp [hmark hb] at hfree
      · apply hstop
        intro hb
        simp [hmark hb] at hlevel
      · clear hmark
        obtain ⟨hin, rfl⟩ := Span.contains_of_pageMetadata h.located hi
        have hmark : r.mark X.buddy = ⟨X.order - buddyFirstLevel, true⟩ := by
          rw [Bool.not_eq_true', Bool.not_eq_false] at hfree
          rw [not_not] at hlevel
          show r.metadata ((X.buddy - r.base) / pageSize) = _
          rw [← hlevel, ← hfree]
        obtain ⟨hdel, hs, hpG⟩ := mergeBuddy hX h (buddy_free_of_mark ho hX h hin hmark) hG
        have hpo := X.parent_order
        obtain ⟨r', X', hr', hX', hle, hmax, hG', hs', hbuddy⟩ :=
          coalesce_page n _ X.parent (by omega) (by omega) hX.parent hpG hs
        rw [hdel]
        exact ⟨r', X', hr', hX', by omega, hmax, hG', hs', hbuddy⟩

/-- Below the page level the mark read at every iteration is the one of the
block's own page. It is right about the block when it has the block's level and
says free only if the buddy is on the free list of that level. -/
def SubPageMark (r : MemoryRegion) (X : Block) : Prop :=
  (r.mark X.base).level = X.order - buddyFirstLevel ∧
    ((r.mark X.base).free = true → X.buddy ∈ r.freeList (X.order - buddyFirstLevel))

private theorem buddy_same_page {X : Block} (hX : X.Aligned) (ho : X.order < 12) :
    X.buddy / pageSize = X.base / pageSize := by
  have hpo := X.parent_order
  set P : Block := ⟨X.base / 2 ^ 12 * 2 ^ 12, 12⟩
  have hP : P.Aligned := Nat.dvd_mul_left _ _
  have hPX : P.Covers X.base :=
    ⟨Nat.div_mul_le_self _ _, by simp only [P]; omega⟩
  have hpX : X.parent.Covers X.base := (hX.covers_parent _).mpr (Or.inl X.covers_base)
  have hpY : X.parent.Covers X.buddy :=
    (hX.covers_parent _).mpr (Or.inr X.buddyBlock.covers_base)
  have hPY := hP.nested hX.parent (by simp only [P]; omega) hPX hpX hpY
  simp only [Block.Covers, P] at hPX hPY
  simp only [pageSize]
  omega

private theorem mark_buddy {X : Block} (hX : X.Aligned) (ho : X.order < 12)
    (h : Sound m sp r G (Around G X) U) (hG : ∀ x, X.Covers x → G x) :
    ∃ i, pageMetadata r X.buddy = some i ∧ r.metadata i = r.mark X.base := by
  have hp := buddy_same_page hX ho
  have hGX := hG _ X.covers_base
  have hin := h.inside _ (h.pages _ _ hp.symm hGX)
  refine ⟨_, Span.pageMetadata_eq h.located hin, ?_⟩
  obtain ⟨k, hk⟩ := sp.base_dvd
  rw [MemoryRegion.mark, h.located.1, hk, Nat.sub_mul_div, Nat.sub_mul_div, hp]

theorem coalesce_subPage {X : Block} (h4 : 4 ≤ X.order) (hmo : m ≤ X.order) (ho : X.order < 12)
    (hX : X.Aligned) (hG : ∀ x, X.Covers x → G x) (h : Sound m sp r G (Around G X) U) (hm : SubPageMark r X) :
    Coalesced m sp G U X (coalesce (27 - X.order) r X.base (X.order - buddyFirstLevel)) := by
  have hpo := X.parent_order
  obtain ⟨i, hi, hmi⟩ := mark_buddy hX ho h hG
  have hstop : Coalesced m sp G U X (.ok (r, X.base, X.order - buddyFirstLevel)) :=
    ⟨r, X, rfl, hX, le_rfl, by omega, hG, h, by omega⟩
  rw [show 27 - X.order = 26 - X.order + 1 by omega, coalesce_step h4, hi]
  simp only [hmi, hm.1, ne_eq, not_true_eq_false, ↓reduceIte]
  split_ifs with hfree
  · exact hstop
  · rw [Bool.not_eq_true', Bool.not_eq_false] at hfree
    have hbuddy : X.buddyBlock ∈ r.freeBlocks := by
      rw [MemoryRegion.mem_freeBlocks]
      refine ⟨X.order - buddyFirstLevel, ?_, hm.2 hfree, ?_⟩
      · simp only [buddyFirstLevel, buddyLevelCount]; omega
      · simp only [Block.buddyBlock, buddyFirstLevel]; omega
    obtain ⟨hdel, hs, hpG⟩ := mergeBuddy hX h hbuddy hG
    rw [hdel]
    change Coalesced m sp G U X (coalesce _ (r.unlinked X.buddy) _ _)
    by_cases h11 : X.order = 11
    · obtain ⟨r', X', hr', hX', hle, hmax, hG', hs', hbuddy⟩ :=
        coalesce_page (26 - X.order) _ X.parent (by omega) (by omega) hX.parent hpG hs
      exact ⟨r', X', hr', hX', by omega, hmax, hG', hs', hbuddy⟩
    · -- the next buddy is on the same page, whose mark has the old level
      have hpp : X.parent.base / pageSize = X.base / pageSize := by
        have := buddy_same_page hX ho
        unfold Block.parent Block.buddy at *
        split_ifs at * <;> simp_all
      obtain ⟨j, hj, hmj⟩ := mark_buddy hX.parent (by omega) hs hpG
      have hmark : (r.unlinked X.buddy).mark X.parent.base = r.mark X.base := by
        obtain ⟨k, hk⟩ := sp.base_dvd
        rw [MemoryRegion.mark_unlinked, MemoryRegion.mark, MemoryRegion.mark, h.located.1, hk,
          Nat.sub_mul_div, Nat.sub_mul_div, hpp]
      have hne : (r.mark X.base).level ≠ X.parent.order - buddyFirstLevel := by
        rw [hm.1, hpo]
        simp only [buddyFirstLevel]
        omega
      rw [show 26 - X.order = 25 - X.order + 1 by omega, coalesce_step (by omega), hj]
      simp only [hmj, hmark, hne, ne_eq, not_false_eq_true, ↓reduceIte, ite_self]
      exact ⟨_, X.parent, rfl, hX.parent, by omega, by omega, hpG, hs, by omega⟩

/-- Releasing a hole makes all of it free again. -/
theorem freeAtLevel_spec {X : Block} (h4 : 4 ≤ m) (hX : X.Aligned) (ho : m ≤ X.order)
    (hmax : X.order ≤ 27) (hG : ∀ x, X.Covers x → G x) (h : Sound m sp r G (Around G X) U)
    (hsub : X.order < 12 → SubPageMark r X) :
    ∃ r', freeAtLevel r X.base (X.order - buddyFirstLevel) = .ok r' ∧ Sound m sp r' G G U := by
  have hco : Coalesced m sp G U X (coalesce (27 - X.order) r X.base
      (X.order - buddyFirstLevel)) := by
    by_cases h12 : X.order < 12
    · exact coalesce_subPage (by omega) ho h12 hX hG h (hsub h12)
    · exact coalesce_page _ r X (by omega) (by omega) hX hG h
  obtain ⟨r', X', hr', hX', hle, hmax', hG', hs', hbuddy⟩ := hco
  have hfill := hs'.fillFree hX' (by omega) h4 hmax' hG' (fun x hx hA => hA.2 hx) hbuddy
  refine ⟨_, ?_, hfill.congr (around_fill hG')⟩
  rw [freeAtLevel, if_pos (by simp only [buddyFirstLevel, buddyLevelCount]; omega),
    show buddyLevelCount - 1 - (X.order - buddyFirstLevel) = 27 - X.order by
      simp only [buddyFirstLevel, buddyLevelCount]; omega, hr']
  simp only [bind, Except.bind]
  have hk := hs'.marked hX' (hG' _ X'.covers_base) (fun x hx hA => hA.2 hx) true
  rw [Sound.setMetadata_eq hs'.located (hs'.inside _ (hG' _ X'.covers_base))]
  exact hk.listAdd_eq (fun hA => hA.2 X'.covers_base) _

end Release

end TomatOS.Phys
