import TomatOS.Phys.Partition

/-! Coalescing is complete. As long as only whole pages are handed out, no two
buddies are both free, so the free blocks of a region are the one merged tiling
of its free addresses: every aligned free range lies in one block, a request
fails only when there is no range for it, and what a region has on its free
lists depends on nothing but the blocks in use. -/

namespace TomatOS.Phys

open Foundation.Dyadic Foundation.Transition

variable {cpus : ℕ} {map : MemoryMap}

/-- The blocks of a run that are not free: live allocations and reserved pages. -/
def Run.used (s : Run cpus) : Multiset Block := liveBlocks s.live + reservedBlocks s.phys

/-- A naturally aligned range of a region all of whose addresses were given to
the allocator and lie in no block in use. -/
def FreeRange (spec : RegionSpec) (s : Run cpus) (range : Block) : Prop :=
  range.Aligned ∧ ∀ x, range.Covers x → spec.Given x ∧ ∀ b ∈ s.used, ¬ b.Covers x

/-! ### One region -/

section Region

variable {spec : RegionSpec} {r r' : MemoryRegion} {used : Multiset Block}

theorem RegionOk.freeTiles (h : RegionOk 12 spec r used) :
    Tiles r.freeBlocks (fun x => spec.Given x ∧ ∀ b ∈ usedIn spec used, ¬ b.Covers x) :=
  h.tiles.left

theorem RegionOk.freeOrders (h : RegionOk 12 spec r used) {b : Block} (hb : b ∈ r.freeBlocks) :
    12 ≤ b.order ∧ b.order ≤ 27 := h.orders b (Multiset.mem_add.mpr (Or.inl hb))

/-- An aligned range of free addresses lies inside one block of the free lists. -/
theorem RegionOk.exists_block (h : RegionOk 12 spec r used) {level : ℕ} {range : Block}
    (hl : pageLevel ≤ level) (hlt : level < buddyLevelCount)
    (ho : range.order = level + buddyFirstLevel) (hal : range.Aligned)
    (hfree : ∀ x, range.Covers x → spec.Given x ∧ ∀ b ∈ used, ¬ b.Covers x) :
    ∃ bl a, level ≤ bl ∧ bl < buddyLevelCount ∧ a ∈ r.freeList bl ∧
      ∀ x, range.Covers x → (⟨a, bl + buddyFirstLevel⟩ : Block).Covers x := by
  simp only [pageLevel, buddyLevelCount, buddyFirstLevel] at hl hlt ho
  obtain ⟨b, hb, hle, hcov⟩ := h.freeTiles.exists_tile_of_range (h.merged le_rfl)
    (fun b hb => (h.freeOrders hb).1) hal (by omega) (by omega) fun x hx =>
      ⟨(hfree x hx).1, fun b hb => (hfree x hx).2 b (Multiset.mem_of_mem_filter hb)⟩
  obtain ⟨bl, hbl, ha, hbo⟩ := MemoryRegion.mem_freeBlocks.mp hb
  refine ⟨bl, b.base, ?_, hbl, ha, ?_⟩
  · simp only [buddyFirstLevel] at hbo
    omega
  · rw [← hbo]
    exact hcov

theorem RegionOk.free_of_mem (h : RegionOk 12 spec r used) {level bl a : ℕ} (hle : level ≤ bl)
    (hlt : bl < buddyLevelCount) (ha : a ∈ r.freeList bl) :
    (⟨a, level + buddyFirstLevel⟩ : Block).Aligned ∧
      ∀ x, (⟨a, level + buddyFirstLevel⟩ : Block).Covers x →
        spec.Given x ∧ ∀ b ∈ usedIn spec used, ¬ b.Covers x := by
  have hb : (⟨a, bl + buddyFirstLevel⟩ : Block) ∈ r.freeBlocks :=
    MemoryRegion.mem_freeBlocks_mk.mpr ⟨hlt, ha⟩
  have hpow : 2 ^ (level + buddyFirstLevel) ≤ 2 ^ (bl + buddyFirstLevel) :=
    Nat.pow_le_pow_right two_pos (by omega)
  constructor
  · exact (pow_dvd_pow 2 (Nat.add_le_add_right hle _)).trans (h.freeTiles.aligned _ hb)
  · intro x hx
    exact h.freeTiles.mem_of_covers hb ⟨hx.1, hx.2.trans_le (Nat.add_le_add_left hpow a)⟩

/-- The blocks in use determine the free blocks. -/
theorem RegionOk.free_determined (h : RegionOk 12 spec r used) (h' : RegionOk 12 spec r' used) :
    r.freeBlocks = r'.freeBlocks :=
  h.freeTiles.merged_unique h'.freeTiles (h.merged le_rfl) (h'.merged le_rfl)
    (fun _ hb => h.freeOrders hb) (fun _ hb => h'.freeOrders hb)

end Region

/-! ### All regions -/

/-- A region still has a block from a level up exactly when it has a free range
of that level. -/
theorem RunOk.freeRange_iff {s : Run cpus} (h : RunOk 12 map s) {i level : ℕ} {spec : RegionSpec}
    {r : MemoryRegion} (hi : map.specs[i]? = some spec) (hr : s.phys.regions[i]? = some r)
    (hl : pageLevel ≤ level) (hlt : level < buddyLevelCount) :
    (∃ a, FreeRange spec s ⟨a, level + buddyFirstLevel⟩) ↔ ¬ r.Exhausted level := by
  have hok := h.state.region i spec r hi hr
  constructor
  · rintro ⟨a, hal, hfree⟩ hex
    obtain ⟨bl, b, hle, hbl, hb, -⟩ := hok.exists_block hl hlt rfl hal hfree
    rw [hex bl hle hbl] at hb
    exact List.not_mem_nil hb
  · intro hleft
    simp only [MemoryRegion.Exhausted, not_forall] at hleft
    obtain ⟨bl, hle, hbl, hne⟩ := hleft
    obtain ⟨a, ha⟩ := List.exists_mem_of_ne_nil _ hne
    obtain ⟨hal, hfree⟩ := hok.free_of_mem hle hbl ha
    refine ⟨a, hal, fun x hx => ⟨(hfree x hx).1, fun b hb hbx => ?_⟩⟩
    -- a block in use that starts elsewhere does not reach into this region
    have hcont := hok.inside x (hok.tiled x (hfree x hx).1)
    obtain ⟨hri, rfl⟩ := List.getElem?_eq_some_iff.mp hr
    have hcover := h.state.cover_used (k := ⟨i, hri⟩) hi hcont
    rw [cover_eq_zero.mpr (hfree x hx).2] at hcover
    exact cover_eq_zero.mp hcover b hb hbx

theorem StateOk.freeBlocks_eq {s s' : PhysState cpus} {extra : Multiset Block}
    (h : StateOk 12 map s extra) (h' : StateOk 12 map s' extra)
    (hres : s'.reservedPage = s.reservedPage) :
    s'.regions.map MemoryRegion.freeBlocks = s.regions.map MemoryRegion.freeBlocks := by
  have hused : reservedBlocks s' = reservedBlocks s := by
    unfold reservedBlocks
    rw [hres]
  rw [StateOk, hused] at h'
  apply List.ext_getElem
  · rw [List.length_map, List.length_map, h.length_eq, h'.length_eq]
  · intro i hi hi'
    rw [List.length_map] at hi hi'
    have hlt : i < map.specs.length := h.length_eq ▸ hi'
    rw [List.getElem_map, List.getElem_map]
    exact RegionOk.free_determined
      (h'.region i _ _ (List.getElem?_eq_getElem hlt) (List.getElem?_eq_getElem hi))
      (h.region i _ _ (List.getElem?_eq_getElem hlt) (List.getElem?_eq_getElem hi'))

theorem StateOk.free_granted {s s₁ : PhysState cpus} {extra : Multiset Block} {a level : ℕ}
    (h : StateOk 12 map s extra) (hl : pageLevel ≤ level)
    (h₁ : StateOk 12 map s₁ (⟨a, level + buddyFirstLevel⟩ ::ₘ extra))
    (hres : s₁.reservedPage = s.reservedPage) :
    ∃ s₂, physFree (some a) s₁ = .ok s₂ ∧
      s₂.regions.map MemoryRegion.freeBlocks = s.regions.map MemoryRegion.freeBlocks := by
  have hpage : MarksRight s₁ ⟨a, level + buddyFirstLevel⟩ := by
    intro hlt
    simp only [pageLevel, buddyFirstLevel] at hl hlt
    omega
  obtain ⟨s₂, hs₂, -, hres₂, hok₂⟩ := physFree_spec (by decide) h₁ hpage
  exact ⟨s₂, hs₂, h.freeBlocks_eq hok₂ (hres₂.trans hres)⟩

/-- In every run over whole pages an aligned free range lies inside one block of
the free lists, a request fails exactly when no region has a free range of its
level, and an allocation that is released at once restores the free blocks. -/
theorem coalescing_complete (map : MemoryMap) (cpus : ℕ) :
    ∃ s₀, map.boot cpus = .ok s₀ ∧ ∀ s, Reaches Run.step PageSized s₀ s →
      ∀ level, pageLevel ≤ level → level < buddyLevelCount →
        (∀ (i : ℕ) (spec : RegionSpec) (r : MemoryRegion) (base : ℕ), map.specs[i]? = some spec →
          s.phys.regions[i]? = some r → FreeRange spec s ⟨base, level + buddyFirstLevel⟩ →
          ∃ bl a, level ≤ bl ∧ bl < buddyLevelCount ∧ a ∈ r.freeList bl ∧
            ∀ x, (⟨base, level + buddyFirstLevel⟩ : Block).Covers x →
              (⟨a, bl + buddyFirstLevel⟩ : Block).Covers x) ∧
        ((∃ s₁, internalPhysAlloc (some level) s.phys = .ok (none, s₁)) ↔
          ∀ spec ∈ map.specs, ¬ ∃ base, FreeRange spec s ⟨base, level + buddyFirstLevel⟩) ∧
        ∀ a s₁, internalPhysAlloc (some level) s.phys = .ok (some a, s₁) →
          ∃ s₂, physFree (some a) s₁ = .ok s₂ ∧
            s₂.regions.map MemoryRegion.freeBlocks =
              s.phys.regions.map MemoryRegion.freeBlocks := by
  obtain ⟨s₀, hboot, h₀⟩ := boot_spec map cpus
  refine ⟨s₀, hboot, fun s hs level hl hlt => ?_⟩
  have h := h₀.reaches hs
  have hm : 12 ≤ level + buddyFirstLevel := by
    simp only [pageLevel, buddyFirstLevel] at hl ⊢
    omega
  have halloc := internalPhysAlloc_spec (by decide) hlt hm h.state
  refine ⟨fun i spec r base hi hr hrange => ?_, ⟨?_, ?_⟩, ?_⟩
  · exact (h.state.region i spec r hi hr).exists_block hl hlt rfl hrange.1 hrange.2
  · rintro ⟨s₁, hnone⟩ spec hspec hrange
    obtain ⟨i, hi⟩ := List.mem_iff_getElem?.mp hspec
    have hilt : i < s.phys.regions.length := by
      rw [h.state.length_eq]
      exact (List.getElem?_eq_some_iff.mp hi).1
    rcases halloc with ⟨hall, -⟩ | ⟨-, a, s', ha, -⟩
    · exact (h.freeRange_iff hi (List.getElem?_eq_getElem hilt) hl hlt).mp hrange
        (hall _ (List.getElem_mem hilt))
    · rw [ha] at hnone
      cases hnone
  · intro hno
    rcases halloc with ⟨-, hnone⟩ | ⟨⟨r, hr, hleft⟩, -⟩
    · exact ⟨s.phys, hnone⟩
    · obtain ⟨i, hilt, rfl⟩ := List.mem_iff_getElem.mp hr
      have hi : i < map.specs.length := h.state.length_eq ▸ hilt
      exact absurd ((h.freeRange_iff (List.getElem?_eq_getElem hi)
        (List.getElem?_eq_getElem hilt) hl hlt).mpr hleft) (hno _ (List.getElem_mem hi))
  · intro a s₁ hs₁
    rcases halloc with ⟨-, hnone⟩ | ⟨-, a', s', ha, -, hres, hok⟩
    · rw [hnone] at hs₁
      cases hs₁
    · rw [ha] at hs₁
      cases hs₁
      exact h.state.free_granted hl hok hres

end TomatOS.Phys
