import TomatOS.Phys.BootRegions

/-! The third pass and the outcome of `create_memory_regions`: the regions are the
maximal runs, every page of a run has a metadata byte of its own in the overhead area,
and the free lists hold the usable memory except that area. -/

namespace TomatOS.Phys

open Foundation.Dyadic Foundation.Transition

def MemoryRegion.Contains (r : MemoryRegion) (x : ℕ) : Prop :=
  r.base ≤ x ∧ x < r.base + r.pageCount * pageSize

/-- What the third pass does not change. -/
def BootRegion.shape (r : BootRegion) : ℕ × ℕ × ℕ :=
  (r.region.base, r.region.pageCount, r.metadataPtr)

/-- One region ends before the other starts, and its metadata too. -/
def BootRegion.Before (a b : BootRegion) : Prop :=
  a.region.base + a.region.pageCount * pageSize ≤ b.region.base ∧
    a.metadataPtr + a.region.pageCount ≤ b.metadataPtr

/-- The free blocks of the region tile the addresses of `G` in it. -/
def Filled (G : ℕ → Prop) (r : MemoryRegion) : Prop :=
  ∃ hd : pageSize ∣ r.base, Sound 12 ⟨r.base, r.pageCount, hd⟩ r
    (fun x => G x ∧ r.Contains x) (fun x => G x ∧ r.Contains x) 0

/-- The usable memory of a list of entries, by its direct addresses. -/
def InUsable (l : List MemmapEntry) (x : ℕ) : Prop :=
  ∃ e ∈ l, e.type = .usable ∧
    physToDirect e.base ≤ x ∧ x < physToDirect e.base + e.length / pageSize * pageSize

/-! ### Finding regions -/

section Lookup

variable {regions : List BootRegion} (hp : regions.Pairwise BootRegion.Before)
include hp

theorem region_unique {i j x : ℕ} {a b : BootRegion} (hi : regions[i]? = some a)
    (hj : regions[j]? = some b) (ha : a.region.Contains x) (hb : b.region.Contains x) : i = j := by
  obtain ⟨hil, rfl⟩ := List.getElem?_eq_some_iff.mp hi
  obtain ⟨hjl, rfl⟩ := List.getElem?_eq_some_iff.mp hj
  have hall := List.pairwise_iff_getElem.mp hp
  obtain ⟨ha1, ha2⟩ := ha
  obtain ⟨hb1, hb2⟩ := hb
  rcases Nat.lt_trichotomy i j with hlt | heq | hlt
  · have := (hall i j hil hjl hlt).1
    omega
  · exact heq
  · have := (hall j i hjl hil hlt).1
    omega

theorem findRegion_eq {i x : ℕ} {r : BootRegion} (hi : regions[i]? = some r)
    (hx : r.region.Contains x) : findRegion (regions.map (·.region)) x = some i := by
  obtain ⟨hil, hr⟩ := List.getElem?_eq_some_iff.mp hi
  rw [findRegion, List.findIdx?_eq_some_iff_getElem]
  refine ⟨by simpa using hil, ?_, ?_⟩
  · rw [List.getElem_map, hr]
    exact decide_eq_true hx
  · intro j hji
    rw [List.getElem_map, Bool.not_eq_true, decide_eq_false_iff_not]
    intro hj
    have hjl : j < regions.length := hji.trans hil
    have := region_unique hp (List.getElem?_eq_getElem hjl) hi hj hx
    omega

end Lookup

theorem pairwise_before_congr {regions regions' : List BootRegion}
    (hs : regions'.map BootRegion.shape = regions.map BootRegion.shape)
    (hp : regions.Pairwise BootRegion.Before) : regions'.Pairwise BootRegion.Before := by
  have hmap : ∀ l : List BootRegion, l.Pairwise BootRegion.Before ↔
      (l.map BootRegion.shape).Pairwise fun a b =>
        a.1 + a.2.1 * pageSize ≤ b.1 ∧ a.2.2 + a.2.1 ≤ b.2.2 := by
    intro l
    rw [List.pairwise_map]
    rfl
  rw [hmap] at hp ⊢
  rw [hs]
  exact hp

/-! ### The third pass -/

theorem Filled.congr {G G' : ℕ → Prop} {r : MemoryRegion} (h : Filled G r)
    (hG : ∀ x, r.Contains x → (G x ↔ G' x)) : Filled G' r := by
  have hset : (fun x => G x ∧ r.Contains x) = fun x => G' x ∧ r.Contains x := by
    funext x
    exact propext ⟨fun ⟨hx, hc⟩ => ⟨(hG x hc).mp hx, hc⟩, fun ⟨hx, hc⟩ => ⟨(hG x hc).mpr hx, hc⟩⟩
  unfold Filled at h ⊢
  rw [hset] at h
  exact h

theorem filled_empty {pageCount base : ℕ} (hd : pageSize ∣ base) :
    Filled (fun _ => False) ⟨pageCount, base, fun _ => [], fun _ => ⟨0, false⟩⟩ := by
  refine ⟨hd, ?_⟩
  have hs := RegionSpec.emptyRegion_sound
    { base := base, pageCount := pageCount, base_dvd := hd, ranges := []
      ranges_dvd := by simp, ranges_inside := by simp, ranges_disjoint := List.Pairwise.nil }
  have hset : (fun x => False ∧ MemoryRegion.Contains ⟨pageCount, base, fun _ => [],
      fun _ => ⟨0, false⟩⟩ x) = fun _ => False := by
    funext x
    simp
  rw [hset]
  exact hs

theorem Filled.add {G : ℕ → Prop} {r : MemoryRegion} {base n : ℕ} (h : Filled G r)
    (hb : pageSize ∣ base) (hin : ∀ x, base ≤ x → x < base + n * pageSize → r.Contains x)
    (hout : ∀ x, base ≤ x → x < base + n * pageSize → ¬ G x) :
    ∃ r', addMemoryToRegion r base n = .ok r' ∧ r'.base = r.base ∧ r'.pageCount = r.pageCount ∧
      Filled (fun x => G x ∨ base ≤ x ∧ x < base + n * pageSize) r' := by
  obtain ⟨hd, hs⟩ := h
  obtain ⟨r', hr', hs'⟩ := addMemoryToRegion_spec (by decide) le_rfl hs hb
    fun x h1 h2 => ⟨hin x h1 h2, fun hx => hout x h1 h2 hx.1⟩
  obtain ⟨hbase, hpages⟩ := hs'.located
  dsimp only at hbase hpages
  refine ⟨r', hr', hbase, hpages, by rw [hbase]; exact hd, ?_⟩
  have hset : Extended (fun x => G x ∧ r.Contains x) base (base + n * pageSize) =
      fun x => (G x ∨ base ≤ x ∧ x < base + n * pageSize) ∧ r'.Contains x := by
    funext x
    have hc : r'.Contains x ↔ r.Contains x := by
      unfold MemoryRegion.Contains
      rw [hbase, hpages]
    rw [hc]
    apply propext
    constructor
    · rintro (⟨hx, hcx⟩ | hx)
      · exact ⟨.inl hx, hcx⟩
      · exact ⟨.inr hx, hin x hx.1 hx.2⟩
    · rintro ⟨hx | hx, hcx⟩
      · exact .inl ⟨hx, hcx⟩
      · exact .inr hx
  rw [hset] at hs'
  have hspan : (⟨r'.base, r'.pageCount, by rw [hbase]; exact hd⟩ : Span) =
      ⟨r.base, r.pageCount, hd⟩ := by
    congr
  rw [hspan]
  exact hs'

/-- The addresses that `add_memory` adds for an entry. -/
def Added (e : MemmapEntry) (x : ℕ) : Prop :=
  physToDirect e.base ≤ x ∧ x < physToDirect e.base + e.length / pageSize * pageSize

/-- The entry lies on whole pages inside one of the regions. -/
def Placed (regions : List BootRegion) (e : MemmapEntry) : Prop :=
  pageSize ∣ physToDirect e.base ∧ ∃ r ∈ regions, r.region.Contains (physToDirect e.base) ∧
    ∀ x, Added e x → r.region.Contains x

theorem addEntry_spec {regions : List BootRegion} {e : MemmapEntry} {G : ℕ → Prop}
    (hp : regions.Pairwise BootRegion.Before) (hfill : ∀ r ∈ regions, Filled G r.region)
    (he : Placed regions e) (hout : ∀ x, Added e x → ¬ G x) :
    ∃ regions', addEntry regions e = .ok regions' ∧
      regions'.map BootRegion.shape = regions.map BootRegion.shape ∧
      ∀ r ∈ regions', Filled (fun x => G x ∨ Added e x) r.region := by
  obtain ⟨hb, r, hr, hbase, hin⟩ := he
  obtain ⟨i, hi⟩ := List.mem_iff_getElem?.mp hr
  obtain ⟨r', hr', hbase', hpages', hfill'⟩ := (hfill r hr).add (n := e.length / pageSize) hb
    (fun x h1 h2 => hin x ⟨h1, h2⟩) (fun x h1 h2 => hout x ⟨h1, h2⟩)
  have hshape : BootRegion.shape { r with region := r' } = r.shape := by
    simp only [BootRegion.shape, hbase', hpages']
  refine ⟨regions.set i { r with region := r' }, ?_, ?_, ?_⟩
  · unfold addEntry
    simp only [findRegion_eq hp hi hbase, hi, hr']
  · rw [List.map_set, hshape]
    apply List.ext_getElem?
    intro j
    rw [List.getElem?_set]
    split
    · rename_i hij
      subst hij
      have hlt : i < (regions.map BootRegion.shape).length := by
        simpa using (List.getElem?_eq_some_iff.mp hi).1
      rw [if_pos hlt, List.getElem?_map, hi]
      rfl
    · rfl
  · intro q hq
    obtain ⟨j, hj⟩ := List.mem_iff_getElem?.mp hq
    rw [List.getElem?_set] at hj
    split at hj
    · split at hj
      · cases hj
        exact hfill'
      · cases hj
    · rename_i hne
      -- the entry is in the other region, so nothing of it is in this one
      apply (hfill q (List.mem_of_getElem? hj)).congr
      intro x hx
      refine ⟨.inl, ?_⟩
      rintro (hg | hadd)
      · exact hg
      · exact absurd (region_unique hp hi hj (hin x hadd) hx) hne

theorem placed_congr {regions regions' : List BootRegion} {e : MemmapEntry}
    (hs : regions'.map BootRegion.shape = regions.map BootRegion.shape) (he : Placed regions e) :
    Placed regions' e := by
  obtain ⟨hb, r, hr, hbase, hin⟩ := he
  have hmem : r.shape ∈ regions'.map BootRegion.shape := hs ▸ List.mem_map_of_mem hr
  obtain ⟨r', hr', hshape⟩ := List.mem_map.mp hmem
  simp only [BootRegion.shape, Prod.mk.injEq] at hshape
  obtain ⟨h1, h2, _⟩ := hshape
  have hc : ∀ x, r'.region.Contains x ↔ r.region.Contains x := by
    intro x
    unfold MemoryRegion.Contains
    rw [h1, h2]
  exact ⟨hb, r', hr', (hc _).mpr hbase, fun x hx => (hc x).mpr (hin x hx)⟩

/-- The usable entries of a list, placed and apart, fill the regions. -/
theorem addMemory_spec {regions : List BootRegion} {l : List MemmapEntry}
    (hp : regions.Pairwise BootRegion.Before)
    (hempty : ∀ r ∈ regions, Filled (fun _ => False) r.region)
    (hplaced : ∀ e ∈ l, e.type = .usable → Placed regions e)
    (hapart : l.Pairwise fun a b => a.type = .usable → b.type = .usable →
      ∀ x, Added a x → ¬ Added b x) :
    ∃ regions', addMemory .usable l regions = .ok regions' ∧
      regions'.map BootRegion.shape = regions.map BootRegion.shape ∧
      ∀ r ∈ regions', Filled (InUsable l) r.region := by
  induction l using List.reverseRecOn with
  | nil =>
    refine ⟨regions, rfl, rfl, fun r hr => (hempty r hr).congr ?_⟩
    intro x _
    simp [InUsable]
  | append_singleton l e ih =>
    rw [List.pairwise_append] at hapart
    obtain ⟨regions₁, hrun, hshape, hfill⟩ := ih
      (fun x hx => hplaced x (List.mem_append_left _ hx)) hapart.1
    have hsplit : addMemory .usable (l ++ [e]) regions =
        if e.type = .usable then addEntry regions₁ e else .ok regions₁ := foldlM_concat_of_ok hrun
    rw [hsplit]
    by_cases hu : e.type = .usable
    · rw [if_pos hu]
      have hout : ∀ x, Added e x → ¬ InUsable l x := by
        rintro x hx ⟨a, ha, hau, hax⟩
        exact hapart.2.2 a ha e (by simp) hau hu x hax hx
      obtain ⟨regions', hrun', hshape', hfill'⟩ := addEntry_spec
        (pairwise_before_congr hshape hp) hfill
        (placed_congr hshape (hplaced e (List.mem_append_right _ (by simp)) hu)) hout
      refine ⟨regions', hrun', hshape'.trans hshape, fun r hr => (hfill' r hr).congr ?_⟩
      intro x _
      simp only [InUsable, Added, List.mem_append, List.mem_singleton, or_and_right, exists_or,
        exists_eq_left, hu, true_and]
    · rw [if_neg hu]
      refine ⟨regions₁, rfl, hshape, fun r hr => (hfill r hr).congr ?_⟩
      intro x _
      simp [InUsable, or_and_right, exists_or, hu]

/-! ### The regions of the runs -/

theorem mem_layoutRuns {m : ℕ} {gs : List (List MemmapEntry)} {r : BootRegion}
    (h : r ∈ layoutRuns m gs) :
    ∃ g ∈ gs, r.region = ⟨runPages g, physToDirect (runBase g), fun _ => [], fun _ => ⟨0, false⟩⟩ ∧
      m ≤ r.metadataPtr ∧ r.metadataPtr + runPages g ≤ m + (gs.map runPages).sum := by
  induction gs generalizing m with
  | nil => cases h
  | cons g gs ih =>
    rw [List.map_cons, List.sum_cons]
    rcases List.mem_cons.mp h with rfl | h
    · exact ⟨g, List.mem_cons_self, rfl, le_rfl, by dsimp only; omega⟩
    · obtain ⟨g', hg', hr, h1, h2⟩ := ih h
      exact ⟨g', List.mem_cons_of_mem _ hg', hr, by omega, by omega⟩

theorem map_layoutRuns (m : ℕ) (gs : List (List MemmapEntry)) :
    (layoutRuns m gs).map (fun r => (r.region.base, r.region.pageCount)) =
      gs.map fun g => (physToDirect (runBase g), runPages g) := by
  induction gs generalizing m with
  | nil => rfl
  | cons g gs ih => rw [layoutRuns, List.map_cons, List.map_cons, ih]

theorem layoutRuns_before {m : ℕ} {gs : List (List MemmapEntry)}
    (hbase : ∀ g ∈ gs, physToDirect (runBase g) = runBase g + directMapOffset)
    (h : gs.Pairwise fun g g' => runBase g + runPages g * pageSize ≤ runBase g') :
    (layoutRuns m gs).Pairwise BootRegion.Before := by
  induction gs generalizing m with
  | nil => exact List.Pairwise.nil
  | cons g gs ih =>
    rw [List.pairwise_cons] at h
    rw [layoutRuns, List.pairwise_cons]
    refine ⟨?_, ih (fun g' hg' => hbase g' (List.mem_cons_of_mem _ hg')) h.2⟩
    intro r hr
    obtain ⟨g', hg', hreg, hm, _⟩ := mem_layoutRuns hr
    have hle := h.1 g' hg'
    unfold BootRegion.Before
    rw [hreg, hbase g List.mem_cons_self, hbase g' (List.mem_cons_of_mem _ hg')]
    exact ⟨by dsimp only; omega, hm⟩

/-- The region of a run contains the direct addresses of its entries. -/
theorem exists_region {m : ℕ} {entries : List MemmapEntry} (hw : WellFormed entries)
    {e : MemmapEntry} (he : e ∈ entries) (hf : e.type.formsRegion = true) :
    ∃ r ∈ layoutRuns m (maximalRuns entries),
      ∀ x, physToDirect e.base ≤ x → x < physToDirect e.end → r.region.Contains x := by
  obtain ⟨g, hg, heg⟩ := exists_run he hf
  obtain ⟨_, hc, _⟩ := Foundation.Runs.mem_runs hg
  obtain ⟨hlo, hhi⟩ := run_mem hc (hw.run_lengths hg) heg
  have hmem : (physToDirect (runBase g), runPages g) ∈ (layoutRuns m (maximalRuns entries)).map
      fun r => (r.region.base, r.region.pageCount) := by
    rw [map_layoutRuns]
    exact List.mem_map.mpr ⟨g, hg, rfl⟩
  obtain ⟨r, hr, hshape⟩ := List.mem_map.mp hmem
  obtain ⟨hbase, hpages⟩ := Prod.mk.inj hshape
  refine ⟨r, hr, ?_⟩
  intro x h1 h2
  unfold MemoryRegion.Contains
  rw [hbase, hpages, hw.runBase_direct hg]
  rw [hw.direct he hf e.base_le_end] at h1
  rw [hw.direct he hf le_rfl] at h2
  omega

/-! ### The largest entry without the overhead -/

/-- The list that the third pass sees: the largest entry is shorter. -/
theorem set_reduced {entries : List MemmapEntry} {largest : MemmapEntry} {i n : ℕ}
    (hi : entries[i]? = some largest) {j : ℕ} {e' : MemmapEntry}
    (h : (entries.set i { largest with length := largest.length - n })[j]? = some e') :
    ∃ e, entries[j]? = some e ∧ e'.base = e.base ∧ e'.type = e.type ∧
      (j = i ∧ e'.length = e.length - n ∨ j ≠ i ∧ e'.length = e.length) := by
  rw [List.getElem?_set] at h
  split at h
  · rename_i hij
    subst hij
    split at h
    · cases h
      exact ⟨largest, hi, rfl, rfl, .inl ⟨rfl, rfl⟩⟩
    · cases h
  · rename_i hne
    exact ⟨e', h, rfl, rfl, .inr ⟨fun h => hne h.symm, rfl⟩⟩

theorem usable_formsRegion {e : MemmapEntry} (h : e.type = .usable) :
    e.type.formsRegion = true := by
  rw [h]
  rfl

section Reduced

variable {entries : List MemmapEntry} (hw : WellFormed entries) {largest : MemmapEntry} {i n : ℕ}
  (hi : entries[i]? = some largest)
include hw

/-- Usable entries at different places of the list have no address in common. -/
theorem WellFormed.usable_apart {j k : ℕ} {a b : MemmapEntry} (hj : entries[j]? = some a)
    (hk : entries[k]? = some b) (ha : a.type = .usable) (hb : b.type = .usable) (hlt : j < k) :
    a.end ≤ b.base := by
  obtain ⟨hjl, rfl⟩ := List.getElem?_eq_some_iff.mp hj
  obtain ⟨hkl, rfl⟩ := List.getElem?_eq_some_iff.mp hk
  exact List.pairwise_iff_getElem.mp hw.sorted j k hjl hkl hlt (usable_formsRegion ha)
    (usable_formsRegion hb)

include hi

theorem reduced_apart : (entries.set i { largest with length := largest.length - n }).Pairwise
    fun a b => a.type = .usable → b.type = .usable → ∀ x, Added a x → ¬ Added b x := by
  rw [List.pairwise_iff_getElem]
  intro j k hj hk hlt ha hb x hax hbx
  obtain ⟨a, haj, hab, hat, halen⟩ := set_reduced hi (List.getElem?_eq_getElem hj)
  obtain ⟨b, hbk, hbb, hbt, _⟩ := set_reduced hi (List.getElem?_eq_getElem hk)
  have hau : a.type = .usable := hat ▸ ha
  have hbu : b.type = .usable := hbt ▸ hb
  have hend := hw.usable_apart haj hbk hau hbu hlt
  have habase := hw.direct (List.mem_of_getElem? haj) (usable_formsRegion hau) a.base_le_end
  have hbbase := hw.direct (List.mem_of_getElem? hbk) (usable_formsRegion hbu) b.base_le_end
  have hxa := hax.2
  have hxb := hbx.1
  rw [hab, habase] at hxa
  rw [hbb, hbbase] at hxb
  have hle : (entries.set i { largest with length := largest.length - n })[j].length / pageSize *
      pageSize ≤ a.length := (Nat.div_mul_le_self _ _).trans (by omega)
  unfold MemmapEntry.end at hend
  omega

theorem reduced_placed {m : ℕ} {e : MemmapEntry}
    (he : e ∈ entries.set i { largest with length := largest.length - n })
    (hu : e.type = .usable) : Placed (layoutRuns m (maximalRuns entries)) e := by
  obtain ⟨j, hj⟩ := List.mem_iff_getElem?.mp he
  obtain ⟨a, haj, hab, hat, halen⟩ := set_reduced hi hj
  have ha := List.mem_of_getElem? haj
  have haf := usable_formsRegion (hat ▸ hu : a.type = .usable)
  obtain ⟨hdb, hdl, hpos⟩ := hw.aligned a ha haf
  obtain ⟨r, hr, hin⟩ := exists_region (m := m) hw ha haf
  have hle : e.length / pageSize * pageSize ≤ a.length := (Nat.div_mul_le_self _ _).trans (by omega)
  have hbase := hw.direct ha haf a.base_le_end
  have hend := hw.direct ha haf le_rfl
  unfold MemmapEntry.end at hend hin
  refine ⟨?_, r, hr, ?_, ?_⟩
  · rw [hab]
    exact pageSize_dvd_physToDirect hdb
  · rw [hab]
    exact hin _ le_rfl (by omega)
  · rintro x ⟨h1, h2⟩
    rw [hab] at h1 h2
    exact hin x h1 (by omega)

theorem addMemory_runs (m : ℕ) :
    ∃ regions, addMemory .usable (entries.set i { largest with length := largest.length - n })
        (layoutRuns m (maximalRuns entries)) = .ok regions ∧
      regions.map BootRegion.shape =
        (layoutRuns m (maximalRuns entries)).map BootRegion.shape ∧
      ∀ r ∈ regions, Filled
        (InUsable (entries.set i { largest with length := largest.length - n })) r.region := by
  apply addMemory_spec
  · exact layoutRuns_before (fun _ hg => hw.runBase_direct hg) hw.runs_apart
  · intro r hr
    obtain ⟨g, hg, hreg, _⟩ := mem_layoutRuns hr
    rw [hreg]
    exact filled_empty (pageSize_dvd_physToDirect (hw.runBase_dvd hg))
  · intro e he hu
    exact reduced_placed hw hi he hu
  · exact reduced_apart hw hi

/-- What the third pass adds: the usable memory without the end of the largest
entry. -/
theorem inUsable_reduced (hu : largest.type = .usable) (hn : n < largest.length)
    (hnd : pageSize ∣ n) (x : ℕ) :
    InUsable (entries.set i { largest with length := largest.length - n }) x ↔
      (∃ e ∈ entries, e.type = .usable ∧ physToDirect e.base ≤ x ∧ x < physToDirect e.end) ∧
        ¬ (physToDirect (largest.base + (largest.length - n)) ≤ x ∧
          x < physToDirect (largest.base + (largest.length - n)) + n) := by
  have hdiv : ∀ {e : MemmapEntry}, pageSize ∣ e.length →
      e.length / pageSize * pageSize = e.length := Nat.div_mul_cancel
  have hlargest := List.mem_of_getElem? hi
  have hdl := (hw.aligned largest hlargest (usable_formsRegion hu)).2.1
  have hdr : (largest.length - n) / pageSize * pageSize = largest.length - n :=
    Nat.div_mul_cancel (Nat.dvd_sub hdl hnd)
  have hil : i < entries.length := (List.getElem?_eq_some_iff.mp hi).1
  have hdirect : ∀ a ∈ entries, a.type = .usable →
      physToDirect a.base = a.base + directMapOffset ∧
      physToDirect a.end = a.base + a.length + directMapOffset := fun a ha hau =>
    ⟨hw.direct ha (usable_formsRegion hau) a.base_le_end,
      hw.direct ha (usable_formsRegion hau) le_rfl⟩
  have hcut : physToDirect (largest.base + (largest.length - n)) =
      largest.base + (largest.length - n) + directMapOffset := by
    apply hw.direct hlargest (usable_formsRegion hu)
    unfold MemmapEntry.end
    omega
  rw [hcut]
  constructor
  · rintro ⟨e, he, heu, h1, h2⟩
    obtain ⟨j, hj⟩ := List.mem_iff_getElem?.mp he
    obtain ⟨a, haj, hab, hat, halen⟩ := set_reduced hi hj
    have ha := List.mem_of_getElem? haj
    have hau : a.type = .usable := hat ▸ heu
    have hda := (hw.aligned a ha (usable_formsRegion hau)).2.1
    obtain ⟨hbase, hend⟩ := hdirect a ha hau
    rw [hab] at h1 h2
    rcases halen with ⟨rfl, hlen⟩ | ⟨hne, hlen⟩
    · obtain rfl : a = largest := Option.some.inj (haj.symm.trans hi)
      rw [hlen, hdr] at h2
      exact ⟨⟨a, ha, hau, h1, by omega⟩, by omega⟩
    · rw [hlen, hdiv hda] at h2
      refine ⟨⟨a, ha, hau, h1, by omega⟩, ?_⟩
      rcases Nat.lt_or_gt_of_ne hne with hlt | hlt
      · have hend := hw.usable_apart haj hi hau hu hlt
        unfold MemmapEntry.end at hend
        omega
      · have hend := hw.usable_apart hi haj hu hau hlt
        unfold MemmapEntry.end at hend
        omega
  · rintro ⟨⟨a, ha, hau, h1, h2⟩, hout⟩
    obtain ⟨j, haj⟩ := List.mem_iff_getElem?.mp ha
    have hda := (hw.aligned a ha (usable_formsRegion hau)).2.1
    obtain ⟨hbase, hend⟩ := hdirect a ha hau
    by_cases hji : j = i
    · subst hji
      obtain rfl : a = largest := Option.some.inj (haj.symm.trans hi)
      refine ⟨{ a with length := a.length - n }, ?_, hau, h1, ?_⟩
      · exact List.mem_of_getElem? (List.getElem?_set_self hil)
      · show x < physToDirect a.base + (a.length - n) / pageSize * pageSize
        rw [hdr]
        omega
    · refine ⟨a, ?_, hau, h1, ?_⟩
      · exact List.mem_of_getElem? ((List.getElem?_set_ne (Ne.symm hji)).trans haj)
      · rw [hdiv hda]
        omega

end Reduced

/-! ### The outcome -/

theorem le_alignUp (x : ℕ) : x ≤ alignUp x pageSize := by
  unfold alignUp pageSize
  omega

/-- For a well-formed map the code returns an error, dereferences the missing largest
entry, or builds the regions of the runs and fills them. -/
theorem create_outcome {entries : List MemmapEntry} (hw : WellFormed entries) :
    (∃ err, createMemoryRegions entries = .error (.returns err)) ∨
      (createMemoryRegions entries = .error (.faults .nullAccess) ∧
        ∀ e ∈ entries, e.type ≠ .usable) ∨
      ∃ largest i n m regions, IsLargest entries (some (largest, i)) ∧ n < largest.length ∧
        pageSize ∣ n ∧ (maximalRuns entries).length * sizeofMemoryRegion + totalPages entries ≤ n ∧
        m = physToDirect (largest.base + (largest.length - n)) ∧
        createMemoryRegions entries = .ok ⟨regions, m, n⟩ ∧
        regions.map BootRegion.shape =
          (layoutRuns (m + (maximalRuns entries).length * sizeofMemoryRegion)
            (maximalRuns entries)).map BootRegion.shape ∧
        ∀ r ∈ regions, Filled
          (InUsable (entries.set i { largest with length := largest.length - n })) r.region := by
  have hb : ∀ e ∈ entries, e.type.formsRegion → pageSize ∣ e.base :=
    fun e he hf => (hw.aligned e he hf).1
  obtain ⟨hpages, _, hcount⟩ := census_spec hb
  have hlargest := census_largest (l := entries)
  unfold createMemoryRegions
  split
  swap
  · exact .inl ⟨_, rfl⟩
  dsimp only
  split
  swap
  · exact .inl ⟨_, rfl⟩
  rw [hpages, hcount]
  generalize hn : alignUp ((maximalRuns entries).length * sizeofMemoryRegion + totalPages entries)
    pageSize = n
  have hle : (maximalRuns entries).length * sizeofMemoryRegion + totalPages entries ≤ n :=
    hn ▸ le_alignUp _
  cases hc : (census entries).largestRegion with
  | none =>
    rw [hc] at hlargest
    exact .inr (.inl ⟨rfl, hlargest⟩)
  | some pair =>
    obtain ⟨largest, i⟩ := pair
    rw [hc] at hlargest
    dsimp only
    split
    swap
    · exact .inl ⟨_, rfl⟩
    rename_i hgt
    generalize hm : physToDirect (largest.base + (largest.length - n)) = m
    generalize hm' : m + (maximalRuns entries).length * sizeofMemoryRegion = m'
    have hlayout := layout_spec (m := m') hb le_rfl le_rfl
    have hstart : layoutAfter m' (maximalRuns entries).length (totalPages entries) [] =
        ⟨List.replicate (maximalRuns entries).length BootRegion.zeroed, 0, noRegionEnd, m',
          totalPages entries⟩ := rfl
    have hregions : (layoutAfter m' (maximalRuns entries).length (totalPages entries)
        entries).regions = layoutRuns m' (maximalRuns entries) := by
      simp [layoutAfter]
    obtain ⟨regions, hrun, hshape, hfill⟩ := addMemory_runs hw hlargest.1 (n := n) m'
    refine .inr (.inr ⟨largest, i, n, m, regions, hlargest, hgt, ?_, hle, hm.symm, ?_, ?_, hfill⟩)
    · rw [← hn]
      exact Nat.dvd_mul_left _ _
    · rw [← hstart, hlayout]
      show (do
        let regions ← addMemory .usable _ (layoutAfter _ _ _ entries).regions
        pure (⟨regions, m, n⟩ : PhysBoot)) = _
      rw [hregions, hrun]
      rfl
    · rw [hm', hshape]

/-- The address of the metadata byte that `find_region` and `page_metadata` lead to. -/
def PhysBoot.metadataByte (boot : PhysBoot) (addr : ℕ) : Option ℕ := do
  let i ← findRegion (boot.regions.map (·.region)) addr
  let r ← boot.regions[i]?
  let index ← pageMetadata r.region addr
  return r.metadataPtr + index

/-- The pages of the entries of the four types, by their direct addresses. -/
def IsPage (entries : List MemmapEntry) (p : ℕ) : Prop :=
  ∃ e ∈ entries, e.type.formsRegion = true ∧
    ∃ k < e.length / pageSize, p = physToDirect e.base + k * pageSize

def PhysBoot.InOverhead (boot : PhysBoot) (x : ℕ) : Prop :=
  boot.overheadStart ≤ x ∧ x < boot.overheadStart + boot.overhead

/-- What the allocator is to know about the memory map. -/
structure PhysBoot.Describes (boot : PhysBoot) (entries : List MemmapEntry) : Prop where
  disjoint : boot.regions.Pairwise fun a b =>
    a.region.base + a.region.pageCount * pageSize ≤ b.region.base
  runs : boot.regions.map (fun r => (r.region.base, r.region.pageCount)) =
    (maximalRuns entries).map fun g => (physToDirect (runBase g), runPages g)
  found : ∀ p, IsPage entries p → ∃ i r, findRegion (boot.regions.map (·.region)) p = some i ∧
    boot.regions[i]? = some r ∧ r.region.Contains p ∧
    ∀ j r', boot.regions[j]? = some r' → r'.region.Contains p → j = i
  metadata : ∀ p, IsPage entries p → ∃ a, boot.metadataByte p = some a ∧ boot.InOverhead a ∧
    boot.overheadStart + boot.regions.length * sizeofMemoryRegion ≤ a
  own : ∀ p q, IsPage entries p → IsPage entries q → boot.metadataByte p = boot.metadataByte q →
    p = q
  reserved : ∃ e ∈ entries, e.type = .usable ∧
    (∀ e' ∈ entries, e'.type = .usable → e'.length ≤ e.length) ∧ boot.overhead < e.length ∧
    boot.overheadStart + boot.overhead = physToDirect e.end
  free : ∀ x, (∃ r ∈ boot.regions, ∃ b ∈ r.region.freeBlocks, b.Covers x) ↔
    (∃ e ∈ entries, e.type = .usable ∧ physToDirect e.base ≤ x ∧ x < physToDirect e.end) ∧
      ¬ boot.InOverhead x

section Pages

variable {entries : List MemmapEntry} {m : ℕ} {regions : List BootRegion}
  (hshape : regions.map BootRegion.shape =
    (layoutRuns m (maximalRuns entries)).map BootRegion.shape)
include hshape

theorem regions_runs : regions.map (fun r => (r.region.base, r.region.pageCount)) =
    (maximalRuns entries).map fun g => (physToDirect (runBase g), runPages g) := by
  have hcomp := congrArg (List.map fun t : ℕ × ℕ × ℕ => (t.1, t.2.1)) hshape
  simp only [List.map_map] at hcomp
  exact hcomp.trans (map_layoutRuns m _)

theorem metadataPtr_bounds {r : BootRegion} (hr : r ∈ regions) :
    m ≤ r.metadataPtr ∧ r.metadataPtr + r.region.pageCount ≤ m + totalPages entries := by
  have hmem : r.shape ∈ (layoutRuns m (maximalRuns entries)).map BootRegion.shape :=
    hshape ▸ List.mem_map_of_mem hr
  obtain ⟨q, hq, hqs⟩ := List.mem_map.mp hmem
  simp only [BootRegion.shape, Prod.mk.injEq] at hqs
  obtain ⟨_, hpages, hptr⟩ := hqs
  obtain ⟨g, _, hreg, h1, h2⟩ := mem_layoutRuns hq
  rw [← hptr, ← hpages, hreg]
  exact ⟨h1, h2⟩

variable (hw : WellFormed entries)
include hw

/-- A page lies in a region at a whole number of pages from its base. -/
theorem page_region {p : ℕ} (hpage : IsPage entries p) :
    ∃ (i : ℕ) (r : BootRegion), regions[i]? = some r ∧ r.region.Contains p ∧
      pageSize ∣ p - r.region.base := by
  obtain ⟨e, he, hf, k, hk, rfl⟩ := hpage
  obtain ⟨hdb, hdl, _⟩ := hw.aligned e he hf
  obtain ⟨q, hq, hin⟩ := exists_region (m := m) hw he hf
  have hlen : e.length / pageSize * pageSize = e.length := Nat.div_mul_cancel hdl
  have hkl : k * pageSize < e.length := by
    rw [← hlen]
    exact Nat.mul_lt_mul_of_pos_right hk (by decide)
  have hbase := hw.direct he hf e.base_le_end
  have hend := hw.direct he hf le_rfl
  have hc := hin (physToDirect e.base + k * pageSize) (Nat.le_add_right _ _) (by
    unfold MemmapEntry.end at hend ⊢
    omega)
  have hmem : q.shape ∈ regions.map BootRegion.shape := hshape ▸ List.mem_map_of_mem hq
  obtain ⟨r, hr, hrs⟩ := List.mem_map.mp hmem
  simp only [BootRegion.shape, Prod.mk.injEq] at hrs
  obtain ⟨hshift, hpages, _⟩ := hrs
  obtain ⟨i, hi⟩ := List.mem_iff_getElem?.mp hr
  obtain ⟨g, hg, hreg, _⟩ := mem_layoutRuns hq
  have hdq : pageSize ∣ q.region.base := by
    rw [hreg]
    exact pageSize_dvd_physToDirect (hw.runBase_dvd hg)
  refine ⟨i, r, hi, ?_, ?_⟩
  · unfold MemoryRegion.Contains
    rw [hshift, hpages]
    exact hc
  · rw [hshift]
    exact Nat.dvd_sub
      (Nat.dvd_add (pageSize_dvd_physToDirect hdb) (Nat.dvd_mul_left _ _)) hdq

end Pages

theorem index_lt {r : MemoryRegion} {p : ℕ} (hc : r.Contains p) :
    (p - r.base) / pageSize < r.pageCount := by
  obtain ⟨h1, h2⟩ := hc
  rw [Nat.div_lt_iff_lt_mul (by decide)]
  omega

section Bytes

variable {regions : List BootRegion} {start n : ℕ} (hp : regions.Pairwise BootRegion.Before)
  (hd : ∀ r ∈ regions, pageSize ∣ r.region.base)
include hp hd

theorem metadataByte_eq {i p : ℕ} {r : BootRegion} (hi : regions[i]? = some r)
    (hc : r.region.Contains p) : (⟨regions, start, n⟩ : PhysBoot).metadataByte p =
      some (r.metadataPtr + (p - r.region.base) / pageSize) := by
  let span : Span := ⟨r.region.base, r.region.pageCount, hd r (List.mem_of_getElem? hi)⟩
  have hspan : span.Locates r.region := ⟨rfl, rfl⟩
  have hmeta := Span.pageMetadata_eq hspan hc
  unfold PhysBoot.metadataByte
  simp only [findRegion_eq hp hi hc, hi, hmeta, bind, Option.bind, pure]

/-- Pages of different regions, and different pages of one region, have different
bytes. -/
theorem metadataByte_inj {i j p q : ℕ} {r r' : BootRegion} (hi : regions[i]? = some r)
    (hj : regions[j]? = some r') (hc : r.region.Contains p) (hc' : r'.region.Contains q)
    (hdp : pageSize ∣ p - r.region.base) (hdq : pageSize ∣ q - r'.region.base)
    (heq : (⟨regions, start, n⟩ : PhysBoot).metadataByte p =
      (⟨regions, start, n⟩ : PhysBoot).metadataByte q) : p = q := by
  rw [metadataByte_eq hp hd hi hc, metadataByte_eq hp hd hj hc', Option.some.injEq] at heq
  have hlt := index_lt hc
  have hlt' := index_lt hc'
  have hall := List.pairwise_iff_getElem.mp hp
  obtain ⟨hil, rfl⟩ := List.getElem?_eq_some_iff.mp hi
  obtain ⟨hjl, rfl⟩ := List.getElem?_eq_some_iff.mp hj
  rcases Nat.lt_trichotomy i j with hij | rfl | hij
  · have := (hall i j hil hjl hij).2
    unfold pageSize at heq hlt hlt'
    omega
  · have hdiv := (Nat.div_left_inj hdp hdq).mp (Nat.add_left_cancel heq)
    have := hc.1
    have := hc'.1
    omega
  · have := (hall j i hjl hil hij).2
    unfold pageSize at heq hlt hlt'
    omega

end Bytes

/-- The free blocks of filled regions cover exactly what was given. -/
theorem covered_iff {regions : List BootRegion} {G : ℕ → Prop}
    (hfill : ∀ r ∈ regions, Filled G r.region)
    (hin : ∀ x, G x → ∃ r ∈ regions, r.region.Contains x) (x : ℕ) :
    (∃ r ∈ regions, ∃ b ∈ r.region.freeBlocks, b.Covers x) ↔ G x := by
  constructor
  · rintro ⟨r, hr, b, hb, hx⟩
    obtain ⟨_, hs⟩ := hfill r hr
    exact (hs.tiles.mem_of_covers (by rwa [add_zero]) hx).1
  · intro hx
    obtain ⟨r, hr, hc⟩ := hin x hx
    obtain ⟨_, hs⟩ := hfill r hr
    have honce := hs.tiles.once x ⟨hx, hc⟩
    rw [add_zero] at honce
    exact ⟨r, hr, cover_pos.mp (by omega)⟩

theorem create_memory_regions_describes {entries : List MemmapEntry} (hw : WellFormed entries) :
    (∀ fault, createMemoryRegions entries = .error (.faults fault) →
      fault = .nullAccess ∧ ∀ e ∈ entries, e.type ≠ .usable) ∧
      ∀ boot, createMemoryRegions entries = .ok boot → boot.Describes entries := by
  rcases create_outcome hw with ⟨err, hr⟩ | ⟨hr, hnone⟩ |
    ⟨largest, i, n, m, regions, hlargest, hgt, hnd, hle, hm, hr, hshape, hfill⟩
  · rw [hr]
    exact ⟨fun fault h => (by cases h), fun boot h => (by cases h)⟩
  · rw [hr]
    refine ⟨?_, fun boot h => (by cases h)⟩
    intro fault h
    cases h
    exact ⟨rfl, hnone⟩
  · rw [hr]
    refine ⟨fun fault h => (by cases h), ?_⟩
    intro boot h
    cases h
    have hp := pairwise_before_congr hshape
      (layoutRuns_before (fun _ hg => hw.runBase_direct hg) hw.runs_apart)
    have hd : ∀ r ∈ regions, pageSize ∣ r.region.base := fun r hmem => (hfill r hmem).1
    have hlen : regions.length = (maximalRuns entries).length := by
      have := congrArg List.length hshape
      simpa using this
    have hpage := fun {p : ℕ} (h : IsPage entries p) => page_region hshape hw h
    obtain ⟨hli, hlu, hmax⟩ := hlargest
    have hlm := List.mem_of_getElem? hli
    have hlf := usable_formsRegion hlu
    have hstart : physToDirect (largest.base + (largest.length - n)) + n =
        physToDirect largest.end := by
      rw [hw.direct hlm hlf le_rfl, hw.direct hlm hlf (by unfold MemmapEntry.end; omega)]
      unfold MemmapEntry.end
      omega
    refine ⟨hp.imp fun h => h.1, regions_runs hshape, ?_, ?_, ?_, ?_, ?_⟩
    · intro p h
      obtain ⟨j, r, hj, hc, _⟩ := hpage h
      exact ⟨j, r, findRegion_eq hp hj hc, hj, hc,
        fun k r' hk hc' => region_unique hp hk hj hc' hc⟩
    · intro p h
      obtain ⟨j, r, hj, hc, _⟩ := hpage h
      have hptr := metadataPtr_bounds hshape (List.mem_of_getElem? hj)
      have hlt := index_lt hc
      refine ⟨_, metadataByte_eq hp hd hj hc, ?_⟩
      generalize (p - r.region.base) / pageSize = index at hlt ⊢
      unfold PhysBoot.InOverhead
      rw [hlen]
      dsimp only
      omega
    · intro p q h h' heq
      obtain ⟨j, r, hj, hc, hdp⟩ := hpage h
      obtain ⟨k, r', hk, hc', hdq⟩ := hpage h'
      exact metadataByte_inj hp hd hj hk hc hc' hdp hdq heq
    · exact ⟨largest, List.mem_of_getElem? hli, hlu, hmax, hgt, (congrArg (· + n) hm).trans hstart⟩
    · intro x
      have hgiven := inUsable_reduced hw hli hlu hgt hnd x
      rw [← hm] at hgiven
      rw [covered_iff hfill, hgiven]
      · rfl
      · rintro y ⟨e, he, hu, hy⟩
        obtain ⟨_, q, hq, _, hin⟩ :=
          placed_congr hshape (reduced_placed (m := m + _) hw (n := n) hli he hu)
        exact ⟨q, hq, hin y hy⟩

/-- Two runs, the first of them with a usable and a reclaimable entry. -/
def smallMap : List MemmapEntry :=
  [⟨0x1000, 0x3000, .usable⟩, ⟨0x4000, 0x1000, .bootloaderReclaimable⟩,
    ⟨0x8000, 0x1000, .reserved⟩, ⟨0x9000, 0x2000, .executableAndModules⟩]

theorem create_memory_regions_describes_smallMap :
    ∃ boot, createMemoryRegions smallMap = .ok boot ∧ boot.Describes smallMap := by
  have hw : WellFormed smallMap := ⟨by decide, by decide, by decide +kernel⟩
  have hok : (createMemoryRegions smallMap).isOk = true := by decide +kernel
  cases hr : createMemoryRegions smallMap with
  | error stop =>
    rw [hr] at hok
    cases hok
  | ok boot => exact ⟨boot, rfl, (create_memory_regions_describes hw).2 boot hr⟩

end TomatOS.Phys
