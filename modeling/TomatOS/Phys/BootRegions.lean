import TomatOS.Phys.BootMap

/-! What the three passes over the memory map leave behind. The first two both follow
the maximal runs of contiguous region-forming entries, so they agree on the number of
regions and of pages; the third gives every usable entry to the region of its run. -/

namespace TomatOS.Phys

open Foundation.Runs Foundation.Dyadic Foundation.Transition

/-- One entry starts where the other ends. -/
def follows (a b : MemmapEntry) : Bool := a.end = b.base

/-- The maximal runs of contiguous consecutive entries of the four types. -/
def maximalRuns (entries : List MemmapEntry) : List (List MemmapEntry) :=
  runs (·.type.formsRegion) follows entries

def runBase (run : List MemmapEntry) : ℕ := (run.head?.map (·.base)).getD 0

def runPages (run : List MemmapEntry) : ℕ := (run.map (·.length / pageSize)).sum

/-- A memory map as the bootloader provides it. The last condition says that the
direct map reaches the memory, so that no direct address wraps around. -/
structure WellFormed (entries : List MemmapEntry) : Prop where
  sorted : entries.Pairwise fun a b => a.type.formsRegion → b.type.formsRegion → a.end ≤ b.base
  aligned : ∀ e ∈ entries, e.type.formsRegion →
    pageSize ∣ e.base ∧ pageSize ∣ e.length ∧ 0 < e.length
  addressable : ∀ e ∈ entries, e.type.formsRegion → e.end + directMapOffset < wordSize

/-! ### The runs under a pass -/

variable {l : List MemmapEntry} {e : MemmapEntry}

/-- The end of the run that is still open after the entries `l`. -/
def openEnd (l : List MemmapEntry) : ℕ :=
  match l.getLast? with
  | none => noRegionEnd
  | some e => if e.type.formsRegion then e.end else noRegionEnd

theorem openEnd_concat (h : e.type.formsRegion = true) : openEnd (l ++ [e]) = e.end := by
  simp [openEnd, h]

theorem openEnd_concat_of_not (h : e.type.formsRegion = false) :
    openEnd (l ++ [e]) = noRegionEnd := by
  simp [openEnd, h]

theorem noRegionEnd_ne (h : pageSize ∣ e.base) : noRegionEnd ≠ e.base := by
  rintro heq
  rw [← heq] at h
  exact absurd h (by decide)

/-- The test on `region_end` tells whether the next entry goes on with the last run. -/
theorem maximalRuns_concat (he : e.type.formsRegion = true) (hb : pageSize ∣ e.base) :
    openEnd l ≠ e.base ∧ maximalRuns (l ++ [e]) = maximalRuns l ++ [[e]] ∨
      openEnd l = e.base ∧ ∃ gs g, maximalRuns l = gs ++ [g] ∧ g ≠ [] ∧
        maximalRuns (l ++ [e]) = gs ++ [g ++ [e]] := by
  by_cases hopen : openEnd l = e.base
  · refine .inr ⟨hopen, ?_⟩
    unfold openEnd at hopen
    split at hopen
    · exact absurd hopen (noRegionEnd_ne hb)
    · rename_i x hx
      split at hopen
      · rename_i hform
        have hjoins : joins (·.type.formsRegion) follows x e = true :=
          joins_eq_true.mpr ⟨hform, he, decide_eq_true hopen⟩
        obtain ⟨gs, g, hl, hlast, hle⟩ := runs_concat_extend hx hjoins
        refine ⟨gs, g, hl, ?_, hle⟩
        rintro rfl
        cases hlast
      · exact absurd hopen (noRegionEnd_ne hb)
  · refine .inl ⟨hopen, runs_concat_new he ?_⟩
    intro x hx
    rw [Bool.eq_false_iff]
    intro hj
    obtain ⟨hform, _, hend⟩ := joins_eq_true.mp hj
    apply hopen
    unfold openEnd
    rw [hx]
    simp only [hform, ↓reduceIte]
    exact of_decide_eq_true hend

theorem maximalRuns_concat_of_not (he : e.type.formsRegion = false) :
    maximalRuns (l ++ [e]) = maximalRuns l := runs_concat_of_not he

def totalPages (l : List MemmapEntry) : ℕ := ((maximalRuns l).map runPages).sum

theorem totalPages_concat (he : e.type.formsRegion = true) (hb : pageSize ∣ e.base) :
    totalPages (l ++ [e]) = totalPages l + e.length / pageSize := by
  rcases maximalRuns_concat (l := l) he hb with ⟨_, hr⟩ | ⟨_, gs, g, hl, _, hr⟩
  · simp [totalPages, hr, runPages]
  · simp [totalPages, hr, hl, runPages, Nat.add_assoc]

/-- Reading on never takes pages or runs away. -/
theorem le_concat (hb : e.type.formsRegion = true → pageSize ∣ e.base) :
    totalPages l ≤ totalPages (l ++ [e]) ∧
      (maximalRuns l).length ≤ (maximalRuns (l ++ [e])).length := by
  cases he : e.type.formsRegion with
  | false => simp [totalPages, maximalRuns_concat_of_not he]
  | true =>
    rw [totalPages_concat he (hb he)]
    refine ⟨Nat.le_add_right _ _, ?_⟩
    rcases maximalRuns_concat (l := l) he (hb he) with ⟨_, hr⟩ | ⟨_, gs, g, hl, _, hr⟩
    · simp [hr]
    · simp [hr, hl]

/-! ### The first pass -/

theorem census_concat : census (l ++ [e]) = countEntry (census l) (e, l.length) := by
  simp [census, List.zipIdx_append]

theorem census_spec (hb : ∀ e ∈ l, e.type.formsRegion → pageSize ∣ e.base) :
    (census l).totalUsablePages = totalPages l ∧ (census l).regionEnd = openEnd l ∧
      (census l).memoryRegionCount = (maximalRuns l).length := by
  induction l using List.reverseRecOn with
  | nil => exact ⟨rfl, rfl, rfl⟩
  | append_singleton l e ih =>
    obtain ⟨hpages, hend, hcount⟩ := ih fun x hx => hb x (List.mem_append_left _ hx)
    rw [census_concat]
    cases he : e.type.formsRegion with
    | false =>
      simp only [countEntry, he, Bool.false_eq_true, ↓reduceIte, hpages, hcount,
        openEnd_concat_of_not he, totalPages, maximalRuns_concat_of_not he, and_self]
    | true =>
      have hbe := hb e (List.mem_append_right _ (by simp)) he
      simp only [countEntry, he, ↓reduceIte, hpages, hend, hcount]
      refine ⟨(totalPages_concat he hbe).symm, (openEnd_concat he).symm, ?_⟩
      rcases maximalRuns_concat (l := l) he hbe with ⟨hne, hr⟩ | ⟨heq, gs, g, hl, _, hr⟩
      · rw [if_pos hne, hr]
        simp
      · rw [if_neg (by simpa using heq), hr, hl]
        simp

/-- The first usable entry that no other exceeds, and where it is in the list. -/
def IsLargest (l : List MemmapEntry) : Option (MemmapEntry × ℕ) → Prop
  | none => ∀ e ∈ l, e.type ≠ .usable
  | some (largest, i) => l[i]? = some largest ∧ largest.type = .usable ∧
      ∀ e ∈ l, e.type = .usable → e.length ≤ largest.length

theorem IsLargest.keep {largest : MemmapEntry} {i : ℕ} (h : IsLargest l (some (largest, i)))
    (he : e.type = .usable → e.length ≤ largest.length) :
    IsLargest (l ++ [e]) (some (largest, i)) := by
  obtain ⟨hi, hu, hmax⟩ := h
  have hil : i < l.length := (List.getElem?_eq_some_iff.mp hi).1
  refine ⟨by rw [List.getElem?_append_left hil, hi], hu, ?_⟩
  intro x hx hxu
  rcases List.mem_append.mp hx with hx | hx
  · exact hmax x hx hxu
  · rw [List.mem_singleton.mp hx] at hxu ⊢
    exact he hxu

theorem IsLargest.replace (hu : e.type = .usable)
    (h : ∀ x ∈ l, x.type = .usable → x.length ≤ e.length) :
    IsLargest (l ++ [e]) (some (e, l.length)) := by
  refine ⟨List.getElem?_concat_length, hu, ?_⟩
  intro x hx hxu
  rcases List.mem_append.mp hx with hx | hx
  · exact h x hx hxu
  · rw [List.mem_singleton.mp hx]

theorem larger_of_ne {largest : Option (MemmapEntry × ℕ)} {i : ℕ} (h : e.type ≠ .usable) :
    larger largest e i = largest := by
  unfold larger
  split
  · rename_i hu
    exact absurd hu h
  · rename_i hu
    exact absurd hu h
  · rfl

theorem larger_isLargest {largest : Option (MemmapEntry × ℕ)} (h : IsLargest l largest) :
    IsLargest (l ++ [e]) (larger largest e l.length) := by
  by_cases hu : e.type = .usable
  · unfold larger
    rw [hu]
    cases largest with
    | none => exact IsLargest.replace hu fun x hx hxu => absurd hxu (h x hx)
    | some pair =>
      dsimp only
      split
      · rename_i hgt
        exact IsLargest.replace hu fun x hx hxu => (h.2.2 x hx hxu).trans hgt.le
      · rename_i hle
        exact h.keep fun _ => not_lt.mp hle
  · rw [larger_of_ne hu]
    cases largest with
    | none =>
      intro x hx
      rcases List.mem_append.mp hx with hx | hx
      · exact h x hx
      · rw [List.mem_singleton.mp hx]
        exact hu
    | some pair => exact h.keep fun hu' => absurd hu' hu

theorem countEntry_largestRegion (s : Census) (i : ℕ) :
    (countEntry s (e, i)).largestRegion = larger s.largestRegion e i := by
  unfold countEntry
  dsimp only
  split
  · rfl
  · rename_i hne
    rw [larger_of_ne]
    rintro hu
    rw [hu] at hne
    exact hne rfl

theorem census_largest : IsLargest l (census l).largestRegion := by
  induction l using List.reverseRecOn with
  | nil =>
    intro e he
    cases he
  | append_singleton l e ih =>
    rw [census_concat, countEntry_largestRegion]
    exact larger_isLargest ih

/-! ### The second pass -/

/-- The regions of a list of runs, their metadata bytes one after another from `m`. -/
def layoutRuns : ℕ → List (List MemmapEntry) → List BootRegion
  | _, [] => []
  | m, run :: rest =>
    ⟨⟨runPages run, physToDirect (runBase run), fun _ => [], fun _ => ⟨0, false⟩⟩, m⟩ ::
      layoutRuns (m + runPages run) rest

theorem layoutRuns_append (m : ℕ) (gs hs : List (List MemmapEntry)) :
    layoutRuns m (gs ++ hs) = layoutRuns m gs ++ layoutRuns (m + (gs.map runPages).sum) hs := by
  induction gs generalizing m with
  | nil => simp [layoutRuns]
  | cons g gs ih => simp [layoutRuns, ih, Nat.add_assoc]

@[simp] theorem length_layoutRuns (m : ℕ) (gs : List (List MemmapEntry)) :
    (layoutRuns m gs).length = gs.length := by
  induction gs generalizing m with
  | nil => rfl
  | cons g gs ih => simp [layoutRuns, ih]

theorem modify_append_length {α : Type*} {n : ℕ} {xs ys : List α} {y : α} {f : α → α}
    (hn : n = xs.length) : (xs ++ y :: ys).modify n f = xs ++ f y :: ys := by
  subst hn
  induction xs with
  | nil => rfl
  | cons x xs ih => simp [ih]

/-- The layout after the entries `l`, of a pass that starts with `count` zeroed
regions, their metadata from `m` on and `total` metadata bytes. -/
def layoutAfter (m count total : ℕ) (l : List MemmapEntry) : Layout where
  regions := layoutRuns m (maximalRuns l) ++
    List.replicate (count - (maximalRuns l).length) BootRegion.zeroed
  started := (maximalRuns l).length
  regionEnd := openEnd l
  metadata := m + totalPages l
  metadataLeft := total - totalPages l

/-- One entry that starts a region. -/
theorem layoutEntry_new {m count total : ℕ} (he : e.type.formsRegion = true)
    (hb : pageSize ∣ e.base) (hopen : openEnd l ≠ e.base)
    (hr : maximalRuns (l ++ [e]) = maximalRuns l ++ [[e]])
    (htotal : totalPages (l ++ [e]) ≤ total) (hcount : (maximalRuns (l ++ [e])).length ≤ count) :
    layoutEntry (layoutAfter m count total l) e = .ok (layoutAfter m count total (l ++ [e])) := by
  have hpages := totalPages_concat (l := l) he hb
  rw [hr, List.length_append, List.length_singleton] at hcount
  obtain ⟨k, hk⟩ : ∃ k, count - (maximalRuns l).length = k + 1 := ⟨_, (Nat.succ_pred (by omega)).symm⟩
  have hk' : count - ((maximalRuns l).length + 1) = k := by omega
  have hleft : (layoutAfter m count total l).metadataLeft ≥ e.length / pageSize := by
    show e.length / pageSize ≤ total - totalPages l
    omega
  have hlt : (layoutAfter m count total l).started < (layoutAfter m count total l).regions.length := by
    simp only [layoutAfter, List.length_append, length_layoutRuns, List.length_replicate]
    omega
  unfold layoutEntry
  rw [if_pos he, if_pos hleft]
  dsimp only
  rw [if_pos (show (layoutAfter m count total l).regionEnd ≠ e.base from hopen), if_pos hlt]
  unfold Layout.addPages Layout.startRegion layoutAfter
  simp only [Nat.add_eq_zero_iff, one_ne_zero, and_false, ↓reduceIte, Nat.add_sub_cancel, hk,
    List.replicate_succ, hr, List.length_append, List.length_singleton, hk']
  rw [modify_append_length (length_layoutRuns m _).symm,
    modify_append_length (length_layoutRuns m _).symm, layoutRuns_append, openEnd_concat he, hpages]
  simp [layoutRuns, BootRegion.zeroed, runPages, runBase, totalPages, Nat.add_assoc, Nat.sub_sub]

/-- One entry that goes on with the last region. -/
theorem layoutEntry_extend {m count total : ℕ} {gs : List (List MemmapEntry)}
    {g : List MemmapEntry} (he : e.type.formsRegion = true) (hb : pageSize ∣ e.base)
    (hopen : openEnd l = e.base) (hl : maximalRuns l = gs ++ [g]) (hg : g ≠ [])
    (hr : maximalRuns (l ++ [e]) = gs ++ [g ++ [e]]) (htotal : totalPages (l ++ [e]) ≤ total) :
    layoutEntry (layoutAfter m count total l) e = .ok (layoutAfter m count total (l ++ [e])) := by
  have hpages := totalPages_concat (l := l) he hb
  have hbase : runBase (g ++ [e]) = runBase g := by
    cases g with
    | nil => exact absurd rfl hg
    | cons x g => rfl
  have hleft : (layoutAfter m count total l).metadataLeft ≥ e.length / pageSize := by
    show e.length / pageSize ≤ total - totalPages l
    omega
  unfold layoutEntry
  rw [if_pos he, if_pos hleft]
  dsimp only
  rw [if_neg (not_not.mpr (show (layoutAfter m count total l).regionEnd = e.base from hopen))]
  unfold Layout.addPages layoutAfter
  simp only [hl, hr, List.length_append, List.length_singleton, Nat.add_eq_zero_iff, one_ne_zero,
    and_false, ↓reduceIte, Nat.add_sub_cancel, layoutRuns_append, layoutRuns, List.append_assoc,
    List.singleton_append, hbase, openEnd_concat he, hpages]
  rw [modify_append_length (length_layoutRuns m _).symm]
  simp [runPages, Nat.add_assoc, Nat.sub_sub]

theorem layout_spec {m count total : ℕ} (hb : ∀ e ∈ l, e.type.formsRegion → pageSize ∣ e.base)
    (htotal : totalPages l ≤ total) (hcount : (maximalRuns l).length ≤ count) :
    l.foldlM layoutEntry (layoutAfter m count total []) = .ok (layoutAfter m count total l) := by
  induction l using List.reverseRecOn with
  | nil => rfl
  | append_singleton l e ih =>
    have hbe := hb e (List.mem_append_right _ (by simp))
    obtain ⟨htotal', hcount'⟩ := le_concat (l := l) hbe
    rw [foldlM_concat_of_ok (ih (fun x hx => hb x (List.mem_append_left _ hx))
      (htotal'.trans htotal) (hcount'.trans hcount))]
    cases he : e.type.formsRegion with
    | false =>
      simp [layoutEntry, layoutAfter, he, maximalRuns_concat_of_not, totalPages,
        openEnd_concat_of_not]
    | true =>
      rcases maximalRuns_concat (l := l) he (hbe he) with ⟨hopen, hr⟩ | ⟨hopen, gs, g, hl, hg, hr⟩
      · exact layoutEntry_new he (hbe he) hopen hr htotal hcount
      · exact layoutEntry_extend he (hbe he) hopen hl hg hr htotal

/-! ### Where the runs lie -/

theorem run_mem {g : List MemmapEntry} (hc : g.IsChain fun a b => follows a b = true)
    (hlen : ∀ e ∈ g, pageSize ∣ e.length) (he : e ∈ g) :
    runBase g ≤ e.base ∧ e.end ≤ runBase g + runPages g * pageSize := by
  induction g with
  | nil => cases he
  | cons a g ih =>
    have ha : a.length / pageSize * pageSize = a.length :=
      Nat.div_mul_cancel (hlen a List.mem_cons_self)
    have hpages : runPages (a :: g) * pageSize = a.length + runPages g * pageSize := by
      simp only [runPages, List.map_cons, List.sum_cons, Nat.add_mul, ha]
    have hbase : runBase (a :: g) = a.base := rfl
    rw [hpages, hbase]
    rcases List.mem_cons.mp he with rfl | he
    · unfold MemmapEntry.end
      omega
    · cases g with
      | nil => cases he
      | cons b g =>
        rw [List.isChain_cons_cons] at hc
        have hab : a.base + a.length = b.base := of_decide_eq_true hc.1
        obtain ⟨h1, h2⟩ := ih hc.2 (fun x hx => hlen x (List.mem_cons_of_mem _ hx)) he
        have hb : runBase (b :: g) = b.base := rfl
        rw [hb] at h1 h2
        omega

/-- A run starts at its first entry and ends at its last one. -/
theorem run_ends {g : List MemmapEntry} (hc : g.IsChain fun a b => follows a b = true)
    (hlen : ∀ e ∈ g, pageSize ∣ e.length) (hg : g ≠ []) :
    (∃ a ∈ g, a.base = runBase g) ∧ ∃ z ∈ g, z.end = runBase g + runPages g * pageSize := by
  induction g with
  | nil => exact absurd rfl hg
  | cons a g ih =>
    refine ⟨⟨a, List.mem_cons_self, rfl⟩, ?_⟩
    have ha : a.length / pageSize * pageSize = a.length :=
      Nat.div_mul_cancel (hlen a List.mem_cons_self)
    have hpages : runPages (a :: g) * pageSize = a.length + runPages g * pageSize := by
      simp only [runPages, List.map_cons, List.sum_cons, Nat.add_mul, ha]
    have hbase : runBase (a :: g) = a.base := rfl
    rw [hpages, hbase]
    cases g with
    | nil => exact ⟨a, List.mem_cons_self, rfl⟩
    | cons b g =>
      rw [List.isChain_cons_cons] at hc
      have hab : a.base + a.length = b.base := of_decide_eq_true hc.1
      obtain ⟨_, z, hz, hend⟩ := ih hc.2 (fun x hx => hlen x (List.mem_cons_of_mem _ hx)) (by simp)
      refine ⟨z, List.mem_cons_of_mem _ hz, ?_⟩
      have hb : runBase (b :: g) = b.base := rfl
      rw [hb] at hend
      omega

section Geometry

variable {entries : List MemmapEntry}

theorem mem_of_run {g : List MemmapEntry} (hg : g ∈ maximalRuns entries) (he : e ∈ g) :
    e ∈ entries ∧ e.type.formsRegion = true := by
  refine ⟨?_, (mem_runs hg).2.2 e he⟩
  have hflat : e ∈ (maximalRuns entries).flatten := List.mem_flatten.mpr ⟨g, hg, he⟩
  rw [maximalRuns, flatten_runs] at hflat
  exact (List.mem_filter.mp hflat).1

/-- Every entry of the four types is in a run. -/
theorem exists_run (he : e ∈ entries) (hf : e.type.formsRegion = true) :
    ∃ g ∈ maximalRuns entries, e ∈ g := by
  have hflat : e ∈ (maximalRuns entries).flatten := by
    rw [maximalRuns, flatten_runs]
    exact List.mem_filter.mpr ⟨he, hf⟩
  exact List.mem_flatten.mp hflat

variable (hw : WellFormed entries)
include hw

theorem WellFormed.run_lengths {g : List MemmapEntry} (hg : g ∈ maximalRuns entries) :
    ∀ e ∈ g, pageSize ∣ e.length := by
  intro e he
  obtain ⟨hmem, hf⟩ := mem_of_run hg he
  exact (hw.aligned e hmem hf).2.1

theorem WellFormed.runBase_dvd {g : List MemmapEntry} (hg : g ∈ maximalRuns entries) :
    pageSize ∣ runBase g := by
  obtain ⟨hne, hc, _⟩ := mem_runs hg
  obtain ⟨⟨a, ha, hbase⟩, _⟩ := run_ends hc (hw.run_lengths hg) hne
  obtain ⟨hmem, hf⟩ := mem_of_run hg ha
  rw [← hbase]
  exact (hw.aligned a hmem hf).1

/-- Up to the end of an entry no direct address wraps around. -/
theorem WellFormed.direct (he : e ∈ entries) (hf : e.type.formsRegion = true) {x : ℕ}
    (hx : x ≤ e.end) : physToDirect x = x + directMapOffset :=
  physToDirect_eq (lt_of_le_of_lt (Nat.add_le_add_right hx _) (hw.addressable e he hf))

theorem WellFormed.runBase_direct {g : List MemmapEntry} (hg : g ∈ maximalRuns entries) :
    physToDirect (runBase g) = runBase g + directMapOffset := by
  obtain ⟨hne, hc, _⟩ := mem_runs hg
  obtain ⟨⟨a, ha, hbase⟩, _⟩ := run_ends hc (hw.run_lengths hg) hne
  obtain ⟨hmem, hf⟩ := mem_of_run hg ha
  rw [← hbase]
  exact hw.direct hmem hf a.base_le_end

/-- Runs follow one another without overlapping. -/
theorem WellFormed.runs_apart : (maximalRuns entries).Pairwise fun g h =>
    runBase g + runPages g * pageSize ≤ runBase h := by
  have hsorted : (maximalRuns entries).flatten.Pairwise fun a b => a.end ≤ b.base := by
    rw [maximalRuns, flatten_runs, List.pairwise_filter]
    exact hw.sorted
  apply (List.pairwise_flatten.mp hsorted).2.imp_of_mem
  intro g h hg hh hgh
  obtain ⟨hgne, hgc, _⟩ := mem_runs hg
  obtain ⟨hhne, hhc, _⟩ := mem_runs hh
  obtain ⟨_, z, hz, hend⟩ := run_ends hgc (hw.run_lengths hg) hgne
  obtain ⟨⟨a, ha, hbase⟩, _⟩ := run_ends hhc (hw.run_lengths hh) hhne
  rw [← hend, ← hbase]
  exact hgh z hz a ha

end Geometry

end TomatOS.Phys
