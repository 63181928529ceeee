import TomatOS.Virt.PageFault

/-! Failures of `virt_remap_range`. Every page of the range is checked right before its
permissions are set, so a page that is missing is met when those before it have been
changed, and there is nothing to undo them. A failure changes nothing exactly if the
pages before the missing one had the permissions already. -/

namespace TomatOS.Virt

open Foundation Foundation.PageTree Foundation.Transition

/-- The permissions of `virt_remap_range`. -/
def Entry.setPerm (flags : MapFlags) (e : Entry) : Entry :=
  { e with writeable := flags.permW, noExecute := !flags.permX }

namespace PageTables

/-- The entry of an address is that of one of the pages `i` to `m - 1` of the range. -/
def InPages (virt i m w : ℕ) : Prop := ∃ j, i ≤ j ∧ j < m ∧ SameEntry (pageAt virt j) w

/-- The page entries with those of the pages `i` to `m - 1` changed. -/
structure Remapped (virt : ℕ) (flags : MapFlags) (i m : ℕ) (s s' : PageTables) : Prop where
  inside : ∀ w, InPages virt i m w → s'.walk w = (s.walk w).map (Entry.setPerm flags)
  outside : ∀ w, ¬ InPages virt i m w → s'.walk w = s.walk w

variable {s s' s'' : PageTables} {virt i m : ℕ} {flags : MapFlags}

theorem Extends.remapped (h : Extends 32 s s') : Remapped virt flags i i s s' := by
  refine ⟨fun w hw => ?_, fun w _ => h.walk_eq w⟩
  obtain ⟨j, h1, h2, -⟩ := hw
  omega

theorem Remapped.cons (h : s.Sound 32) {e : Entry} (hw : s.walk (pageAt virt i) = some e)
    (hset : Writes 32 (pageAt virt i) (e.setPerm flags) s s')
    (hrest : Remapped virt flags (i + 1) m s' s'') (hm : i < m) : Remapped virt flags i m s s'' := by
  have hpres : (e.setPerm flags).present = true := by
    rw [walk_eq, PageTables.leaf, PageTree.leaf] at hw
    obtain ⟨table, -, he⟩ := Option.bind_eq_some_iff.mp hw
    split_ifs at he with hlink
    cases he
    rw [Entry.link] at hlink
    split_ifs at hlink with hp
    · exact hp
    · cases hlink
  have hfirst : ∀ w, SameEntry (pageAt virt i) w →
      s'.walk w = (s.walk w).map (Entry.setPerm flags) := by
    intro w hsame
    have hentry : IsEntry 32 (pageAt virt i) (path w) (pml1Index w) := hsame
    rw [walk_eq s', hset.leaf _ _ rfl, if_pos hentry, if_pos hpres, walk_eq_of_sameEntry h hsame, hw]
    rfl
  have hother : ∀ w, ¬ SameEntry (pageAt virt i) w → s'.walk w = s.walk w := by
    intro w hne
    have hentry : ¬ IsEntry 32 (pageAt virt i) (path w) (pml1Index w) := hne
    rw [walk_eq s', hset.leaf _ _ rfl, if_neg hentry]
    rfl
  refine ⟨fun w hin => ?_, fun w hout => ?_⟩
  · by_cases hlater : InPages virt (i + 1) m w
    · rw [hrest.inside w hlater]
      by_cases hsame : SameEntry (pageAt virt i) w
      · rw [hfirst w hsame, Option.map_map]
        rfl
      · rw [hother w hsame]
    · rw [hrest.outside w hlater]
      obtain ⟨j, h1, h2, hsame⟩ := hin
      rcases Nat.eq_or_lt_of_le h1 with rfl | hlt
      · exact hfirst w hsame
      · exact absurd ⟨j, hlt, h2, hsame⟩ hlater
  · have hlater : ¬ InPages virt (i + 1) m w := by
      rintro ⟨j, h1, h2, hsame⟩
      exact hout ⟨j, by omega, h2, hsame⟩
    rw [hrest.outside w hlater]
    exact hother w fun hsame => hout ⟨i, le_rfl, hm, hsame⟩

theorem Remapped.isSome (h : Remapped virt flags i m s s') (w : ℕ) :
    (s'.walk w).isSome = (s.walk w).isSome := by
  by_cases hin : InPages virt i m w
  · rw [h.inside w hin, Option.isSome_map]
  · rw [h.outside w hin]

/-! ### The loop -/

/-- A page that is there: no memory is needed, and its permissions are set. -/
theorem remapPages_present (h : s.Sound 32) {e : Entry} (hw : s.walk (pageAt virt i) = some e)
    (flags : MapFlags) (n : ℕ) : ∃ s', Writes 32 (pageAt virt i) (e.setPerm flags) s s' ∧ s'.answers = s.answers ∧
      remapPages virt flags (n + 1) i s = remapPages virt flags n (i + 1) s' := by
  obtain ⟨pml1, hf⟩ := getPml1_of_walk hw
  have hr : s.resolve (path (pageAt virt i)) = some pml1 :=
    (getPml1_returns h le_rfl (pageAt virt i) _ _ hf).2 pml1 rfl
  rw [walk_eq, leaf_of_table hr] at hw
  split_ifs at hw with hpres
  have he : s.mem pml1 (pml1Index (pageAt virt i)) = e := Option.some.inj hw
  rw [he] at hpres
  refine ⟨_, h.setEntry hr (e.setPerm flags), rfl, ?_⟩
  rw [remapPages, hf]
  simp only [bind, Except.bind, he, if_pos hpres]
  rfl

/-- A page that is not there: new tables at most, and an error. -/
theorem remapPages_absent (h : s.Sound 32) (ha : 3 ≤ s.answers.length)
    (hw : s.walk (pageAt virt i) = none) (flags : MapFlags) (n : ℕ) :
    ∃ err s', remapPages virt flags (n + 1) i s = .ok (some err, s') ∧ Extends 32 s s' := by
  rw [remapPages]
  rcases getPml1_spec h le_rfl (pageAt virt i) with ⟨-, hlt⟩ | ⟨pml1, s₁, hf, h₁, ht⟩
  · omega
  simp only [hf, bind, Except.bind, pure, Except.pure]
  rcases pml1 with _ | pml1
  · exact ⟨.outOfMemory, s₁, rfl, h₁⟩
  · have hfree : ¬ (s₁.mem pml1 (pml1Index (pageAt virt i))).present = true := by
      intro hpres
      rw [← h₁.walk_eq, walk_eq, leaf_of_table (ht pml1 rfl), if_pos hpres] at hw
      cases hw
    exact ⟨.checkFailed, s₁, by simp only [if_neg hfree], h₁⟩

/-- The loop changes the pages up to the first that is not there. -/
theorem remapPages_spec (h : s.Sound 32) (ha : 3 ≤ s.answers.length) (virt : ℕ)
    (flags : MapFlags) (n i : ℕ) :
    ∃ err m s', remapPages virt flags n i s = .ok (err, s') ∧ Remapped virt flags i m s s' ∧
      (∀ j, i ≤ j → j < m → (s.walk (pageAt virt j)).isSome) ∧
      (err = none ∧ m = i + n ∨
        err ≠ none ∧ i ≤ m ∧ m < i + n ∧ s.walk (pageAt virt m) = none) := by
  induction n generalizing i s with
  | zero =>
    exact ⟨none, i, s, rfl, (Extends.refl h).remapped, fun j h1 h2 => by omega, .inl ⟨rfl, rfl⟩⟩
  | succ n ih =>
    rcases hw : s.walk (pageAt virt i) with _ | e
    · obtain ⟨err, s', hf, hext⟩ := remapPages_absent h ha hw flags n
      exact ⟨some err, i, s', hf, hext.remapped, fun j h1 h2 => by omega,
        .inr ⟨by simp, le_rfl, by omega, hw⟩⟩
    · obtain ⟨s₁, hset, hans, hf⟩ := remapPages_present h hw flags n
      obtain ⟨err, m, s', hf', hrest, hbefore, hend⟩ := ih hset.sound (hans ▸ ha) (i + 1)
      have hm : i < m := by
        rcases hend with ⟨-, hm⟩ | ⟨-, hm, -⟩
        · omega
        · omega
      have hsome := (Remapped.cons h hw hset (Extends.refl hset.sound).remapped
        (Nat.lt_succ_self i)).isSome
      refine ⟨err, m, s', hf.trans hf', Remapped.cons h hw hset hrest hm, fun j h1 h2 => ?_, ?_⟩
      · rcases Nat.eq_or_lt_of_le h1 with rfl | hlt
        · rw [hw]
          rfl
        · rw [← hsome]
          exact hbefore j hlt h2
      · rcases hend with ⟨herr, hm'⟩ | ⟨herr, -, hm', hnone⟩
        · exact .inl ⟨herr, by omega⟩
        · refine .inr ⟨herr, by omega, by omega, ?_⟩
          have hsame := hsome (pageAt virt m)
          rw [hnone] at hsame
          exact Option.not_isSome_iff_eq_none.mp (by rw [← hsame]; simp)

/-! ### All or nothing -/

/-- The call succeeds exactly if every page of the range is there; then these pages, and
those that share their entries, get the permissions and no other translation changes. An
error changes no translation. -/
def RemapRight (s : PageTables) (virt pageCount : ℕ) (flags : MapFlags)
    (r : Result (Option Err × PageTables)) : Prop :=
  ∃ err s', r = .ok (err, s') ∧ (err = none ↔ ∀ i < pageCount, (s.walk (pageAt virt i)).isSome) ∧
    (err = none → ∀ w, s'.walk w =
      if ∃ i < pageCount, SameEntry (pageAt virt i) w then (s.walk w).map (Entry.setPerm flags)
      else s.walk w) ∧
    (err ≠ none → ∀ w, s'.walk w = s.walk w)

/-- The pages before the first one that is not there have the permissions already. -/
def PrefixSet (s : PageTables) (virt pageCount : ℕ) (flags : MapFlags) : Prop :=
  ∀ m < pageCount, s.walk (pageAt virt m) = none →
    (∀ i < m, (s.walk (pageAt virt i)).isSome) →
    ∀ i < m, (s.walk (pageAt virt i)).map (Entry.setPerm flags) = s.walk (pageAt virt i)

theorem inPages_zero {w : ℕ} : InPages virt 0 m w ↔ ∃ j < m, SameEntry (pageAt virt j) w := by
  simp only [InPages, Nat.zero_le, true_and]

theorem remapRight_iff (h : s.Sound 32) (ha : 3 ≤ s.answers.length) (virt pageCount : ℕ)
    (flags : MapFlags) :
    RemapRight s virt pageCount flags (s.virtRemapRange virt pageCount flags) ↔
      PrefixSet s virt pageCount flags := by
  obtain ⟨err, m, s', hf, hchanged, hbefore, hend⟩ :=
    remapPages_spec h ha virt flags pageCount 0
  constructor
  · rintro ⟨err', s'', hr, -, -, herr⟩ f hfn hnone hpre i hi
    cases hf.symm.trans hr
    rcases hend with ⟨-, hm⟩ | ⟨hne, -, hm, habsent⟩
    · have hsome := hbefore f (Nat.zero_le f) (by omega)
      rw [hnone] at hsome
      cases hsome
    · obtain rfl : f = m := by
        rcases Nat.lt_trichotomy f m with hlt | heq | hgt
        · have hsome := hbefore f (Nat.zero_le f) hlt
          rw [hnone] at hsome
          cases hsome
        · exact heq
        · have hsome := hpre m hgt
          rw [habsent] at hsome
          cases hsome
      rw [← hchanged.inside _ ⟨i, Nat.zero_le i, hi, .refl _⟩]
      exact herr hne _
  · intro hset
    refine ⟨err, s', hf, ?_, fun hnone w => ?_, fun hne w => ?_⟩
    · rcases hend with ⟨hnone, hm⟩ | ⟨hne, -, hm, habsent⟩
      · exact ⟨fun _ i hi => hbefore i (Nat.zero_le i) (by omega), fun _ => hnone⟩
      · refine ⟨fun hnone => absurd hnone hne, fun hall => ?_⟩
        have hsome := hall m (by omega)
        rw [habsent] at hsome
        cases hsome
    · obtain rfl : m = pageCount := by
        rcases hend with ⟨-, hm⟩ | ⟨hne, -⟩
        · omega
        · exact absurd hnone hne
      split_ifs with hin
      · exact hchanged.inside w (inPages_zero.mpr hin)
      · exact hchanged.outside w (mt inPages_zero.mp hin)
    · rcases hend with ⟨hnone, -⟩ | ⟨-, -, hm, habsent⟩
      · exact absurd hnone hne
      by_cases hin : InPages virt 0 m w
      · obtain ⟨j, -, hj, hsame⟩ := hin
        rw [hchanged.inside w ⟨j, Nat.zero_le j, hj, hsame⟩, walk_eq_of_sameEntry h hsame]
        exact hset m (by omega) habsent (fun j' hj' => hbefore j' (Nat.zero_le j') hj') j hj
      · exact hchanged.outside w hin

end PageTables

/-- In every state a run leads to. -/
theorem remap_range_right_iff {s : PageTables} (hs : Reachable s) (virt pageCount : ℕ)
    (flags : MapFlags) (answers : List (Option ℕ)) (ha : 3 ≤ answers.length) :
    PageTables.RemapRight s virt pageCount flags
        (PageTables.virtRemapRange { s with answers := answers } virt pageCount flags) ↔
      PageTables.PrefixSet s virt pageCount flags := by
  have hext := hs.sound.withAnswers answers
  have hiff := PageTables.remapRight_iff hext.sound ha virt pageCount flags
  simp only [PageTables.RemapRight, PageTables.PrefixSet, hext.walk_eq] at hiff ⊢
  exact hiff

/-- The first page of the jit area. -/
def jitPage : PageTables :=
  stateOf (PageTables.virtAllocRange { booted with answers := pagesFrom 0x200 2 }
    0xFFFFFFFF90000000 1)

theorem jitPage_reachable : Reachable jitPage := by
  apply booted_reachable.snoc (.allocRange 0xFFFFFFFF90000000 1, pagesFrom 0x200 2)
  have hok : PageTables.virtAllocRange { booted with answers := pagesFrom 0x200 2 }
      0xFFFFFFFF90000000 1 = .ok (none, jitPage) := eq_ok_stateOf (by decide +kernel)
  exact snd_ok hok

theorem jit_page_remapped :
    PageTables.RemapRight jitPage 0xFFFFFFFF90000000 1 ⟨false, true⟩
      (PageTables.virtRemapRange { jitPage with answers := [none, none, none] }
        0xFFFFFFFF90000000 1 ⟨false, true⟩) := by
  apply (remap_range_right_iff jitPage_reachable _ _ _ _ (by simp)).mpr
  intro m hm _ _ i hi
  omega

/-- With the page after it, which is not there, the call fails and the page is executable
and no longer writable. -/
theorem remap_changes_prefix :
    ¬ ∀ (s : PageTables) (virt pageCount : ℕ) (flags : MapFlags) (answers : List (Option ℕ)),
      Reachable s → 3 ≤ answers.length →
      PageTables.RemapRight s virt pageCount flags
        (PageTables.virtRemapRange { s with answers := answers } virt pageCount flags) := by
  intro hall
  have hright := hall jitPage 0xFFFFFFFF90000000 2 ⟨false, true⟩ [none, none, none]
    jitPage_reachable (by simp)
  obtain ⟨err, s', hr, -, -, herr⟩ := hright
  have hbefore : jitPage.walk 0xFFFFFFFF90000000 = some ⟨true, true, true, 0x200⟩ := by
    decide +kernel
  have hafter : (PageTables.virtRemapRange { jitPage with answers := [none, none, none] }
      0xFFFFFFFF90000000 2 ⟨false, true⟩).map (fun r => (r.1, r.2.walk 0xFFFFFFFF90000000)) =
      .ok (some .checkFailed, some ⟨true, false, false, 0x200⟩) := by decide +kernel
  rw [hr] at hafter
  obtain ⟨rfl, hwalk⟩ := Prod.mk.inj (Except.ok.inj hafter)
  rw [herr (by simp), hbefore] at hwalk
  cases hwalk

end TomatOS.Virt
