import TomatOS.Virt.Descent

/-! Asking whether a page is mapped. `virt_is_mapped` goes down to the page entry as the
functions that map pages do, so it links the tables that are missing on the way; and it
looks at the 48 low bits of the address only. It answers right and changes nothing exactly
if no table is missing or the first one is refused, and the address is canonical or no
page is found. -/

namespace TomatOS.Virt

open Foundation Foundation.PageTree Foundation.Transition

namespace PageTables

variable {s : PageTables} {table : ℕ} {indices : List ℕ}

theorem getNextLevel_ok (table index : ℕ) (ha : 1 ≤ s.answers.length) :
    ∃ next s', s.getNextLevel table index = .ok (next, s') ∧
      s.answers.length ≤ s'.answers.length + 1 ∧ s.tables.length ≤ s'.tables.length := by
  rw [getNextLevel]
  split_ifs with hpres
  · exact ⟨_, s, rfl, Nat.le_succ _, le_refl _⟩
  · rcases s.physAlloc_cases with ⟨-, hnone⟩ | ⟨answers, hf, hlen⟩ | ⟨page, answers, hf, hlen, -⟩
    · rw [hnone] at ha
      exact absurd ha (by decide)
    · rw [hf]
      exact ⟨none, _, rfl, hlen, le_refl _⟩
    · rw [hf]
      exact ⟨_, _, rfl, hlen, Nat.le_succ _⟩

/-- With an answer for every level the way down ends, and no table is given back. -/
theorem descend_ok (table : ℕ) (ha : indices.length ≤ s.answers.length) :
    ∃ next s', s.descend table indices = .ok (next, s') ∧ s.tables.length ≤ s'.tables.length := by
  induction indices generalizing s table with
  | nil => exact ⟨some table, s, rfl, le_refl _⟩
  | cons i indices ih =>
    rw [List.length_cons] at ha
    obtain ⟨next, s₁, hf, hans, hle⟩ := getNextLevel_ok (s := s) table i (by omega)
    rw [descend, hf]
    cases next with
    | none => exact ⟨none, s₁, rfl, hle⟩
    | some next =>
      obtain ⟨last, s', hrest, hle'⟩ := ih (s := s₁) next (by omega)
      exact ⟨last, s', hrest, hle.trans hle'⟩

theorem link_eq_none {e : Entry} (h : e.link = none) : ¬ e.present = true := by
  intro hpres
  rw [Entry.link, if_pos hpres] at h
  cases h

theorem descend_of_not_grants (hn : PageTree.resolve Entry.link s.mem table indices = none)
    (ha : 1 ≤ s.answers.length) (hg : ¬ Grants s.inUse 1 s.answers) :
    s.descend table indices = .ok (none, { s with answers := s.answers.drop 1 }) := by
  induction indices generalizing table with
  | nil => cases hn
  | cons i indices ih =>
    rw [resolve_cons] at hn
    cases hl : (s.mem table i).link with
    | some next =>
      rw [hl] at hn
      rw [descend, getNextLevel_of_link hl]
      exact ih hn
    | none =>
      rw [descend, getNextLevel, if_neg (link_eq_none hl)]
      rcases s.physAlloc_granted with ⟨-, hnone⟩ | ⟨answers, hf, hdrop, -⟩ |
        ⟨page, answers, -, -, -, -, -, hiff⟩
      · rw [hnone] at ha
        exact absurd ha (by decide)
      · rw [hf, hdrop]
        rfl
      · exact absurd ((hiff 0).mpr trivial) hg

/-- If it is granted, there is one table more. -/
theorem descend_of_grants (hn : PageTree.resolve Entry.link s.mem table indices = none)
    (ha : indices.length ≤ s.answers.length) (hg : Grants s.inUse 1 s.answers) :
    ∃ next s', s.descend table indices = .ok (next, s') ∧
      s.tables.length < s'.tables.length := by
  induction indices generalizing table with
  | nil => cases hn
  | cons i indices ih =>
    rw [resolve_cons] at hn
    rw [List.length_cons] at ha
    cases hl : (s.mem table i).link with
    | some next =>
      rw [hl] at hn
      rw [descend, getNextLevel_of_link hl]
      exact ih hn (by omega)
    | none =>
      rw [descend, getNextLevel, if_neg (link_eq_none hl)]
      rcases s.physAlloc_granted with ⟨-, hnone⟩ | ⟨answers, -, -, hnot⟩ |
        ⟨page, answers, hf, hdrop, -⟩
      · rw [hnone] at ha
        exact absurd ha (by simp)
      · exact absurd hg (hnot 0)
      · rw [hf]
        simp only [bind, Except.bind, pure, Except.pure]
        have hlen : indices.length ≤ answers.length := by
          rw [← hdrop, List.length_drop]
          omega
        let t := linkTable { s with answers := answers, pages := page :: s.pages } page table i
          ⟨true, true, (s.mem table i).noExecute, page % frameSize⟩
        have hlen' : indices.length ≤ t.answers.length := hlen
        obtain ⟨next, s', hrest, hle⟩ := descend_ok (page % frameSize) hlen'
        exact ⟨next, s', hrest, hle⟩

/-- Neither the tables nor what the allocator has handed out are different. -/
def Unchanged (s s' : PageTables) : Prop :=
  s'.mem = s.mem ∧ s'.cr3 = s.cr3 ∧ s'.tables = s.tables ∧ s'.pages = s.pages

/-- The call says whether the address is canonical and has a page, and changes nothing. -/
def Observes (s : PageTables) (virt : ℕ) : Prop :=
  ∃ mapped s', s.virtIsMapped virt = .ok (mapped, s') ∧ Unchanged s s' ∧
    (mapped = true ↔ Canonical virt ∧ s.walk virt ≠ none)

theorem virtIsMapped_of_resolve {virt t : ℕ} (h : s.resolve (path virt) = some t) :
    s.virtIsMapped virt = .ok ((s.mem t (pml1Index virt)).present, s) := by
  rw [virtIsMapped, getPml1_of_resolve h]
  rfl

theorem walk_ne_none_of_resolve {virt t : ℕ} (h : s.resolve (path virt) = some t) :
    s.walk virt ≠ none ↔ (s.mem t (pml1Index virt)).present = true := by
  rw [walk_eq, leaf_of_table h]
  split_ifs with hpres
  · exact iff_of_true (Option.some_ne_none _) hpres
  · exact iff_of_false (not_not.mpr rfl) hpres

theorem walk_eq_none_of_resolve {virt : ℕ} (h : s.resolve (path virt) = none) :
    s.walk virt = none := by
  have h' : PageTree.resolve Entry.link s.mem s.cr3 (path virt) = none := h
  rw [walk_eq, PageTables.leaf, PageTree.leaf, h']
  rfl

theorem observes_iff_of_resolve {virt t : ℕ} (hr : s.resolve (path virt) = some t) :
    s.Observes virt ↔ Canonical virt ∨ s.walk virt = none := by
  have hrun := virtIsMapped_of_resolve hr
  have hwalk := walk_ne_none_of_resolve hr
  constructor
  · rintro ⟨mapped, s', hcall, -, hiff⟩
    rw [hrun] at hcall
    cases hcall
    by_contra hnot
    obtain ⟨hcanon, hsome⟩ := not_or.mp hnot
    exact hcanon (hiff.mp (hwalk.mp hsome)).1
  · intro hcanon
    refine ⟨_, s, hrun, ⟨rfl, rfl, rfl, rfl⟩, ?_⟩
    rw [← hwalk]
    constructor
    · intro hsome
      exact ⟨hcanon.resolve_right hsome, hsome⟩
    · exact And.right

/-- A table that is missing is linked. -/
theorem not_observes_of_grants {virt : ℕ} (hr : s.resolve (path virt) = none)
    (ha : 3 ≤ s.answers.length) (hg : Grants s.inUse 1 s.answers) : ¬ s.Observes virt := by
  obtain ⟨next, s', hdesc, hlt⟩ := descend_of_grants hr ha hg
  rintro ⟨mapped, s'', hcall, ⟨-, -, htables, -⟩, -⟩
  rw [virtIsMapped, getPml1_eq_descend, hdesc] at hcall
  have hs : s'' = s' := by
    cases next with
    | none =>
      cases hcall
      rfl
    | some next =>
      cases hcall
      rfl
  rw [hs] at htables
  rw [htables] at hlt
  exact absurd hlt (lt_irrefl _)

theorem observes_of_not_grants {virt : ℕ} (hr : s.resolve (path virt) = none)
    (ha : 1 ≤ s.answers.length) (hg : ¬ Grants s.inUse 1 s.answers) : s.Observes virt := by
  have hdesc := descend_of_not_grants hr ha hg
  refine ⟨false, { s with answers := s.answers.drop 1 }, ?_, ⟨rfl, rfl, rfl, rfl⟩, ?_⟩
  · rw [virtIsMapped, getPml1_eq_descend, hdesc]
    rfl
  · rw [walk_eq_none_of_resolve hr]
    exact iff_of_false Bool.false_ne_true fun h => h.2 rfl

/-! ### What the answer says

Whatever the page tables hold, as long as the tables on the way are not free pages of the
allocator: a table that is linked on the way is cleared, so nothing is found in it. -/

/-- The tables on the way to a page entry are in use. -/
def Owned (s : PageTables) : Prop := ∀ p t, p.length < 3 → s.resolve p = some t → t ∈ s.tables

theorem Sound.owned {k : ℕ} (h : s.Sound k) : s.Owned :=
  fun p t hp ht => h.linked.used p t (Nat.le_of_lt hp) ht

theorem getNextLevel_missing {index : ℕ} (htable : table ∈ s.tables)
    (hl : (s.mem table index).link = none) (ha : 1 ≤ s.answers.length) :
    ∃ next s', s.getNextLevel table index = .ok (next, s') ∧
      s.answers.length ≤ s'.answers.length + 1 ∧
      ∀ page, next = some page → page ∈ s'.tables ∧ ∀ j, s'.mem page j = .zero := by
  rw [getNextLevel, if_neg (link_eq_none hl)]
  rcases s.physAlloc_granted with ⟨-, hnone⟩ | ⟨answers, hf, hdrop, -⟩ |
    ⟨page, answers, hf, hdrop, hlt, hfree, -⟩
  · rw [hnone] at ha
    exact absurd ha (by decide)
  · rw [hf]
    refine ⟨none, _, rfl, ?_, fun page hpage => absurd hpage.symm (Option.some_ne_none page)⟩
    rw [← hdrop, List.length_drop]
    omega
  · rw [hf]
    refine ⟨_, _, rfl, ?_, fun next hnext => ?_⟩
    · show s.answers.length ≤ answers.length + 1
      rw [← hdrop, List.length_drop]
      omega
    · have hpage : next = page := by
        rw [← Option.some.inj hnext]
        exact Nat.mod_eq_of_lt hlt
      subst hpage
      have hne : next ≠ table := fun heq => hfree (heq ▸ htable)
      exact ⟨List.mem_cons_self, fun j => linkNew_fresh hne j⟩

/-- From a cleared table on, only cleared tables are linked. -/
theorem descend_cleared (htable : table ∈ s.tables) (hzero : ∀ j, s.mem table j = .zero)
    (ha : indices.length ≤ s.answers.length) :
    ∃ next s', s.descend table indices = .ok (next, s') ∧
      ∀ pml1, next = some pml1 → ∀ j, s'.mem pml1 j = .zero := by
  induction indices generalizing s table with
  | nil =>
    refine ⟨some table, s, rfl, fun pml1 hpml1 => ?_⟩
    rwa [← Option.some.inj hpml1]
  | cons i indices ih =>
    rw [List.length_cons] at ha
    have hl : (s.mem table i).link = none := by
      rw [hzero]
      rfl
    obtain ⟨next, t, hf, hans, hnext⟩ := getNextLevel_missing htable hl (by omega)
    rw [descend, hf]
    cases next with
    | none => exact ⟨none, t, rfl, fun pml1 hpml1 => absurd hpml1.symm (Option.some_ne_none pml1)⟩
    | some page =>
      obtain ⟨hmem, hcleared⟩ := hnext page rfl
      exact ih hmem hcleared (by omega)

theorem descend_of_missing (hn : PageTree.resolve Entry.link s.mem table indices = none)
    (hown : ∀ p t, p.length < indices.length →
      PageTree.resolve Entry.link s.mem table p = some t → t ∈ s.tables)
    (ha : indices.length ≤ s.answers.length) :
    ∃ next s', s.descend table indices = .ok (next, s') ∧
      ∀ pml1, next = some pml1 → ∀ j, s'.mem pml1 j = .zero := by
  induction indices generalizing table with
  | nil => cases hn
  | cons i indices ih =>
    rw [resolve_cons] at hn
    rw [List.length_cons] at ha hown
    cases hl : (s.mem table i).link with
    | some next =>
      rw [hl] at hn
      rw [descend, getNextLevel_of_link hl]
      refine ih hn (fun p t hp ht => hown (i :: p) t (Nat.succ_lt_succ hp) ?_) (by omega)
      rw [resolve_cons, hl]
      exact ht
    | none =>
      obtain ⟨next, t, hf, hans, hnext⟩ :=
        getNextLevel_missing (hown [] table (Nat.succ_pos _) rfl) hl (by omega)
      rw [descend, hf]
      cases next with
      | none => exact ⟨none, t, rfl, fun pml1 hpml1 => absurd hpml1.symm (Option.some_ne_none pml1)⟩
      | some page =>
        obtain ⟨hmem, hcleared⟩ := hnext page rfl
        exact descend_cleared hmem hcleared (by omega)

/-- The answer is what a walk finds, and nothing has happened if it is that there is a
page. -/
theorem virtIsMapped_walk (h : s.Owned) (ha : 3 ≤ s.answers.length) (virt : ℕ) :
    ∃ mapped s', s.virtIsMapped virt = .ok (mapped, s') ∧
      (mapped = true ↔ s.walk virt ≠ none) ∧ (mapped = true → s' = s) := by
  cases hr : s.resolve (path virt) with
  | some t =>
    exact ⟨_, s, virtIsMapped_of_resolve hr, (walk_ne_none_of_resolve hr).symm, fun _ => rfl⟩
  | none =>
    have hwalk := walk_eq_none_of_resolve hr
    obtain ⟨next, s', hdesc, hcleared⟩ := descend_of_missing hr h ha
    have hfalse : s.virtIsMapped virt = .ok (false, s') := by
      rw [virtIsMapped, getPml1_eq_descend, hdesc]
      cases next with
      | none => rfl
      | some pml1 =>
        show Except.ok ((s'.mem pml1 (pml1Index virt)).present, s') = .ok (false, s')
        rw [hcleared pml1 rfl]
        rfl
    exact ⟨false, s', hfalse, iff_of_false Bool.false_ne_true (not_not.mpr hwalk),
      fun hmapped => absurd hmapped Bool.false_ne_true⟩

/-! ### A single page

What the call does when the allocator has one page for it and does not come back when it
is asked for another. -/

theorem getNextLevel_onePage {index page : ℕ} (htable : table ∈ s.tables)
    (hl : (s.mem table index).link = none) (ha : s.answers = [some page])
    (hg : Grants s.inUse 1 s.answers) :
    ∃ s', s.getNextLevel table index = .ok (some page, s') ∧ s'.answers = [] ∧
      ∀ j, s'.mem page j = .zero := by
  rw [ha] at hg
  obtain ⟨hlt, hfree, -⟩ := hg
  have hpage : page < frameSize ∧ page ∉ s.tables ∧ page ∉ s.pages :=
    ⟨hlt, fun h => hfree (.inl h), fun h => hfree (.inr h)⟩
  have hne : page ≠ table := fun heq => hpage.2.1 (heq ▸ htable)
  rw [getNextLevel, if_neg (link_eq_none hl), physAlloc, ha]
  simp only [if_pos hpage, bind, Except.bind, pure, Except.pure, Nat.mod_eq_of_lt hlt]
  exact ⟨_, rfl, rfl, fun j => linkNew_fresh hne j⟩

theorem descend_cleared_unanswered {i : ℕ} (hzero : ∀ j, s.mem table j = .zero)
    (ha : s.answers = []) : s.descend table (i :: indices) = .error .unanswered := by
  have hl : (s.mem table i).link = none := by
    rw [hzero]
    rfl
  rw [descend, getNextLevel, if_neg (link_eq_none hl), physAlloc, ha]
  rfl

theorem descend_onePage {page : ℕ} (hn : PageTree.resolve Entry.link s.mem table indices = none)
    (hown : ∀ p t, p.length < indices.length →
      PageTree.resolve Entry.link s.mem table p = some t → t ∈ s.tables)
    (ha : s.answers = [some page]) (hg : Grants s.inUse 1 s.answers) :
    (PageTree.resolve Entry.link s.mem table indices.dropLast = none →
        s.descend table indices = .error .unanswered) ∧
      (PageTree.resolve Entry.link s.mem table indices.dropLast ≠ none →
        ∃ s', s.descend table indices = .ok (some page, s') ∧ ∀ j, s'.mem page j = .zero) := by
  induction indices generalizing table with
  | nil => cases hn
  | cons i indices ih =>
    rw [resolve_cons] at hn
    rw [List.length_cons] at hown
    cases hl : (s.mem table i).link with
    | some next =>
      rw [hl] at hn
      rw [descend, getNextLevel_of_link hl]
      cases indices with
      | nil => cases hn
      | cons j indices =>
        rw [List.dropLast_cons_cons, resolve_cons, hl]
        apply ih hn
        intro p t hp ht
        apply hown (i :: p) t (Nat.succ_lt_succ hp)
        rw [resolve_cons, hl]
        exact ht
    | none =>
      obtain ⟨s', hf, hans, hzero⟩ :=
        getNextLevel_onePage (hown [] table (Nat.succ_pos _) rfl) hl ha hg
      rw [descend, hf]
      cases indices with
      | nil => exact ⟨fun h => absurd h (Option.some_ne_none table), fun _ => ⟨s', rfl, hzero⟩⟩
      | cons j indices =>
        rw [List.dropLast_cons_cons, resolve_cons, hl]
        exact ⟨fun _ => descend_cleared_unanswered hzero hans, fun h => absurd rfl h⟩

/-- The single page is enough for the last table of the way, which is empty then. -/
theorem virtIsMapped_onePage {virt page : ℕ} (h : s.Owned) (hr : s.resolve (path virt) = none)
    (ha : s.answers = [some page]) (hg : Grants s.inUse 1 s.answers) :
    (s.resolve (path virt).dropLast = none → s.virtIsMapped virt = .error .unanswered) ∧
      (s.resolve (path virt).dropLast ≠ none → ∃ s', s.virtIsMapped virt = .ok (false, s')) := by
  obtain ⟨hstuck, hdone⟩ := descend_onePage hr h ha hg
  rw [virtIsMapped, getPml1_eq_descend]
  constructor
  · intro hmissing
    rw [hstuck hmissing]
    rfl
  · intro hthere
    obtain ⟨s', hdesc, hzero⟩ := hdone hthere
    refine ⟨s', ?_⟩
    rw [hdesc]
    show Except.ok ((s'.mem page (pml1Index virt)).present, s') = .ok (false, s')
    rw [hzero]
    rfl

theorem virtIsMapped_unanswered {virt : ℕ} (hr : s.resolve (path virt) = none)
    (ha : s.answers = []) : s.virtIsMapped virt = .error .unanswered := by
  rw [virtIsMapped, (getPml1_refused hr).1 ha]
  rfl

end PageTables

open PageTables

/-- In every state of the tables and for all answers of the allocator, of which the call
needs three at most: it is an observer exactly if no table is missing or the first one
that is asked for is refused, and the address is canonical or its low bits lead to no
page. -/
theorem virtIsMapped_observes_iff (s : PageTables) (virt : ℕ) (ha : 3 ≤ s.answers.length) :
    s.Observes virt ↔
      (s.resolve (path virt) ≠ none ∨ ¬ Grants s.inUse 1 s.answers) ∧
        (Canonical virt ∨ s.walk virt = none) := by
  cases hr : s.resolve (path virt) with
  | some t =>
    rw [observes_iff_of_resolve hr]
    exact (and_iff_right (.inl (Option.some_ne_none t))).symm
  | none =>
    by_cases hg : Grants s.inUse 1 s.answers
    · refine iff_of_false (not_observes_of_grants hr ha hg) ?_
      rintro ⟨hmissing | hrefused, -⟩
      · exact hmissing rfl
      · exact hrefused hg
    · refine iff_of_true (observes_of_not_grants hr (by omega) hg) ?_
      exact ⟨.inr hg, .inr (walk_eq_none_of_resolve hr)⟩

/-- Tables that map the page at 0 alone. -/
def onePage : PageTables where
  mem := fun table index => if table < 5 ∧ index = 0 then ⟨true, true, true, table + 1⟩ else .zero
  cr3 := 1
  tables := [1, 2, 3, 4]
  pages := [5]
  answers := [some 6, some 7, some 8]

/-- Asked for the address 512GB it takes three pages for tables, and asked for one that is
not canonical it says that it is mapped. -/
theorem virtIsMapped_not_observer :
    ¬ onePage.Observes (2 ^ 39) ∧ ¬ onePage.Observes (2 ^ 48) := by
  constructor
  · rintro ⟨mapped, s', hcall, ⟨-, -, htables, -⟩, -⟩
    have hrun : (onePage.virtIsMapped (2 ^ 39)).map (·.2.tables) = .ok [8, 7, 6, 1, 2, 3, 4] := by
      decide +kernel
    rw [hcall] at hrun
    have hnew : s'.tables = [8, 7, 6, 1, 2, 3, 4] := Except.ok.inj hrun
    rw [htables] at hnew
    exact absurd hnew (by decide)
  · rintro ⟨mapped, s', hcall, -, hiff⟩
    have hrun : (onePage.virtIsMapped (2 ^ 48)).map (·.1) = .ok true := by decide +kernel
    rw [hcall] at hrun
    have hmapped : mapped = true := Except.ok.inj hrun
    have hcanon := (hiff.mp hmapped).1
    rw [Canonical, wordSize] at hcanon
    omega

/-- The page that is mapped. -/
theorem virtIsMapped_observes_onePage :
    onePage.Observes 0 ↔ (onePage.resolve (path 0) ≠ none ∨ ¬ Grants onePage.inUse 1 onePage.answers) ∧
      (Canonical 0 ∨ onePage.walk 0 = none) :=
  virtIsMapped_observes_iff onePage 0 (by decide)

end TomatOS.Virt
