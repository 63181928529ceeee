import TomatOS.Virt.PageFault

/-! Failures of `virt_alloc_range`. Its clean-up goes over the page that failed instead
of those it has mapped: once the first page is mapped it stays mapped, the second pass
of the loop asserts, and the data page of the round that failed is never given back.
So a failure is undone exactly where nothing was done, when already the first
allocation is refused. -/

namespace TomatOS.Virt

open Foundation Foundation.PageTree Foundation.Transition

namespace PageTables

/-- The call returns an error or stops at its assertion. -/
def Failed (r : Result (Option Err × PageTables)) : Prop :=
  r = .error .assertion ∨ ∃ err s', r = .ok (some err, s')

/-- The call returns an error and leaves the translation of every page and the frames
that are handed out as they were. -/
def Undone (s : PageTables) (r : Result (Option Err × PageTables)) : Prop :=
  ∃ err s', r = .ok (some err, s') ∧ (∀ virt, s'.walk virt = s.walk virt) ∧
    ∀ frame, frame ∈ s'.pages ↔ frame ∈ s.pages

variable {k : ℕ} {s s' : PageTables}

/-! ### Frames -/

theorem getNextLevel_pages (table index : ℕ) :
    Returns (s.getNextLevel table index) fun _ s' => s'.pages = s.pages := by
  rw [getNextLevel]
  split
  · exact .ok rfl
  · refine s.physAlloc_allocated.bind ?_
    rintro _ _ (⟨answers⟩ | ⟨page, answers, -⟩)
    · exact .ok rfl
    · exact .ok (List.erase_cons_head page s.pages)

theorem getPml1_pages (virt : ℕ) : Returns (s.getPml1 virt) fun _ s' => s'.pages = s.pages := by
  refine (getNextLevel_pages s.cr3 (pml4Index virt)).bind ?_
  rintro (_ | pml3) s₁ h₁
  · exact .ok h₁
  refine (getNextLevel_pages pml3 (pml3Index virt)).bind ?_
  rintro (_ | pml2) s₂ h₂
  · exact .ok (h₂.trans h₁)
  · exact (getNextLevel_pages pml2 (pml2Index virt)).mono fun _ _ h₃ => h₃.trans (h₂.trans h₁)

/-! ### Page entries -/

/-- The loop writes entries that are not there, so those that are there stay. The page
it fails at is not before the one it starts with. -/
theorem allocPages_keeps (h : s.Sound k) (hk : k ≤ 32) {virt n i : ℕ} :
    Returns (allocPages virt n i s) fun failed s' =>
      s'.Sound k ∧ (∀ p j e, p.length = 3 → s.leaf p j = some e → s'.leaf p j = some e) ∧
      ∀ err m, failed = some (err, m) → i ≤ m := by
  induction n generalizing i s with
  | zero => exact .ok ⟨h, fun _ _ _ _ he => he, fun _ _ hf => (by cases hf)⟩
  | succ n ih =>
    have hfailed : ∀ (e err : Err) m, some (e, i) = some (err, m) → i ≤ m := by
      intro e err m hf
      cases hf
      exact le_rfl
    refine (physAlloc_returns h).bind ?_
    rintro (_ | page) s₁ ⟨h₁, -⟩
    · exact .ok ⟨h₁.sound, fun p j e hp he => (h₁.leaf p j hp).trans he, hfailed _⟩
    refine (getPml1_returns h₁.sound hk (pageAt virt i)).bind ?_
    rintro (_ | pml1) s₂ ⟨h₂, ht⟩
    · exact .ok ⟨h₂.sound, fun p j e hp he => ((h₁.trans h₂).leaf p j hp).trans he, hfailed _⟩
    dsimp only
    split
    · exact .ok ⟨h₂.sound, fun p j e hp he => ((h₁.trans h₂).leaf p j hp).trans he, hfailed _⟩
    · rename_i hfree
      rw [Bool.not_eq_true] at hfree
      have hw := h₂.sound.setEntry (ht pml1 rfl) ⟨true, true, true, page % frameSize⟩
      refine (ih hw.sound).mono fun failed s₄ h₄ => ⟨h₄.1, fun p j e hp he => ?_, ?_⟩
      · apply h₄.2.1 p j e hp
        rw [hw.leaf p j hp, if_neg, (h₁.trans h₂).leaf p j hp, he]
        -- the entry written was not there
        rintro ⟨hcanon, rfl⟩
        rw [← (h₁.trans h₂).leaf p _ hp, PageTables.leaf, PageTree.leaf,
          h₂.sound.linked.resolve_eq_of_canon hcanon] at he
        have hnone := leaf_of_table (ht pml1 rfl) (pml1Index (pageAt virt i))
        rw [hfree] at hnone
        rw [show s₂.leaf _ _ = some e from he] at hnone
        cases hnone
      · intro err m hf
        exact le_trans (Nat.le_succ i) (h₄.2.2 err m hf)

/-! ### The clean-up -/

theorem cleanupPass_two (h : s.Sound k) (hk : k ≤ 32) (virt i n : ℕ) :
    Returns (cleanupPass virt i (n + 2) s) fun err _ => err ≠ none := by
  refine (getPml1_returns h hk (pageAt virt i)).bind ?_
  rintro (_ | pml1) s₁ ⟨h₁, ht⟩
  · exact .ok (by simp)
  dsimp only
  split
  swap
  · exact .error _
  let freed := s₁.physFree (s₁.mem pml1 (pml1Index (pageAt virt i))).frame
  have hfreed : Extends k s₁ freed := h₁.sound.extends_of_eq rfl rfl rfl
  have hr : freed.resolve (path (pageAt virt i)) = some pml1 := ht pml1 rfl
  have hw := hfreed.sound.setEntry hr .zero
  refine (getPml1_returns hw.sound hk (pageAt virt i)).bind ?_
  rintro (_ | pml1') s₂ ⟨h₂, ht'⟩
  · exact .ok (by simp)
  dsimp only
  split
  · rename_i hpres
    have hleaf := h₂.leaf (path (pageAt virt i)) (pml1Index (pageAt virt i)) rfl
    rw [leaf_of_table (ht' pml1' rfl), if_pos hpres, hw.leaf _ _ rfl, if_pos ⟨rfl, rfl⟩] at hleaf
    cases hleaf
  · exact .error _

/-- From the third page of a range on, a failure does not return. -/
theorem cleanup_stuck (h : s.Sound k) (hk : k ≤ 32) (virt : ℕ) {i : ℕ} (hi : 2 ≤ i) (passes : ℕ)
    (err : Err) : Returns (cleanup virt i passes s err) fun _ _ => False := by
  induction passes generalizing s err with
  | zero => exact .error _
  | succ passes ih =>
    have hpass := cleanupPass_two h hk virt i (i - 2)
    rw [show i - 2 + 2 = i by omega] at hpass
    have hwithin := cleanupPass_within h hk (A := {pageAt virt i}) (Set.mem_singleton _) i
    refine (hpass.and hwithin).bind ?_
    rintro (_ | err') s₁ ⟨hne, h₁⟩
    · exact absurd rfl hne
    · exact ih h₁.sound err'

/-! ### After a first page -/

/-- A page that is handed out and not given back, or a page that is still mapped. -/
def Left (s s' : PageTables) : Prop :=
  (∃ frame ∈ s'.pages, frame ∉ s.pages) ∨ ∃ virt, s'.walk virt ≠ s.walk virt

theorem allocPages_granted (h : s.Sound k) (hk : k ≤ 32) {page : ℕ} {s₁ : PageTables}
    (hpage : s.physAlloc = .ok (some page, s₁)) (virt n : ℕ) :
    Returns (allocPages virt (n + 1) 0 s) fun failed s' => ∀ err i, failed = some (err, i) →
      (i = 0 ∧ ∃ frame ∈ s'.pages, frame ∉ s.pages) ∨
      (1 ≤ i ∧ s'.Sound k ∧ s.walk (pageAt virt 0) = none ∧
        ∃ e, s'.walk (pageAt virt 0) = some e) := by
  have hnew : page ∈ s₁.pages ∧ page ∉ s.pages := by
    cases s.physAlloc_allocated _ _ hpage with
    | granted page answers hp ht hout => exact ⟨List.mem_cons_self, hout⟩
  obtain ⟨h₁, -⟩ := physAlloc_returns h (some page) s₁ hpage
  rw [allocPages, hpage]
  refine ((getPml1_returns h₁.sound hk (pageAt virt 0)).and
    (getPml1_pages (pageAt virt 0))).bind ?_
  rintro (_ | pml1) s₂ ⟨⟨h₂, ht⟩, hpages⟩
  · refine .ok fun err i hf => .inl ?_
    cases hf
    exact ⟨rfl, page, hpages ▸ hnew.1, hnew.2⟩
  dsimp only
  split
  · refine .ok fun err i hf => .inl ?_
    cases hf
    exact ⟨rfl, page, hpages ▸ hnew.1, hnew.2⟩
  · rename_i hfree
    rw [Bool.not_eq_true] at hfree
    have hw := h₂.sound.setEntry (ht pml1 rfl) ⟨true, true, true, page % frameSize⟩
    refine (allocPages_keeps hw.sound hk).mono fun failed s₃ h₃ err i hf => .inr ?_
    refine ⟨h₃.2.2 err i hf, h₃.1, ?_, ⟨true, true, true, page % frameSize⟩, ?_⟩
    · rw [PageTables.walk_eq, ← (h₁.trans h₂).leaf _ _ rfl, leaf_of_table (ht pml1 rfl), hfree]
      rfl
    · apply h₃.2.1 _ _ _ rfl
      rw [hw.leaf _ _ rfl, if_pos ⟨rfl, rfl⟩, if_pos rfl]

theorem not_isEntry_next (virt : ℕ) :
    ¬ IsEntry k (pageAt virt 1) (path (pageAt virt 0)) (pml1Index (pageAt virt 0)) := by
  rintro ⟨-, h⟩
  simp only [pml1Index, pageAt, pageSize, wordSize, Nat.shiftRight_eq_div_pow] at h
  omega

/-- A failure after a first allocation leaves something behind. -/
theorem virtAllocRange_granted (h : s.Sound k) (hk : k ≤ 32) {page : ℕ} {s₁ : PageTables}
    (hpage : s.physAlloc = .ok (some page, s₁)) (virt n : ℕ) :
    Returns (s.virtAllocRange virt (n + 1)) fun err s' => err ≠ none → Left s s' := by
  refine (allocPages_granted h hk hpage virt n).bind ?_
  rintro (_ | ⟨err, i⟩) s₂ hfail
  · exact .ok fun hn => absurd rfl hn
  rcases hfail err i rfl with ⟨rfl, hleft⟩ | ⟨hi, hs₂, hbefore, e, hmapped⟩
  · -- no pass of the clean-up
    exact .ok fun _ => .inl hleft
  by_cases htwo : 2 ≤ i
  · refine (cleanup_stuck hs₂ hk virt htwo _ err).bind ?_
    intro err' s₃ hfalse
    exact hfalse.elim
  · obtain rfl : i = 1 := by omega
    have hwithin := cleanup_within hs₂ hk (A := {pageAt virt 1}) (Set.mem_singleton _)
      (s₂.answers.length + 1) err
    refine hwithin.bind ?_
    intro err' s₃ h₃
    refine .ok fun _ => .inr ⟨pageAt virt 0, ?_⟩
    have hsame : s₃.walk (pageAt virt 0) = s₂.walk (pageAt virt 0) := by
      apply h₃.leaf _ _ rfl
      intro v hv
      rw [Set.mem_singleton_iff.mp hv]
      exact not_isEntry_next virt
    rw [hsame, hmapped, hbefore]
    simp

theorem virtAllocRange_refused {s₁ : PageTables} (hrefused : s.physAlloc = .ok (none, s₁))
    (virt n : ℕ) : s.virtAllocRange virt (n + 1) = .ok (some .outOfMemory, s₁) ∧
      s₁.mem = s.mem ∧ s₁.cr3 = s.cr3 ∧ s₁.pages = s.pages := by
  constructor
  · rw [virtAllocRange, allocPages, hrefused]
    rfl
  · cases s.physAlloc_allocated _ _ hrefused
    exact ⟨rfl, rfl, rfl⟩

end PageTables

/-- A call that fails is undone exactly if the first page it asks for is refused. -/
theorem alloc_range_undone_iff {s : PageTables} (hs : Reachable s) (virt pageCount : ℕ)
    (answers : List (Option ℕ))
    (hfail : PageTables.Failed
      (PageTables.virtAllocRange { s with answers := answers } virt pageCount)) :
    PageTables.Undone s (PageTables.virtAllocRange { s with answers := answers } virt pageCount) ↔
      ∃ s₁, PageTables.physAlloc { s with answers := answers } = .ok (none, s₁) := by
  have hsound := (hs.sound.withAnswers answers).sound
  rcases pageCount with _ | n
  · rcases hfail with hf | ⟨err, s', hf⟩ <;> cases hf
  constructor
  · rintro ⟨err, s', hr, hwalk, hpages⟩
    rcases hp : PageTables.physAlloc { s with answers := answers } with f | ⟨_ | page, s₁⟩
    · rw [PageTables.virtAllocRange, PageTables.allocPages, hp] at hr
      cases hr
    · exact ⟨s₁, rfl⟩
    · have hleft := PageTables.virtAllocRange_granted hsound le_rfl hp virt n (some err) s' hr
        (by simp)
      rcases hleft with ⟨frame, hin, hout⟩ | ⟨v, hv⟩
      · exact absurd ((hpages frame).mp hin) hout
      · exact absurd (hwalk v) hv
  · rintro ⟨s₁, hp⟩
    obtain ⟨hr, hmem, hcr3, hpages⟩ := PageTables.virtAllocRange_refused hp virt n
    refine ⟨.outOfMemory, s₁, hr, ?_, ?_⟩
    · intro v
      rw [PageTables.walk, PageTables.walk, hmem, hcr3]
    · intro frame
      rw [hpages]

/-- The jit area after initialisation, with no memory at all. -/
theorem refused_range_undone :
    PageTables.Undone booted
      (PageTables.virtAllocRange { booted with answers := [none] } 0xFFFFFFFF90000000 2) := by
  have hp : ∀ s : PageTables, PageTables.physAlloc { s with answers := [none] } =
      .ok (none, { s with answers := [] }) := fun s => rfl
  have hr := PageTables.virtAllocRange_refused (hp booted) 0xFFFFFFFF90000000 1
  exact (alloc_range_undone_iff booted_reachable _ _ _ (.inr ⟨_, _, hr.1⟩)).mpr ⟨_, hp booted⟩

theorem second_page_asserts :
    ¬ ∀ (s : PageTables) (virt pageCount : ℕ) (answers : List (Option ℕ)), Reachable s →
      PageTables.Failed
        (PageTables.virtAllocRange { s with answers := answers } virt pageCount) →
      PageTables.Undone s
        (PageTables.virtAllocRange { s with answers := answers } virt pageCount) := by
  intro hall
  have hr : (PageTables.virtAllocRange { booted with answers := [some 0x200, some 0x201, none] }
      0xFFFFFFFF90000000 2).map Prod.fst = .error .assertion := by decide +kernel
  have hassert : PageTables.virtAllocRange
      { booted with answers := [some 0x200, some 0x201, none] } 0xFFFFFFFF90000000 2 =
      .error .assertion := by
    rcases h : PageTables.virtAllocRange
      { booted with answers := [some 0x200, some 0x201, none] } 0xFFFFFFFF90000000 2 with f | r
    · rw [h] at hr
      cases hr
      rfl
    · rw [h] at hr
      cases hr
  obtain ⟨err, s', hundone, -⟩ := hall booted 0xFFFFFFFF90000000 2
    [some 0x200, some 0x201, none] booted_reachable (.inl hassert)
  rw [hassert] at hundone
  cases hundone

end TomatOS.Virt
