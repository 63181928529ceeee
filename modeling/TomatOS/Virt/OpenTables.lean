import TomatOS.Virt.Descent
import TomatOS.Virt.Permissions
import TomatOS.Virt.Shadow

/-! What the upper levels allow. The tables that are linked on the way to a page entry
allow everything, so until the shadow loop runs it is the page entry alone that decides
whether an address can be written or executed. -/

namespace TomatOS.Virt

open Foundation Foundation.PageTree Foundation.Transition

namespace PageTables

/-- No entry above the page entries forbids anything. -/
def Open (s : PageTables) : Prop :=
  ∀ p i table, p.length < 3 → s.resolve p = some table →
    (s.mem table i).noExecute = false ∧
      ((s.mem table i).present = true → (s.mem table i).writeable = true)

variable {k : ℕ} {s s' : PageTables}

theorem open_root (h : ∀ i, s.mem s.cr3 i = .zero) : s.Open := by
  intro p i table _ hr
  cases p with
  | nil =>
    obtain rfl := Option.some.inj hr
    rw [h]
    exact ⟨rfl, fun hn => by cases hn⟩
  | cons j p =>
    rw [resolve, resolve_cons, h] at hr
    cases hr

theorem Open.linkTable (h : s.Sound k) (hk : k ≤ 32) (ho : s.Open) {p : List ℕ}
    (hp : p.length < 3) {table : ℕ} (hr : s.resolve p = some table) {index : ℕ}
    (hfree : (s.mem table index).present = false) {page : ℕ} (hpage : page < frameSize)
    (hunused : page ∉ s.tables) {e : Entry} (hpres : e.present = true)
    (hframe : e.frame = page % frameSize) (hopen : e.noExecute = false ∧ e.writeable = true) :
    (s.linkTable page table index e).Open := by
  intro q i t hq ht
  have hat := h.linkAt hk hp hr hfree hpage hunused hpres hframe
  have hres := ht.symm.trans (hat.resolve_linkNew (le_of_lt hq))
  -- the entry that links the new table, those of the new table, and those that were there
  simp only [PageTables.linkTable, linkNew_apply hat.fresh_ne_table]
  by_cases hslot : t = table ∧ i = index
  · rw [if_pos hslot]
    exact ⟨hopen.1, fun _ => hopen.2⟩
  rw [if_neg hslot]
  by_cases hnew : t = page
  · rw [if_pos hnew]
    exact ⟨rfl, fun hn => by cases hn⟩
  rw [if_neg hnew]
  split_ifs at hres with hc
  · exact absurd (Option.some.inj hres) hnew
  · exact ho q i t hq hres.symm

theorem getNextLevel_open (h : s.Sound k) (hk : k ≤ 32) (ho : s.Open) {p : List ℕ}
    (hp : p.length < 3) {table : ℕ} (hr : s.resolve p = some table) (index : ℕ) :
    Returns (s.getNextLevel table index) fun next s' =>
      s'.Sound k ∧ s'.Open ∧ ∀ t, next = some t → s'.resolve (p ++ [index]) = some t := by
  have hkeep : Returns (s.getNextLevel table index) fun next s' =>
      s'.Sound k ∧ ∀ t, next = some t → s'.resolve (p ++ [index]) = some t := by
    rcases getNextLevel_spec h hk hp hr index with ⟨hf, -⟩ | ⟨next, s', hf, hext, -, -, hnext⟩
    · rw [hf]
      exact .error _
    · rw [hf]
      exact .ok ⟨hext.sound, hnext⟩
  have hopen : Returns (s.getNextLevel table index) fun _ s' => s'.Open := by
    rw [getNextLevel]
    split
    · exact .ok ho
    rename_i hfree
    rw [Bool.not_eq_true] at hfree
    refine s.physAlloc_allocated.bind ?_
    rintro _ _ (⟨answers⟩ | ⟨page, answers, hpage, hunused, -⟩)
    · exact .ok ho
    · have hsame := h.withPage page answers
      have ho' : Open { s with answers := answers, pages := page :: s.pages } := ho
      exact .ok (ho'.linkTable hsame.sound hk hp hr hfree hpage hunused rfl rfl
        ⟨(ho p index table hp hr).1, rfl⟩)
  exact (hkeep.and hopen).mono fun _ _ hboth => ⟨hboth.1.1, hboth.2, hboth.1.2⟩

theorem getPml1_open (h : s.Sound k) (hk : k ≤ 32) (ho : s.Open) (virt : ℕ) :
    Returns (s.getPml1 virt) fun _ s' => s'.Open := by
  refine (getNextLevel_open h hk ho (p := []) (by simp) rfl (pml4Index virt)).bind ?_
  rintro (_ | pml3) s₁ ⟨h₁, ho₁, hr₁⟩
  · exact .ok ho₁
  refine (getNextLevel_open h₁ hk ho₁ (by simp) (hr₁ pml3 rfl) (pml3Index virt)).bind ?_
  rintro (_ | pml2) s₂ ⟨h₂, ho₂, hr₂⟩
  · exact .ok ho₂
  exact (getNextLevel_open h₂ hk ho₂ (by simp) (hr₂ pml2 rfl) (pml2Index virt)).mono
    fun _ _ h₃ => h₃.2.1

/-- Page entries are not above page entries. -/
theorem Open.setEntry (h : s.Sound k) (ho : s.Open) {virt pml1 : ℕ}
    (hr : s.resolve (path virt) = some pml1) (index : ℕ) (e : Entry) :
    (s.setEntry pml1 index e).Open := by
  intro p i table hp ht
  have hsame := h.linked.resolve_write (p := path virt) rfl hr index e (le_of_lt hp)
  have ht' : s.resolve p = some table := hsame.symm.trans ht
  have hne : table ≠ pml1 := by
    rintro rfl
    have hlen := congrArg List.length
      (h.linked.separate p (path virt) table (le_of_lt hp) le_rfl ht' hr)
    simp only [canon_length, path, List.length_cons, List.length_nil] at hlen
    omega
  simp only [PageTables.setEntry, write_of_ne hne]
  exact ho p i table hp ht'

theorem virtMapPage_open (h : s.Sound k) (hk : k ≤ 32) (ho : s.Open) (phys virt : ℕ)
    (flags : MapFlags) : Returns (s.virtMapPage phys virt flags) fun _ s' => s'.Open := by
  refine ((getPml1_returns h hk virt).and (getPml1_open h hk ho virt)).bind ?_
  rintro (_ | pml1) s₁ ⟨⟨h₁, hr⟩, ho₁⟩
  · exact .ok ho₁
  · exact .ok (ho₁.setEntry h₁.sound (hr pml1 rfl) _ _)

theorem mapPages_open (h : s.Sound k) (hk : k ≤ 32) (ho : s.Open) (phys virt : ℕ)
    (flags : MapFlags) (n i : ℕ) :
    Returns (mapPages phys virt flags n i s) fun _ s' => s'.Open := by
  induction n generalizing i s with
  | zero => exact .ok ho
  | succ n ih =>
    refine ((virtMapPage_within (A := Set.univ) h hk (pageAt phys i) (Set.mem_univ _) flags).and
      (virtMapPage_open h hk ho (pageAt phys i) (pageAt virt i) flags)).bind ?_
    rintro (_ | err) s₁ ⟨h₁, ho₁⟩
    · exact ih h₁.sound ho₁ (i + 1)
    · exact .ok ho₁

theorem mapSegments_open (h : s.Sound k) (hk : k ≤ 32) (ho : s.Open) (b : Boot)
    (phdrs : List Phdr) : Returns (mapSegments b phdrs s) fun _ s' => s'.Open := by
  induction phdrs generalizing s with
  | nil => exact .ok ho
  | cons ph phdrs ih =>
    rw [mapSegments]
    split
    · split
      · exact .ok ho
      · refine ((virtMapRange_within h hk _ _ _ _).and (mapPages_open h hk ho _ _ _ _ 0)).bind ?_
        rintro (_ | err) s₁ ⟨h₁, ho₁⟩
        · exact ih h₁.sound ho₁
        · exact .ok ho₁
    · exact ih h ho

/-! ### Permissions -/

/-- The entries above a page entry allow everything. -/
theorem Open.entries (ho : s.Open) {virt : ℕ} {e : Entry} (hw : s.walk virt = some e) :
    ∃ es, s.entries virt = some (es ++ [e]) ∧
      ∀ e' ∈ es, e'.noExecute = false ∧ e'.writeable = true := by
  obtain ⟨es, htrail, hes⟩ := trail_of_leaf hw
  refine ⟨es, htrail, fun e' he' => ?_⟩
  obtain ⟨q, j, table, hlen, hr, rfl, hsome⟩ := hes e' he'
  have hopen := ho q j table hlen hr
  refine ⟨hopen.1, hopen.2 ?_⟩
  rw [Entry.link] at hsome
  split_ifs at hsome with hpres
  · exact hpres
  · cases hsome

/-- The page entry decides. -/
theorem permissions_of_entries {virt : ℕ} {e : Entry} {es : List Entry}
    (hes : s.entries virt = some (es ++ [e]))
    (hopen : ∀ e' ∈ es, e'.noExecute = false ∧ e'.writeable = true) :
    (s.Writable virt ↔ e.writeable = true) ∧ (s.Executable virt ↔ e.noExecute = false) := by
  have hmem : ∀ {P : Entry → Prop}, (∀ e' ∈ es, P e') →
      ((∃ es', s.entries virt = some es' ∧ ∀ e' ∈ es', P e') ↔ P e) := by
    intro P hP
    rw [hes]
    constructor
    · rintro ⟨es', hes', hall⟩
      obtain rfl := Option.some.inj hes'
      exact hall e (by simp)
    · intro he
      refine ⟨_, rfl, fun e' he' => ?_⟩
      rcases List.mem_append.mp he' with he' | he'
      · exact hP e' he'
      · rw [List.mem_singleton.mp he']
        exact he
  exact ⟨hmem fun e' he' => (hopen e' he').2, hmem fun e' he' => (hopen e' he').1⟩

/-! ### The shadow loop -/

theorem entries_congr (h : s.Sound k) {virt : ℕ} (hcr3 : s'.cr3 = s.cr3)
    (hslot : s'.mem s.cr3 (pml4Index virt) = s.mem s.cr3 (pml4Index virt))
    (hbelow : ∀ t ∈ s.tables, t ≠ s.cr3 → ∀ i, s'.mem t i = s.mem t i) :
    s'.entries virt = s.entries virt := by
  rw [PageTables.entries, PageTables.entries, hcr3]
  apply trail_congr
  intro q i hq table ht
  have hlen := hq.length_le
  simp only [List.length_append, List.length_cons, List.length_nil] at hlen
  cases q with
  | nil =>
    obtain rfl := Option.some.inj ht
    have hi : i = pml4Index virt := by simpa using hq
    rw [hi]
    exact hslot
  | cons j q =>
    have hne : table ≠ s.cr3 := by
      rintro rfl
      cases h.linked.eq_nil_of_root (by omega) ht
    exact hbelow table (h.linked.used _ table (by omega) ht) hne i

theorem shadowCopy_entries (h : s.Sound k) {i virt : ℕ} (hne : pml4Index virt ≠ 288 + i) :
    (shadowCopy i s).entries virt = s.entries virt := by
  refine entries_congr h rfl ?_ fun t _ ht j => ?_
  · exact (shadowCopy_root i s _).trans (if_neg hne)
  · exact write_of_ne ht _ _ j

/-- A round keeps the way to a page entry that does not go through the copied slot. -/
theorem shadowRound_entries {i : ℕ} (h : s.Sound i) (hi : i < 32) :
    Returns (s.shadowRound i) fun err s' => err = none → ∀ virt es,
      s.entries virt = some es → pml4Index virt ≠ 288 + i → s'.entries virt = some es := by
  have hslot : pml4Index (directMapOffset + i * size512GB) = 256 + i := by
    simp only [pml4Index, directMapOffset, size512GB, Nat.shiftRight_eq_div_pow]
    omega
  have hshadow : pml4Index (directMapOffset + i * size512GB + size16TB) = 288 + i := by
    simp only [pml4Index, directMapOffset, size512GB, size16TB, Nat.shiftRight_eq_div_pow]
    omega
  rw [shadowRound]
  simp only [hslot, hshadow]
  split
  · exact .ok fun _ virt es hes hne => (shadowCopy_entries h hne).trans hes
  · rename_i hfree
    rw [Bool.not_eq_true] at hfree
    refine s.physAlloc_allocated.bind ?_
    rintro _ _ (⟨answers⟩ | ⟨page, answers, hpage, hunused, -⟩)
    · exact .ok fun hn => by cases hn
    refine .ok fun _ virt es hes hne => ?_
    have hroot : page ≠ s.cr3 := by
      rintro rfl
      exact hunused (h.linked.used [] _ (Nat.zero_le 3) rfl)
    have hnew := (@filled_of_alloc s i h hi page answers hfree hpage hunused).ext
    apply (shadowCopy_entries hnew.sound hne).trans
    rw [← hes]
    refine entries_congr h rfl ?_ fun t ht htne j => ?_
    · apply (linkNew_apply hroot s.cr3 _).trans
      rw [if_neg, if_neg hroot.symm]
      rintro ⟨-, hsame⟩
      -- the slot is there
      rw [PageTables.entries, trail, hsame, Entry.link, hfree] at hes
      cases hes
    · apply (linkNew_apply hroot t j).trans
      rw [if_neg fun hh => htne hh.1, if_neg]
      rintro rfl
      exact hunused ht

theorem shadowRounds_entries {n i : ℕ} (h : s.Sound i) (hi : i + n ≤ 32) :
    Returns (shadowRounds n i s) fun err s' => err = none → ∀ virt es,
      s.entries virt = some es → ¬ (288 + i ≤ pml4Index virt ∧ pml4Index virt < 288 + i + n) →
      s'.entries virt = some es := by
  induction n generalizing i s with
  | zero => exact .ok fun _ virt es hes _ => hes
  | succ n ih =>
    refine ((shadowRound_returns h (by omega)).and (shadowRound_entries h (by omega))).bind ?_
    rintro err s₁ ⟨⟨rfl, t, hfilled, rfl⟩ | ⟨rfl, -⟩, hkeep⟩
    · refine (ih (hfilled.copy_sound (by omega)) (by omega)).mono fun err s₂ hrest hn => ?_
      intro virt es hes hout
      exact hrest hn virt es (hkeep rfl virt es hes (by omega)) (by omega)
    · exact .ok fun hn => by cases hn

/-- The page entries after the loop: those of the copied slots are those 32 slots below. -/
theorem shadowRounds_leaf {n i : ℕ} (h : s.Sound i) (hi : i + n ≤ 32) :
    Returns (shadowRounds n i s) fun err s' => err = none → ∀ slot p j, p.length = 2 →
      s'.leaf (slot :: p) j =
        s.leaf ((if 288 + i ≤ slot ∧ slot < 288 + i + n then slot - 32 else slot) :: p) j := by
  induction n generalizing i s with
  | zero =>
    refine .ok fun _ slot p j _ => ?_
    rw [if_neg (by omega)]
  | succ n ih =>
    refine (shadowRound_returns h (by omega)).bind ?_
    rintro err s₁ (⟨rfl, t, hfilled, rfl⟩ | ⟨rfl, -⟩)
    · refine (ih (hfilled.copy_sound (by omega)) (by omega)).mono fun err s₂ hrest hn => ?_
      intro slot p j hp
      rw [hrest hn slot p j hp, hfilled.copy_leaf (by omega) (by simp [hp]), through]
      congr 2
      split_ifs <;> omega
    · exact .ok fun hn => by cases hn

end PageTables

end TomatOS.Virt
