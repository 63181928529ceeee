import TomatOS.Foundation.Transition
import TomatOS.Virt.PageTable

/-! The shape of the page tables and what each function does to it. Down to the
lowest level the tables are separate, except that the top level slots of the shadow
lead to the tables of the slots 16TB below. Going down to the table of an address
may link new tables but changes no page entry; then each function writes the entry
of one page at a time. -/

namespace TomatOS.Virt

open Foundation Foundation.PageTree Foundation.Transition

/-- The slot a top level slot shares its table with, after `k` rounds of the shadow
loop. -/
def shadowOf (k slot : ℕ) : ℕ := if 288 ≤ slot ∧ slot < 288 + k then slot - 32 else slot

def path (virt : ℕ) : List ℕ := [pml4Index virt, pml3Index virt, pml2Index virt]

namespace PageTables

def resolve (s : PageTables) (p : List ℕ) : Option ℕ :=
  PageTree.resolve Entry.link s.mem s.cr3 p

def leaf (s : PageTables) (p : List ℕ) (i : ℕ) : Option Entry :=
  PageTree.leaf Entry.link s.mem s.cr3 p i

theorem walk_eq (s : PageTables) (virt : ℕ) : s.walk virt = s.leaf (path virt) (pml1Index virt) :=
  rfl

theorem leaf_of_table {s : PageTables} {p : List ℕ} {table : ℕ}
    (hr : s.resolve p = some table) (i : ℕ) :
    s.leaf p i = if (s.mem table i).present then some (s.mem table i) else none := by
  rw [PageTables.leaf, leaf_of_resolve hr, Entry.link]
  cases (s.mem table i).present <;> rfl

/-- The tables are linked as described, and the slots that are shared are there. -/
structure Sound (k : ℕ) (s : PageTables) : Prop where
  linked : Linked 3 Entry.link (shadowOf k) (· ∈ s.tables) s.mem s.cr3
  top : ∀ slot, 256 ≤ slot → slot < 256 + k → s.resolve [slot] ≠ none

/-- New tables at most: every table stays in its place and no page entry changes. -/
structure Extends (k : ℕ) (s s' : PageTables) : Prop where
  sound : s'.Sound k
  mono : ∀ p t, p.length ≤ 3 → s.resolve p = some t → s'.resolve p = some t
  leaf : ∀ p i, p.length = 3 → s'.leaf p i = s.leaf p i

variable {k : ℕ} {s s' s'' : PageTables}

/-- Steps that touch neither memory nor the list of tables. -/
theorem Sound.extends_of_eq (h : s.Sound k) (hm : s'.mem = s.mem) (hc : s'.cr3 = s.cr3)
    (ht : s'.tables = s.tables) : Extends k s s' := by
  have hres : s'.resolve = s.resolve := by
    funext p
    rw [resolve, resolve, hm, hc]
  have hleaf : s'.leaf = s.leaf := by
    funext p i
    rw [PageTables.leaf, PageTables.leaf, hm, hc]
  refine ⟨⟨?_, ?_⟩, fun p t _ hp => by rw [hres, hp], fun p i _ => by rw [hleaf]⟩
  · rw [hm, hc, ht]
    exact h.linked
  · rw [hres]
    exact h.top

/-- The answers still to come do not matter to the tables. -/
theorem Sound.withAnswers (h : s.Sound k) (answers : List (Option ℕ)) :
    Extends k s { s with answers := answers } := h.extends_of_eq rfl rfl rfl

/-- Nor does a page that is handed out. -/
theorem Sound.withPage (h : s.Sound k) (page : ℕ) (answers : List (Option ℕ)) :
    Extends k s { s with answers := answers, pages := page :: s.pages } :=
  h.extends_of_eq rfl rfl rfl

theorem Extends.refl (h : s.Sound k) : Extends k s s := h.extends_of_eq rfl rfl rfl

theorem Extends.trans (h : Extends k s s') (h' : Extends k s' s'') : Extends k s s'' :=
  ⟨h'.sound, fun p t hp hr => h'.mono p t hp (h.mono p t hp hr),
    fun p i hp => (h'.leaf p i hp).trans (h.leaf p i hp)⟩

theorem physAlloc_cases (s : PageTables) :
    (s.physAlloc = .error .unanswered ∧ s.answers = []) ∨
    (∃ answers, s.physAlloc = .ok (none, { s with answers := answers }) ∧
      s.answers.length ≤ answers.length + 1) ∨
    ∃ page answers, s.physAlloc = .ok (some page,
        { s with answers := answers, pages := page :: s.pages }) ∧
      s.answers.length ≤ answers.length + 1 ∧
      page < frameSize ∧ page ∉ s.tables ∧ page ∉ s.pages := by
  rw [physAlloc]
  rcases s.answers with _ | ⟨_ | page, answers⟩
  · exact Or.inl ⟨rfl, rfl⟩
  · exact Or.inr (Or.inl ⟨answers, rfl, le_rfl⟩)
  · by_cases hp : page < frameSize ∧ page ∉ s.tables ∧ page ∉ s.pages
    · exact Or.inr (Or.inr ⟨page, answers, by simp only [if_pos hp], le_rfl, hp⟩)
    · exact Or.inr (Or.inl ⟨answers, by simp only [if_neg hp], le_rfl⟩)

/-- What `phys_alloc` returns: nothing, or a page that is not in use. -/
inductive Allocated (s : PageTables) : Option ℕ → PageTables → Prop
  | refused (answers : List (Option ℕ)) : Allocated s none { s with answers := answers }
  | granted (page : ℕ) (answers : List (Option ℕ)) : page < frameSize → page ∉ s.tables →
      page ∉ s.pages →
      Allocated s (some page) { s with answers := answers, pages := page :: s.pages }

theorem physAlloc_allocated (s : PageTables) : Returns s.physAlloc s.Allocated := by
  rcases s.physAlloc_cases with ⟨hf, -⟩ | ⟨answers, hf, -⟩ | ⟨page, answers, hf, -, hp, ht, hout⟩
  · rw [hf]
    exact .error _
  · rw [hf]
    exact .ok (.refused answers)
  · rw [hf]
    exact .ok (.granted page answers hp ht hout)

/-! ### Going down -/

/-- A slot of the root that is not there is shared with no other. -/
theorem Sound.unshared (h : s.Sound k) {slot : ℕ} (hk : k ≤ 32) (hfree : s.resolve [slot] = none)
    {j : ℕ} (hj : shadowOf k j = shadowOf k slot) : j = slot := by
  have hlow : ¬ (256 ≤ slot ∧ slot < 256 + k) := fun hs => h.top slot hs.1 hs.2 hfree
  have hhigh : ¬ (288 ≤ slot ∧ slot < 288 + k) := by
    intro hs
    have hcanon : canon (shadowOf k) [slot] = canon (shadowOf k) [slot - 32] := by
      simp only [canon, shadowOf, List.cons.injEq, and_true]
      split_ifs <;> omega
    apply h.top (slot - 32) (by omega) (by omega)
    rw [← hfree]
    exact (h.linked.resolve_eq_of_canon hcanon).symm
  simp only [shadowOf, if_neg hhigh] at hj
  split_ifs at hj <;> omega

/-- Linking a page that is not in use. -/
theorem Sound.linkAt (h : s.Sound k) (hk : k ≤ 32) {p : List ℕ} (hp : p.length < 3)
    {table : ℕ} (hr : s.resolve p = some table) {index : ℕ}
    (hfree : (s.mem table index).present = false) {page : ℕ} (hpage : page < frameSize)
    (hunused : page ∉ s.tables) {e : Entry} (hpres : e.present = true)
    (hframe : e.frame = page % frameSize) :
    LinkAt 3 Entry.link (shadowOf k) (· ∈ s.tables) s.mem s.cr3 .zero page table p index e := by
  have hlink : Entry.link (s.mem table index) = none := by simp [Entry.link, hfree]
  refine ⟨h.linked, hp, hr, hlink, ?_, hunused, rfl, ?_⟩
  · rintro rfl j hj
    refine h.unshared hk ?_ hj
    obtain rfl := Option.some.inj hr
    rw [resolve, resolve_cons, hlink]
    rfl
  · rw [Entry.link, hpres, if_pos rfl, hframe, Nat.mod_eq_of_lt hpage]

theorem Sound.linkTable (h : s.Sound k) (hk : k ≤ 32) {p : List ℕ} (hp : p.length < 3)
    {table : ℕ} (hr : s.resolve p = some table) {index : ℕ}
    (hfree : (s.mem table index).present = false) {page : ℕ} (hpage : page < frameSize)
    (hunused : page ∉ s.tables) {e : Entry} (hpres : e.present = true)
    (hframe : e.frame = page % frameSize) :
    Extends k s (s.linkTable page table index e) ∧
      (s.linkTable page table index e).resolve (p ++ [index]) = some page := by
  have hat := h.linkAt hk hp hr hfree hpage hunused hpres hframe
  refine ⟨⟨⟨?_, fun slot h1 h2 hn => ?_⟩, fun q t hq ht => hat.resolve_mono hq ht,
    fun q i hq => hat.leaf_linkNew hq i⟩, hat.resolve_new⟩
  · have hl := hat.linked_linkNew
    simpa only [PageTables.linkTable, List.mem_cons] using hl
  · rcases ht : s.resolve [slot] with _ | t
    · exact h.top slot h1 h2 ht
    · have hmono := hat.resolve_mono (q := [slot]) (by simp) ht
      exact absurd (hmono.symm.trans hn) (by simp)

theorem getNextLevel_spec (h : s.Sound k) (hk : k ≤ 32) {p : List ℕ} (hp : p.length < 3)
    {table : ℕ} (hr : s.resolve p = some table) (index : ℕ) :
    (s.getNextLevel table index = .error .unanswered ∧ s.answers = []) ∨
    ∃ next s', s.getNextLevel table index = .ok (next, s') ∧ Extends k s s' ∧
      s.answers.length ≤ s'.answers.length + 1 ∧ s'.cr3 = s.cr3 ∧
      ∀ t, next = some t → s'.resolve (p ++ [index]) = some t := by
  rw [getNextLevel]
  cases hpres : (s.mem table index).present with
  | true =>
    refine Or.inr ⟨some (s.mem table index).frame, s, rfl, .refl h, by omega, rfl, fun t ht => ?_⟩
    obtain rfl := Option.some.inj ht
    have hfound : PageTree.resolve Entry.link s.mem s.cr3 p = some table := hr
    rw [resolve, resolve_snoc, hfound]
    simp [Entry.link, hpres]
  | false =>
    simp only [bind, Except.bind, pure, Except.pure, Bool.false_eq_true, if_false]
    rcases s.physAlloc_cases with ⟨hf, ha⟩ | ⟨answers, hf, ha⟩ |
      ⟨page, answers, hf, ha, hpage, hunused, -⟩
    · exact Or.inl ⟨by rw [hf], ha⟩
    · exact Or.inr ⟨none, { s with answers := answers }, by rw [hf], h.withAnswers answers,
        ha, rfl, fun t ht => by cases ht⟩
    · right
      have hext := h.withPage page answers
      obtain ⟨hlink, hnew⟩ := hext.sound.linkTable hk hp (hext.mono p table (by omega) hr) hpres
        hpage hunused (e := ⟨true, true, (s.mem table index).noExecute, page % frameSize⟩) rfl rfl
      refine ⟨_, _, by rw [hf], hext.trans hlink, ha, rfl, fun t ht => ?_⟩
      obtain rfl := Option.some.inj ht
      simp only [Nat.mod_eq_of_lt hpage] at hnew ⊢
      exact hnew

/-- The table of the lowest level for an address. -/
theorem getPml1_spec (h : s.Sound k) (hk : k ≤ 32) (virt : ℕ) :
    (s.getPml1 virt = .error .unanswered ∧ s.answers.length < 3) ∨
    ∃ pml1 s', s.getPml1 virt = .ok (pml1, s') ∧ Extends k s s' ∧
      ∀ t, pml1 = some t → s'.resolve (path virt) = some t := by
  rw [getPml1]
  simp only [bind, Except.bind, pure, Except.pure]
  rcases getNextLevel_spec h hk (p := []) (by simp) rfl (pml4Index virt) with
    ⟨hf, ha⟩ | ⟨pml3, s₁, hf, h₁, ha₁, -, hpml3⟩
  · exact Or.inl ⟨by rw [hf], by simp [ha]⟩
  simp only [hf]
  rcases pml3 with _ | pml3
  · exact Or.inr ⟨none, s₁, rfl, h₁, fun t ht => by cases ht⟩
  rcases getNextLevel_spec h₁.sound hk (by simp) (hpml3 pml3 rfl) (pml3Index virt) with
    ⟨hf, ha⟩ | ⟨pml2, s₂, hf, h₂, ha₂, -, hpml2⟩
  · rw [ha, List.length_nil] at ha₁
    exact Or.inl ⟨by simp only [hf], by omega⟩
  simp only [hf]
  rcases pml2 with _ | pml2
  · exact Or.inr ⟨none, s₂, rfl, h₁.trans h₂, fun t ht => by cases ht⟩
  rcases getNextLevel_spec h₂.sound hk (by simp) (hpml2 pml2 rfl) (pml2Index virt) with
    ⟨hf, ha⟩ | ⟨pml1, s₃, hf, h₃, -, -, hpml1⟩
  · rw [ha, List.length_nil] at ha₂
    exact Or.inl ⟨by simp only [hf], by omega⟩
  exact Or.inr ⟨pml1, s₃, by simp only [hf], (h₁.trans h₂).trans h₃, hpml1⟩

/-! ### Writing page entries -/

/-- Entry `i` of the table at `p` is the page entry of the address. -/
def IsEntry (k virt : ℕ) (p : List ℕ) (i : ℕ) : Prop :=
  canon (shadowOf k) p = canon (shadowOf k) (path virt) ∧ i = pml1Index virt

instance (k virt : ℕ) (p : List ℕ) (i : ℕ) : Decidable (IsEntry k virt p i) :=
  inferInstanceAs (Decidable (_ ∧ _))

/-- The page entry of the address becomes `e` and no other changes. -/
structure Writes (k virt : ℕ) (e : Entry) (s s' : PageTables) : Prop where
  sound : s'.Sound k
  leaf : ∀ p i, p.length = 3 → s'.leaf p i =
    if IsEntry k virt p i then (if e.present then some e else none) else s.leaf p i

/-- The page entries that change are those of addresses in `A`. -/
structure Within (k : ℕ) (A : Set ℕ) (s s' : PageTables) : Prop where
  sound : s'.Sound k
  leaf : ∀ p i, p.length = 3 → (∀ virt ∈ A, ¬ IsEntry k virt p i) → s'.leaf p i = s.leaf p i

variable {A B : Set ℕ}

theorem Extends.within (h : Extends k s s') : Within k A s s' :=
  ⟨h.sound, fun p i hp _ => h.leaf p i hp⟩

theorem Writes.within {virt : ℕ} {e : Entry} (h : Writes k virt e s s') (hv : virt ∈ A) :
    Within k A s s' :=
  ⟨h.sound, fun p i hp hA => by rw [h.leaf p i hp, if_neg (hA virt hv)]⟩

theorem Within.trans (h : Within k A s s') (h' : Within k A s' s'') : Within k A s s'' :=
  ⟨h'.sound, fun p i hp hA => (h'.leaf p i hp hA).trans (h.leaf p i hp hA)⟩

theorem Extends.trans_writes {virt : ℕ} {e : Entry} (h : Extends k s s')
    (h' : Writes k virt e s' s'') : Writes k virt e s s'' :=
  ⟨h'.sound, fun p i hp => by rw [h'.leaf p i hp, h.leaf p i hp]⟩

theorem Sound.setEntry (h : s.Sound k) {virt table : ℕ} (hr : s.resolve (path virt) = some table)
    (e : Entry) : Writes k virt e s (s.setEntry table (pml1Index virt) e) := by
  have hlen : (path virt).length = 3 := rfl
  refine ⟨⟨h.linked.writeBottom hlen (by omega) hr _ e, fun slot h1 h2 => ?_⟩, fun p i hp => ?_⟩
  · have hsame := h.linked.resolve_write hlen hr (pml1Index virt) e (q := [slot]) (by simp)
    rw [resolve, PageTables.setEntry, hsame]
    exact h.top slot h1 h2
  · have hleaf := h.linked.leaf_write hlen hr (pml1Index virt) e hp i
    rw [PageTables.leaf, PageTables.setEntry, hleaf]
    cases hpres : e.present <;> simp [IsEntry, Entry.link, hpres, PageTables.leaf]

theorem Extends.setEntry_within {virt table : ℕ} (h : Extends k s s')
    (hr : s'.resolve (path virt) = some table) (hv : virt ∈ A) (e : Entry) :
    Within k A s (s'.setEntry table (pml1Index virt) e) :=
  (h.trans_writes (h.sound.setEntry hr e)).within hv

/-- The rest of a loop after a first change. -/
theorem Within.andThen {β : Type} {r : Result (β × PageTables)} (h : Within k A s s')
    (hr : s'.Sound k → Returns r fun _ s'' => Within k A s' s'') :
    Returns r fun _ s'' => Within k A s s'' :=
  (hr h.sound).mono fun _ _ h' => h.trans h'

end PageTables

end TomatOS.Virt
