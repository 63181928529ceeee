import TomatOS.Virt.PageFault

/-! How far the way down to the table of an address gets. It needs a page for every
table that is missing, so it arrives exactly if that many requests in a row are
granted. Whether it does or not, the pages it takes are linked, and among the tables
of the lowest level at most the one it goes to is new. -/

namespace TomatOS.Virt

open Foundation Foundation.PageTree Foundation.Transition

/-- The next `n` answers are different frames that are not in use. -/
def Grants (used : Set ℕ) : ℕ → List (Option ℕ) → Prop
  | 0, _ => True
  | n + 1, some frame :: answers =>
    frame < frameSize ∧ frame ∉ used ∧ Grants (insert frame used) n answers
  | _ + 1, _ => False

theorem Grants.mono {used : Set ℕ} {m n : ℕ} {answers : List (Option ℕ)} (hmn : m ≤ n)
    (h : Grants used n answers) : Grants used m answers := by
  induction m generalizing used n answers with
  | zero => trivial
  | succ m ih =>
    obtain ⟨n, rfl⟩ : ∃ l, n = l + 1 := ⟨n - 1, by omega⟩
    rcases answers with _ | ⟨_ | frame, answers⟩
    · exact h
    · exact h
    · obtain ⟨hlt, hfree, hrest⟩ := h
      exact ⟨hlt, hfree, ih (by omega) hrest⟩

theorem Grants.length_le {used : Set ℕ} {n : ℕ} {answers : List (Option ℕ)}
    (h : Grants used n answers) : n ≤ answers.length := by
  induction n generalizing used answers with
  | zero => exact Nat.zero_le _
  | succ n ih =>
    rcases answers with _ | ⟨_ | frame, answers⟩
    · exact h.elim
    · exact h.elim
    · exact Nat.succ_le_succ (ih h.2.2)

/-- Only the next `n` answers matter. -/
theorem Grants.take_append {used : Set ℕ} {n : ℕ} {answers : List (Option ℕ)}
    (h : Grants used n answers) (rest : List (Option ℕ)) :
    Grants used n (answers.take n ++ rest) := by
  induction n generalizing used answers with
  | zero => trivial
  | succ n ih =>
    rcases answers with _ | ⟨_ | frame, answers⟩
    · exact h.elim
    · exact h.elim
    · exact ⟨h.1, h.2.1, ih h.2.2⟩

namespace PageTables

/-- The frames that `phys_alloc` does not hand out. -/
def inUse (s : PageTables) : Set ℕ := { frame | frame ∈ s.tables ∨ frame ∈ s.pages }

/-- The tables missing from `p` on, down along the indices. -/
def missingBelow (s : PageTables) : List ℕ → List ℕ → ℕ
  | _, [] => 0
  | p, i :: indices =>
    (if s.resolve (p ++ [i]) = none then 1 else 0) + s.missingBelow (p ++ [i]) indices

/-- The tables missing on the way to the page entry of an address. -/
def missing (s : PageTables) (virt : ℕ) : ℕ := s.missingBelow [] (path virt)

/-- The levels above the leaf as one loop. -/
def descend (s : PageTables) (table : ℕ) : List ℕ → Result (Option ℕ × PageTables)
  | [] => .ok (some table, s)
  | i :: indices => do
    let (next, s) ← s.getNextLevel table i
    match next with
    | none => return (none, s)
    | some next => s.descend next indices

theorem getPml1_eq_descend (s : PageTables) (virt : ℕ) :
    s.getPml1 virt = s.descend s.cr3 (path virt) := by
  rw [getPml1, path, descend]
  refine congrArg _ (funext fun r => ?_)
  rcases r with ⟨_ | pml3, s₁⟩
  · rfl
  dsimp only
  rw [descend]
  refine congrArg _ (funext fun r => ?_)
  rcases r with ⟨_ | pml2, s₂⟩
  · rfl
  dsimp only
  rw [descend]
  symm
  rcases s₂.getNextLevel pml2 (pml2Index virt) with f | ⟨_ | pml1, s₃⟩
  · rfl
  · rfl
  · rfl

variable {k : ℕ} {s s' s'' : PageTables}

/-! ### Requests -/

/-- A request is granted exactly if the next answer is a frame that is not in use. -/
theorem physAlloc_granted (s : PageTables) :
    (s.physAlloc = .error .unanswered ∧ s.answers = []) ∨
    (∃ answers, s.physAlloc = .ok (none, { s with answers := answers }) ∧
      s.answers.drop 1 = answers ∧ ∀ n, ¬ Grants s.inUse (n + 1) s.answers) ∨
    ∃ page answers, s.physAlloc = .ok (some page,
        { s with answers := answers, pages := page :: s.pages }) ∧
      s.answers.drop 1 = answers ∧ page < frameSize ∧ page ∉ s.tables ∧ page ∉ s.pages ∧
      ∀ n, Grants s.inUse (n + 1) s.answers ↔ Grants (insert page s.inUse) n answers := by
  rw [physAlloc]
  rcases s.answers with _ | ⟨_ | page, answers⟩
  · exact .inl ⟨rfl, rfl⟩
  · exact .inr (.inl ⟨answers, rfl, rfl, fun n hn => hn⟩)
  · by_cases hp : page < frameSize ∧ page ∉ s.tables ∧ page ∉ s.pages
    · have hfree : page ∉ s.inUse := by
        rintro (ht | hpages)
        · exact hp.2.1 ht
        · exact hp.2.2 hpages
      refine .inr (.inr ⟨page, answers, by simp only [if_pos hp], rfl, hp.1, hp.2.1, hp.2.2,
        fun n => ?_⟩)
      exact ⟨fun hn => hn.2.2, fun hn => ⟨hp.1, hfree, hn⟩⟩
    · refine .inr (.inl ⟨answers, by simp only [if_neg hp], rfl, fun n hn => hp ?_⟩)
      exact ⟨hn.1, fun ht => hn.2.1 (.inl ht), fun hpages => hn.2.1 (.inr hpages)⟩

/-- A page that is handed out is in use, and stays so when it becomes a table. -/
theorem inUse_page (s : PageTables) (page : ℕ) (answers : List (Option ℕ)) :
    inUse { s with answers := answers, pages := page :: s.pages } = insert page s.inUse := by
  ext frame
  simp only [inUse, Set.mem_ofPred_eq, List.mem_cons, Set.mem_insert_iff]
  tauto

theorem inUse_linkTable (s : PageTables) (page table index : ℕ) (e : Entry)
    (answers : List (Option ℕ)) :
    (PageTables.linkTable { s with answers := answers, pages := page :: s.pages } page table index
      e).inUse = insert page s.inUse := by
  ext frame
  simp only [inUse, linkTable, List.erase_cons_head, Set.mem_ofPred_eq, List.mem_cons,
    Set.mem_insert_iff, or_assoc]

/-! ### Linking one table -/

theorem missingBelow_congr {p indices : List ℕ}
    (h : ∀ q, q ≠ [] → q.length ≤ indices.length → s'.resolve (p ++ q) = s.resolve (p ++ q)) :
    s'.missingBelow p indices = s.missingBelow p indices := by
  induction indices generalizing p with
  | nil => rfl
  | cons i indices ih =>
    rw [missingBelow, missingBelow, h [i] (by simp) (by simp)]
    congr 1
    apply ih
    intro q _ hq
    have hq' := h (i :: q) (by simp) (by simpa using hq)
    rwa [List.append_assoc, List.singleton_append]

/-- What the way down along `q` does to the tables. -/
structure Descended (k : ℕ) (q : List ℕ) (s s' : PageTables) : Prop where
  ext : Extends k s s'
  pages : s'.pages = s.pages
  other : ∀ r, r.length = 3 → canon (shadowOf k) r ≠ canon (shadowOf k) q →
    s'.resolve r = s.resolve r
  linked : ∀ frame ∈ s'.tables, frame ∉ s.tables →
    ∃ r, r.length ≤ 3 ∧ s'.resolve r = some frame

theorem Descended.refl (h : s.Sound k) (q : List ℕ) : Descended k q s s :=
  ⟨.refl h, rfl, fun _ _ _ => rfl, fun _ hin hout => absurd hin hout⟩

theorem Descended.trans {q : List ℕ} (h : Descended k q s s') (h' : Descended k q s' s'') :
    Descended k q s s'' := by
  refine ⟨h.ext.trans h'.ext, h'.pages.trans h.pages,
    fun r hr hne => (h'.other r hr hne).trans (h.other r hr hne), fun frame hin hout => ?_⟩
  by_cases hmid : frame ∈ s'.tables
  · obtain ⟨r, hr, hres⟩ := h.linked frame hmid hout
    exact ⟨r, hr, h'.ext.mono r frame hr hres⟩
  · exact h'.linked frame hin hmid

/-- One table is linked: nothing is below it yet. -/
theorem Sound.link_descended (h : s.Sound k) (hk : k ≤ 32) {p indices : List ℕ} {index : ℕ}
    (hlen : p.length + (index :: indices).length = 3) {table : ℕ} (hr : s.resolve p = some table)
    (hfree : (s.mem table index).present = false) {page : ℕ} (hpage : page < frameSize)
    (hunused : page ∉ s.tables) (answers : List (Option ℕ)) {e : Entry}
    (hpres : e.present = true) (hframe : e.frame = page % frameSize) (s' : PageTables)
    (hs' : s' = PageTables.linkTable { s with answers := answers, pages := page :: s.pages } page
      table index e) :
    Descended k (p ++ index :: indices) s s' ∧ s'.resolve (p ++ [index]) = some page ∧
      s'.missingBelow (p ++ [index]) indices = s.missingBelow (p ++ [index]) indices := by
  subst hs'
  rw [List.length_cons] at hlen
  have hsame := h.withPage page answers
  have hat := hsame.sound.linkAt hk (by omega) hr hfree hpage hunused hpres hframe
  obtain ⟨hlink, hnew⟩ := hsame.sound.linkTable hk (by omega) hr hfree hpage hunused hpres hframe
  have hother : ∀ q, q.length ≤ 3 → canon (shadowOf k) q ≠ canon (shadowOf k) (p ++ [index]) →
      (PageTables.linkTable { s with answers := answers, pages := page :: s.pages } page table index
        e).resolve q = s.resolve q := by
    intro q hq hne
    have hres := hat.resolve_linkNew hq
    rw [if_neg hne] at hres
    exact hres
  refine ⟨⟨hsame.trans hlink, List.erase_cons_head page s.pages, fun r hr' hne => ?_,
    fun frame hin hout => ?_⟩, hnew, missingBelow_congr fun q hq hql => ?_⟩
  · apply hother r (le_of_eq hr')
    intro hc
    -- a table of the lowest level is the one the way goes to
    have hlast : (p ++ [index]).length = 3 := by
      have hc' := congrArg List.length hc
      rw [canon_length, canon_length] at hc'
      omega
    have hnil : indices = [] := by
      rw [List.length_append, List.length_singleton] at hlast
      exact List.eq_nil_of_length_eq_zero (by omega)
    exact hne (hnil ▸ hc)
  · rcases List.mem_cons.mp hin with rfl | hold
    · refine ⟨p ++ [index], ?_, hnew⟩
      rw [List.length_append, List.length_singleton]
      omega
    · exact absurd hold hout
  · have hpos := List.length_pos_iff.mpr hq
    refine hother _ ?_ fun hc => ?_
    · simp only [List.length_append, List.length_singleton]
      omega
    · have hc' := congrArg List.length hc
      simp only [canon_length, List.length_append, List.length_singleton] at hc'
      omega

/-! ### The whole way -/

theorem link_of_resolve {p : List ℕ} {table : ℕ} (hr : s.resolve p = some table) (i : ℕ) :
    (s.mem table i).link = s.resolve (p ++ [i]) := by
  have hr' : PageTree.resolve Entry.link s.mem s.cr3 p = some table := hr
  rw [resolve, resolve_snoc, hr']
  rfl

theorem not_present_of_resolve {p : List ℕ} {table i : ℕ} (hr : s.resolve p = some table)
    (hn : s.resolve (p ++ [i]) = none) : (s.mem table i).present = false := by
  rw [← link_of_resolve hr, Entry.link] at hn
  split_ifs at hn with hpres
  exact Bool.not_eq_true _ ▸ hpres

/-- The first table that is missing is asked for, and that is all if it is refused. -/
theorem descend_refused {p indices : List ℕ} {table : ℕ} (hr : s.resolve p = some table)
    (hn : s.resolve (p ++ indices) = none) :
    (s.answers = [] → s.descend table indices = .error .unanswered) ∧
    ∀ answers, s.answers = none :: answers →
      s.descend table indices = .ok (none, { s with answers := answers }) := by
  induction indices generalizing p table with
  | nil =>
    rw [List.append_nil, hr] at hn
    cases hn
  | cons i indices ih =>
    rw [descend]
    rcases ht : s.resolve (p ++ [i]) with _ | t
    · rw [getNextLevel, if_neg (by simp [not_present_of_resolve hr ht]), physAlloc]
      constructor
      · intro hans
        rw [hans]
        rfl
      · intro answers hans
        rw [hans]
        rfl
    · rw [getNextLevel_of_link ((link_of_resolve hr i).trans ht)]
      exact ih ht (by simpa using hn)

/-- The way down arrives exactly if there is a page for every table that is missing. -/
theorem descend_spec (h : s.Sound k) (hk : k ≤ 32) {p indices : List ℕ}
    (hlen : p.length + indices.length = 3) {table : ℕ} (hr : s.resolve p = some table)
    (ha : s.missingBelow p indices ≤ s.answers.length) :
    (∃ t s', s.descend table indices = .ok (some t, s') ∧ Descended k (p ++ indices) s s' ∧
      s'.resolve (p ++ indices) = some t ∧
      s'.answers = s.answers.drop (s.missingBelow p indices) ∧
      ∀ n, Grants s.inUse (s.missingBelow p indices + n) s.answers ↔
        Grants s'.inUse n s'.answers) ∨
    ∃ s', s.descend table indices = .ok (none, s') ∧ Descended k (p ++ indices) s s' ∧
      ¬ Grants s.inUse (s.missingBelow p indices) s.answers := by
  induction indices generalizing s p table with
  | nil =>
    refine .inl ⟨table, s, rfl, .refl h _, by rw [List.append_nil, hr], ?_, fun n => ?_⟩
    · rw [missingBelow, List.drop_zero]
    · rw [missingBelow, Nat.zero_add]
  | cons i indices ih =>
    have hlen' : (p ++ [i]).length + indices.length = 3 := by
      simp only [List.length_append, List.length_cons, List.length_nil] at hlen ⊢
      omega
    have happ : p ++ [i] ++ indices = p ++ i :: indices := by simp
    rcases ht : s.resolve (p ++ [i]) with _ | t
    · rw [missingBelow, if_pos ht] at ha ⊢
      have hfree := not_present_of_resolve hr ht
      rw [descend, getNextLevel, if_neg (by simp [hfree])]
      simp only [bind, Except.bind, pure, Except.pure]
      rcases s.physAlloc_granted with ⟨-, hnone⟩ | ⟨answers, hf, -, hnot⟩ |
        ⟨page, answers, hf, hdrop, hpage, hunused, -, hiff⟩
      · rw [hnone, List.length_nil] at ha
        omega
      · refine .inr ⟨{ s with answers := answers }, by rw [hf], ?_, ?_⟩
        · exact ⟨h.withAnswers answers, rfl, fun _ _ _ => rfl,
            fun _ hin hout => absurd hin hout⟩
        · rw [Nat.add_comm]
          exact hnot _
      · have hmod : page % frameSize = page := Nat.mod_eq_of_lt hpage
        obtain ⟨hdesc, hnew, hmiss⟩ := h.link_descended hk hlen hr hfree hpage hunused answers
          (e := ⟨true, true, (s.mem table i).noExecute, page % frameSize⟩) rfl rfl _ rfl
        have huse := s.inUse_linkTable page table i
          ⟨true, true, (s.mem table i).noExecute, page % frameSize⟩ answers
        simp only [hf]
        generalize hs₁ : PageTables.linkTable { s with answers := answers, pages := page :: s.pages }
          page table i ⟨true, true, (s.mem table i).noExecute, page % frameSize⟩ = s₁ at *
        have hans : s₁.answers = answers := by rw [← hs₁]; rfl
        have hlen₁ := congrArg List.length hdrop
        rw [List.length_drop] at hlen₁
        have hrest := ih hdesc.ext.sound hlen' hnew (by rw [hmiss, hans]; omega)
        rw [happ, hmiss, huse, hans] at hrest
        rw [hmod]
        rcases hrest with ⟨t, s₂, hok, hd, hres, hcount, hgr⟩ | ⟨s₂, hok, hd, hgr⟩
        · refine .inl ⟨t, s₂, hok, hdesc.trans hd, hres, ?_, fun n => ?_⟩
          · rw [hcount, ← hdrop, List.drop_drop]
          rw [← hgr n, ← hiff, Nat.add_assoc, Nat.add_comm 1]
        · refine .inr ⟨s₂, hok, hdesc.trans hd, fun hall => hgr ?_⟩
          rw [Nat.add_comm] at hall
          exact (hiff _).mp hall
    · have hlink := (link_of_resolve hr i).trans ht
      rw [missingBelow, if_neg (by simp [ht]), Nat.zero_add] at ha ⊢
      have hrest := ih h hlen' ht ha
      rw [happ] at hrest
      rw [descend, getNextLevel_of_link hlink]
      exact hrest

theorem missing_le (s : PageTables) (virt : ℕ) : s.missing virt ≤ 3 := by
  simp only [missing, path, missingBelow]
  split_ifs <;> omega

/-- Where the table of an address is there, none is missing. -/
theorem missingBelow_of_resolve {p indices : List ℕ} (hr : s.resolve (p ++ indices) ≠ none) :
    s.missingBelow p indices = 0 := by
  induction indices generalizing p with
  | nil => rfl
  | cons i indices ih =>
    have happ : p ++ i :: indices = p ++ [i] ++ indices := by simp
    rw [happ] at hr
    have hnext : s.resolve (p ++ [i]) ≠ none := by
      intro hn
      rw [resolve] at hn
      apply hr
      rw [resolve, PageTree.resolve, List.foldlM_append, ← PageTree.resolve, hn]
      rfl
    rw [missingBelow, if_neg hnext, ih hr]

theorem getPml1_granted (h : s.Sound k) (hk : k ≤ 32) {virt : ℕ}
    (ha : s.missing virt ≤ s.answers.length) :
    (∃ t s', s.getPml1 virt = .ok (some t, s') ∧ Descended k (path virt) s s' ∧
      s'.resolve (path virt) = some t ∧ s'.answers = s.answers.drop (s.missing virt) ∧
      ∀ n, Grants s.inUse (s.missing virt + n) s.answers ↔ Grants s'.inUse n s'.answers) ∨
    ∃ s', s.getPml1 virt = .ok (none, s') ∧ Descended k (path virt) s s' ∧
      ¬ Grants s.inUse (s.missing virt) s.answers := by
  rw [getPml1_eq_descend]
  exact descend_spec h hk (p := []) rfl rfl ha

theorem getPml1_refused {virt : ℕ} (hn : s.resolve (path virt) = none) :
    (s.answers = [] → s.getPml1 virt = .error .unanswered) ∧
    ∀ answers, s.answers = none :: answers →
      s.getPml1 virt = .ok (none, { s with answers := answers }) := by
  rw [getPml1_eq_descend]
  exact descend_refused (p := []) rfl hn

end PageTables

end TomatOS.Virt
