import TomatOS.Virt.Descent
import TomatOS.Virt.Remap

/-! When `virt_alloc_range` and `virt_remap_range` come to an end. Their loops are
bounded, but a check of the clean-up that runs out of memory jumps back to the clean-up
itself. That happens for the page at which the loop has failed, and goes on for ever if
there is no memory for its tables any more. -/

namespace TomatOS.Virt

open Foundation Foundation.PageTree Foundation.Transition

/-- Given enough answers the call is over: it has returned or has stopped at its
assertion. -/
def Terminates {β : Type} (call : List (Option ℕ) → Result β) : Prop :=
  ∀ answer : ℕ → Option ℕ, ∃ n, ∀ m ≥ n, call ((List.range m).map answer) ≠ .error .unanswered

namespace PageTables

/-- The pages before `i` are not mapped and have page entries of their own. -/
structure Unmapped (s : PageTables) (virt i : ℕ) : Prop where
  free : ∀ j < i, s.walk (pageAt virt j) = none
  distinct : ∀ j < i, ∀ l < j, ¬ SameEntry (pageAt virt l) (pageAt virt j)

/-- Page `i` of the range comes after another one and is the first that needs its table of
the lowest level; the pages before it can be mapped, and there are frames for them. -/
structure NeedsTable (s : PageTables) (virt i : ℕ) : Prop where
  pos : 0 < i
  missing : s.resolve (path (pageAt virt i)) = none
  unshared : ∀ j < i, canon (shadowOf 32) (path (pageAt virt i)) ≠
    canon (shadowOf 32) (path (pageAt virt j))
  unmapped : s.Unmapped virt i
  frames : ∃ answers, Grants s.inUse (i + s.missing (pageAt virt 0)) answers

variable {s t t' : PageTables} {virt m : ℕ}

theorem Unmapped.zero (s : PageTables) (virt : ℕ) : s.Unmapped virt 0 := by
  constructor
  · intro j hj
    omega
  · intro j hj
    omega

theorem Unmapped.snoc (h : s.Unmapped virt m) (hfree : s.walk (pageAt virt m) = none)
    (hnew : ∀ l < m, ¬ SameEntry (pageAt virt l) (pageAt virt m)) : s.Unmapped virt (m + 1) := by
  constructor
  · intro j hj
    rcases Nat.lt_succ_iff_lt_or_eq.mp hj with hlt | rfl
    · exact h.free j hlt
    · exact hfree
  · intro j hj l hl
    rcases Nat.lt_succ_iff_lt_or_eq.mp hj with hlt | rfl
    · exact h.distinct j hlt l hl
    · exact hnew l hl

/-! ### The loop of `virt_alloc_range` -/

/-- The state `t` after the first `m` pages of the range have been mapped in `s`. -/
structure Grown (virt m : ℕ) (s t : PageTables) : Prop where
  sound : t.Sound 32
  start : m = 0 → t = s
  tables : ∀ p, p.length = 3 → ((t.resolve p).isSome ↔ (s.resolve p).isSome ∨
    ∃ j < m, canon (shadowOf 32) p = canon (shadowOf 32) (path (pageAt virt j)))
  entries : ∀ w, (t.walk w).isSome ↔ (s.walk w).isSome ∨ ∃ j < m, SameEntry (pageAt virt j) w
  unmapped : s.Unmapped virt m
  granted : 0 < m → ∀ n, Grants t.inUse n t.answers →
    Grants s.inUse (m + s.missing (pageAt virt 0) + n) s.answers

theorem Grown.refl (h : s.Sound 32) (virt : ℕ) : Grown virt 0 s s := by
  constructor
  case sound => exact h
  case start => exact fun _ => rfl
  case tables =>
    intro p _
    simp only [Nat.not_lt_zero, false_and, exists_const, or_false]
  case entries =>
    intro w
    simp only [Nat.not_lt_zero, false_and, exists_const, or_false]
  case unmapped => exact .zero s virt
  case granted =>
    intro hn
    omega

theorem Grown.snoc (hg : Grown virt m s t) {u : PageTables} (hext : Extends 32 t u)
    (hother : ∀ p, p.length = 3 →
      canon (shadowOf 32) p ≠ canon (shadowOf 32) (path (pageAt virt m)) →
      u.resolve p = t.resolve p)
    {pml1 : ℕ} (hr : u.resolve (path (pageAt virt m)) = some pml1) (hfree : t.walk (pageAt virt m) = none)
    (hgr : ∀ n, Grants u.inUse n u.answers →
      Grants t.inUse (1 + t.missing (pageAt virt m) + n) t.answers) {e : Entry}
    (he : e.present = true) :
    Grown virt (m + 1) s (u.setEntry pml1 (pml1Index (pageAt virt m)) e) := by
  have hw := hext.sound.setEntry hr e
  have hres : ∀ p, p.length ≤ 3 →
      (u.setEntry pml1 (pml1Index (pageAt virt m)) e).resolve p = u.resolve p :=
    fun p hp => hext.sound.linked.resolve_write rfl hr _ _ hp
  have hnew : s.walk (pageAt virt m) = none ∧ ∀ l < m, ¬ SameEntry (pageAt virt l) (pageAt virt m) := by
    have hnone : ¬ (t.walk (pageAt virt m)).isSome := by rw [hfree]; simp
    rw [hg.entries, not_or] at hnone
    exact ⟨Option.not_isSome_iff_eq_none.mp hnone.1, fun l hl hsame => hnone.2 ⟨l, hl, hsame⟩⟩
  constructor
  case sound => exact hw.sound
  case start =>
    intro hn
    omega
  case tables =>
    intro p hp
    rw [hres p (le_of_eq hp)]
    by_cases hc : canon (shadowOf 32) p = canon (shadowOf 32) (path (pageAt virt m))
    · have hsome : u.resolve p = some pml1 := (hext.sound.linked.resolve_eq_of_canon hc).trans hr
      exact iff_of_true (by rw [hsome]; rfl) (.inr ⟨m, Nat.lt_succ_self m, hc⟩)
    · rw [hother p hp hc, hg.tables p hp, Nat.exists_lt_succ_right, or_iff_left hc]
  case entries =>
    intro w
    rw [walk_eq, hw.leaf _ _ rfl, if_pos he]
    by_cases hsame : SameEntry (pageAt virt m) w
    · have hentry : IsEntry 32 (pageAt virt m) (path w) (pml1Index w) := hsame
      rw [if_pos hentry]
      exact iff_of_true rfl (.inr ⟨m, Nat.lt_succ_self m, hsame⟩)
    · have hentry : ¬ IsEntry 32 (pageAt virt m) (path w) (pml1Index w) := hsame
      rw [if_neg hentry, ← walk_eq, hext.walk_eq, hg.entries, Nat.exists_lt_succ_right,
        or_iff_left hsame]
  case unmapped => exact hg.unmapped.snoc hnew.1 hnew.2
  case granted =>
    intro _ n hn
    have ht := hgr n hn
    rcases Nat.eq_zero_or_pos m with rfl | hpos
    · rw [hg.start rfl, Nat.add_assoc] at ht
      exact ht.mono (by omega)
    · exact (hg.granted hpos (1 + n) (ht.mono (by omega))).mono (by omega)

/-- The page is mapped exactly if it was not and there are frames for it and its tables. -/
theorem allocPages_page (hg : Grown virt m s t)
    (ha : 1 + t.missing (pageAt virt m) ≤ t.answers.length) (n : ℕ) :
    (∃ t', allocPages virt (n + 1) m t = allocPages virt n (m + 1) t' ∧ Grown virt (m + 1) s t' ∧
      t'.answers = t.answers.drop (1 + t.missing (pageAt virt m)) ∧
      ∀ l, Grants t.inUse (1 + t.missing (pageAt virt m) + l) t.answers ↔
        Grants t'.inUse l t'.answers) ∨
    ((∃ err t', allocPages virt (n + 1) m t = .ok (some (err, m), t') ∧ Extends 32 t t') ∧
      ¬ (t.walk (pageAt virt m) = none ∧
        Grants t.inUse (1 + t.missing (pageAt virt m)) t.answers)) := by
  rw [allocPages]
  simp only [bind, Except.bind, pure, Except.pure]
  rcases t.physAlloc_granted with ⟨-, hnone⟩ | ⟨answers, hf, -, hnot⟩ |
    ⟨page, answers, hf, hdrop, -, -, -, hiff⟩
  · rw [hnone, List.length_nil] at ha
    omega
  · refine .inr ⟨⟨.outOfMemory, { t with answers := answers }, by rw [hf],
      hg.sound.withAnswers answers⟩, fun ⟨_, hgr⟩ => ?_⟩
    rw [Nat.add_comm] at hgr
    exact hnot _ hgr
  · simp only [hf]
    let t₁ : PageTables := { t with answers := answers, pages := page :: t.pages }
    have h₁ : Extends 32 t t₁ := hg.sound.withPage page answers
    have huse : t₁.inUse = insert page t.inUse := t.inUse_page page answers
    have hmiss : t₁.missing (pageAt virt m) = t.missing (pageAt virt m) := rfl
    have hlen : t₁.missing (pageAt virt m) ≤ t₁.answers.length := by
      show _ ≤ answers.length
      rw [hmiss, ← hdrop, List.length_drop]
      omega
    have hgr₁ : ∀ l, Grants t.inUse (1 + t.missing (pageAt virt m) + l) t.answers ↔
        Grants t₁.inUse (t₁.missing (pageAt virt m) + l) t₁.answers := by
      intro l
      rw [huse, hmiss, ← hiff, Nat.add_assoc, Nat.add_comm 1]
    rcases getPml1_granted h₁.sound le_rfl hlen with ⟨pml1, u, hpml1, hd, hr, hans, hgr⟩ |
      ⟨u, hpml1, hd, hgr⟩
    · have hext := h₁.trans hd.ext
      have hwalk : t.walk (pageAt virt m) =
          if (u.mem pml1 (pml1Index (pageAt virt m))).present then
            some (u.mem pml1 (pml1Index (pageAt virt m))) else none := by
        rw [← hext.walk_eq, walk_eq, leaf_of_table hr]
      simp only [t₁] at hpml1
      simp only [hpml1]
      split_ifs at hwalk ⊢ with hpres
      · refine .inr ⟨⟨.checkFailed, u, rfl, hext⟩, fun ⟨hnone, _⟩ => ?_⟩
        rw [hnone] at hwalk
        cases hwalk
      · refine .inl ⟨_, rfl, hg.snoc hext hd.other hr hwalk (fun l hl => ?_) rfl, ?_, fun l => ?_⟩
        · exact (hgr₁ l).mpr ((hgr l).mpr hl)
        · show u.answers = _
          rw [hans, ← List.drop_drop, hdrop]
          rfl
        · exact (hgr₁ l).trans (hgr l)
    · simp only [t₁] at hpml1
      simp only [hpml1]
      refine .inr ⟨⟨.outOfMemory, u, rfl, h₁.trans hd.ext⟩, fun ⟨_, hall⟩ => ?_⟩
      exact hgr ((hgr₁ 0).mp hall)

/-- With four answers for every page the loop comes to an end; it fails where the pages
before have been mapped. -/
theorem allocPages_answered {n : ℕ} (hg : Grown virt m s t) (ha : 4 * n ≤ t.answers.length) :
    ∃ failed t', allocPages virt n m t = .ok (failed, t') ∧ ∀ err i, failed = some (err, i) →
      i < m + n ∧ ∃ u, Grown virt i s u ∧ Extends 32 u t' := by
  induction n generalizing m t with
  | zero => exact ⟨none, t, rfl, fun _ _ hn => by cases hn⟩
  | succ n ih =>
    have hle := t.missing_le (pageAt virt m)
    rcases allocPages_page hg (by omega) n with ⟨t', hf, hg', hans, -⟩ | ⟨⟨err, t', hf, hext⟩, -⟩
    · have hlen : 4 * n ≤ t'.answers.length := by
        rw [hans, List.length_drop]
        omega
      obtain ⟨failed, t'', hf', hfail⟩ := ih hg' hlen
      refine ⟨failed, t'', hf.trans hf', fun err i hi => ?_⟩
      obtain ⟨hlt, hu⟩ := hfail err i hi
      exact ⟨by omega, hu⟩
    · refine ⟨some (err, m), t', hf, fun err' i hi => ?_⟩
      cases hi
      exact ⟨by omega, t, hg, hext⟩

/-! ### The clean-up -/

/-- Where the tables of the page are there, a pass needs no memory. -/
theorem cleanupPass_answered (h : s.Sound 32) {i : ℕ}
    (hr : s.resolve (path (pageAt virt i)) ≠ none) (n : ℕ) :
    cleanupPass virt i n s = .error .assertion ∨ ∃ s', cleanupPass virt i n s = .ok (none, s') := by
  induction n generalizing s with
  | zero => exact .inr ⟨s, rfl⟩
  | succ n ih =>
    obtain ⟨pml1, hr⟩ := Option.ne_none_iff_exists'.mp hr
    rw [cleanupPass, getPml1_of_resolve hr]
    simp only [bind, Except.bind]
    split_ifs with hpres
    · have hfreed : Extends 32 s
          (s.physFree (s.mem pml1 (pml1Index (pageAt virt i))).frame) :=
        h.extends_of_eq rfl rfl rfl
      have hr' : (s.physFree (s.mem pml1 (pml1Index (pageAt virt i))).frame).resolve
          (path (pageAt virt i)) = some pml1 := hr
      have hw := hfreed.sound.setEntry hr' .zero
      apply ih hw.sound
      have hsame := hfreed.sound.linked.resolve_write rfl hr' (pml1Index (pageAt virt i)) .zero
        (le_refl (path (pageAt virt i)).length)
      rw [resolve, setEntry, hsame]
      exact ne_of_eq_of_ne hr' (by simp)
    · exact .inl rfl

theorem cleanup_answered (h : s.Sound 32) {i : ℕ} (hr : s.resolve (path (pageAt virt i)) ≠ none)
    (passes : ℕ) (err : Err) : cleanup virt i (passes + 1) s err ≠ .error .unanswered := by
  rw [cleanup]
  rcases cleanupPass_answered h hr i with hf | ⟨s', hf⟩
  · rw [hf]
    simp [bind, Except.bind]
  · rw [hf]
    simp [bind, Except.bind, pure, Except.pure]

/-- Where a table of the page is missing and every request is refused, there is always
another pass. -/
theorem cleanup_unanswered {i : ℕ} (hi : 0 < i) (hr : s.resolve (path (pageAt virt i)) = none)
    {r : ℕ} (hans : s.answers = List.replicate r none) (passes : ℕ) (err : Err) :
    cleanup virt i passes s err = .error .unanswered := by
  obtain ⟨n, rfl⟩ : ∃ n, i = n + 1 := ⟨i - 1, by omega⟩
  induction passes generalizing s r err with
  | zero => rfl
  | succ passes ih =>
    obtain ⟨hempty, hrefused⟩ := getPml1_refused hr
    rw [cleanup, cleanupPass]
    rcases r with _ | r
    · rw [hempty hans]
      rfl
    · rw [hrefused (List.replicate r none) hans]
      have hr' : PageTables.resolve { s with answers := List.replicate r none }
          (path (pageAt virt (n + 1))) = none := hr
      exact ih rfl .outOfMemory hr'

/-! ### The page that needs a table -/

theorem NeedsTable.before {i : ℕ} (hn : s.NeedsTable virt i) (hm : m < i) (hpos : 0 < m)
    (hmissing : s.resolve (path (pageAt virt m)) = none)
    (hunshared : ∀ j < m, canon (shadowOf 32) (path (pageAt virt m)) ≠
      canon (shadowOf 32) (path (pageAt virt j))) : s.NeedsTable virt m := by
  obtain ⟨answers, hgr⟩ := hn.frames
  exact ⟨hpos, hmissing, hunshared, ⟨fun j hj => hn.unmapped.free j (hj.trans hm),
    fun j hj => hn.unmapped.distinct j (hj.trans hm)⟩, answers, hgr.mono (by omega)⟩

/-- The loop fails at the first such page if the frames it needs until then are all there
are. -/
theorem allocPages_stuck {d r : ℕ} (hn : s.NeedsTable virt (m + d))
    (hmin : ∀ j < m + d, ¬ s.NeedsTable virt j) (hg : Grown virt m s t) (hm : 0 < m)
    (hgr : Grants t.inUse d t.answers) (hdrop : t.answers.drop d = List.replicate (r + 1) none)
    (n : ℕ) :
    ∃ t', allocPages virt (d + n + 1) m t = .ok (some (.outOfMemory, m + d), t') ∧
      t'.resolve (path (pageAt virt (m + d))) = none ∧ t'.answers = List.replicate r none := by
  induction d generalizing m t with
  | zero =>
    rw [List.drop_zero] at hdrop
    rw [Nat.add_zero] at hn ⊢
    refine ⟨{ t with answers := List.replicate r none }, ?_, ?_, rfl⟩
    · rw [allocPages, physAlloc, hdrop]
      rfl
    · have hnone : ¬ (t.resolve (path (pageAt virt m))).isSome := by
        rw [hg.tables _ rfl, not_or]
        constructor
        · rw [hn.missing]
          simp
        · rintro ⟨j, hj, hs⟩
          exact hn.unshared j hj hs
      exact Option.not_isSome_iff_eq_none.mp hnone
  | succ d ih =>
    have hthere : t.resolve (path (pageAt virt m)) ≠ none := by
      intro hnone
      have hnot : ¬ (t.resolve (path (pageAt virt m))).isSome := by rw [hnone]; simp
      rw [hg.tables _ rfl, not_or] at hnot
      exact hmin m (by omega) (hn.before (by omega) hm (Option.not_isSome_iff_eq_none.mp hnot.1)
        fun j hj hs => hnot.2 ⟨j, hj, hs⟩)
    have hmiss : t.missing (pageAt virt m) = 0 := missingBelow_of_resolve (p := []) hthere
    have hfree : t.walk (pageAt virt m) = none := by
      apply Option.not_isSome_iff_eq_none.mp
      intro hsome
      rcases (hg.entries _).mp hsome with hold | ⟨j, hj, hs⟩
      · rw [hn.unmapped.free m (by omega)] at hold
        cases hold
      · exact hn.unmapped.distinct m (by omega) j hj hs
    have hlen : 1 ≤ t.answers.length := by
      have hl := congrArg List.length hdrop
      rw [List.length_drop, List.length_replicate] at hl
      omega
    have hpage := allocPages_page hg (by omega) (d + n + 1)
    rw [hmiss] at hpage
    rcases hpage with ⟨t', hf, hg', hans, hiff⟩ | ⟨-, hnot⟩
    · rw [Nat.add_zero] at hans
      have hgr' : Grants t'.inUse d t'.answers := (hiff d).mp (hgr.mono (by omega))
      have hdrop' : t'.answers.drop d = List.replicate (r + 1) none := by
        rw [hans, List.drop_drop, Nat.add_comm, hdrop]
      rw [show m + (d + 1) = m + 1 + d by omega] at hn hmin ⊢
      obtain ⟨u, hu, hres, hans'⟩ := ih hn hmin hg' (Nat.succ_pos m) hgr' hdrop'
      rw [show d + 1 + n + 1 = d + n + 1 + 1 by omega]
      exact ⟨u, hf.trans hu, hres, hans'⟩
    · exact absurd ⟨hfree, hgr.mono (by omega)⟩ hnot

/-! ### Both functions -/

/-- The first `n` of the answers, then refusals for ever. -/
def refusedAfter (answers : List (Option ℕ)) (n j : ℕ) : Option ℕ := (answers.take n).getD j none

theorem map_refusedAfter {answers : List (Option ℕ)} {n m : ℕ} (hn : n ≤ answers.length)
    (hm : n ≤ m) : (List.range m).map (refusedAfter answers n) =
      answers.take n ++ List.replicate (m - n) none := by
  have hlen : (answers.take n).length = n := by rw [List.length_take, Nat.min_eq_left hn]
  apply List.ext_getElem (by simp; omega)
  intro j h1 h2
  rw [List.getElem_map, List.getElem_range, refusedAfter]
  by_cases hj : j < n
  · rw [List.getElem_append_left (hlen.symm ▸ hj), List.getD_eq_getElem?_getD,
      List.getElem?_eq_getElem (hlen.symm ▸ hj), Option.getD_some]
  · rw [List.getElem_append_right (by omega), List.getElem_replicate, List.getD_eq_getElem?_getD,
      List.getElem?_eq_none (by omega), Option.getD_none]

/-- With frames until the page is reached and none afterwards, the clean-up has no end. -/
theorem NeedsTable.waits (h : s.Sound 32) {d r n : ℕ} (hn : s.NeedsTable virt (d + 1))
    (hmin : ∀ j < d + 1, ¬ s.NeedsTable virt j)
    (hgr : Grants s.inUse (d + 1 + s.missing (pageAt virt 0)) s.answers)
    (hdrop : s.answers.drop (d + 1 + s.missing (pageAt virt 0)) = List.replicate (r + 1) none) :
    s.virtAllocRange virt (d + n + 2) = .error .unanswered := by
  have hlen := hgr.length_le
  have hsplit : d + 1 + s.missing (pageAt virt 0) = 1 + s.missing (pageAt virt 0) + d := by omega
  rw [hsplit] at hgr hdrop
  rcases allocPages_page (.refl h virt) (by omega) (d + n + 1) with ⟨t, hf, hg, hans, hiff⟩ |
    ⟨-, hnot⟩
  · rw [← List.drop_drop, ← hans] at hdrop
    rw [Nat.add_comm d 1] at hn hmin
    obtain ⟨t', hf', hres, hans'⟩ := allocPages_stuck hn hmin hg (by omega) ((hiff d).mp hgr) hdrop n
    rw [virtAllocRange, hf.trans hf']
    simp only [bind, Except.bind]
    rw [cleanup_unanswered (by omega) hres hans']
  · exact absurd ⟨hn.unmapped.free 0 (by omega), hgr.mono (by omega)⟩ hnot

theorem needsTable_answers (s : PageTables) (virt i : ℕ) (answers : List (Option ℕ)) :
    NeedsTable { s with answers := answers } virt i ↔ s.NeedsTable virt i :=
  ⟨fun h => ⟨h.pos, h.missing, h.unshared, ⟨h.unmapped.free, h.unmapped.distinct⟩, h.frames⟩,
    fun h => ⟨h.pos, h.missing, h.unshared, ⟨h.unmapped.free, h.unmapped.distinct⟩, h.frames⟩⟩

theorem Grown.needsTable {i : ℕ} {u : PageTables} (hg : Grown virt i s u) (hpos : 0 < i)
    (hext : Extends 32 u t) (hres : t.resolve (path (pageAt virt i)) = none) :
    s.NeedsTable virt i := by
  have hnone : ¬ (u.resolve (path (pageAt virt i))).isSome := by
    intro hsome
    obtain ⟨table, htable⟩ := Option.isSome_iff_exists.mp hsome
    rw [hext.mono _ table (le_refl 3) htable] at hres
    cases hres
  rw [hg.tables _ rfl, not_or] at hnone
  exact ⟨hpos, Option.not_isSome_iff_eq_none.mp hnone.1, fun j hj hs => hnone.2 ⟨j, hj, hs⟩,
    hg.unmapped, s.answers, hg.granted hpos 0 trivial⟩

/-- With four answers for every page, and a table for each page but the first, the call is
over. -/
theorem virtAllocRange_answered (h : s.Sound 32) {pageCount : ℕ}
    (hnone : ∀ i < pageCount, ¬ s.NeedsTable virt i) (ha : 4 * pageCount ≤ s.answers.length) :
    s.virtAllocRange virt pageCount ≠ .error .unanswered := by
  obtain ⟨failed, t, hf, hfail⟩ := allocPages_answered (.refl h virt) ha
  rw [virtAllocRange, hf]
  rcases failed with _ | ⟨err, i⟩
  · simp [bind, Except.bind, pure, Except.pure]
  obtain ⟨hi, u, hg, hext⟩ := hfail err i rfl
  have hclean : cleanup virt i (t.answers.length + 1) t err ≠ .error .unanswered := by
    rcases Nat.eq_zero_or_pos i with rfl | hpos
    · simp [cleanup, cleanupPass, bind, Except.bind, pure, Except.pure]
    · apply cleanup_answered hext.sound
      intro hres
      exact hnone i (by omega) (hg.needsTable hpos hext hres)
  simp only [bind, Except.bind]
  rcases hc : cleanup virt i (t.answers.length + 1) t err with f | ⟨err', t'⟩
  · rw [hc] at hclean
    intro he
    cases he
    exact hclean rfl
  · simp [pure, Except.pure]

theorem virtAllocRange_terminates_iff (h : s.Sound 32) (virt pageCount : ℕ) :
    (Terminates fun answers => virtAllocRange { s with answers := answers } virt pageCount) ↔
      ∀ i < pageCount, ¬ s.NeedsTable virt i := by
  constructor
  · intro hterm i
    -- the first of these pages
    induction i using Nat.strong_induction_on with
    | h i ih =>
      intro hi hn
      obtain ⟨answers, hgr⟩ := hn.frames
      obtain ⟨n, hall⟩ := hterm (refusedAfter answers (i + s.missing (pageAt virt 0)))
      have hlen : (answers.take (i + s.missing (pageAt virt 0))).length =
          i + s.missing (pageAt virt 0) := by
        rw [List.length_take, Nat.min_eq_left hgr.length_le]
      apply hall (n + (i + s.missing (pageAt virt 0)) + 1) (by omega)
      rw [map_refusedAfter hgr.length_le (by omega)]
      obtain ⟨d, rfl⟩ : ∃ d, i = d + 1 := ⟨i - 1, by have := hn.pos; omega⟩
      obtain ⟨c, rfl⟩ : ∃ c, pageCount = d + c + 2 := ⟨pageCount - d - 2, by omega⟩
      refine NeedsTable.waits (h.withAnswers _).sound (r := n) ((needsTable_answers s virt _ _).mpr hn)
        (fun j hj hj' => ih j hj (by omega) ((needsTable_answers s virt j _).mp hj'))
        (hgr.take_append _) ?_
      show List.drop (d + 1 + s.missing (pageAt virt 0)) _ = _
      rw [List.drop_left' hlen]
      congr 1
      omega
  · intro hnone answer
    refine ⟨4 * pageCount, fun m hm => ?_⟩
    apply virtAllocRange_answered (h.withAnswers _).sound
    · intro i hi hn
      exact hnone i hi ((needsTable_answers s virt i _).mp hn)
    · show 4 * pageCount ≤ ((List.range m).map answer).length
      rw [List.length_map, List.length_range]
      exact hm

theorem virtRemapRange_terminates (h : s.Sound 32) (virt pageCount : ℕ) (flags : MapFlags) :
    Terminates fun answers =>
      virtRemapRange { s with answers := answers } virt pageCount flags := by
  intro answer
  refine ⟨3, fun m hm => ?_⟩
  show virtRemapRange _ virt pageCount flags ≠ _
  have hlen : 3 ≤ ((List.range m).map answer).length := by
    rw [List.length_map, List.length_range]
    exact hm
  obtain ⟨err, i, s', hf, -⟩ := remapPages_spec (h.withAnswers _).sound hlen virt flags pageCount 0
  rw [virtRemapRange, hf]
  simp

end PageTables

/-- In every state a run leads to, both functions come to an end for every range and
whatever `phys_alloc` answers, unless a page of the range but the first needs a table. -/
theorem range_calls_terminate_iff {s : PageTables} (hs : Reachable s) (virt pageCount : ℕ)
    (flags : MapFlags) :
    (Terminates fun answers =>
        PageTables.virtAllocRange { s with answers := answers } virt pageCount) ∧
      (Terminates fun answers =>
        PageTables.virtRemapRange { s with answers := answers } virt pageCount flags) ↔
    ∀ i < pageCount, ¬ s.NeedsTable virt i := by
  rw [PageTables.virtAllocRange_terminates_iff hs.sound, and_iff_left]
  exact PageTables.virtRemapRange_terminates hs.sound virt pageCount flags

theorem one_table_terminates :
    (Terminates fun answers =>
        PageTables.virtAllocRange { booted with answers := answers } 0xFFFFFFFF90000000 2) ∧
      Terminates fun answers => PageTables.virtRemapRange { booted with answers := answers }
        0xFFFFFFFF90000000 2 ⟨false, true⟩ := by
  apply (range_calls_terminate_iff booted_reachable _ _ _).mpr
  intro i hi hn
  obtain rfl : i = 1 := by
    have := hn.pos
    omega
  exact hn.unshared 0 (by decide) (by decide)

/-- Two pages with a table each, and memory for the first page and its table only. -/
theorem second_table_waits :
    ¬ ∀ (s : PageTables) (virt pageCount : ℕ) (flags : MapFlags), Reachable s →
      (Terminates fun answers =>
          PageTables.virtAllocRange { s with answers := answers } virt pageCount) ∧
        Terminates fun answers =>
          PageTables.virtRemapRange { s with answers := answers } virt pageCount flags := by
  intro hall
  have hterm := (hall booted 0xFFFFFFFF901FF000 2 ⟨false, true⟩ booted_reachable).1
  rw [PageTables.virtAllocRange_terminates_iff booted_reachable.sound] at hterm
  have hmiss : booted.missing (PageTables.pageAt 0xFFFFFFFF901FF000 0) = 1 := by decide +kernel
  have hfree : ∀ frame ∈ [0x200, 0x201], frame ∉ booted.tables ∧ frame ∉ booted.pages := by
    decide +kernel
  refine hterm 1 (by omega) ⟨by omega, by decide +kernel, ?_, ⟨?_, ?_⟩, [some 0x200, some 0x201], ?_⟩
  · intro j hj
    obtain rfl : j = 0 := by omega
    decide
  · intro j hj
    obtain rfl : j = 0 := by omega
    decide +kernel
  · intro j hj l hl
    omega
  · rw [hmiss]
    simp only [Grants, PageTables.inUse, Set.mem_insert_iff, Set.mem_ofPred_eq, frameSize,
      hfree 0x200 (by simp), hfree 0x201 (by simp)]
    decide

end TomatOS.Virt
