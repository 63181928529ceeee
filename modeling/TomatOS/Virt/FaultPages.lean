import TomatOS.Virt.Descent

/-! The pages a page fault takes. The tables it takes are linked whatever happens. The
data page is taken before the way down to its entry is known to be there, and no path
of the handler gives it back, so it is lost exactly if a table on the way is missing
and there is no page for it. -/

namespace TomatOS.Virt

open Foundation Foundation.PageTree Foundation.Transition

namespace PageTables

variable {k : ℕ} {s s' : PageTables}

/-- Every frame taken is a table that is linked. -/
def TablesLinked (s s' : PageTables) : Prop :=
  s'.pages = s.pages ∧ ∀ frame ∈ s'.tables, frame ∉ s.tables →
    ∃ p, p.length ≤ 3 ∧ s'.resolve p = some frame

/-- The page is mapped exactly if there is a page for every table that is missing. -/
theorem virtMapPage_granted (h : s.Sound k) (hk : k ≤ 32) {virt : ℕ}
    (ha : s.missing virt ≤ s.answers.length) (phys : ℕ) (flags : MapFlags) :
    ∃ err s', s.virtMapPage phys virt flags = .ok (err, s') ∧ TablesLinked s s' ∧
      (err = none ∧ Grants s.inUse (s.missing virt) s.answers ∧
          s'.walk virt = some (leafEntry phys flags) ∨
        err ≠ none ∧ ¬ Grants s.inUse (s.missing virt) s.answers) := by
  rw [virtMapPage]
  rcases getPml1_granted h hk ha with ⟨pml1, s₁, hf, hd, hr, -, hgr⟩ | ⟨s₁, hf, hd, hgr⟩
  · simp only [hf, bind, Except.bind, pure, Except.pure]
    have hw := hd.ext.sound.setEntry hr (leafEntry phys flags)
    refine ⟨none, _, rfl, ⟨hd.pages, fun frame hin hout => ?_⟩, .inl ⟨rfl, ?_, ?_⟩⟩
    · obtain ⟨p, hp, hres⟩ := hd.linked frame hin hout
      refine ⟨p, hp, ?_⟩
      exact (hd.ext.sound.linked.resolve_write rfl hr _ _ hp).trans hres
    · exact (hgr 0).mpr trivial
    · rw [walk_eq, hw.leaf _ _ rfl, if_pos ⟨rfl, rfl⟩]
      rfl
  · simp only [hf, bind, Except.bind, pure, Except.pure]
    exact ⟨some .outOfMemory, s₁, rfl, ⟨hd.pages, hd.linked⟩, .inr ⟨by simp, hgr⟩⟩

/-- The handler returns; what it has taken is the page mapped at the address or a table
that is linked, and it is no data page if the fault is not dealt with. -/
def Accounted (s : PageTables) (addr : ℕ) (r : Result (Bool × PageTables)) : Prop :=
  ∃ handled s', r = .ok (handled, s') ∧
    (∀ frame ∈ s'.inUse, frame ∉ s.inUse →
      (∃ p, p.length ≤ 3 ∧ s'.resolve p = some frame) ∨
        ∃ e, s'.walk addr = some e ∧ e.frame = frame) ∧
    (handled = false → s'.pages = s.pages)

theorem TablesLinked.accounted {addr : ℕ} (h : TablesLinked s s') (handled : Bool) :
    Accounted s addr (.ok (handled, s')) := by
  refine ⟨handled, s', rfl, fun frame hin hout => .inl ?_, fun _ => h.1⟩
  rcases hin with ht | hp
  · exact h.2 frame ht fun ht' => hout (.inl ht')
  · exact absurd (.inr (h.1 ▸ hp)) hout

theorem TablesLinked.refl (s : PageTables) : TablesLinked s s :=
  ⟨rfl, fun _ hin hout => absurd hin hout⟩

theorem missing_alignDown (s : PageTables) (addr : ℕ) :
    s.missing (alignDown addr pageSize) = s.missing addr := by
  rw [missing, missing, (indices_of_samePage (samePage_alignDown addr)).1]

theorem allocate_accounted_iff (h : s.Sound 32) {addr : ℕ} (hact : faultAction addr = .allocate)
    (ha : 4 ≤ s.answers.length) :
    Accounted s addr (s.virtHandlePageFault addr) ↔
      (Grants s.inUse 1 s.answers → Grants s.inUse (s.missing addr + 1) s.answers) := by
  simp only [virtHandlePageFault, hact, bind, Except.bind, pure, Except.pure]
  rcases s.physAlloc_granted with ⟨-, hnone⟩ | ⟨answers, hf, -, hnot⟩ |
    ⟨page, answers, hf, hdrop, hpage, hunused, -, hiff⟩
  · rw [hnone, List.length_nil] at ha
    omega
  · simp only [hf]
    have hrefused : TablesLinked s { s with answers := answers } :=
      ⟨rfl, fun _ hin hout => absurd hin hout⟩
    exact iff_of_true (hrefused.accounted false) fun hone => absurd hone (hnot 0)
  · simp only [hf]
    -- the cleared page is not part of the tables
    let s₁ : PageTables := { s with answers := answers, pages := page :: s.pages }
    have h₁ : Extends 32 s s₁ := h.withPage page answers
    have hclear : Extends 32 s₁ (s₁.clearPage page) := h₁.sound.clearPage hunused
    have hmiss : (s₁.clearPage page).missing (alignDown addr pageSize) = s.missing addr := by
      rw [← s.missing_alignDown addr]
      exact missingBelow_congr fun q _ hq => h₁.sound.resolve_clearPage hunused hq
    have huse : (s₁.clearPage page).inUse = insert page s.inUse := s.inUse_page page answers
    have hlen : s.missing addr ≤ answers.length := by
      have hle := s.missing_le addr
      rw [← hdrop, List.length_drop]
      omega
    have henough : (s₁.clearPage page).missing (alignDown addr pageSize) ≤ answers.length :=
      hmiss ▸ hlen
    have hmap := virtMapPage_granted hclear.sound le_rfl henough (page * pageSize) ⟨true, false⟩
    rw [hmiss, huse] at hmap
    obtain ⟨err, s', hok, hlinked, hcase⟩ := hmap
    rw [show (s₁.clearPage page).answers = answers from rfl, ← hiff] at hcase
    simp only [s₁] at hok
    simp only [hok]
    rcases hcase with ⟨rfl, hgr, hwalk⟩ | ⟨hne, hgr⟩
    · refine iff_of_true ⟨true, s', rfl, fun frame hin hout => ?_, fun hn => by cases hn⟩
        fun _ => hgr
      rcases hin with ht | hp
      · exact .inl (hlinked.2 frame ht fun ht' => hout (.inl ht'))
      · rw [hlinked.1] at hp
        rcases List.mem_cons.mp hp with rfl | hold
        · refine .inr ⟨_, (walk_alignDown s' addr).symm.trans hwalk, ?_⟩
          rw [leafEntry, Nat.shiftRight_eq_div_pow, pageSize]
          simp only [frameSize] at hpage ⊢
          omega
        · exact absurd (.inr hold) hout
    · obtain ⟨err, rfl⟩ := Option.ne_none_iff_exists'.mp hne
      refine iff_of_false ?_ fun hall => hgr (hall ((hiff 0).mpr trivial))
      rintro ⟨handled, s'', hr, -, hpages⟩
      cases hr
      have hp := hpages rfl
      rw [hlinked.1] at hp
      exact absurd (congrArg List.length hp) (by simp [s₁, clearPage])

theorem accounted_of_not_allocate (h : s.Sound 32) {addr : ℕ}
    (hact : faultAction addr ≠ .allocate) (ha : 4 ≤ s.answers.length) :
    Accounted s addr (s.virtHandlePageFault addr) := by
  rw [virtHandlePageFault]
  rcases hcase : faultAction addr with _ | _ | _ | _
  · exact absurd hcase hact
  · exact (TablesLinked.refl s).accounted false
  · have hle := s.missing_le (alignDown addr pageSize)
    obtain ⟨err, s', hf, hlinked, -⟩ := virtMapPage_granted h le_rfl (hle.trans (by omega))
      (directToPhys addr) ⟨true, false⟩
    simp only [hf, bind, Except.bind, pure, Except.pure]
    exact hlinked.accounted _
  · exact (TablesLinked.refl s).accounted false

end PageTables

/-- In every state a run leads to: nothing is lost exactly if the address is not one for
which pages are allocated, or the data page is refused, or there is a page for every
table that is missing on the way as well. -/
theorem fault_accounted_iff {s : PageTables} (hs : Reachable s) (addr : ℕ)
    (answers : List (Option ℕ)) (ha : 4 ≤ answers.length) :
    PageTables.Accounted s addr (PageTables.virtHandlePageFault { s with answers := answers } addr) ↔
      (faultAction addr = .allocate → Grants s.inUse 1 answers →
        Grants s.inUse (s.missing addr + 1) answers) := by
  have hext := hs.sound.withAnswers answers
  by_cases hact : faultAction addr = .allocate
  · exact (PageTables.allocate_accounted_iff hext.sound hact ha).trans
      ⟨fun hall _ => hall, fun hall => hall hact⟩
  · exact iff_of_true (PageTables.accounted_of_not_allocate hext.sound hact ha)
      fun h => absurd h hact

/-- A first fault on the GC heap, with a page for the data and for both tables. -/
theorem gc_heap_fault_accounted :
    PageTables.Accounted booted 0xFFFF810000000000
      (PageTables.virtHandlePageFault { booted with answers := pagesFrom 0x200 4 }
        0xFFFF810000000000) := by
  apply (fault_accounted_iff booted_reachable _ _ (by simp [pagesFrom])).mpr
  intro _ _
  have hmiss : booted.missing 0xFFFF810000000000 = 2 := by decide +kernel
  have hfree : ∀ frame ∈ [0x200, 0x201, 0x202], frame ∉ booted.tables ∧ frame ∉ booted.pages := by
    decide +kernel
  rw [hmiss, show pagesFrom 0x200 4 = [some 0x200, some 0x201, some 0x202, some 0x203] from rfl]
  simp only [Grants, PageTables.inUse, Set.mem_insert_iff, Set.mem_ofPred_eq, frameSize,
    hfree 0x200 (by simp), hfree 0x201 (by simp), hfree 0x202 (by simp)]
  decide

/-- With a page for the data alone, it is lost. -/
theorem data_page_lost :
    ¬ ∀ (s : PageTables) (addr : ℕ) (answers : List (Option ℕ)), Reachable s →
      4 ≤ answers.length →
      PageTables.Accounted s addr
        (PageTables.virtHandlePageFault { s with answers := answers } addr) := by
  intro hall
  obtain ⟨handled, s', hr, -, hpages⟩ := hall booted 0xFFFF810000000000
    [some 0x200, none, none, none] booted_reachable (by simp)
  have hrun : (PageTables.virtHandlePageFault
      { booted with answers := [some 0x200, none, none, none] } 0xFFFF810000000000).map
        (fun r => (r.1, r.2.pages)) = .ok (false, [0x200]) := by decide +kernel
  have hbefore : booted.pages = [] := by decide +kernel
  rw [hr] at hrun
  obtain ⟨rfl, hafter⟩ := Prod.mk.inj (Except.ok.inj hrun)
  rw [hpages rfl, hbefore] at hafter
  cases hafter

end TomatOS.Virt
