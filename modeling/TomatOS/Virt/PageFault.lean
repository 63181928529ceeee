import TomatOS.Virt.Mapping

/-! Page faults on pages that are mapped. The handler does not look at the tables
before it maps a page, so a fault on a page that is there replaces its translation:
by a writable one in the direct map, by that of a new page elsewhere. -/

namespace TomatOS.Virt

open Foundation Foundation.PageTree Foundation.Transition

namespace PageTables

variable {k : ℕ} {s s' : PageTables}

theorem getNextLevel_of_link {table index t : ℕ} (h : (s.mem table index).link = some t) :
    s.getNextLevel table index = .ok (some t, s) := by
  rw [Entry.link] at h
  split at h
  · rename_i hpres
    rw [getNextLevel, if_pos hpres, Option.some.inj h]
  · cases h

/-- Where every table on the way is there, the way down needs no memory. -/
theorem getPml1_of_resolve {virt t : ℕ} (h : s.resolve (path virt) = some t) :
    s.getPml1 virt = .ok (some t, s) := by
  simp only [PageTables.resolve, path, resolve_cons, resolve_nil] at h
  obtain ⟨pml3, h4, h⟩ := Option.bind_eq_some_iff.mp h
  obtain ⟨pml2, h3, h⟩ := Option.bind_eq_some_iff.mp h
  obtain ⟨pml1, h2, h⟩ := Option.bind_eq_some_iff.mp h
  obtain rfl := Option.some.inj h
  rw [getPml1, getNextLevel_of_link h4]
  simp only [bind, Except.bind, getNextLevel_of_link h3, getNextLevel_of_link h2]

theorem getPml1_of_walk {virt : ℕ} {e : Entry} (h : s.walk virt = some e) :
    ∃ pml1, s.getPml1 virt = .ok (some pml1, s) := by
  obtain ⟨pml1, hr, -⟩ := Option.bind_eq_some_iff.mp h
  exact ⟨pml1, getPml1_of_resolve hr⟩

/-- Mapping a page that is mapped needs no memory and replaces its entry. -/
theorem virtMapPage_of_walk (h : s.Sound 32) {phys virt : ℕ} {e : Entry} (hv : Canonical virt)
    (hw : s.walk virt = some e) (hp : phys < 2 ^ 52) (flags : MapFlags) :
    ∃ s', s.virtMapPage phys virt flags = .ok (none, s') ∧
      s'.walk virt = some ⟨true, flags.permW, !flags.permX, phys >>> 12⟩ := by
  obtain ⟨pml1, hf⟩ := getPml1_of_walk hw
  have hok : s.virtMapPage phys virt flags =
      .ok (none, s.setEntry pml1 (pml1Index virt) (leafEntry phys flags)) := by
    rw [virtMapPage, hf]
    rfl
  refine ⟨_, hok, ?_⟩
  rcases virtMapPage_returns h (by omega) phys virt flags none _ hok with ⟨-, hwrites⟩ | ⟨hn, -⟩
  · rw [hwrites.walk_eq hv hv rfl (Or.inl rfl), leafEntry_eq hp]
  · cases hn

end PageTables

/-! ### The faulting page -/

theorem samePage_alignDown (addr : ℕ) : SamePage (alignDown addr pageSize) addr := by
  simp only [SamePage, alignDown, pageSize]
  omega

theorem walk_alignDown (s : PageTables) (addr : ℕ) :
    s.walk (alignDown addr pageSize) = s.walk addr := by
  obtain ⟨hp, h1⟩ := indices_of_samePage (samePage_alignDown addr)
  rw [PageTables.walk_eq, PageTables.walk_eq, hp, h1]

theorem served_range {addr : ℕ} (h : faultAction addr ≠ .unknown) :
    directMapOffset ≤ addr ∧ addr < wordSize := by
  by_contra hout
  apply h
  simp only [directMapOffset, wordSize] at hout
  rw [faultAction]
  split
  · rename_i hlazy
    simp only [threadsAddr, threadsAddrEnd] at hlazy
    omega
  split
  · rename_i hstack
    simp only [stacksAddr, stacksAddrEnd] at hstack
    omega
  split
  · rename_i hsmall
    simp only [smallStacksAddr, smallStacksAddrEnd] at hsmall
    omega
  split
  · rename_i hdirect
    simp only [directMapOffset, size512GB] at hdirect
    omega
  · rfl

theorem canonical_of_served {addr : ℕ} (h : faultAction addr ≠ .unknown) :
    Canonical (alignDown addr pageSize) := by
  have hrange := served_range h
  simp only [Canonical, alignDown, pageSize, directMapOffset, wordSize] at hrange ⊢
  omega

theorem directToPhys_lt {addr : ℕ} (h : faultAction addr ≠ .unknown) :
    directToPhys addr < 2 ^ 52 := by
  have hrange := served_range h
  simp only [directToPhys, directMapOffset, wordSize] at hrange ⊢
  omega

/-- The translation of a page that a fault on it leaves as it is. Where pages are
allocated on demand this depends on what `phys_alloc` answers. -/
def Stable (s : PageTables) (addr : ℕ) (e : Entry) : Prop :=
  match faultAction addr with
  | .overflow | .unknown => True
  | .direct => e = ⟨true, true, true, directToPhys addr >>> 12⟩
  | .allocate => ∀ page s', s.physAlloc = .ok (some page, s') → e = ⟨true, true, true, page⟩

section Fault

variable {s : PageTables} {addr : ℕ} {e : Entry}

theorem direct_fault (h : s.Sound 32) (hw : s.walk addr = some e)
    (hact : faultAction addr = .direct) :
    ∃ s', s.virtHandlePageFault addr = .ok (true, s') ∧
      s'.walk addr = some ⟨true, true, true, directToPhys addr >>> 12⟩ := by
  have hserved : faultAction addr ≠ .unknown := by simp [hact]
  rw [← walk_alignDown] at hw
  obtain ⟨s', hmap, hwalk⟩ := PageTables.virtMapPage_of_walk h (canonical_of_served hserved) hw
    (directToPhys_lt hserved) ⟨true, false⟩
  refine ⟨s', ?_, by rw [← walk_alignDown, hwalk]; rfl⟩
  simp only [PageTables.virtHandlePageFault, hact, hmap, bind, Except.bind, pure, Except.pure,
    Option.isNone_none]

/-- The ranges filled on demand: a page that is allocated takes the place of the one
that is mapped. -/
theorem allocate_fault (h : s.Sound 32) (hw : s.walk addr = some e)
    (hact : faultAction addr = .allocate) {page : ℕ} {s₁ : PageTables}
    (hpage : s.physAlloc = .ok (some page, s₁)) :
    ∃ s', s.virtHandlePageFault addr = .ok (true, s') ∧
      s'.walk addr = some ⟨true, true, true, page⟩ := by
  have hserved : faultAction addr ≠ .unknown := by simp [hact]
  obtain ⟨hext, hfresh⟩ := PageTables.physAlloc_returns h (some page) s₁ hpage
  obtain ⟨hlt, hunused⟩ := hfresh page rfl
  have hclear := hext.trans (hext.sound.clearPage hunused)
  rw [← hclear.walk_eq, ← walk_alignDown] at hw
  have hphys : page * pageSize < 2 ^ 52 := by
    simp only [pageSize, frameSize] at hlt ⊢
    omega
  obtain ⟨s', hmap, hwalk⟩ := PageTables.virtMapPage_of_walk hclear.sound
    (canonical_of_served hserved) hw hphys ⟨true, false⟩
  have hframe : (page * pageSize) >>> 12 = page := by
    rw [Nat.shiftRight_eq_div_pow, pageSize]
    omega
  refine ⟨s', ?_, by rw [← walk_alignDown, hwalk, hframe]; rfl⟩
  simp only [PageTables.virtHandlePageFault, hact, hpage, hmap, bind, Except.bind, pure,
    Except.pure, Option.isNone_none]

/-- A fault on a page that is mapped keeps its translation exactly if it is the one the
handler sets up, or the handler sets up none. -/
theorem fault_keeps_iff (h : s.Sound 32) (hw : s.walk addr = some e) (ha : s.answers ≠ []) :
    ∃ handled s', s.virtHandlePageFault addr = .ok (handled, s') ∧
      (s'.walk addr = some e ↔ Stable s addr e) := by
  have hkeep : ∀ {P : Prop}, P → (s.walk addr = some e ↔ P) := fun hP => ⟨fun _ => hP, fun _ => hw⟩
  rcases hact : faultAction addr with _ | _ | _ | _
  · rcases s.physAlloc_cases with ⟨-, hn⟩ | ⟨answers, hf, -⟩ | ⟨page, answers, hf, -⟩
    · exact absurd hn ha
    · refine ⟨false, { s with answers := answers }, ?_, ?_⟩
      · simp only [PageTables.virtHandlePageFault, hact, hf, bind, Except.bind, pure, Except.pure]
      · apply hkeep
        simp only [Stable, hact, hf]
        intro page s' hs'
        cases hs'
    · obtain ⟨s', hfault, hwalk⟩ := allocate_fault h hw hact hf
      refine ⟨true, s', hfault, ?_⟩
      rw [hwalk, Option.some.injEq]
      simp only [Stable, hact, hf]
      refine ⟨fun he page' s'' hs'' => ?_, fun hall => (hall page _ rfl).symm⟩
      cases hs''
      exact he.symm
  · exact ⟨false, s, by simp only [PageTables.virtHandlePageFault, hact],
      hkeep (by simp only [Stable, hact])⟩
  · obtain ⟨s', hfault, hwalk⟩ := direct_fault h hw hact
    refine ⟨true, s', hfault, ?_⟩
    rw [hwalk, Option.some.injEq]
    simp only [Stable, hact]
    exact eq_comm
  · exact ⟨false, s, by simp only [PageTables.virtHandlePageFault, hact],
      hkeep (by simp only [Stable, hact])⟩

end Fault

/-- In every state a run leads to. -/
theorem page_fault_keeps_iff {s : PageTables} (hs : Reachable s) {addr : ℕ} {e : Entry}
    (hw : s.walk addr = some e) (answers : List (Option ℕ)) (ha : answers ≠ []) :
    ∃ handled s', PageTables.virtHandlePageFault { s with answers := answers } addr =
        .ok (handled, s') ∧
      (s'.walk addr = some e ↔ Stable { s with answers := answers } addr e) := by
  have hext := hs.sound.withAnswers answers
  rw [← hext.walk_eq] at hw
  exact fault_keeps_iff hext.sound hw ha

/-- A page of the direct map, mapped after initialisation as the memory map of the
machine says. -/
def directMapped (flags : MapFlags) : PageTables :=
  stateOf (PageTables.virtMapPage { booted with answers := pagesFrom 0x200 3 } 0x5000
    0xFFFF800000005000 flags)

theorem directMapped_reachable (flags : MapFlags) : Reachable (directMapped flags) := by
  apply booted_reachable.snoc (.mapPage 0x5000 0xFFFF800000005000 flags, pagesFrom 0x200 3)
  have hok : PageTables.virtMapPage { booted with answers := pagesFrom 0x200 3 } 0x5000
      0xFFFF800000005000 flags = .ok (none, directMapped flags) := by
    apply eq_ok_stateOf
    rcases flags with ⟨_ | _, _ | _⟩ <;> decide +kernel
  exact snd_ok hok

/-- The first page of the GC heap, after a first fault on it. -/
def gcHeapMapped : PageTables :=
  stateOf (PageTables.virtHandlePageFault { booted with answers := pagesFrom 0x200 4 }
    0xFFFF810000000000)

theorem gcHeapMapped_reachable : Reachable gcHeapMapped := by
  apply booted_reachable.snoc (.pageFault 0xFFFF810000000000, pagesFrom 0x200 4)
  have hok : PageTables.virtHandlePageFault { booted with answers := pagesFrom 0x200 4 }
      0xFFFF810000000000 = .ok (true, gcHeapMapped) := eq_ok_stateOf (by decide +kernel)
  exact snd_ok hok

/-- A fault on a writable page of the direct map. -/
theorem writable_page_kept :
    ∃ handled s', PageTables.virtHandlePageFault
        { directMapped ⟨true, false⟩ with answers := [none] } 0xFFFF800000005000 =
        .ok (handled, s') ∧
      s'.walk 0xFFFF800000005000 = some ⟨true, true, true, 5⟩ := by
  have hw : (directMapped ⟨true, false⟩).walk 0xFFFF800000005000 =
      some ⟨true, true, true, 5⟩ := by decide +kernel
  obtain ⟨handled, s', hf, hiff⟩ := page_fault_keeps_iff (directMapped_reachable ⟨true, false⟩) hw
    [none] (by simp)
  exact ⟨handled, s', hf, hiff.mpr rfl⟩

/-- A write to a read-only page of the direct map makes it writable; a second fault on
a page of the GC heap replaces the page. -/
theorem fault_replaces_translation :
    (Reachable (directMapped ⟨false, false⟩) ∧
      (directMapped ⟨false, false⟩).walk 0xFFFF800000005000 = some ⟨true, false, true, 5⟩ ∧
      ∃ s', PageTables.virtHandlePageFault
          { directMapped ⟨false, false⟩ with answers := [none] } 0xFFFF800000005000 =
          .ok (true, s') ∧
        s'.walk 0xFFFF800000005000 = some ⟨true, true, true, 5⟩) ∧
    Reachable gcHeapMapped ∧
      gcHeapMapped.walk 0xFFFF810000000000 = some ⟨true, true, true, 0x200⟩ ∧
      ∃ s', PageTables.virtHandlePageFault
          { gcHeapMapped with answers := [some 0x300] } 0xFFFF810000000000 = .ok (true, s') ∧
        s'.walk 0xFFFF810000000000 = some ⟨true, true, true, 0x300⟩ := by
  have hro : (directMapped ⟨false, false⟩).walk 0xFFFF800000005000 =
      some ⟨true, false, true, 5⟩ := by decide +kernel
  have hfault : (PageTables.virtHandlePageFault
      { directMapped ⟨false, false⟩ with answers := [none] } 0xFFFF800000005000).map
        (fun r => (r.1, r.2.walk 0xFFFF800000005000)) =
      .ok (true, some ⟨true, true, true, 5⟩) := by decide +kernel
  have hgc : gcHeapMapped.walk 0xFFFF810000000000 = some ⟨true, true, true, 0x200⟩ := by
    decide +kernel
  have hagain : (PageTables.virtHandlePageFault
      { gcHeapMapped with answers := [some 0x300] } 0xFFFF810000000000).map
        (fun r => (r.1, r.2.walk 0xFFFF810000000000)) =
      .ok (true, some ⟨true, true, true, 0x300⟩) := by decide +kernel
  obtain ⟨⟨handled, s'⟩, hf, hr⟩ := ok_of_map hfault
  obtain ⟨⟨handled', s''⟩, hf', hr'⟩ := ok_of_map hagain
  obtain ⟨rfl, hwalk⟩ := Prod.mk.inj hr
  obtain ⟨rfl, hwalk'⟩ := Prod.mk.inj hr'
  exact ⟨⟨directMapped_reachable ⟨false, false⟩, hro, s', hf, hwalk⟩,
    gcHeapMapped_reachable, hgc, s'', hf', hwalk'⟩

end TomatOS.Virt
