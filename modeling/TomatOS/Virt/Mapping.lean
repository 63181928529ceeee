import TomatOS.Virt.Operations

/-! What mapping a page does to the translations that the hardware sees. Canonical
addresses share a page entry when they are on the same page, or 16TB apart in the
two ranges that the shadow loop joins. -/

namespace TomatOS.Virt

open Foundation Foundation.PageTree Foundation.Transition

/-! ### Addresses -/

/-- Addresses the hardware accepts. -/
def Canonical (virt : ℕ) : Prop := virt < 2 ^ 47 ∨ (wordSize - 2 ^ 47 ≤ virt ∧ virt < wordSize)

def SamePage (v w : ℕ) : Prop := v / pageSize = w / pageSize

/-- The address 16TB away that the shadow loop makes lead to the same tables. -/
def shadowTwin (virt : ℕ) : ℕ :=
  if directMapOffset ≤ virt ∧ virt < directMapOffset + size16TB then virt + size16TB
  else if directMapOffset + size16TB ≤ virt ∧ virt < directMapOffset + 2 * size16TB then
    virt - size16TB
  else virt

theorem samePage_of_indices {v w : ℕ} (hv : Canonical v) (hw : Canonical w)
    (h4 : pml4Index v = pml4Index w) (h3 : pml3Index v = pml3Index w)
    (h2 : pml2Index v = pml2Index w) (h1 : pml1Index v = pml1Index w) : SamePage v w := by
  simp only [pml4Index, pml3Index, pml2Index, pml1Index, Nat.shiftRight_eq_div_pow] at *
  simp only [Canonical, SamePage, wordSize, pageSize] at *
  omega

theorem indices_of_samePage {v w : ℕ} (h : SamePage v w) :
    path v = path w ∧ pml1Index v = pml1Index w := by
  simp only [path, pml4Index, pml3Index, pml2Index, pml1Index, Nat.shiftRight_eq_div_pow,
    SamePage, pageSize, List.cons.injEq, and_true] at *
  refine ⟨⟨?_, ?_, ?_⟩, ?_⟩ <;> omega

theorem shadowTwin_cases (v : ℕ) :
    (directMapOffset ≤ v ∧ v < directMapOffset + size16TB ∧ shadowTwin v = v + size16TB) ∨
    (directMapOffset + size16TB ≤ v ∧ v < directMapOffset + 2 * size16TB ∧
      shadowTwin v = v - size16TB) ∨
    (¬ (directMapOffset ≤ v ∧ v < directMapOffset + 2 * size16TB) ∧ shadowTwin v = v) := by
  rw [shadowTwin]
  split_ifs with hlow hhigh
  · exact Or.inl ⟨hlow.1, hlow.2, rfl⟩
  · exact Or.inr (Or.inl ⟨hhigh.1, hhigh.2, rfl⟩)
  · exact Or.inr (Or.inr ⟨by omega, rfl⟩)

/-- The slots of the root that an address of the two ranges goes through. -/
theorem slot_of_canonical {v : ℕ} (hv : Canonical v) :
    (directMapOffset ≤ v ∧ v < directMapOffset + size16TB ↔
      256 ≤ pml4Index v ∧ pml4Index v < 288) ∧
    (directMapOffset + size16TB ≤ v ∧ v < directMapOffset + 2 * size16TB ↔
      288 ≤ pml4Index v ∧ pml4Index v < 320) := by
  simp only [Canonical, wordSize] at hv
  simp only [pml4Index, Nat.shiftRight_eq_div_pow, directMapOffset, size16TB]
  omega

theorem canonical_shadowTwin {v : ℕ} (hv : Canonical v) : Canonical (shadowTwin v) := by
  have h := shadowTwin_cases v
  simp only [Canonical, wordSize, directMapOffset, size16TB] at hv h ⊢
  omega

/-- The twin goes through the slot 32 away. -/
theorem pml4Index_shadowTwin {v : ℕ} (hv : Canonical v) :
    pml4Index (shadowTwin v) = if 256 ≤ pml4Index v ∧ pml4Index v < 288 then pml4Index v + 32
      else if 288 ≤ pml4Index v ∧ pml4Index v < 320 then pml4Index v - 32 else pml4Index v := by
  obtain ⟨hlow, hhigh⟩ := slot_of_canonical hv
  rcases shadowTwin_cases v with ⟨h1, h2, ht⟩ | ⟨h1, h2, ht⟩ | ⟨hn, ht⟩
  · rw [if_pos (hlow.mp ⟨h1, h2⟩), ht]
    simp only [pml4Index, Nat.shiftRight_eq_div_pow, directMapOffset, size16TB] at h1 h2 ⊢
    omega
  · have hslot := hhigh.mp ⟨h1, h2⟩
    rw [if_neg (by omega), if_pos hslot, ht]
    simp only [pml4Index, Nat.shiftRight_eq_div_pow, directMapOffset, size16TB] at h1 h2 ⊢
    omega
  · have hl : ¬ (256 ≤ pml4Index v ∧ pml4Index v < 288) := by
      rw [← hlow]
      omega
    have hh : ¬ (288 ≤ pml4Index v ∧ pml4Index v < 320) := by
      rw [← hhigh]
      omega
    rw [if_neg hl, if_neg hh, ht]

theorem lower_shadowTwin (v : ℕ) :
    pml3Index (shadowTwin v) = pml3Index v ∧ pml2Index (shadowTwin v) = pml2Index v ∧
    pml1Index (shadowTwin v) = pml1Index v := by
  simp only [pml3Index, pml2Index, pml1Index, Nat.shiftRight_eq_div_pow]
  rcases shadowTwin_cases v with ⟨-, -, ht⟩ | ⟨h1, -, ht⟩ | ⟨-, ht⟩
  · simp only [ht, size16TB]
    omega
  · simp only [ht, size16TB, directMapOffset] at h1 ⊢
    omega
  · simp only [ht, and_self]

/-- The addresses whose page entry is that of `v`. -/
theorem isEntry_iff {v w : ℕ} (hv : Canonical v) (hw : Canonical w) :
    PageTables.IsEntry 32 v (path w) (pml1Index w) ↔ SamePage w v ∨ SamePage w (shadowTwin v) := by
  have hslot := pml4Index_shadowTwin hv
  have hlower := lower_shadowTwin v
  simp only [PageTables.IsEntry, path, canon, List.cons.injEq, and_true]
  constructor
  · rintro ⟨⟨h4, h3, h2⟩, h1⟩
    have hcases : pml4Index w = pml4Index v ∨ pml4Index w = pml4Index (shadowTwin v) := by
      simp only [hslot, shadowOf] at h4 ⊢
      split_ifs at h4 ⊢ <;> omega
    rcases hcases with h | h
    · exact Or.inl (samePage_of_indices hw hv h h3 h2 h1)
    · exact Or.inr (samePage_of_indices hw (canonical_shadowTwin hv) h (by omega) (by omega)
        (by omega))
  · rintro (h | h)
    · obtain ⟨hp, h1⟩ := indices_of_samePage h
      simp only [path, List.cons.injEq, and_true] at hp
      exact ⟨⟨by rw [hp.1], hp.2.1, hp.2.2⟩, h1⟩
    · obtain ⟨hp, h1⟩ := indices_of_samePage h
      simp only [path, List.cons.injEq, and_true] at hp
      refine ⟨⟨?_, by omega, by omega⟩, by omega⟩
      rw [hp.1, hslot, shadowOf, shadowOf]
      split_ifs <;> omega

/-- The two addresses have one page entry. -/
def SameEntry (v w : ℕ) : Prop := PageTables.IsEntry 32 v (path w) (pml1Index w)

instance (v w : ℕ) : Decidable (SameEntry v w) := inferInstanceAs (Decidable (_ ∧ _))

/-- The hardware sees one entry for a page and for the page 16TB away. -/
theorem sameEntry_iff {v w : ℕ} (hv : Canonical v) (hw : Canonical w) :
    SameEntry v w ↔ SamePage w v ∨ SamePage w (shadowTwin v) := isEntry_iff hv hw

theorem SameEntry.refl (v : ℕ) : SameEntry v v := ⟨rfl, rfl⟩

/-! ### Translations -/

namespace PageTables

variable {s s' : PageTables}

theorem walk_eq_of_sameEntry (h : s.Sound 32) {v w : ℕ} (hvw : SameEntry v w) :
    s.walk w = s.walk v := by
  rw [walk_eq, walk_eq, hvw.2, PageTables.leaf, PageTables.leaf, PageTree.leaf, PageTree.leaf,
    h.linked.resolve_eq_of_canon hvw.1]

theorem Extends.walk_eq (h : Extends 32 s s') (v : ℕ) : s'.walk v = s.walk v :=
  h.leaf (path v) (pml1Index v) rfl

theorem Writes.walk_eq {v w : ℕ} {e : Entry} (h : Writes 32 v e s s') (hv : Canonical v)
    (hw : Canonical w) (he : e.present = true) (hsame : SamePage w v ∨ SamePage w (shadowTwin v)) :
    s'.walk w = some e := by
  rw [PageTables.walk_eq, h.leaf _ _ rfl, if_pos ((isEntry_iff hv hw).mpr hsame), if_pos he]

theorem Within.walk_eq {A : Set ℕ} {w : ℕ} (h : Within 32 A s s') (hw : Canonical w)
    (hA : ∀ v ∈ A, Canonical v ∧ ¬ SamePage w v ∧ ¬ SamePage w (shadowTwin v)) :
    s'.walk w = s.walk w := by
  apply h.leaf (path w) (pml1Index w) rfl
  intro v hv hentry
  obtain ⟨hcanon, hne, htwin⟩ := hA v hv
  rcases (isEntry_iff hcanon hw).mp hentry with h' | h'
  · exact hne h'
  · exact htwin h'

end PageTables

/-- The leaf that `virt_map_page` writes holds the whole frame number. -/
theorem leafEntry_eq {phys : ℕ} (hp : phys < 2 ^ 52) (flags : MapFlags) :
    PageTables.leafEntry phys flags = ⟨true, flags.permW, !flags.permX, phys >>> 12⟩ := by
  have hframe : phys >>> 12 < frameSize := by
    rw [Nat.shiftRight_eq_div_pow, frameSize]
    omega
  rw [PageTables.leafEntry, Nat.mod_eq_of_lt hframe]

/-- A page is mapped exactly: a success sets the translation of the page and of the
page that shares its tables, a failure sets none. -/
theorem map_page_exact {s : PageTables} (hs : Reachable s) {phys virt : ℕ} (hv : Canonical virt)
    (hp : phys < 2 ^ 52) (flags : MapFlags) (answers : List (Option ℕ))
    (ha : 3 ≤ answers.length) :
    ∃ err s', PageTables.virtMapPage { s with answers := answers } phys virt flags =
        .ok (err, s') ∧
      (err = none → s'.walk virt = some ⟨true, flags.permW, !flags.permX, phys >>> 12⟩ ∧
        ∀ other, Canonical other → ¬ SamePage other virt → ¬ SamePage other (shadowTwin virt) →
          s'.walk other = s.walk other) ∧
      (err ≠ none → ∀ other, s'.walk other = s.walk other) := by
  have hext := hs.sound.withAnswers answers
  obtain ⟨err, s', hr⟩ :=
    PageTables.virtMapPage_answered hext.sound (by omega) phys virt flags ha
  refine ⟨err, s', hr, ?_⟩
  rcases PageTables.virtMapPage_returns hext.sound (by omega) phys virt flags err s' hr with
    ⟨rfl, hw⟩ | ⟨rfl, he⟩
  · refine ⟨fun _ => ⟨?_, fun other ho hne htwin => ?_⟩, fun hn => absurd rfl hn⟩
    · rw [hw.walk_eq hv hv rfl (Or.inl rfl), leafEntry_eq hp]
    · have hwithin := hext.within.trans (hw.within (Set.mem_singleton virt))
      apply hwithin.walk_eq ho
      intro v hv'
      rw [Set.mem_singleton_iff.mp hv']
      exact ⟨hv, hne, htwin⟩
  · exact ⟨fun hn => (by cases hn), fun _ other => (hext.trans he).walk_eq other⟩

/-- The state a function leaves behind. -/
def stateOf {β : Type} (r : Result (β × PageTables)) : PageTables :=
  match r with
  | .ok (_, s) => s
  | .error _ => ⟨fun _ _ => .zero, 0, [], [], []⟩

theorem eq_ok_stateOf {β : Type} {r : Result (β × PageTables)} {x : β}
    (h : r.map Prod.fst = .ok x) : r = .ok (x, stateOf r) := by
  rcases r with f | ⟨y, s⟩
  · cases h
  · cases h
    rfl

theorem snd_ok {β : Type} {r : Result (β × PageTables)} {x : β} {s : PageTables}
    (h : r = .ok (x, s)) : Prod.snd <$> r = .ok s := by
  rw [h]
  rfl

/-- A kernel of one page of code. -/
def oneSegment : Boot where
  virtualBase := 0xFFFFFFFF80000000
  physicalBase := 0x200000
  phdrs := [⟨true, 0xFFFFFFFF80000000, 0x1000, false, true⟩]
  mem := fun _ _ => .zero

def pagesFrom (first n : ℕ) : List (Option ℕ) := (List.range n).map fun i => some (first + i)

/-- The state that initialisation leaves for `oneSegment`. -/
def booted : PageTables := stateOf (PageTables.initVirt oneSegment (pagesFrom 0x100 36))

theorem booted_reachable : Reachable booted :=
  ⟨oneSegment, pagesFrom 0x100 36, booted, eq_ok_stateOf (by decide +kernel), Reaches.refl booted⟩

/-- A managed mapping after initialisation. -/
theorem map_page_exact_booted :
    (PageTables.virtMapPage { booted with answers := pagesFrom 0x200 3 } 0x5000
      0xFFFF900000000000 ⟨true, false⟩).map Prod.fst = .ok none ∧
    ∃ err s', PageTables.virtMapPage { booted with answers := pagesFrom 0x200 3 } 0x5000
        0xFFFF900000000000 ⟨true, false⟩ = .ok (err, s') ∧
      (err = none → s'.walk 0xFFFF900000000000 = some ⟨true, true, true, 5⟩ ∧
        ∀ other, Canonical other → ¬ SamePage other 0xFFFF900000000000 →
          ¬ SamePage other (shadowTwin 0xFFFF900000000000) →
          s'.walk other = booted.walk other) ∧
      (err ≠ none → ∀ other, s'.walk other = booted.walk other) :=
  ⟨by decide +kernel,
    map_page_exact booted_reachable (by simp [Canonical, wordSize]) (by omega) ⟨true, false⟩
      (pagesFrom 0x200 3) (by simp [pagesFrom])⟩

end TomatOS.Virt
