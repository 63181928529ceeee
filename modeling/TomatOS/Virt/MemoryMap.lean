import TomatOS.Virt.Mapping

/-! The kernel memory map of `kernel/mem/memory.h` against the shadow that `init_virt`
sets up. The map puts the copy of the heap and of the stacks at `0xFFFFA00000000000`;
the shadow loop puts it 16TB above the direct map, which is where the managed
mappings are. Mapping a page there is harmless exactly where nothing is documented
16TB below. -/

namespace TomatOS.Virt

open Foundation Foundation.Transition

/-- The ranges of the memory map that hold something. -/
inductive MapRange where
  | directMap
  | gcHeap (order : Fin 27)
  | stack
  | smallStack
  | managedMappings
  | threadStructs
  | kernelHeap
  | kernel
  | jit
  deriving DecidableEq, Repr

namespace MapRange

/-- First and last address. -/
def bounds : MapRange → ℕ × ℕ
  | directMap => (0xFFFF800000000000, 0xFFFF807FFFFFFFFF)
  | gcHeap order => (0xFFFF810000000000 + order * 0x8000000000,
      0xFFFF817FFFFFFFFF + order * 0x8000000000)
  | stack => (0xFFFF8F0000000000, 0xFFFF8F7FFFFFFFFF)
  | smallStack => (0xFFFF8F8000000000, 0xFFFF8FFFFFFFFFFF)
  | managedMappings => (0xFFFF900000000000, 0xFFFF9F7FFFFFFFFF)
  | threadStructs => (0xFFFFB00000000000, 0xFFFFB07FFFFFFFFF)
  | kernelHeap => (0xFFFFC00000000000, 0xFFFFCFFFFFFFFFFF)
  | kernel => (0xFFFFFFFF80000000, 0xFFFFFFFF8FFFFFFF)
  | jit => (0xFFFFFFFF90000000, 0xFFFFFFFFFFFFFFFF)

def Contains (r : MapRange) (v : ℕ) : Prop := r.bounds.1 ≤ v ∧ v ≤ r.bounds.2

end MapRange

/-- The managed mappings 16TB above the reserved range and above the barrier. -/
def Spare (v : ℕ) : Prop :=
  (0xFFFF908000000000 ≤ v ∧ v < 0xFFFF910000000000) ∨
    (0xFFFF9E8000000000 ≤ v ∧ v < 0xFFFF9F0000000000)

/-- The calls that map pages of their own choice. -/
def Call.Maps : Call → Prop
  | mapPage _ _ _ | allocRange _ _ => True
  | _ => False

/-- Mapping within the set changes no translation of another range. -/
def Independent (P : Set ℕ) : Prop :=
  ∀ s, Reachable s → ∀ (c : Call) answers s', c.Maps → c.pages ⊆ P →
    step s (c, answers) = .ok s' → ∀ (r : MapRange) w, r ≠ .managedMappings → r.Contains w →
      s'.walk w = s.walk w

/-! ### Addresses -/

theorem canonical_of_contains {r : MapRange} {v : ℕ} (h : r.Contains v) : Canonical v := by
  simp only [MapRange.Contains, Canonical, wordSize] at h ⊢
  cases r with
  | gcHeap order =>
    have := order.isLt
    simp only [MapRange.bounds] at h
    omega
  | _ =>
    simp only [MapRange.bounds] at h
    omega

theorem shadowTwin_managed {v : ℕ} (h : MapRange.managedMappings.Contains v) :
    shadowTwin v = v - size16TB := by
  rcases shadowTwin_cases v with ⟨-, h2, -⟩ | ⟨-, -, ht⟩ | ⟨hn, -⟩
  · simp only [MapRange.Contains, MapRange.bounds, directMapOffset, size16TB] at h h2
    omega
  · exact ht
  · simp only [MapRange.Contains, MapRange.bounds, directMapOffset, size16TB] at h hn
    omega

/-- A spare page is apart from the other ranges, and so is its twin. -/
theorem apart_of_spare {v w : ℕ} {r : MapRange} (hv : MapRange.managedMappings.Contains v)
    (hs : Spare v) (hr : r ≠ .managedMappings) (hw : r.Contains w) :
    ¬ SamePage w v ∧ ¬ SamePage w (shadowTwin v) := by
  rw [shadowTwin_managed hv]
  simp only [MapRange.Contains, Spare, SamePage, pageSize, size16TB] at *
  cases r with
  | managedMappings => exact absurd rfl hr
  | gcHeap order =>
    have := order.isLt
    simp only [MapRange.bounds] at hv hw
    omega
  | _ =>
    simp only [MapRange.bounds] at hv hw
    omega

/-- Below every other managed page there is a documented range. -/
theorem documented_of_not_spare {v : ℕ} (hv : MapRange.managedMappings.Contains v)
    (hs : ¬ Spare v) : ∃ r : MapRange, r ≠ .managedMappings ∧ r.Contains (shadowTwin v) := by
  rw [shadowTwin_managed hv]
  simp only [MapRange.Contains, MapRange.bounds] at hv
  simp only [Spare, not_or, not_and, not_lt] at hs
  by_cases h1 : v < 0xFFFF908000000000
  · refine ⟨.directMap, by simp, ?_⟩
    simp only [MapRange.Contains, MapRange.bounds, size16TB]
    omega
  by_cases h2 : v < 0xFFFF9E8000000000
  · have horder : (v - 0xFFFF910000000000) / 0x8000000000 < 27 := by omega
    refine ⟨.gcHeap ⟨(v - 0xFFFF910000000000) / 0x8000000000, horder⟩, by simp, ?_⟩
    simp only [MapRange.Contains, MapRange.bounds, size16TB]
    omega
  · refine ⟨.stack, by simp, ?_⟩
    simp only [MapRange.Contains, MapRange.bounds, size16TB]
    omega

/-! ### Mappings that succeed -/

namespace PageTables

/-- The answers to come are unused pages. -/
structure Granted (s : PageTables) : Prop where
  nodup : s.answers.Nodup
  unused : ∀ a ∈ s.answers, ∃ page, a = some page ∧ page < frameSize ∧ page ∉ s.tables ∧
    page ∉ s.pages

variable {s : PageTables}

theorem granted_of {answers : List (Option ℕ)} (hn : answers.Nodup)
    (hu : ∀ a ∈ answers, ∃ page, a = some page ∧ page < frameSize ∧ page ∉ s.tables ∧
      page ∉ s.pages) : Granted { s with answers := answers } := ⟨hn, hu⟩

theorem Granted.physAlloc (h : s.Granted) (ha : s.answers ≠ []) :
    ∃ page answers, s.physAlloc = .ok (some page,
        { s with answers := answers, pages := page :: s.pages }) ∧
      s.answers = some page :: answers := by
  rw [PageTables.physAlloc]
  rcases hs : s.answers with _ | ⟨a, answers⟩
  · exact absurd hs ha
  · obtain ⟨page, rfl, hpage⟩ := h.unused a (by simp [hs])
    exact ⟨page, answers, by simp only [if_pos hpage], rfl⟩

theorem Granted.getNextLevel (h : s.Granted) (ha : s.answers ≠ []) (table index : ℕ) :
    ∃ t s', s.getNextLevel table index = .ok (some t, s') ∧ s'.Granted ∧
      s.answers.length ≤ s'.answers.length + 1 := by
  rw [PageTables.getNextLevel]
  cases hpres : (s.mem table index).present with
  | true => exact ⟨(s.mem table index).frame, s, rfl, h, by omega⟩
  | false =>
    obtain ⟨page, answers, hf, hs⟩ := h.physAlloc ha
    simp only [hf, bind, Except.bind, pure, Except.pure, Bool.false_eq_true, if_false]
    refine ⟨_, _, rfl, ⟨?_, fun a hmem => ?_⟩, ?_⟩
    · have hnodup := h.nodup
      rw [hs, List.nodup_cons] at hnodup
      exact hnodup.2
    · change a ∈ answers at hmem
      obtain ⟨page', rfl, hp, ht, hg⟩ := h.unused a (by simp [hs, hmem])
      have hne : page' ≠ page := by
        rintro rfl
        have hnodup := h.nodup
        rw [hs, List.nodup_cons] at hnodup
        exact hnodup.1 hmem
      exact ⟨page', rfl, hp, by simp [linkTable, hne, ht], by simp [linkTable, hg]⟩
    · simp [hs, linkTable]

theorem Granted.virtMapPage (h : s.Granted) (ha : 3 ≤ s.answers.length) (phys virt : ℕ)
    (flags : MapFlags) : ∃ s', s.virtMapPage phys virt flags = .ok (none, s') := by
  have hne : ∀ u : PageTables, 1 ≤ u.answers.length → u.answers ≠ [] := by
    intro u hu hn
    simp [hn] at hu
  rw [PageTables.virtMapPage, getPml1]
  obtain ⟨pml3, s₁, h1, hg₁, ha₁⟩ := h.getNextLevel (hne s (by omega)) s.cr3 (pml4Index virt)
  obtain ⟨pml2, s₂, h2, hg₂, ha₂⟩ := hg₁.getNextLevel (hne s₁ (by omega)) pml3 (pml3Index virt)
  obtain ⟨pml1, s₃, h3, -, -⟩ := hg₂.getNextLevel (hne s₂ (by omega)) pml2 (pml2Index virt)
  simp only [h1, h2, h3, bind, Except.bind, pure, Except.pure]
  exact ⟨_, rfl⟩

end PageTables

/-! ### Independence -/

theorem independent_of_spare {P : Set ℕ} (hP : ∀ v ∈ P, MapRange.managedMappings.Contains v)
    (hs : ∀ v ∈ P, Spare v) : Independent P := by
  intro s hreach c answers s' _ hc hstep r w hr hw
  apply (PageTables.step_within hreach.sound hstep).walk_eq (canonical_of_contains hw)
  intro v hv
  exact ⟨canonical_of_contains (hP v (hc hv)), apart_of_spare (hP v (hc hv)) (hs v (hc hv)) hr hw⟩

/-- Where pages are granted, mapping any page changes the translation of its twin for
one of two physical pages. -/
theorem twin_changes {s : PageTables} (hreach : Reachable s) {v : ℕ} (hv : Canonical v)
    {answers : List (Option ℕ)} (hg : PageTables.Granted { s with answers := answers })
    (ha : 3 ≤ answers.length) :
    ∃ phys flags s', step s (.mapPage phys v flags, answers) = .ok s' ∧
      s'.walk (shadowTwin v) ≠ s.walk (shadowTwin v) := by
  have hext := hreach.sound.withAnswers answers
  have hmaps : ∀ phys, phys < 2 ^ 52 → ∃ s',
      step s (.mapPage phys v ⟨true, false⟩, answers) = .ok s' ∧
      s'.walk (shadowTwin v) = some ⟨true, true, true, phys >>> 12⟩ := by
    intro phys hp
    obtain ⟨s', hs'⟩ := hg.virtMapPage ha phys v ⟨true, false⟩
    refine ⟨s', snd_ok hs', ?_⟩
    rcases PageTables.virtMapPage_returns hext.sound (by omega) phys v _ none s' hs' with
      ⟨-, hw⟩ | ⟨hn, -⟩
    · rw [hw.walk_eq hv (canonical_shadowTwin hv) rfl (Or.inr rfl), leafEntry_eq hp]
      rfl
    · cases hn
  by_cases hzero : s.walk (shadowTwin v) = some ⟨true, true, true, 0⟩
  · obtain ⟨s', hs', hw⟩ := hmaps 0x1000 (by omega)
    refine ⟨_, _, s', hs', ?_⟩
    rw [hw, hzero]
    simp
  · obtain ⟨s', hs', hw⟩ := hmaps 0 (by omega)
    refine ⟨_, _, s', hs', ?_⟩
    rw [hw]
    exact fun he => hzero he.symm

theorem booted_granted : PageTables.Granted { booted with answers := pagesFrom 0x200 3 } := by
  have hall : ∀ a ∈ pagesFrom 0x200 3, ∃ page ∈ List.range 0x203, a = some page ∧
      page < frameSize ∧ page ∉ booted.tables ∧ page ∉ booted.pages := by decide +kernel
  apply PageTables.granted_of (by decide)
  intro a ha
  obtain ⟨page, -, hpage⟩ := hall a ha
  exact ⟨page, hpage⟩

/-- Managed pages can be mapped without an effect elsewhere exactly if they are
spare. -/
theorem managed_independent_iff (P : Set ℕ) (hP : ∀ v ∈ P, MapRange.managedMappings.Contains v) :
    Independent P ↔ ∀ v ∈ P, Spare v := by
  refine ⟨fun hind v hv => ?_, independent_of_spare hP⟩
  by_contra hs
  obtain ⟨r, hr, hw⟩ := documented_of_not_spare (hP v hv) hs
  obtain ⟨phys, flags, s', hstep, hchange⟩ := twin_changes booted_reachable
    (canonical_of_contains (hP v hv)) booted_granted (by simp [pagesFrom])
  have hpages : Call.pages (.mapPage phys v flags) ⊆ P := by
    intro w hw'
    rw [Set.mem_singleton_iff.mp hw']
    exact hv
  exact hchange (hind booted booted_reachable (.mapPage phys v flags) _ s' trivial hpages hstep r _
    hr hw)

theorem spare_page_independent :
    MapRange.managedMappings.Contains 0xFFFF908000000000 ∧ Independent {0xFFFF908000000000} := by
  have hmanaged : MapRange.managedMappings.Contains 0xFFFF908000000000 := by
    simp [MapRange.Contains, MapRange.bounds]
  refine ⟨hmanaged, (managed_independent_iff _ fun v hv => ?_).mpr fun v hv => ?_⟩
  · rw [Set.mem_singleton_iff.mp hv]
    exact hmanaged
  · rw [Set.mem_singleton_iff.mp hv]
    simp [Spare]

/-- The first managed page is the first page of the direct map. -/
theorem managed_mapping_changes_direct_map :
    Reachable booted ∧ MapRange.managedMappings.Contains 0xFFFF900000000000 ∧
    MapRange.directMap.Contains 0xFFFF800000000000 ∧ booted.walk 0xFFFF800000000000 = none ∧
    (∃ s', step booted (.mapPage 0x5000 0xFFFF900000000000 ⟨true, false⟩, pagesFrom 0x200 3) =
        .ok s' ∧ s'.walk 0xFFFF800000000000 = some ⟨true, true, true, 5⟩) ∧
    ¬ Independent { v | MapRange.managedMappings.Contains v } := by
  have hmanaged : MapRange.managedMappings.Contains 0xFFFF900000000000 := by
    simp [MapRange.Contains, MapRange.bounds]
  have hdirect : MapRange.directMap.Contains 0xFFFF800000000000 := by
    simp [MapRange.Contains, MapRange.bounds]
  have hbefore : booted.walk 0xFFFF800000000000 = none := by decide +kernel
  have hafter : (step booted (.mapPage 0x5000 0xFFFF900000000000 ⟨true, false⟩,
      pagesFrom 0x200 3)).map (·.walk 0xFFFF800000000000) = .ok (some ⟨true, true, true, 5⟩) := by
    decide +kernel
  obtain ⟨s', hstep, hwalk⟩ := ok_of_map hafter
  refine ⟨booted_reachable, hmanaged, hdirect, hbefore, ⟨s', hstep, hwalk⟩, fun hind => ?_⟩
  have hsame := hind booted booted_reachable (.mapPage 0x5000 0xFFFF900000000000 ⟨true, false⟩) _
    s' trivial (fun v hv => by rw [Set.mem_singleton_iff.mp hv]; exact hmanaged) hstep .directMap
    _ (by simp) hdirect
  rw [hbefore, hwalk] at hsame
  cases hsame

end TomatOS.Virt
