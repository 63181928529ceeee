import TomatOS.Virt.Chain
import TomatOS.Virt.PageFault

/-! The shadow of the first 16TB of the upper half. `init_virt` copies 32 slots of the
root once, which keeps the copies right for ever because no slot of the root that is
there changes again and everything below is shared. The slots forbid execution, and
the copies of those of the GC heap forbid writing, whatever is mapped below them. -/

namespace TomatOS.Virt

open Foundation Foundation.PageTree Foundation.Transition

namespace PageTables

/-- The entries of all four levels that the hardware finds for an address. -/
def entries (s : PageTables) (virt : ℕ) : Option (List Entry) :=
  PageTree.trail Entry.link s.mem s.cr3
    [pml4Index virt, pml3Index virt, pml2Index virt, pml1Index virt]

/-- The address can be executed: it is mapped and no level forbids it. -/
def Executable (s : PageTables) (virt : ℕ) : Prop :=
  ∃ es, s.entries virt = some es ∧ ∀ e ∈ es, e.noExecute = false

/-- The address can be written: it is mapped and every level allows it. -/
def Writable (s : PageTables) (virt : ℕ) : Prop :=
  ∃ es, s.entries virt = some es ∧ ∀ e ∈ es, e.writeable = true

variable {k : ℕ} {P : Entry → Prop} {A : Set ℕ} {s s' : PageTables}

theorem not_executable {virt : ℕ} (h : (s.mem s.cr3 (pml4Index virt)).noExecute = true) :
    ¬ s.Executable virt := by
  rintro ⟨es, hes, hall⟩
  rw [hall _ (mem_trail hes)] at h
  cases h

theorem not_writable {virt : ℕ} (h : (s.mem s.cr3 (pml4Index virt)).writeable = false) :
    ¬ s.Writable virt := by
  rintro ⟨es, hes, hall⟩
  rw [hall _ (mem_trail hes)] at h
  cases h

end PageTables

/-- The segments of the kernel lie in the top 2GB. -/
def Boot.Top (b : Boot) : Prop :=
  ∀ ph ∈ b.phdrs, ph.load = true → 0xFFFFFFFF80000000 ≤ ph.vaddr ∧ ph.vaddr + ph.memsz ≤ wordSize

/-- The pages of such a segment go through the last slot of the root. -/
theorem pml4Index_segment {b : Boot} {ph : Phdr} (hlow : 0xFFFFFFFF80000000 ≤ ph.vaddr)
    (hhigh : ph.vaddr + ph.memsz ≤ wordSize) {j : ℕ} (hj : j < PageTables.segmentPages b ph) :
    pml4Index (PageTables.pageAt ph.vaddr j) = 511 := by
  have hlen : (b.toPhys ((ph.vaddr + ph.memsz) % wordSize) +
      (wordSize - b.toPhys ph.vaddr)) % wordSize = ph.memsz := by
    simp only [Boot.toPhys, wordSize] at hhigh ⊢
    omega
  rw [PageTables.segmentPages, hlen] at hj
  simp only [wordSize, pageSize, PageTables.pageAt, pml4Index, Nat.shiftRight_eq_div_pow] at *
  omega

namespace PageTables

variable {k : ℕ} {P : Entry → Prop} {A : Set ℕ} {s s' : PageTables}

/-! ### The slots of the root -/

/-- What the first `n` rounds of the shadow loop have made of the root. -/
structure Shadowed (n : ℕ) (s : PageTables) : Prop where
  low : ∀ j < n, (s.mem s.cr3 (256 + j)).present = true ∧
    (s.mem s.cr3 (256 + j)).noExecute = true
  high : ∀ j < n, (s.mem s.cr3 (288 + j)).present = true ∧
    (s.mem s.cr3 (288 + j)).noExecute = true
  barrier : ∀ j < n, 2 ≤ j → j < 29 → (s.mem s.cr3 (288 + j)).writeable = false

/-- Slots that are there stay, so this is kept. -/
theorem Chain.shadowed {n : ℕ} (h : s.Sound k) (hk : k ≤ 32) (hs : Chain P A s s')
    (hn : s.Shadowed n) : s'.Shadowed n := by
  have hlow : ∀ j < n, s'.mem s'.cr3 (256 + j) = s.mem s.cr3 (256 + j) :=
    fun j hj => hs.root h hk (.inl (hn.low j hj).1)
  have hhigh : ∀ j < n, s'.mem s'.cr3 (288 + j) = s.mem s.cr3 (288 + j) :=
    fun j hj => hs.root h hk (.inl (hn.high j hj).1)
  constructor
  · intro j hj
    rw [hlow j hj]
    exact hn.low j hj
  · intro j hj
    rw [hhigh j hj]
    exact hn.high j hj
  · intro j hj
    rw [hhigh j hj]
    exact hn.barrier j hj

/-- The slots of the shadowed range that are still to come. -/
def Untouched (i : ℕ) (s : PageTables) : Prop :=
  ∀ slot, 256 + i ≤ slot → slot < 288 → (s.mem s.cr3 slot).present = false

/-- The copy of a slot changes the root in one place. -/
theorem shadowCopy_root (i : ℕ) (t : PageTables) (slot : ℕ) :
    (shadowCopy i t).mem (shadowCopy i t).cr3 slot =
      if slot = 288 + i then { t.mem t.cr3 (256 + i) with
        writeable := (t.mem t.cr3 (256 + i)).writeable &&
          !inGcHeap (directMapOffset + i * size512GB) }
      else t.mem t.cr3 slot := by
  show PageTree.write t.mem t.cr3 (288 + i) _ t.cr3 slot = _
  rw [write_apply]
  simp only [true_and]

theorem inGcHeap_of_slot {i : ℕ} (h2 : 2 ≤ i) (h29 : i < 29) :
    inGcHeap (directMapOffset + i * size512GB) = true := by
  simp only [inGcHeap, directMapOffset, size512GB, Bool.and_eq_true]
  constructor
  · apply decide_eq_true
    omega
  · apply decide_eq_true
    omega

theorem Filled.shadowed {i : ℕ} {t : PageTables} (h : Filled i s t) (hs : s.Shadowed i)
    (hfree : s.Untouched i) (hi : i < 32) :
    (shadowCopy i t).Shadowed (i + 1) ∧ (shadowCopy i t).Untouched (i + 1) := by
  obtain ⟨frame, hnew⟩ := h.new (hfree (256 + i) le_rfl (by omega))
  have hroot := shadowCopy_root i t
  have hold : ∀ slot, slot ≠ 256 + i → slot ≠ 288 + i →
      (shadowCopy i t).mem (shadowCopy i t).cr3 slot = s.mem s.cr3 slot := by
    intro slot h1 h2
    rw [hroot, if_neg h2, h.rest slot h1]
  refine ⟨⟨?_, ?_, ?_⟩, ?_⟩
  · intro j hj
    by_cases hji : j = i
    · rw [hji, hroot, if_neg (by omega), hnew]
      exact ⟨rfl, rfl⟩
    · rw [hold _ (by omega) (by omega)]
      exact hs.low j (by omega)
  · intro j hj
    by_cases hji : j = i
    · rw [hji, hroot, if_pos rfl, hnew]
      exact ⟨rfl, rfl⟩
    · rw [hold _ (by omega) (by omega)]
      exact hs.high j (by omega)
  · intro j hj h2 h29
    by_cases hji : j = i
    · subst hji
      rw [hroot, if_pos rfl, hnew, inGcHeap_of_slot h2 h29]
      rfl
    · rw [hold _ (by omega) (by omega)]
      exact hs.barrier j (by omega) h2 h29
  · intro slot h1 h2
    rw [hold slot (by omega) (by omega)]
    exact hfree slot (by omega) h2

theorem shadowRounds_shadowed {n i : ℕ} (h : s.Sound i) (hi : i + n ≤ 32) (hs : s.Shadowed i)
    (hfree : s.Untouched i) :
    Returns (shadowRounds n i s) fun err s' => err = none → s'.Shadowed (i + n) := by
  induction n generalizing i s with
  | zero => exact .ok fun _ => hs
  | succ n ih =>
    refine (shadowRound_returns h (by omega)).bind ?_
    rintro err s₁ (⟨rfl, t, hfilled, rfl⟩ | ⟨rfl, -⟩)
    · obtain ⟨hs', hfree'⟩ := hfilled.shadowed hs hfree (by omega)
      have hrest := ih (hfilled.copy_sound (by omega)) (by omega) hs' hfree'
      rwa [show i + (n + 1) = i + 1 + n by omega]
    · exact .ok fun hn => (by cases hn)

/-- With the kernel in the top 2GB, initialisation finds the shadowed slots empty and
fills all of them. -/
theorem initVirt_shadowed {b : Boot} (hb : b.Top) (answers : List (Option ℕ)) :
    Returns (initVirt b answers) fun err s => err = none → s.Shadowed 32 := by
  rw [initVirt]
  refine (physAlloc_allocated ⟨b.mem, 0, [], [], answers⟩).bind ?_
  rintro _ _ (⟨answers'⟩ | ⟨root, answers', -⟩)
  · exact .ok fun hn => (by cases hn)
  · have hroot := sound_root b.mem root [] answers'
    have hlast : ∀ ph ∈ b.phdrs, ph.load = true → ∀ j < segmentPages b ph,
        pageAt ph.vaddr j ∈ { v | pml4Index v = 511 } := by
      intro ph hph hload j hj
      exact pml4Index_segment (hb ph hph hload).1 (hb ph hph hload).2 hj
    refine (mapSegments_chain (P := fun _ => True) hroot (by omega) hlast
      fun _ _ _ _ => trivial).bind ?_
    rintro (_ | err) s₁ h₁
    swap
    · exact .ok fun hn => (by cases hn)
    have hempty : s₁.Untouched 0 := by
      intro slot h1 h2
      rw [h₁.root hroot (by omega) (.inr fun v hv hslot => ?_)]
      · simp [Entry.zero]
      · have hv : pml4Index v = 511 := hv
        omega
    have hnone : s₁.Shadowed 0 :=
      ⟨fun j hj => by omega, fun j hj => by omega, fun j hj => by omega⟩
    exact shadowRounds_shadowed (h₁.sound hroot (by omega))
      (le_of_eq (by decide : 0 + shadowSlots = 32)) hnone hempty

/-! ### Runs -/

theorem chain_of_snd {β : Type} {r : Result (β × PageTables)}
    (h : Returns r fun _ s' => Chain P A s s') (hr : Prod.snd <$> r = .ok s') : Chain P A s s' := by
  obtain ⟨⟨x, t⟩, rfl, rfl⟩ := ok_of_map hr
  exact h x t rfl

theorem call_chain (h : s.Sound k) (hk : k ≤ 32) (c : Call) (hc : c.run s = .ok s') :
    Chain (fun _ => True) Set.univ s s' := by
  cases c with
  | mapPage phys virt flags =>
    exact chain_of_snd (virtMapPage_chain h hk (Set.mem_univ _) trivial) hc
  | mapRange phys virt pageCount flags =>
    exact chain_of_snd
      (virtMapRange_chain h hk (fun _ _ => Set.mem_univ _) fun _ => trivial) hc
  | allocRange virt pageCount =>
    exact chain_of_snd
      (virtAllocRange_chain h hk (fun _ => Set.mem_univ _) (fun _ => trivial) trivial) hc
  | remapRange virt pageCount flags =>
    exact chain_of_snd (remapPages_chain h hk (fun _ => Set.mem_univ _) fun _ => trivial) hc
  | isMapped virt => exact chain_of_snd (virtIsMapped_chain h hk (Set.mem_univ _)) hc
  | pageFault addr =>
    exact chain_of_snd (virtHandlePageFault_chain h hk (Set.mem_univ _) fun _ => trivial) hc

theorem step_chain (h : s.Sound k) (hk : k ≤ 32) {c : Call × List (Option ℕ)}
    (hc : step s c = .ok s') : Chain (fun _ => True) Set.univ s s' := by
  have hanswers : Chain (fun _ => True) Set.univ s { s with answers := c.2 } :=
    (Small.frames s.pages c.2).chain
  exact hanswers.trans (call_chain (hanswers.sound h hk) hk c.1 hc)

end PageTables

theorem resolve_shadow {s : PageTables} (h : s.Sound 32) {a : ℕ} (ha : directMapOffset ≤ a)
    (ha' : a < directMapOffset + size16TB) :
    s.resolve (path a) = s.resolve (path (a + size16TB)) ∧
      pml1Index a = pml1Index (a + size16TB) := by
  have hlow : shadowTwin a = a + size16TB := if_pos ⟨ha, ha'⟩
  have hlower := lower_shadowTwin a
  have hcanon : Canonical a := by
    simp only [Canonical, wordSize, directMapOffset, size16TB] at ha ha' ⊢
    omega
  have hentry := (isEntry_iff hcanon (canonical_shadowTwin hcanon)).mpr (.inr rfl)
  rw [hlow] at hlower hentry
  exact ⟨(h.linked.resolve_eq_of_canon hentry.1).symm, hentry.2.symm⟩

/-- In every run after a successful initialisation, an address of the first 16TB of the
upper half and the address 16TB above it have the same page entry or none, neither can be
executed, and where the first is in the GC heap the second cannot be written. -/
theorem shadow_coherent {b : Boot} (hb : b.Top) {answers : List (Option ℕ)} {s₀ s : PageTables}
    (hinit : PageTables.initVirt b answers = .ok (none, s₀))
    (hrun : Reaches step (fun _ _ => True) s₀ s) {a : ℕ} (ha : 0xFFFF800000000000 ≤ a)
    (ha' : a < 0xFFFF900000000000) :
    (s.resolve (path a) = s.resolve (path (a + size16TB)) ∧
      pml1Index a = pml1Index (a + size16TB) ∧ s.walk a = s.walk (a + size16TB)) ∧
    ¬ s.Executable a ∧ ¬ s.Executable (a + size16TB) ∧
    (0xFFFF810000000000 ≤ a → a < 0xFFFF8E8000000000 → ¬ s.Writable (a + size16TB)) := by
  have hinv : s.Sound 32 ∧ s.Shadowed 32 := by
    apply hrun.invariant (motive := fun s => s.Sound 32 ∧ s.Shadowed 32)
    · exact ⟨PageTables.initVirt_sound b answers none s₀ hinit rfl,
        PageTables.initVirt_shadowed hb answers none s₀ hinit rfl⟩
    · intro u c v hu _ hv
      have hchain := PageTables.step_chain hu.1 le_rfl hv
      exact ⟨hchain.sound hu.1 le_rfl, hchain.shadowed hu.1 le_rfl hu.2⟩
  have htables := resolve_shadow hinv.1 (a := a) (by simpa [directMapOffset] using ha)
    (by simpa [directMapOffset, size16TB] using ha')
  have hslot : ∃ j < 32, pml4Index a = 256 + j ∧ pml4Index (a + size16TB) = 288 + j ∧
      (0xFFFF810000000000 ≤ a → a < 0xFFFF8E8000000000 → 2 ≤ j ∧ j < 29) := by
    refine ⟨pml4Index a - 256, ?_⟩
    simp only [pml4Index, Nat.shiftRight_eq_div_pow, size16TB]
    omega
  obtain ⟨j, hj, hlow, hhigh, hgc⟩ := hslot
  refine ⟨⟨htables.1, htables.2, ?_⟩, ?_, ?_, ?_⟩
  · rw [PageTables.walk_eq, PageTables.walk_eq, PageTables.leaf, PageTables.leaf, PageTree.leaf,
      PageTree.leaf, htables.2]
    rw [show PageTree.resolve _ _ _ _ = _ from htables.1]
    rfl
  · apply PageTables.not_executable
    rw [hlow]
    exact (hinv.2.low j hj).2
  · apply PageTables.not_executable
    rw [hhigh]
    exact (hinv.2.high j hj).2
  · intro h1 h2
    apply PageTables.not_writable
    rw [hhigh]
    exact hinv.2.barrier j hj (hgc h1 h2).1 (hgc h1 h2).2

/-- The first page of the GC heap after a fault on it: mapped and writable, with a shadow
that is mapped and not writable. -/
theorem gc_heap_shadow :
    (gcHeapMapped.walk 0xFFFF810000000000 = some ⟨true, true, true, 0x200⟩ ∧
      gcHeapMapped.walk 0xFFFF910000000000 = some ⟨true, true, true, 0x200⟩) ∧
    ¬ gcHeapMapped.Executable 0xFFFF810000000000 ∧
    ¬ gcHeapMapped.Executable 0xFFFF910000000000 ∧ ¬ gcHeapMapped.Writable 0xFFFF910000000000 := by
  have hinit : PageTables.initVirt oneSegment (pagesFrom 0x100 36) = .ok (none, booted) :=
    eq_ok_stateOf (by decide +kernel)
  have hfault : PageTables.virtHandlePageFault { booted with answers := pagesFrom 0x200 4 }
      0xFFFF810000000000 = .ok (true, gcHeapMapped) := eq_ok_stateOf (by decide +kernel)
  have hrun : Reaches step (fun _ _ => True) booted gcHeapMapped :=
    (Reaches.refl booted).snoc (.pageFault 0xFFFF810000000000, pagesFrom 0x200 4) trivial
      (snd_ok hfault)
  have hwalk : gcHeapMapped.walk 0xFFFF810000000000 = some ⟨true, true, true, 0x200⟩ := by
    decide +kernel
  have hshadow := shadow_coherent (b := oneSegment) (by simp [Boot.Top, oneSegment, wordSize]) hinit
    hrun (a := 0xFFFF810000000000) (by omega) (by omega)
  refine ⟨⟨hwalk, ?_⟩, hshadow.2.1, hshadow.2.2.1, hshadow.2.2.2 (by omega) (by omega)⟩
  rw [← hwalk]
  exact hshadow.1.2.2.symm

end TomatOS.Virt
