import Mathlib.Data.List.Pairwise
import TomatOS.Virt.MapRange
import TomatOS.Virt.OpenTables

/-! The segments of the kernel. `init_virt` maps as many pages as the length of a segment
asks for, starting with the page of its first byte, whatever the offset in that page. So
a byte of the last page is mapped exactly if the offset and the length together need no
page more than the length alone. -/

namespace TomatOS.Virt

open Foundation Foundation.PageTree Foundation.Transition

namespace Phdr

/-- A byte of a segment that is loaded. -/
def Holds (ph : Phdr) (v : ℕ) : Prop := ph.load = true ∧ ph.vaddr ≤ v ∧ v < ph.vaddr + ph.memsz

/-- Segments that touch different pages. -/
def Apart (ph ph' : Phdr) : Prop := ∀ v v', ph.Holds v → ph'.Holds v' → ¬ SamePage v v'

/-- The number of pages that the length alone asks for. -/
def pages (ph : Phdr) : ℕ := (ph.memsz + (pageSize - 1)) / pageSize

end Phdr

namespace PageTables

/-- Every byte of the segments is mapped to its physical address, with the permissions of
its segment. -/
def SegmentsMapped (b : Boot) (s : PageTables) : Prop :=
  ∀ ph ∈ b.phdrs, ∀ v, ph.Holds v → Canonical v ∧
    (∃ e, s.walk v = some e ∧ e.frame * pageSize + v % pageSize = b.toPhys v) ∧
    (s.Writable v ↔ ph.flagW = true) ∧ (s.Executable v ↔ ph.flagX = true)

end PageTables

/-- Every byte of the segments is on one of the pages that are mapped, can be addressed,
and does not lie where the shadow of the first 16TB goes. -/
def Boot.Covered (b : Boot) : Prop :=
  ∀ ph ∈ b.phdrs, ∀ v, ph.Holds v → Canonical v ∧ b.toPhys v < 2 ^ 52 ∧
    ¬ (directMapOffset + size16TB ≤ v ∧ v < directMapOffset + 2 * size16TB) ∧
    v / pageSize < ph.vaddr / pageSize + ph.pages

/-! ### What the loop writes -/

theorem Boot.toPhys_lt (b : Boot) (x : ℕ) : b.toPhys x < wordSize :=
  Nat.mod_lt _ (by decide)

theorem Boot.toPhys_mod (b : Boot) (x : ℕ) : b.toPhys (x % wordSize) = b.toPhys x := by
  rw [toPhys, toPhys, Nat.add_assoc, Nat.add_assoc, Nat.mod_add_mod]

namespace PageTables

variable {k : ℕ} {s s' : PageTables} {b : Boot} {ph : Phdr}

def segmentWrites (b : Boot) (ph : Phdr) : List (ℕ × Option Entry) :=
  if ph.load then rangeWrites (b.toPhys ph.vaddr) ph.vaddr ⟨ph.flagW, ph.flagX⟩ 0
    (segmentPages b ph) else []

theorem mapSegments_wrote (h : s.Sound k) (hk : k ≤ 32) (b : Boot) (phdrs : List Phdr) :
    Returns (mapSegments b phdrs s) fun err s' =>
      err = none → Wrote k (phdrs.flatMap (segmentWrites b)) s s' := by
  induction phdrs generalizing s with
  | nil => exact .ok fun _ => (Extends.refl h).wrote
  | cons ph phdrs ih =>
    rw [mapSegments, List.flatMap_cons, segmentWrites]
    split
    · split
      · exact .ok fun hn => by cases hn
      · refine (mapPages_wrote h hk _ _ _ (segmentPages b ph) 0).bind ?_
        rintro (_ | err) s₁ h₁
        · exact (ih (h₁ rfl).sound).mono fun err s₂ h₂ hn => (h₁ rfl).trans (h₂ hn)
        · exact .ok fun hn => by cases hn
    · exact ih h

theorem segment_bounds (hcanon : ∀ v, ph.Holds v → Canonical v) (hload : ph.load = true)
    (hpos : 0 < ph.memsz) : ph.vaddr + ph.memsz ≤ 2 ^ 47 ∨
      wordSize - 2 ^ 47 ≤ ph.vaddr ∧ ph.vaddr + ph.memsz ≤ wordSize := by
  have hfirst := hcanon ph.vaddr ⟨hload, le_rfl, by omega⟩
  have hlast := hcanon (ph.vaddr + ph.memsz - 1) ⟨hload, by omega, by omega⟩
  have hgap : ¬ (ph.vaddr ≤ 2 ^ 47 ∧ 2 ^ 47 < ph.vaddr + ph.memsz) := by
    intro hin
    have hmid := hcanon (2 ^ 47) ⟨hload, hin.1, hin.2⟩
    simp only [Canonical, wordSize] at hmid
    omega
  simp only [Canonical, wordSize] at hfirst hlast ⊢
  omega

theorem mem_segmentWrites (hcanon : ∀ v, ph.Holds v → Canonical v) {x : ℕ × Option Entry} :
    x ∈ segmentWrites b ph ↔ ∃ j < ph.pages, ph.Holds (ph.vaddr + j * pageSize) ∧
      x = (ph.vaddr + j * pageSize,
        some (leafEntry (b.toPhys (ph.vaddr + j * pageSize)) ⟨ph.flagW, ph.flagX⟩)) := by
  rw [segmentWrites]
  rcases hload : ph.load with _ | _
  · simp [Phdr.Holds, hload]
  rw [if_pos rfl, mem_rangeWrites]
  rcases Nat.eq_zero_or_pos ph.memsz with h0 | hpos
  · have hnone : segmentPages b ph = 0 ∧ ph.pages = 0 := by
      have hlt := b.toPhys_lt ph.vaddr
      rw [segmentPages, Phdr.pages, h0, Nat.add_zero, b.toPhys_mod,
        Nat.add_sub_cancel' (le_of_lt hlt), Nat.mod_self]
      decide
    rw [hnone.1, hnone.2]
    simp
  have hbounds := segment_bounds hcanon hload hpos
  have hcount : segmentPages b ph = ph.pages := by
    simp only [segmentPages, Phdr.pages, Boot.toPhys, wordSize, pageSize] at hbounds ⊢
    omega
  have hpage : ∀ j < ph.pages, ph.Holds (ph.vaddr + j * pageSize) ∧
      pageAt ph.vaddr j = ph.vaddr + j * pageSize ∧
      pageAt (b.toPhys ph.vaddr) j = b.toPhys (ph.vaddr + j * pageSize) := by
    intro j hj
    simp only [Phdr.pages, pageSize] at hj
    refine ⟨⟨hload, by omega, ?_⟩, ?_, ?_⟩
    · simp only [pageSize]
      omega
    · simp only [pageAt, pageSize, wordSize] at hbounds ⊢
      omega
    · simp only [pageAt, Boot.toPhys, pageSize, wordSize] at hbounds ⊢
      omega
  rw [hcount]
  constructor
  · rintro ⟨j, -, hj, rfl⟩
    rw [Nat.zero_add] at hj
    obtain ⟨hholds, hvirt, hphys⟩ := hpage j hj
    exact ⟨j, hj, hholds, by rw [hvirt, hphys]⟩
  · rintro ⟨j, hj, hholds, rfl⟩
    obtain ⟨-, hvirt, hphys⟩ := hpage j hj
    exact ⟨j, Nat.zero_le j, by rwa [Nat.zero_add], by rw [hvirt, hphys]⟩

/-! ### After initialisation -/

/-- The state `s` after initialisation and the state `t` before its shadow loop. -/
structure Loaded (b : Boot) (t s : PageTables) : Prop where
  opened : t.Open
  leaf : ∀ p i, p.length = 3 → t.leaf p i =
    overwrite (fun virt (c : List ℕ × ℕ) => IsEntry 0 virt c.1 c.2) (p, i)
      (b.phdrs.flatMap (segmentWrites b)) none
  shadowed : ∀ slot p i, p.length = 2 → s.leaf (slot :: p) i = t.leaf (shadowOf 32 slot :: p) i
  entries : ∀ virt es, t.entries virt = some es →
    ¬ (288 ≤ pml4Index virt ∧ pml4Index virt < 320) → s.entries virt = some es

theorem initVirt_loaded (b : Boot) (answers : List (Option ℕ)) :
    Returns (initVirt b answers) fun err s => err = none → ∃ t, Loaded b t s := by
  rw [initVirt]
  refine (physAlloc_allocated ⟨b.mem, 0, [], [], answers⟩).bind ?_
  rintro _ _ (⟨answers'⟩ | ⟨root, answers', -⟩)
  · exact .ok fun hn => by cases hn
  have hroot := sound_root b.mem root [] answers'
  have hzero : ∀ i, Function.update b.mem root (fun _ => Entry.zero) root i = .zero := by
    intro i
    rw [Function.update_self]
  have hnone := entries_root (P := fun _ => False)
    (s := ⟨Function.update b.mem root fun _ => .zero, root, [root], [], answers'⟩) hzero
  refine ((mapSegments_wrote hroot (by omega) b b.phdrs).and
    (mapSegments_open hroot (by omega) (open_root hzero) b b.phdrs)).bind ?_
  rintro (_ | err) t ⟨hwrote, hopen⟩
  swap
  · exact .ok fun hn => by cases hn
  have hw := hwrote rfl
  have hslots : 0 + shadowSlots ≤ 32 := le_of_eq (by decide)
  refine ((shadowRounds_leaf hw.sound hslots).and (shadowRounds_entries hw.sound hslots)).mono ?_
  rintro err s ⟨hleaf, hentries⟩ hn
  refine ⟨t, hopen, fun p i hp => ?_, hleaf hn, hentries hn⟩
  rw [hw.leaf p i hp]
  congr 1
  exact Option.eq_none_iff_forall_ne_some.mpr fun e he => hnone p i e hp he

/-- Before the shadow loop addresses share a page entry on one page only. -/
theorem isEntry_zero_iff {v w : ℕ} (hv : Canonical v) (hw : Canonical w) :
    IsEntry 0 v (path w) (pml1Index w) ↔ SamePage w v := by
  have hcanon : ∀ p, canon (shadowOf 0) p = p := by
    intro p
    rw [shadowOf_zero]
    cases p <;> rfl
  rw [IsEntry, hcanon, hcanon]
  constructor
  · rintro ⟨hp, h1⟩
    simp only [path, List.cons.injEq, and_true] at hp
    exact samePage_of_indices hw hv hp.1 hp.2.1 hp.2.2 h1
  · exact indices_of_samePage

variable {t : PageTables}

/-- The page entry of an address is that of the page of a segment, or there is none. -/
theorem Loaded.walk_cases (h : Loaded b t s) (hcanon : ∀ ph ∈ b.phdrs, ∀ v, ph.Holds v → Canonical v)
    {w : ℕ} (hw : Canonical w) :
    (∃ ph ∈ b.phdrs, ∃ j < ph.pages, ph.Holds (ph.vaddr + j * pageSize) ∧
      SamePage w (ph.vaddr + j * pageSize) ∧ t.walk w =
        some (leafEntry (b.toPhys (ph.vaddr + j * pageSize)) ⟨ph.flagW, ph.flagX⟩)) ∨
    (∀ ph ∈ b.phdrs, ∀ j < ph.pages, ph.Holds (ph.vaddr + j * pageSize) →
      ¬ SamePage w (ph.vaddr + j * pageSize)) ∧ t.walk w = none := by
  have hleaf := h.leaf (path w) (pml1Index w) rfl
  rcases overwrite_cases (fun virt (c : List ℕ × ℕ) => IsEntry 0 virt c.1 c.2)
    (path w, pml1Index w) (b.phdrs.flatMap (segmentWrites b)) none with
    ⟨hnone, heq⟩ | ⟨x, hx, hn, heq⟩
  · refine .inr ⟨fun ph hph j hj hholds hsame => ?_, hleaf.trans heq⟩
    have hin := List.mem_flatMap.mpr ⟨ph, hph,
      (mem_segmentWrites (b := b) (hcanon ph hph)).mpr ⟨j, hj, hholds, rfl⟩⟩
    exact hnone _ hin ((isEntry_zero_iff (hcanon ph hph _ hholds) hw).mpr hsame)
  · obtain ⟨ph, hph, hxph⟩ := List.mem_flatMap.mp hx
    obtain ⟨j, hj, hholds, rfl⟩ := (mem_segmentWrites (hcanon ph hph)).mp hxph
    exact .inl ⟨ph, hph, j, hj, hholds, (isEntry_zero_iff (hcanon ph hph _ hholds) hw).mp hn,
      hleaf.trans heq⟩

/-- The shadow loop moves translations to the shadow only. -/
theorem Loaded.walk_eq (h : Loaded b t s) {v : ℕ} (hv : Canonical v) :
    s.walk v = if directMapOffset + size16TB ≤ v ∧ v < directMapOffset + 2 * size16TB then
      t.walk (v - size16TB) else t.walk v := by
  have hslot := (slot_of_canonical hv).2
  rw [PageTables.walk_eq, path, h.shadowed _ _ _ rfl, shadowOf]
  split_ifs with h1 h2 h2
  · have htwin : shadowTwin v = v - size16TB := by
      have hcases := shadowTwin_cases v
      omega
    have h4 := pml4Index_shadowTwin hv
    have hlower := lower_shadowTwin v
    rw [if_neg (by omega), if_pos h1] at h4
    rw [htwin] at h4 hlower
    rw [PageTables.walk_eq, path, h4, hlower.1, hlower.2.1, hlower.2.2]
  · exact absurd (hslot.mpr h1) h2
  · exact absurd (hslot.mp h2) h1
  · rfl

end PageTables

/-! ### The segments -/

theorem toPhys_page {b : Boot} (hbase : b.virtualBase % pageSize = b.physicalBase % pageSize)
    {v u : ℕ} (h : SamePage v u) :
    b.toPhys u / pageSize = b.toPhys v / pageSize ∧ b.toPhys v % pageSize = v % pageSize := by
  simp only [SamePage, Boot.toPhys, pageSize, wordSize] at *
  omega

theorem eq_of_samePage {b : Boot} (hapart : b.phdrs.Pairwise Phdr.Apart) {ph ph' : Phdr}
    (hph : ph ∈ b.phdrs) (hph' : ph' ∈ b.phdrs) {v v' : ℕ} (hv : ph.Holds v) (hv' : ph'.Holds v')
    (hsame : SamePage v v') : ph = ph' := by
  by_contra hne
  have hsymm : Std.Symm Phdr.Apart := ⟨fun _ _ hab v v' hv hv' hs => hab v' v hv' hv hs.symm⟩
  exact hapart.forall hph hph' hne v v' hv hv' hsame

section Segments

variable {b : Boot} {s t : PageTables}

open PageTables

theorem byte_mapped (hbase : b.virtualBase % pageSize = b.physicalBase % pageSize)
    (hapart : b.phdrs.Pairwise Phdr.Apart) (hl : Loaded b t s) (hcov : b.Covered) {ph : Phdr}
    (hph : ph ∈ b.phdrs) {v : ℕ} (hv : ph.Holds v) :
    (∃ e, s.walk v = some e ∧ e.frame * pageSize + v % pageSize = b.toPhys v) ∧
      (s.Writable v ↔ ph.flagW = true) ∧ (s.Executable v ↔ ph.flagX = true) := by
  have hcanon : ∀ ph ∈ b.phdrs, ∀ v, ph.Holds v → Canonical v :=
    fun ph hph v hv => (hcov ph hph v hv).1
  obtain ⟨hvc, hlow, hout, hlast⟩ := hcov ph hph v hv
  have hwalk := hl.walk_eq hvc
  rw [if_neg hout] at hwalk
  rcases hl.walk_cases hcanon hvc with ⟨ph', hph', j, hj, hu, hsame, hmap⟩ | ⟨hnone, -⟩
  · obtain rfl := eq_of_samePage hapart hph hph' hv hu hsame
    have hphys := toPhys_page hbase hsame
    obtain ⟨es, hes, hopen⟩ := hl.opened.entries hmap
    have hslot : ¬ (288 ≤ pml4Index v ∧ pml4Index v < 320) :=
      mt (slot_of_canonical hvc).2.mpr hout
    obtain ⟨hw, hx⟩ := permissions_of_entries (hl.entries v _ hes hslot) hopen
    refine ⟨⟨_, hwalk.trans hmap, ?_⟩, hw, hx.trans ?_⟩
    · simp only [leafEntry, Nat.shiftRight_eq_div_pow, frameSize, pageSize] at hphys ⊢
      omega
    · simp [leafEntry]
  · -- the page of the byte is one of those mapped
    obtain ⟨hload, hfirst, hend⟩ := hv
    have hidx : v / pageSize = ph.vaddr / pageSize + (v / pageSize - ph.vaddr / pageSize) := by
      simp only [pageSize]
      omega
    have hj : v / pageSize - ph.vaddr / pageSize < ph.pages := by omega
    refine absurd ?_ (hnone ph hph _ hj ⟨hload, by omega, ?_⟩)
    · simp only [SamePage, pageSize] at hidx ⊢
      omega
    · simp only [Phdr.pages, pageSize] at hj ⊢
      omega

theorem covered_of_mapped (hbase : b.virtualBase % pageSize = b.physicalBase % pageSize)
    (hapart : b.phdrs.Pairwise Phdr.Apart) (hl : Loaded b t s) (hmap : SegmentsMapped b s) :
    b.Covered := by
  have hcanon : ∀ ph ∈ b.phdrs, ∀ v, ph.Holds v → Canonical v :=
    fun ph hph v hv => (hmap ph hph v hv).1
  intro ph hph v hv
  obtain ⟨hvc, ⟨e, hwalk, hframe⟩, -⟩ := hmap ph hph v hv
  rw [hl.walk_eq hvc] at hwalk
  split_ifs at hwalk with hshadow
  · -- the shadow loop has put another translation here
    have hlow : Canonical (v - size16TB) := by
      simp only [Canonical, wordSize, directMapOffset, size16TB] at hshadow ⊢
      omega
    rcases hl.walk_cases hcanon hlow with ⟨ph', hph', j, hj, hu, hsame, hw⟩ | ⟨-, hnone⟩
    · have hphys := toPhys_page hbase hsame
      obtain rfl := Option.some.inj (hw.symm.trans hwalk)
      exfalso
      simp only [leafEntry, Nat.shiftRight_eq_div_pow, frameSize, pageSize, Boot.toPhys, wordSize,
        directMapOffset, size16TB] at hphys hframe hshadow
      omega
    · rw [hnone] at hwalk
      cases hwalk
  · rcases hl.walk_cases hcanon hvc with ⟨ph', hph', j, hj, hu, hsame, hw⟩ | ⟨-, hnone⟩
    · obtain rfl := eq_of_samePage hapart hph hph' hv hu hsame
      obtain rfl := Option.some.inj (hw.symm.trans hwalk)
      refine ⟨hvc, ?_, hshadow, ?_⟩
      · have hlt : (leafEntry (b.toPhys (ph.vaddr + j * pageSize)) ⟨ph.flagW, ph.flagX⟩).frame <
            frameSize := Nat.mod_lt _ (by decide)
        simp only [frameSize, pageSize] at hlt hframe
        omega
      · simp only [SamePage, pageSize] at hsame ⊢
        omega
    · rw [hnone] at hwalk
      cases hwalk

end Segments

/-- After an initialisation that succeeds. -/
theorem segments_mapped_iff {b : Boot} {answers : List (Option ℕ)} {s : PageTables}
    (hbase : b.virtualBase % pageSize = b.physicalBase % pageSize)
    (hapart : b.phdrs.Pairwise Phdr.Apart)
    (hinit : PageTables.initVirt b answers = .ok (none, s)) :
    PageTables.SegmentsMapped b s ↔ b.Covered := by
  obtain ⟨t, hl⟩ := PageTables.initVirt_loaded b answers none s hinit rfl
  constructor
  · exact covered_of_mapped hbase hapart hl
  · intro hcov ph hph v hv
    exact ⟨(hcov ph hph v hv).1, byte_mapped hbase hapart hl hcov hph hv⟩

theorem one_segment_mapped : PageTables.SegmentsMapped oneSegment booted := by
  have hinit : PageTables.initVirt oneSegment (pagesFrom 0x100 36) = .ok (none, booted) :=
    eq_ok_stateOf (by decide +kernel)
  apply (segments_mapped_iff rfl (List.pairwise_singleton _ _) hinit).mpr
  rintro ph hph v ⟨-, h1, h2⟩
  obtain rfl := List.mem_singleton.mp hph
  simp only [oneSegment, Canonical, Boot.toPhys, Phdr.pages, wordSize, pageSize, directMapOffset,
    size16TB] at h1 h2 ⊢
  omega

/-- A kernel as long that starts in the middle of a page. -/
def halfPageSegment : Boot :=
  { oneSegment with phdrs := [⟨true, 0xFFFFFFFF80000800, 0x1000, false, true⟩] }

/-- Its second half is not mapped. -/
theorem half_page_not_mapped :
    ¬ ∀ (b : Boot) (answers : List (Option ℕ)) (s : PageTables),
      b.virtualBase % pageSize = b.physicalBase % pageSize → b.phdrs.Pairwise Phdr.Apart →
      PageTables.initVirt b answers = .ok (none, s) → PageTables.SegmentsMapped b s := by
  intro hall
  have hrun : (PageTables.initVirt halfPageSegment (pagesFrom 0x100 36)).map
      (fun r => (r.1, r.2.walk 0xFFFFFFFF80001000)) = .ok (none, none) := by decide +kernel
  obtain ⟨⟨err, s⟩, hinit, hr⟩ := ok_of_map hrun
  obtain ⟨rfl, hnone⟩ := Prod.mk.inj hr
  have hmapped := hall halfPageSegment _ s rfl (List.pairwise_singleton _ _) hinit
  have hholds : Phdr.Holds ⟨true, 0xFFFFFFFF80000800, 0x1000, false, true⟩ 0xFFFFFFFF80001000 :=
    ⟨rfl, by decide, by decide⟩
  obtain ⟨-, ⟨e, hwalk, -⟩, -⟩ := hmapped _ List.mem_cons_self _ hholds
  rw [hnone] at hwalk
  cases hwalk

end TomatOS.Virt
