import Mathlib.Data.List.Pairwise
import TomatOS.Virt.MapRange
import TomatOS.Virt.Permissions

/-! The direct map of physical memory. `init_phys_mappings` maps every page of the memory
map at its offset, however high it is, while the window for it has 512GB. So the pages
are where they should be and nothing else is touched exactly if every page that is
mapped lies in the window or in the copy of it 16TB above, and no two of them 16TB
apart. -/

namespace TomatOS

/-- Neither bad nor of an unknown type. -/
def MemmapType.mapped : MemmapType → Bool
  | .badMemory | .unknown _ => false
  | _ => true

/-- The types that are mapped for writing. -/
def MemmapType.readWrite : MemmapType → Bool
  | .executableAndModules | .acpiTables | .badMemory | .unknown _ => false
  | _ => true

theorem MemmapType.flags_eq (type : MemmapType) :
    type.flags = if type.mapped then some ⟨type.readWrite, false⟩ else none := by
  cases type <;> rfl

namespace MemmapEntry

def Holds (e : MemmapEntry) (p : ℕ) : Prop := e.base ≤ p ∧ p < e.base + e.length

def Aligned (e : MemmapEntry) : Prop := e.base % pageSize = 0 ∧ e.length % pageSize = 0

def Apart (e e' : MemmapEntry) : Prop := ∀ p, ¬ (e.Holds p ∧ e'.Holds p)

/-- A physical page that the entry says is to be mapped. -/
def HoldsPage (e : MemmapEntry) (p : ℕ) : Prop :=
  e.type.mapped = true ∧ e.Holds p ∧ p % pageSize = 0

/-- The page entry of a page in the direct map. -/
def pageEntry (e : MemmapEntry) (p : ℕ) : Virt.Entry := ⟨true, e.type.readWrite, true, p >>> 12⟩

end MemmapEntry

namespace Virt

open Foundation Foundation.PageTree Foundation.Transition

/-- The window of the direct map and its alias. -/
def InWindow (virt : ℕ) : Prop :=
  directMapOffset ≤ virt ∧ virt < directMapOffset + size512GB ∨
    directMapOffset + size16TB ≤ virt ∧ virt < directMapOffset + size16TB + size512GB

namespace PageTables

variable {k : ℕ} {s s' : PageTables} {entries : List MemmapEntry}

/-- Every page of the memory map that is to be mapped is where it should be, and no
translation outside the window has changed. -/
def DirectMapped (entries : List MemmapEntry) (s s' : PageTables) : Prop :=
  (∀ e ∈ entries, ∀ p, e.HoldsPage p → directMapOffset + p < wordSize ∧
    s'.walk (directMapOffset + p) = some (e.pageEntry p)) ∧
  ∀ virt, Canonical virt → ¬ InWindow virt → s'.walk virt = s.walk virt

/-- The pages fit in the window, but for those that are mapped already as they are to be,
and no two of them share a page entry. -/
def Fits (entries : List MemmapEntry) (s : PageTables) : Prop :=
  (∀ e ∈ entries, ∀ p, e.HoldsPage p → p < 2 ^ 47 ∧
    (InWindow (directMapOffset + p) ∨
      s.walk (directMapOffset + p) = some (e.pageEntry p))) ∧
  ∀ e ∈ entries, ∀ e' ∈ entries, ∀ p < size16TB, e.HoldsPage p → ¬ e'.HoldsPage (p + size16TB)

/-! ### What the loop writes -/

/-- The number of pages of an entry, as the loop computes it. -/
def entryPages (e : MemmapEntry) : ℕ :=
  (physToDirect (pageAlignUp ((e.base + e.length) % wordSize)) +
    (wordSize - physToDirect (alignDown e.base pageSize))) % wordSize / pageSize

def entryWrites (e : MemmapEntry) : List (ℕ × Option Entry) :=
  match e.type.flags with
  | none => []
  | some flags => rangeWrites (alignDown e.base pageSize)
      (physToDirect (alignDown e.base pageSize)) flags 0 (entryPages e)

theorem initPhysMappings_wrote (h : s.Sound k) (hk : k ≤ 32) (entries : List MemmapEntry) :
    Returns (initPhysMappings entries s) fun err s' =>
      err = none → Wrote k (entries.flatMap entryWrites) s s' := by
  induction entries generalizing s with
  | nil => exact .ok fun _ => (Extends.refl h).wrote
  | cons e entries ih =>
    rw [initPhysMappings, List.flatMap_cons, entryWrites]
    cases e.type.flags with
    | none => exact ih h
    | some flags =>
      refine (mapPages_wrote h hk _ _ flags (entryPages e) 0).bind ?_
      rintro (_ | err) s₁ h₁
      · exact (ih (h₁ rfl).sound).mono fun err s₂ h₂ hn => (h₁ rfl).trans (h₂ hn)
      · exact .ok fun hn => by cases hn

end PageTables

open PageTables

theorem entryPages_eq {e : MemmapEntry} (ha : e.Aligned)
    (hlow : e.length = 0 ∨ e.base + e.length ≤ 2 ^ 47) : entryPages e = e.length / pageSize := by
  obtain ⟨hbase, hlength⟩ := ha
  simp only [pageSize] at hbase hlength
  have halign : alignDown e.base pageSize = e.base := by
    simp only [alignDown, pageSize]
    omega
  have hup : pageAlignUp ((e.base + e.length) % wordSize) = (e.base + e.length) % wordSize := by
    simp only [pageAlignUp, alignDown, pageSize, wordSize]
    omega
  rw [entryPages, halign, hup]
  simp only [physToDirect, directMapOffset, wordSize, pageSize]
  rcases hlow with h0 | hlow
  · rw [h0]
    omega
  · omega

/-- Below 128TB an entry is mapped page by page, each at its offset. -/
theorem mem_entryWrites {e : MemmapEntry} (ha : e.Aligned)
    (hlow : ∀ p, e.HoldsPage p → p < 2 ^ 47) {x : ℕ × Option Entry} :
    x ∈ entryWrites e ↔
      ∃ p, e.HoldsPage p ∧ x = (directMapOffset + p, some (e.pageEntry p)) := by
  rw [entryWrites, MemmapType.flags_eq]
  rcases hm : e.type.mapped with _ | _
  · simp [MemmapEntry.HoldsPage, hm]
  have hend : e.length = 0 ∨ e.base + e.length ≤ 2 ^ 47 := by
    rcases Nat.eq_zero_or_pos e.length with h0 | hpos
    · exact .inl h0
    · right
      obtain ⟨hbase, hlength⟩ := ha
      have hlast := hlow (e.base + e.length - pageSize)
      simp only [MemmapEntry.HoldsPage, MemmapEntry.Holds, hm, true_and, pageSize] at *
      omega
  simp only [if_true]
  rw [mem_rangeWrites, entryPages_eq ha hend]
  obtain ⟨hbase, hlength⟩ := ha
  have halign : alignDown e.base pageSize = e.base := by
    simp only [alignDown, hbase, Nat.sub_zero]
  rw [halign]
  have hpage : ∀ j, j < e.length / pageSize →
      (pageAt (physToDirect e.base) j, some (leafEntry (pageAt e.base j) ⟨e.type.readWrite, false⟩)) =
        (directMapOffset + (e.base + j * pageSize), some (e.pageEntry (e.base + j * pageSize))) := by
    intro j hj
    have hvirt : pageAt (physToDirect e.base) j = directMapOffset + (e.base + j * pageSize) := by
      simp only [pageAt, physToDirect, directMapOffset, wordSize, pageSize] at *
      omega
    have hphys : pageAt e.base j = e.base + j * pageSize := by
      simp only [pageAt, wordSize, pageSize] at *
      omega
    rw [hvirt, hphys, leafEntry_eq]
    · rfl
    · simp only [pageSize] at *
      omega
  constructor
  · rintro ⟨j, -, hj, rfl⟩
    rw [Nat.zero_add] at hj
    refine ⟨e.base + j * pageSize, ⟨hm, ⟨by omega, ?_⟩, ?_⟩, hpage j hj⟩
    · simp only [pageSize] at *
      omega
    · simp only [pageSize] at *
      omega
  · rintro ⟨p, ⟨-, ⟨h1, h2⟩, hp⟩, rfl⟩
    have hj : p = e.base + (p - e.base) / pageSize * pageSize := by
      simp only [pageSize] at *
      omega
    have hlt : (p - e.base) / pageSize < e.length / pageSize := by
      simp only [pageSize] at *
      omega
    refine ⟨(p - e.base) / pageSize, Nat.zero_le _, by rwa [Nat.zero_add], ?_⟩
    rw [hpage _ hlt, ← hj]

/-! ### The window -/

theorem canonical_direct {p : ℕ} (hp : p < 2 ^ 47) : Canonical (directMapOffset + p) := by
  right
  simp only [directMapOffset, wordSize]
  omega

/-- Two pages of the direct map share a page entry if they are 16TB apart. -/
theorem sameEntry_direct {p q : ℕ} (hp : p < 2 ^ 47) (hq : q < 2 ^ 47) (hpp : p % pageSize = 0)
    (hqp : q % pageSize = 0) : SameEntry (directMapOffset + p) (directMapOffset + q) ↔
      p = q ∨ (p < size16TB ∧ q = p + size16TB) ∨ (q < size16TB ∧ p = q + size16TB) := by
  rw [sameEntry_iff (canonical_direct hp) (canonical_direct hq)]
  have htwin := shadowTwin_cases (directMapOffset + p)
  simp only [SamePage, pageSize, directMapOffset, size16TB] at *
  omega

theorem inWindow_of_sameEntry {v w : ℕ} (hv : Canonical v) (hw : Canonical w)
    (h : SameEntry v w) : InWindow v ↔ InWindow w := by
  rw [sameEntry_iff hv hw] at h
  have htwin := shadowTwin_cases v
  simp only [SamePage, InWindow, pageSize, directMapOffset, size16TB, size512GB] at *
  omega

/-! ### The direct map -/

namespace PageTables

variable {s s' : PageTables} {entries : List MemmapEntry}

/-- What the translation of an address is afterwards: that of a page of the memory map
that shares its page entry, or what it was. -/
theorem wrote_walk (haligned : ∀ e ∈ entries, e.Aligned)
    (hlow : ∀ e ∈ entries, ∀ p, e.HoldsPage p → p < 2 ^ 47)
    (h : Wrote 32 (entries.flatMap entryWrites) s s') (w : ℕ) :
    ((∀ e ∈ entries, ∀ p, e.HoldsPage p → ¬ SameEntry (directMapOffset + p) w) ∧
      s'.walk w = s.walk w) ∨
    ∃ e ∈ entries, ∃ p, e.HoldsPage p ∧ SameEntry (directMapOffset + p) w ∧
      s'.walk w = some (e.pageEntry p) := by
  have hleaf := h.leaf (path w) (pml1Index w) rfl
  rcases overwrite_cases (fun virt (c : List ℕ × ℕ) => IsEntry 32 virt c.1 c.2)
    (path w, pml1Index w) (entries.flatMap entryWrites) (s.leaf (path w) (pml1Index w)) with
    ⟨hnone, heq⟩ | ⟨x, hx, hn, heq⟩
  · refine .inl ⟨fun e he p hp hsame => ?_, hleaf.trans heq⟩
    have hin : (directMapOffset + p, some (e.pageEntry p)) ∈ entries.flatMap entryWrites :=
      List.mem_flatMap.mpr ⟨e, he, (mem_entryWrites (haligned e he) (hlow e he)).mpr ⟨p, hp, rfl⟩⟩
    exact hnone (directMapOffset + p, some (e.pageEntry p)) hin hsame
  · obtain ⟨e, he, hxe⟩ := List.mem_flatMap.mp hx
    obtain ⟨p, hp, rfl⟩ := (mem_entryWrites (haligned e he) (hlow e he)).mp hxe
    exact .inr ⟨e, he, p, hp, hn, hleaf.trans heq⟩

theorem eq_of_holds (hapart : entries.Pairwise MemmapEntry.Apart) {e e' : MemmapEntry}
    (he : e ∈ entries) (he' : e' ∈ entries) {p : ℕ} (hp : e.Holds p) (hp' : e'.Holds p) :
    e = e' := by
  by_contra hne
  have hsymm : Std.Symm MemmapEntry.Apart := ⟨fun _ _ hab q hq => hab q ⟨hq.2, hq.1⟩⟩
  exact hapart.forall he he' hne p ⟨hp, hp'⟩

theorem directMapped_iff (h : s.Sound 32) (haligned : ∀ e ∈ entries, e.Aligned)
    (hapart : entries.Pairwise MemmapEntry.Apart)
    (hok : initPhysMappings entries s = .ok (none, s')) :
    DirectMapped entries s s' ↔ Fits entries s := by
  have hw := initPhysMappings_wrote h le_rfl entries none s' hok rfl
  constructor
  · rintro ⟨hmapped, hother⟩
    have hlow : ∀ e ∈ entries, ∀ p, e.HoldsPage p → p < 2 ^ 47 := by
      intro e he p hp
      have hlt := (hmapped e he p hp).1
      simp only [directMapOffset, wordSize] at hlt
      omega
    refine ⟨fun e he p hp => ⟨hlow e he p hp, ?_⟩, fun e he e' he' p hlt hp hp' => ?_⟩
    · by_cases hin : InWindow (directMapOffset + p)
      · exact .inl hin
      · rw [← hother _ (canonical_direct (hlow e he p hp)) hin]
        exact .inr (hmapped e he p hp).2
    · -- two pages with one entry
      have hp47 := hlow e he p hp
      have hp47' := hlow e' he' _ hp'
      have hsame : SameEntry (directMapOffset + p) (directMapOffset + (p + size16TB)) :=
        (sameEntry_direct hp47 hp47' hp.2.2 hp'.2.2).mpr (.inr (.inl ⟨hlt, rfl⟩))
      have hwalk := walk_eq_of_sameEntry hw.sound hsame
      rw [(hmapped e he p hp).2, (hmapped e' he' _ hp').2] at hwalk
      have hframe := congrArg Entry.frame (Option.some.inj hwalk)
      simp only [MemmapEntry.pageEntry, Nat.shiftRight_eq_div_pow, size16TB] at hframe
      omega
  · rintro ⟨hfit, htwin⟩
    have hlow : ∀ e ∈ entries, ∀ p, e.HoldsPage p → p < 2 ^ 47 :=
      fun e he p hp => (hfit e he p hp).1
    have hmapped : ∀ e ∈ entries, ∀ p, e.HoldsPage p →
        s'.walk (directMapOffset + p) = some (e.pageEntry p) := by
      intro e he p hp
      rcases wrote_walk haligned hlow hw (directMapOffset + p) with ⟨hnone, -⟩ |
        ⟨e', he', q, hq, hsame, hwalk⟩
      · exact absurd (.refl _) (hnone e he p hp)
      · rcases (sameEntry_direct (hlow e' he' q hq) (hlow e he p hp) hq.2.2 hp.2.2).mp hsame with
          rfl | ⟨hlt, rfl⟩ | ⟨hlt, rfl⟩
        · rw [hwalk, eq_of_holds hapart he he' hp.2.1 hq.2.1]
        · exact absurd hp (htwin e' he' e he q hlt hq)
        · exact absurd hq (htwin e he e' he' p hlt hp)
    refine ⟨fun e he p hp => ⟨?_, hmapped e he p hp⟩, fun w hcanon hout => ?_⟩
    · have hlt := hlow e he p hp
      simp only [directMapOffset, wordSize]
      omega
    · rcases wrote_walk haligned hlow hw w with ⟨-, hwalk⟩ | ⟨e, he, p, hp, hsame, hwalk⟩
      · exact hwalk
      · have hdirect := canonical_direct (hlow e he p hp)
        rcases (hfit e he p hp).2 with hin | halready
        · exact absurd ((inWindow_of_sameEntry hdirect hcanon hsame).mp hin) hout
        · rw [hwalk, walk_eq_of_sameEntry h hsame, halready]

end PageTables

/-- In every state a run leads to. -/
theorem phys_mappings_right_iff {s s' : PageTables} (hs : Reachable s)
    {entries : List MemmapEntry} (haligned : ∀ e ∈ entries, e.Aligned)
    (hapart : entries.Pairwise MemmapEntry.Apart) (answers : List (Option ℕ))
    (hok : PageTables.initPhysMappings entries { s with answers := answers } = .ok (none, s')) :
    PageTables.DirectMapped entries s s' ↔ PageTables.Fits entries s := by
  have hext := hs.sound.withAnswers answers
  have hiff := PageTables.directMapped_iff hext.sound haligned hapart hok
  simp only [PageTables.DirectMapped, PageTables.Fits, hext.walk_eq] at hiff ⊢
  exact hiff

/-- A page of memory and one of tables. -/
def lowMap : List MemmapEntry := [⟨0, 0x1000, .usable⟩, ⟨0x1000, 0x1000, .acpiTables⟩]

theorem lowMap_aligned : ∀ e ∈ lowMap, e.Aligned := by
  intro e he
  simp only [lowMap, List.mem_cons, List.not_mem_nil, or_false] at he
  rcases he with rfl | rfl
  · exact ⟨rfl, rfl⟩
  · exact ⟨rfl, rfl⟩

theorem lowMap_apart : lowMap.Pairwise MemmapEntry.Apart := by
  apply List.pairwise_pair.mpr
  rintro p ⟨⟨-, h1⟩, h2, -⟩
  dsimp only at h1 h2
  omega

theorem low_map_mapped :
    PageTables.DirectMapped lowMap booted
      (stateOf (PageTables.initPhysMappings lowMap { booted with answers := pagesFrom 0x200 3 })) := by
  have hok : PageTables.initPhysMappings lowMap { booted with answers := pagesFrom 0x200 3 } =
      .ok (none, stateOf (PageTables.initPhysMappings lowMap
        { booted with answers := pagesFrom 0x200 3 })) := eq_ok_stateOf (by decide +kernel)
  have hpage : ∀ e ∈ lowMap, ∀ p, e.HoldsPage p → p < 0x2000 := by
    rintro e he p ⟨-, ⟨-, hp⟩, -⟩
    simp only [lowMap, List.mem_cons, List.not_mem_nil, or_false] at he
    rcases he with rfl | rfl
    · dsimp only at hp
      omega
    · dsimp only at hp
      omega
  refine (phys_mappings_right_iff booted_reachable lowMap_aligned lowMap_apart _ hok).mpr
    ⟨fun e he p hp => ?_, fun e _ e' he' p _ _ hp' => ?_⟩
  · have hlt := hpage e he p hp
    refine ⟨by omega, .inl (.inl ?_)⟩
    simp only [directMapOffset, size512GB]
    omega
  · have hlt := hpage e' he' _ hp'
    simp only [size16TB] at hlt
    omega

/-- A reserved page at 1TB, as a firmware may report it, is mapped as the first page of the
GC heap. -/
theorem reserved_page_in_gc_heap :
    ¬ ∀ (s s' : PageTables) (entries : List MemmapEntry) (answers : List (Option ℕ)),
      Reachable s → (∀ e ∈ entries, e.Aligned) → entries.Pairwise MemmapEntry.Apart →
      PageTables.initPhysMappings entries { s with answers := answers } = .ok (none, s') →
      PageTables.DirectMapped entries s s' := by
  intro hall
  have hrun : (PageTables.initPhysMappings [⟨0x10000000000, 0x1000, .reserved⟩]
      { booted with answers := pagesFrom 0x200 2 }).map
        (fun r => (r.1, r.2.walk 0xFFFF810000000000)) =
      .ok (none, some ⟨true, true, true, 0x10000000⟩) := by decide +kernel
  obtain ⟨⟨err, s'⟩, hok, hr⟩ := ok_of_map hrun
  obtain ⟨rfl, hafter⟩ := Prod.mk.inj hr
  have hmapped := hall booted s' _ _ booted_reachable
    (by simp [MemmapEntry.Aligned, pageSize]) (List.pairwise_singleton _ _) hok
  have hbefore : booted.walk 0xFFFF810000000000 = none := by decide +kernel
  have hsame := hmapped.2 0xFFFF810000000000 (by simp [Canonical, wordSize])
    (by simp [InWindow, directMapOffset, size512GB, size16TB])
  rw [hbefore] at hsame
  rw [hsame] at hafter
  cases hafter

end Virt

end TomatOS
