import TomatOS.Virt.Chain
import TomatOS.Virt.Mapping

/-! Write or execute. The kernel maps its segments, the physical memory, pages it
allocates on a fault and the code of the jit; each of them goes through a function that
writes page entries with flags of its own. None of the flags allows both, and page
entries come from nowhere else, so no page can be written and executed, whatever fails
on the way. -/

namespace TomatOS

/-- The flags a kind of memory is mapped with, if it is mapped. -/
def MemmapType.flags : MemmapType → Option Virt.MapFlags
  | .acpiReclaimable | .acpiNvs | .reserved | .usable | .bootloaderReclaimable =>
    some ⟨true, false⟩
  | .executableAndModules | .acpiTables => some ⟨false, false⟩
  | .framebuffer => some ⟨true, false⟩
  | .badMemory => none
  | .unknown _ => none

namespace Virt

open Foundation Foundation.PageTree Foundation.Transition

/-! ### The direct map -/

/-- `ALIGN_UP` to a page. -/
def pageAlignUp (x : ℕ) : ℕ := alignDown ((x + (pageSize - 1)) % wordSize) pageSize

namespace PageTables

/-- The loop of `init_phys_mappings`. -/
def initPhysMappings : List MemmapEntry → PageTables → Result (Option Err × PageTables)
  | [], s => .ok (none, s)
  | entry :: entries, s =>
    match entry.type.flags with
    | none => initPhysMappings entries s
    | some flags => do
      let physBase := alignDown entry.base pageSize
      let virtBase := physToDirect physBase
      let virtEnd := physToDirect (pageAlignUp ((entry.base + entry.length) % wordSize))
      let pageCount := (virtEnd + (wordSize - virtBase)) % wordSize / pageSize
      let (err, s) ← s.virtMapRange physBase virtBase pageCount flags
      match err with
      | some err => return (some err, s)
      | none => initPhysMappings entries s

end PageTables

/-! ### The jit -/

def jitAddr : ℕ := 0xFFFFFFFF90000000

/-- The page tables with `m_jit_watermark`. -/
structure Kernel where
  tables : PageTables
  jitWatermark : ℕ

/-- `SIZE_TO_PAGES`. -/
def sizeToPages (size : ℕ) : ℕ := size >>> 12 + if size % pageSize ≠ 0 then 1 else 0

namespace Kernel

/-- The address of the memory, or none. -/
def tdnHostJitAlloc (k : Kernel) (size : ℕ) : Result (Option ℕ × Kernel) :=
  if wordSize - 1 - k.jitWatermark < size then .ok (none, k)
  else do
    let ptr := k.jitWatermark
    let (err, tables) ← k.tables.virtAllocRange ptr (sizeToPages size)
    match err with
    | some _ => return (none, { k with tables := tables })
    | none => return (some ptr, ⟨tables, (k.jitWatermark + pageAlignUp size) % wordSize⟩)

def tdnHostJitSetExec (k : Kernel) (ptr size : ℕ) : Result Kernel := do
  let (_, tables) ← k.tables.virtRemapRange ptr (sizeToPages size) ⟨false, true⟩
  return { k with tables := tables }

end Kernel

/-- The kernel's own uses of the page tables after `init_virt`. -/
inductive Use where
  | initPhysMappings (entries : List MemmapEntry)
  | pageFault (addr : ℕ)
  | jitAlloc (size : ℕ)
  | jitSetExec (ptr size : ℕ)
  deriving DecidableEq, Repr

def Use.run (k : Kernel) : Use → Result Kernel
  | initPhysMappings entries => do
    let (_, tables) ← k.tables.initPhysMappings entries
    return { k with tables := tables }
  | pageFault addr => do
    let (_, tables) ← k.tables.virtHandlePageFault addr
    return { k with tables := tables }
  | jitAlloc size => do
    let (_, k) ← k.tdnHostJitAlloc size
    return k
  | jitSetExec ptr size => k.tdnHostJitSetExec ptr size

/-- A use together with the answers `phys_alloc` gives during it. -/
def useStep (k : Kernel) (u : Use × List (Option ℕ)) : Result Kernel :=
  u.1.run { k with tables := { k.tables with answers := u.2 } }

/-- States after an initialisation that has a root, successful or not, and any uses. -/
def Kernel.Reachable (k : Kernel) : Prop :=
  ∃ b answers err s₀, PageTables.initVirt b answers = .ok (err, s₀) ∧ s₀.tables ≠ [] ∧
    Reaches useStep (fun _ _ => True) ⟨s₀, jitAddr⟩ k

/-! ### Page entries -/

/-- Not both writable and executable. -/
def Entry.Guarded (e : Entry) : Prop := ¬ (e.writeable = true ∧ e.noExecute = false)

theorem guarded_leafEntry {flags : MapFlags} (h : (flags.permW && flags.permX) = false)
    (phys : ℕ) : (PageTables.leafEntry phys flags).Guarded := by
  rintro ⟨hw, hx⟩
  have hx : flags.permX = true := by simpa [PageTables.leafEntry] using hx
  have hw : flags.permW = true := hw
  rw [hw, hx] at h
  cases h

/-- What `init_phys_mappings` maps is never executable. -/
theorem flags_guarded {type : MemmapType} {flags : MapFlags} (h : type.flags = some flags) :
    (flags.permW && flags.permX) = false := by
  cases type with
  | badMemory => cases h
  | unknown n => cases h
  | _ =>
    cases h
    rfl

namespace PageTables

variable {k : ℕ} {P : Entry → Prop} {A : Set ℕ} {s s' : PageTables}

/-- Every page entry satisfies `P`. -/
def Entries (P : Entry → Prop) (s : PageTables) : Prop :=
  ∀ p i e, p.length = 3 → s.leaf p i = some e → P e

/-- The tables have their shape, with some or all of the shadow, and every page entry
satisfies `P`. -/
def Carries (P : Entry → Prop) (s : PageTables) : Prop := ∃ k ≤ 32, s.Sound k ∧ s.Entries P

theorem Chain.entries (h : s.Sound k) (hk : k ≤ 32) (hP : s.Entries P) (hs : Chain P A s s') :
    s'.Entries P := by
  intro p i e hp he
  rcases hs.leaf h hk hp he with hold | hnew
  · exact hP p i e hp hold
  · exact hnew

theorem Carries.returns {β : Type} {r : Result (β × PageTables)} (h : s.Carries P)
    (hr : ∀ k ≤ 32, s.Sound k → Returns r fun _ s' => Chain P Set.univ s s') :
    Returns r fun _ s' => s'.Carries P := by
  obtain ⟨k, hk, hsound, hP⟩ := h
  exact (hr k hk hsound).mono fun _ _ hs =>
    ⟨k, hk, hs.sound hsound hk, hs.entries hsound hk hP⟩

theorem Carries.withAnswers (h : s.Carries P) (answers : List (Option ℕ)) :
    Carries P { s with answers := answers } := by
  obtain ⟨k, hk, hsound, hP⟩ := h
  have hchain : Chain P Set.univ s { s with answers := answers } :=
    (Small.frames s.pages answers).chain
  exact ⟨k, hk, hchain.sound hsound hk, hchain.entries hsound hk hP⟩

theorem initPhysMappings_chain (h : s.Sound k) (hk : k ≤ 32) (entries : List MemmapEntry) :
    Returns (initPhysMappings entries s) fun _ s' => Chain Entry.Guarded Set.univ s s' := by
  induction entries generalizing s with
  | nil => exact .ok (Chain.refl s)
  | cons entry entries ih =>
    rw [initPhysMappings]
    cases hflags : entry.type.flags with
    | none => exact ih h
    | some flags =>
      have hguarded := fun phys => guarded_leafEntry (flags_guarded hflags) phys
      refine (virtMapRange_chain h hk (fun _ _ => Set.mem_univ _) hguarded).bind ?_
      rintro (_ | err) s₁ h₁
      · exact h₁.andThen h hk fun hs₁ => ih hs₁
      · exact .ok h₁

/-! ### Initialisation -/

theorem entries_root (h : ∀ i, s.mem s.cr3 i = .zero) : s.Entries P := by
  intro p i e hp he
  cases p with
  | nil => cases hp
  | cons j p =>
    rw [PageTables.leaf, PageTree.leaf, resolve_cons, h] at he
    cases he

/-- A copied slot leads to page entries that are there already. -/
theorem Filled.copy_leaf {i : ℕ} {t : PageTables} (h : Filled i s t) (hi : i < 32) {p : List ℕ}
    (hp : p.length = 3) (j : ℕ) :
    (shadowCopy i t).leaf p j = s.leaf (through (256 + i) (288 + i) p) j := by
  rw [← h.ext.leaf _ j (by rw [through_length, hp])]
  have hlink : ∀ w, Entry.link { t.mem t.cr3 (256 + i) with writeable := w } =
      (t.mem t.cr3 (256 + i)).link := fun _ => rfl
  exact (ShareAt.of_sound h.ext.sound hi (hlink _)).leaf_share (by omega) hp j

theorem shadowRounds_carries {n i : ℕ} (h : s.Sound i) (hi : i + n ≤ 32)
    (hP : s.Entries P) :
    Returns (shadowRounds n i s) fun _ s' => s'.Carries P := by
  induction n generalizing i s with
  | zero => exact .ok ⟨i, by omega, h, hP⟩
  | succ n ih =>
    refine (shadowRound_returns h (by omega)).bind ?_
    rintro err s₁ (⟨rfl, t, hfilled, rfl⟩ | ⟨rfl, hext⟩)
    · apply ih (hfilled.copy_sound (by omega)) (by omega)
      intro p j e hp he
      rw [hfilled.copy_leaf (by omega) hp] at he
      exact hP _ j e (by rw [through_length, hp]) he
    · refine .ok ⟨i, by omega, hext.sound, ?_⟩
      intro p j e hp he
      rw [hext.leaf p j hp] at he
      exact hP p j e hp he

theorem initVirt_carries (b : Boot) (answers : List (Option ℕ)) :
    Returns (initVirt b answers) fun _ s => s.tables ≠ [] → s.Carries Entry.Guarded := by
  rw [initVirt]
  refine (physAlloc_allocated ⟨b.mem, 0, [], [], answers⟩).bind ?_
  rintro _ _ (⟨answers'⟩ | ⟨root, answers', -⟩)
  · exact .ok fun hn => absurd rfl hn
  · have hroot := sound_root b.mem root [] answers'
    have hnone : Entries Entry.Guarded
        ⟨Function.update b.mem root fun _ => .zero, root, [root], [], answers'⟩ :=
      entries_root fun i => by simp
    refine (mapSegments_chain (P := Entry.Guarded) (A := Set.univ) hroot (by omega)
      (fun _ _ _ _ _ => Set.mem_univ _) fun ph _ hflags => guarded_leafEntry hflags).bind ?_
    intro err s₁ h₁
    have hsound := h₁.sound hroot (by omega)
    have hentries := h₁.entries hroot (by omega) hnone
    rcases err with _ | err
    · exact (shadowRounds_carries hsound (le_of_eq (by decide : 0 + shadowSlots = 32))
        hentries).mono fun _ _ hc _ => hc
    · exact .ok fun _ => ⟨0, by omega, hsound, hentries⟩

end PageTables

/-! ### Runs -/

/-- The tables a function leaves are those of the kernel afterwards. -/
theorem carries_of_return {β : Type} {r : Result (β × PageTables)} {k k' : Kernel}
    (h : Returns r fun _ s => s.Carries Entry.Guarded)
    (hr : (do let (_, tables) ← r; return { k with tables := tables }) = Except.ok k') :
    k'.tables.Carries Entry.Guarded := by
  rcases r with f | ⟨x, s⟩
  · cases hr
  · cases hr
    exact h x s rfl

theorem Use.run_carries {k k' : Kernel} (h : k.tables.Carries Entry.Guarded) {u : Use}
    (hu : u.run k = .ok k') : k'.tables.Carries Entry.Guarded := by
  cases u with
  | initPhysMappings entries =>
    exact carries_of_return
      (h.returns fun _ hk hs => PageTables.initPhysMappings_chain hs hk entries) hu
  | pageFault addr =>
    have hguarded : ∀ phys, (PageTables.leafEntry phys ⟨true, false⟩).Guarded :=
      guarded_leafEntry rfl
    exact carries_of_return (h.returns fun _ hk hs =>
      PageTables.virtHandlePageFault_chain hs hk (Set.mem_univ _) hguarded) hu
  | jitAlloc size =>
    have halloc : Returns (k.tables.virtAllocRange k.jitWatermark (sizeToPages size))
        fun _ s => s.Carries Entry.Guarded := by
      apply h.returns
      intro _ hk hs
      apply PageTables.virtAllocRange_chain hs hk (fun _ => Set.mem_univ _)
      · intro frame hboth
        cases hboth.2
      · intro hboth
        cases hboth.1
    rw [Use.run, Kernel.tdnHostJitAlloc] at hu
    split_ifs at hu
    · cases hu
      exact h
    · dsimp only at hu
      rcases hr : k.tables.virtAllocRange k.jitWatermark (sizeToPages size) with
        f | ⟨_ | err, tables⟩
      · rw [hr] at hu
        cases hu
      · rw [hr] at hu
        cases hu
        exact halloc none tables hr
      · rw [hr] at hu
        cases hu
        exact halloc (some err) tables hr
  | jitSetExec ptr size =>
    have hguarded : ∀ e : Entry, Entry.Guarded { e with writeable := false, noExecute := !true } := by
      intro e hboth
      cases hboth.1
    exact carries_of_return (h.returns fun _ hk hs =>
      PageTables.remapPages_chain hs hk (fun _ => Set.mem_univ _) hguarded) hu

/-- In every state that the kernel's own uses of the page tables lead to, whether they
succeed or fail, no page that is mapped is both writable and executable. -/
theorem write_xor_execute {k : Kernel} (h : k.Reachable) {virt : ℕ} {e : Entry}
    (hwalk : k.tables.walk virt = some e) : ¬ (e.writeable = true ∧ e.noExecute = false) := by
  obtain ⟨b, answers, err, s₀, hinit, hroot, hrun⟩ := h
  have hcarries : k.tables.Carries Entry.Guarded := by
    apply hrun.invariant (motive := fun k => k.tables.Carries Entry.Guarded)
    · exact PageTables.initVirt_carries b answers err s₀ hinit hroot
    · intro k u k' hk _ hu
      exact Use.run_carries (hk.withAnswers u.2) hu
  obtain ⟨_, _, _, hentries⟩ := hcarries
  exact hentries (path virt) (pml1Index virt) e rfl hwalk

/-- After initialisation the first page of memory is mapped, and the jit allocates half a
page and makes it executable. -/
def jitUses : List (Use × List (Option ℕ)) :=
  [(.initPhysMappings [⟨0, 0x1000, .usable⟩], pagesFrom 0x200 3),
    (.jitAlloc 0x800, pagesFrom 0x203 2), (.jitSetExec jitAddr 0x800, [])]

/-- The code of the jit is executable, so it is not writable. -/
theorem jit_code_not_writable :
    ∃ (k : Kernel) (e : Entry), k.Reachable ∧ k.tables.walk jitAddr = some e ∧
      e.noExecute = false ∧ e.writeable = false := by
  have hinit : PageTables.initVirt oneSegment (pagesFrom 0x100 36) = .ok (none, booted) :=
    eq_ok_stateOf (by decide +kernel)
  have hroot : booted.tables ≠ [] := by decide +kernel
  have hrun : leadsTo useStep (fun _ _ => true)
      (fun k => decide ((k.tables.walk jitAddr).map Entry.noExecute = some false))
      ⟨booted, jitAddr⟩ jitUses = true := by decide +kernel
  obtain ⟨k, hk, hexec⟩ := reaches_of_leadsTo (fun _ _ => True) (by simp) hrun
  rw [decide_eq_true_eq] at hexec
  obtain ⟨e, hwalk, hexec⟩ := Option.map_eq_some_iff.mp hexec
  have hreach : k.Reachable :=
    ⟨oneSegment, pagesFrom 0x100 36, none, booted, hinit, hroot, hk⟩
  refine ⟨k, e, hreach, hwalk, hexec, ?_⟩
  rw [← Bool.not_eq_true]
  intro hwrite
  exact write_xor_execute hreach hwalk ⟨hwrite, hexec⟩

end Virt

end TomatOS
