import TomatOS.Phys.Allocator
import TomatOS.Virt.PageFault

/-! A page fault taken inside the allocator. `virt_handle_page_fault` and what it
calls, over the page tables and the allocator they take their pages from: while
`m_lock_cpu` names the core, every `phys_alloc(PAGE_SIZE)` comes down to the one
page in reserve. The data page takes it, so every table that is missing on the
way to the page fails the assertion of `irq_alloc`. `m_virt_lock` is free when
the fault is taken, and `virt_map_page` gets it at once. -/

namespace TomatOS.Fault

open Foundation Virt

/-- The allocator, the memory seen as tables of entries, one for each frame, and
the frame of `m_cr3`. -/
structure Machine (cpus : ℕ) where
  phys : Phys.PhysState cpus
  mem : ℕ → ℕ → Entry
  cr3 : ℕ

/-- `DIRECT_TO_PHYS(page) >> 12`. -/
def frameOf (page : ℕ) : ℕ := directToPhys page >>> 12

namespace Machine

variable {cpus : ℕ}

/-- `phys_alloc(PAGE_SIZE)`. -/
def physAlloc (m : Machine cpus) (cpu : Fin cpus) : Phys.Result (Option ℕ × Machine cpus) := do
  let (ptr, _, phys) ← Phys.physAlloc cpu pageSize 0 0 m.phys
  return (ptr, { m with phys := phys })

/-- `memset(page, 0, PAGE_SIZE)`. -/
def clear (m : Machine cpus) (page : ℕ) : Machine cpus :=
  { m with mem := Function.update m.mem (frameOf page) fun _ => .zero }

def setEntry (m : Machine cpus) (table index : ℕ) (e : Entry) : Machine cpus :=
  { m with mem := PageTree.write m.mem table index e }

def getNextLevel (m : Machine cpus) (cpu : Fin cpus) (table index : ℕ) :
    Phys.Result (Option ℕ × Machine cpus) :=
  if (m.mem table index).present then .ok (some (m.mem table index).frame, m)
  else do
    let (phys, m) ← m.physAlloc cpu
    match phys with
    | none => return (none, m)
    | some page =>
      let m := m.clear page
      let e := { m.mem table index with
        present := true, writeable := true, frame := frameOf page % frameSize }
      return (some e.frame, m.setEntry table index e)

def virtMapPage (m : Machine cpus) (cpu : Fin cpus) (phys virt : ℕ) (flags : MapFlags) :
    Phys.Result (Option Err × Machine cpus) := do
  let (pml3, m) ← m.getNextLevel cpu m.cr3 (pml4Index virt)
  match pml3 with
  | none => return (some .outOfMemory, m)
  | some pml3 =>
    let (pml2, m) ← m.getNextLevel cpu pml3 (pml3Index virt)
    match pml2 with
    | none => return (some .outOfMemory, m)
    | some pml2 =>
      let (pml1, m) ← m.getNextLevel cpu pml2 (pml2Index virt)
      match pml1 with
      | none => return (some .outOfMemory, m)
      | some pml1 => return (none, m.setEntry pml1 (pml1Index virt) (PageTables.leafEntry phys flags))

def virtHandlePageFault (m : Machine cpus) (cpu : Fin cpus) (addr : ℕ) :
    Phys.Result (Bool × Machine cpus) :=
  match faultAction addr with
  | .overflow | .unknown => .ok (false, m)
  | .direct => do
    let (err, m) ← m.virtMapPage cpu (directToPhys addr) (alignDown addr pageSize) ⟨true, false⟩
    return (err.isNone, m)
  | .allocate => do
    let (page, m) ← m.physAlloc cpu
    match page with
    | none => return (false, m)
    | some page =>
      let (err, m) ← (m.clear page).virtMapPage cpu (directToPhys page) (alignDown addr pageSize)
        ⟨true, false⟩
      return (err.isNone, m)

/-! ### Inside the critical section -/

/-- The reserve of the core is used up. -/
def taken (m : Machine cpus) (cpu : Fin cpus) : Machine cpus :=
  { m with phys := { m.phys with reservedPage := Function.update m.phys.reservedPage cpu none } }

variable {m : Machine cpus} {cpu : Fin cpus} {page : ℕ}

theorem physAlloc_reserved (hlock : m.phys.lockCpu = some cpu)
    (hres : m.phys.reservedPage cpu = some page) :
    m.physAlloc cpu = .ok (some page, m.taken cpu) := by
  simp only [physAlloc, Phys.physAlloc, Phys.irqAlloc, hlock, hres, true_and, ↓reduceIte, bind,
    Except.bind, pure, Except.pure, taken]

theorem physAlloc_empty (hlock : m.phys.lockCpu = some cpu)
    (hres : m.phys.reservedPage cpu = none) :
    m.physAlloc cpu = .error (.assertion .irqAlloc) := by
  simp only [physAlloc, Phys.physAlloc, Phys.irqAlloc, hlock, hres, true_and, ↓reduceIte, bind,
    Except.bind]

/-- With the reserve used up a table is there or the assertion fails. -/
theorem getNextLevel_empty (hlock : m.phys.lockCpu = some cpu)
    (hres : m.phys.reservedPage cpu = none) (table index : ℕ) :
    m.getNextLevel cpu table index = match (m.mem table index).link with
      | some next => .ok (some next, m)
      | none => .error (.assertion .irqAlloc) := by
  rw [getNextLevel, Entry.link]
  by_cases hpres : (m.mem table index).present = true
  · rw [if_pos hpres, if_pos hpres]
  · rw [if_neg hpres, if_neg hpres, physAlloc_empty hlock hres]
    rfl

theorem virtMapPage_empty (hlock : m.phys.lockCpu = some cpu)
    (hres : m.phys.reservedPage cpu = none) (phys virt : ℕ) (flags : MapFlags) :
    m.virtMapPage cpu phys virt flags =
      match PageTree.resolve Entry.link m.mem m.cr3 (path virt) with
      | some pml1 =>
        .ok (none, m.setEntry pml1 (pml1Index virt) (PageTables.leafEntry phys flags))
      | none => .error (.assertion .irqAlloc) := by
  have hnext := getNextLevel_empty hlock hres
  rw [virtMapPage, path, PageTree.resolve_cons, hnext]
  rcases (m.mem m.cr3 (pml4Index virt)).link with _ | pml3
  · rfl
  simp only [bind, Except.bind, Option.bind_some, PageTree.resolve_cons, hnext]
  rcases (m.mem pml3 (pml3Index virt)).link with _ | pml2
  · rfl
  simp only [Option.bind_some, PageTree.resolve_nil, hnext]
  rcases (m.mem pml2 (pml2Index virt)).link with _ | pml1
  · rfl
  · rfl

/-- The tables on the way to a page are all there, and the page in reserve, which
is cleared first, is not one of those that are read. -/
def TablesPresent (m : Machine cpus) (virt page : ℕ) : Prop :=
  ∃ pml3 pml2 pml1, (m.mem m.cr3 (pml4Index virt)).link = some pml3 ∧
    (m.mem pml3 (pml3Index virt)).link = some pml2 ∧
    (m.mem pml2 (pml2Index virt)).link = some pml1 ∧ frameOf page ∉ [m.cr3, pml3, pml2]

theorem clear_link {table index next : ℕ} :
    ((m.clear page).mem table index).link = some next ↔
      (m.mem table index).link = some next ∧ frameOf page ≠ table := by
  by_cases h : frameOf page = table
  · subst h
    simp [clear, Entry.link, Entry.zero]
  · simp [clear, Function.update_of_ne (Ne.symm h), h]

/-- Clearing the reserved page takes away the tables that are read from it. -/
theorem resolve_clear (virt : ℕ) :
    (∃ pml1, PageTree.resolve Entry.link (m.clear page).mem m.cr3 (path virt) = some pml1) ↔
      m.TablesPresent virt page := by
  simp only [path, PageTree.resolve_cons, PageTree.resolve_nil, Option.bind_eq_some_iff,
    clear_link, Option.some.injEq, TablesPresent, List.mem_cons, List.not_mem_nil, or_false,
    not_or]
  constructor
  · rintro ⟨pml1, pml3, ⟨h4, hc⟩, pml2, ⟨h3, hc3⟩, pml1', ⟨h2, hc2⟩, -⟩
    exact ⟨pml3, pml2, pml1', h4, h3, h2, hc, hc3, hc2⟩
  · rintro ⟨pml3, pml2, pml1, h4, h3, h2, hc, hc3, hc2⟩
    exact ⟨pml1, pml3, ⟨h4, hc⟩, pml2, ⟨h3, hc3⟩, pml1, ⟨h2, hc2⟩, rfl⟩

/-- A fault in a range filled on demand: the data page takes the reserve, and then
the tables have to be there. -/
theorem virtHandlePageFault_reserved (hlock : m.phys.lockCpu = some cpu)
    (hres : m.phys.reservedPage cpu = some page) {addr : ℕ}
    (hact : faultAction addr = .allocate) :
    m.virtHandlePageFault cpu addr =
      match PageTree.resolve Entry.link (m.clear page).mem m.cr3 (path addr) with
      | some pml1 => .ok (true, ((m.taken cpu).clear page).setEntry pml1 (pml1Index addr)
          (PageTables.leafEntry (directToPhys page) ⟨true, false⟩))
      | none => .error (.assertion .irqAlloc) := by
  have hempty : ((m.taken cpu).clear page).phys.reservedPage cpu = none :=
    Function.update_self _ _ _
  have hmap := virtMapPage_empty (m := (m.taken cpu).clear page) hlock hempty (directToPhys page)
    (alignDown addr pageSize) ⟨true, false⟩
  obtain ⟨hpath, hindex⟩ := indices_of_samePage (samePage_alignDown addr)
  rw [hpath, hindex] at hmap
  simp only [virtHandlePageFault, hact, physAlloc_reserved hlock hres, bind, Except.bind, hmap]
  have hmem : ((m.taken cpu).clear page).mem = (m.clear page).mem := rfl
  have hcr3 : ((m.taken cpu).clear page).cr3 = m.cr3 := rfl
  rw [hmem, hcr3]
  rcases PageTree.resolve Entry.link (m.clear page).mem m.cr3 (path addr) with _ | pml1
  · rfl
  · rfl

end Machine

/-- An address of a stack, large or small, above its guard zone. -/
def StackAddress (addr : ℕ) : Prop :=
  (stacksAddr ≤ addr ∧ addr < stacksAddrEnd ∧ alignDown addr 0x800000 + 0x200000 ≤ addr) ∨
    (smallStacksAddr ≤ addr ∧ addr < smallStacksAddrEnd ∧ alignDown addr 0x8000 + 0x1000 ≤ addr)

instance (addr : ℕ) : Decidable (StackAddress addr) := by unfold StackAddress; infer_instance

theorem StackAddress.allocate {addr : ℕ} (h : StackAddress addr) :
    faultAction addr = .allocate := by
  rw [faultAction]
  split
  · rfl
  rcases h with ⟨hlo, hhi, hguard⟩ | ⟨hlo, hhi, hguard⟩
  · rw [if_pos ⟨hlo, hhi⟩, if_pos hguard]
  · have hnot : ¬ (stacksAddr ≤ addr ∧ addr < stacksAddrEnd) := by
      rintro ⟨-, hlt⟩
      exact absurd hlt (Nat.not_lt.mpr hlo)
    rw [if_neg hnot, if_pos ⟨hlo, hhi⟩, if_pos hguard]

/-- The reserved page is enough for a fault on a stack inside the allocator exactly
when every table on the way to the page is there. -/
theorem reserved_page_enough_iff {cpus : ℕ} (m : Machine cpus) (cpu : Fin cpus) (page addr : ℕ)
    (hlock : m.phys.lockCpu = some cpu) (hres : m.phys.reservedPage cpu = some page)
    (haddr : StackAddress addr) :
    (∃ m', m.virtHandlePageFault cpu addr = .ok (true, m')) ↔ m.TablesPresent addr page := by
  rw [Machine.virtHandlePageFault_reserved hlock hres haddr.allocate, ← Machine.resolve_clear]
  rcases PageTree.resolve Entry.link (m.clear page).mem m.cr3 (path addr) with _ | pml1
  · simp
  · simp

/-- A core inside `phys_alloc`, its reserve filled, all sixteen pages of the machine
in use. The first stack is mapped down to its third 2MB. -/
def growingStack : Machine 1 where
  phys := {
    regions := [⟨16, 0xFFFF800000000000, fun _ => [], fun _ => ⟨Phys.pageLevel, false⟩⟩]
    lockCpu := some ⟨0, Nat.one_pos⟩
    reservedPage := fun _ => some 0xFFFF800000005000 }
  mem := fun table index =>
    if table = 1 ∧ index = 286 then ⟨true, true, true, 2⟩
    else if table = 2 ∧ index = 0 then ⟨true, true, false, 3⟩
    else if table = 3 ∧ index = 2 then ⟨true, true, false, 4⟩
    else .zero
  cr3 := 1

/-- A fault where the table is there. -/
theorem reserved_page_enough_in_table :
    ∃ m', growingStack.virtHandlePageFault 0 0xFFFF8F0000400000 = .ok (true, m') := by
  have htables : growingStack.TablesPresent 0xFFFF8F0000400000 0xFFFF800000005000 :=
    ⟨2, 3, 4, by decide +kernel, by decide +kernel, by decide +kernel, by decide +kernel⟩
  exact (reserved_page_enough_iff growingStack 0 0xFFFF800000005000 0xFFFF8F0000400000 rfl rfl
    (by decide +kernel)).mpr htables

/-- A stack that grows across 2MB inside the allocator needs a table besides the
page. -/
theorem reserved_page_not_enough :
    ¬ ∀ (cpus : ℕ) (m : Machine cpus) (cpu : Fin cpus) (page addr : ℕ),
      m.phys.lockCpu = some cpu → m.phys.reservedPage cpu = some page → StackAddress addr →
      ∃ m', m.virtHandlePageFault cpu addr = .ok (true, m') := by
  intro h
  obtain ⟨m', hm'⟩ := h 1 growingStack 0 0xFFFF800000005000 0xFFFF8F00003FF000 rfl rfl
    (by decide +kernel)
  have hfail : (growingStack.virtHandlePageFault 0 0xFFFF8F00003FF000).map Prod.fst =
      .error (.assertion .irqAlloc) := by decide +kernel
  rw [hm'] at hfail
  cases hfail

end TomatOS.Fault
