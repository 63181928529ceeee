import TomatOS.Phys.AddMemory

/-! The physical allocator over all regions, from `kernel/mem/phys.c`: the
search through the regions, the page each core keeps in reserve for page faults
taken inside the allocator, `phys_alloc` and `phys_free`. The lock makes the
calls of different cores follow one another; what can happen inside a call is a
page fault of the same core, whose own allocation takes the reserved page. -/

namespace TomatOS.Phys

/-- `m_memory_regions`, `m_lock_cpu` (`none` for -1) and the per-core
`m_reserved_page`. -/
structure PhysState (cpus : ℕ) where
  regions : List MemoryRegion
  lockCpu : Option (Fin cpus)
  reservedPage : Fin cpus → Option ℕ

variable {cpus : ℕ}

/-- The index of the region a pointer lies in. -/
def findRegion (regions : List MemoryRegion) (ptr : ℕ) : Option ℕ :=
  regions.findIdx? fun region =>
    region.base ≤ ptr ∧ ptr < region.base + region.pageCount * pageSize

/-- The loop of `internal_phys_alloc` over the `n` regions from `i` on. -/
def internalPhysAllocFrom (level : Option ℕ) :
    ℕ → ℕ → List MemoryRegion → Result (Option ℕ × List MemoryRegion)
  | 0, _, regions => .ok (none, regions)
  | n + 1, i, regions =>
    match regions[i]? with
    | none => .ok (none, regions)
    | some region => do
      let (ptr, region) ← allocateFromLevel region level
      match ptr with
      | some a => return (some a, regions.set i region)
      | none => internalPhysAllocFrom level n (i + 1) (regions.set i region)

def internalPhysAlloc (level : Option ℕ) (s : PhysState cpus) :
    Result (Option ℕ × PhysState cpus) := do
  let (ptr, regions) ← internalPhysAllocFrom level s.regions.length 0 s.regions
  return (ptr, { s with regions := regions })

def irqAlloc (cpu : Fin cpus) (size : ℕ) (s : PhysState cpus) :
    Result (Option ℕ × PhysState cpus) :=
  if s.lockCpu = some cpu ∧ size = pageSize then
    match s.reservedPage cpu with
    | none => .error (.assertion .irqAlloc)
    | some ptr => .ok (some ptr, { s with reservedPage := Function.update s.reservedPage cpu none })
  else .ok (none, s)

/-- Running out of memory only leaves the reserve empty, with a warning. -/
def fillIrqAlloc (cpu : Fin cpus) (s : PhysState cpus) : Result (PhysState cpus) :=
  match s.reservedPage cpu with
  | some _ => .ok s
  | none => do
    let (page, s) ← internalPhysAlloc (getLevelBySize pageSize) s
    match page with
    | none => return s
    | some page => return { s with reservedPage := Function.update s.reservedPage cpu (some page) }

/-- The pages handed out to `n` page faults that the lock holder takes, each
calling `phys_alloc(PAGE_SIZE)`. -/
def nestedFaults (cpu : Fin cpus) : ℕ → PhysState cpus → Result (List ℕ × PhysState cpus)
  | 0, s => .ok ([], s)
  | n + 1, s => do
    let (ptr, s) ← irqAlloc cpu pageSize s
    let (ptrs, s) ← nestedFaults cpu n s
    return (ptr.toList ++ ptrs, s)

/-- `phys_alloc(size)` on a core that takes `before` page faults between taking
the lock and filling the reserve, and `after` more until it releases the lock:
the pointer, the pages the faults took, the state. -/
def physAlloc (cpu : Fin cpus) (size before after : ℕ) (s : PhysState cpus) :
    Result (Option ℕ × List ℕ × PhysState cpus) := do
  let (ptr, s) ← irqAlloc cpu size s
  match ptr with
  | some ptr => return (some ptr, [], s)
  | none =>
    match getLevelBySize (size % 2 ^ 32) with
    | none => return (none, [], s)
    | some level =>
      let s := { s with lockCpu := some cpu }
      let (early, s) ← nestedFaults cpu before s
      let (ptr, s) ← internalPhysAlloc (some level) s
      let s ← fillIrqAlloc cpu s
      let (late, s) ← nestedFaults cpu after s
      return (ptr, early ++ late, { s with lockCpu := none })

def physFree (ptr : Option ℕ) (s : PhysState cpus) : Result (PhysState cpus) :=
  match ptr with
  | none => .ok s
  | some ptr =>
    match findRegion s.regions ptr with
    | none => .error (.assertion .physFree)
    | some i =>
      match s.regions[i]? with
      | none => .error .nullAccess
      | some region =>
        match pageMetadata region ptr with
        | none => .error .nullAccess
        | some index =>
          let level := (region.metadata index).level
          if ptr &&& (1 <<< (level + buddyFirstLevel) - 1) = 0 then do
            let region ← freeAtLevel region ptr level
            return { s with regions := s.regions.set i region }
          else .error (.assertion .physFree)

def initPhysPerCpu (cpu : Fin cpus) (s : PhysState cpus) : Result (PhysState cpus) :=
  fillIrqAlloc cpu s

/-! ### Runs -/

/-- The regions of a machine, pairwise disjoint. -/
structure MemoryMap where
  specs : List RegionSpec
  disjoint : specs.Pairwise fun a b =>
    a.base + a.pageCount * pageSize ≤ b.base ∨ b.base + b.pageCount * pageSize ≤ a.base

/-- The allocator together with the allocations its clients hold, each with the
level its size was rounded to. -/
structure Run (cpus : ℕ) where
  phys : PhysState cpus
  live : List (ℕ × ℕ)

inductive Call (cpus : ℕ) where
  | alloc (cpu : Fin cpus) (size before after : ℕ)
  | free (cpu : Fin cpus) (ptr : ℕ)
  | initPerCpu (cpu : Fin cpus)

/-- The allocation a client records for a returned pointer. -/
def granted (size : ℕ) : Option ℕ → List (ℕ × ℕ)
  | none => []
  | some ptr => [(ptr, (getLevelBySize (size % 2 ^ 32)).getD 0)]

def Run.step (s : Run cpus) : Call cpus → Result (Run cpus)
  | .alloc cpu size before after => do
    let (ptr, nested, phys) ← physAlloc cpu size before after s.phys
    return ⟨phys, granted size ptr ++ (nested.map (·, pageLevel) ++ s.live)⟩
  | .free _ ptr => do
    let phys ← physFree (some ptr) s.phys
    return ⟨phys, s.live.eraseP (·.1 = ptr)⟩
  | .initPerCpu cpu => do
    let phys ← initPhysPerCpu cpu s.phys
    return ⟨phys, s.live⟩

/-- All regions initialised, nothing allocated, no page in reserve. -/
def MemoryMap.boot (map : MemoryMap) (cpus : ℕ) : Result (Run cpus) := do
  let regions ← map.specs.mapM RegionSpec.initRegion
  return ⟨⟨regions, none, fun _ => none⟩, []⟩

end TomatOS.Phys
