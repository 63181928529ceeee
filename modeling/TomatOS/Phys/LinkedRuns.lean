import TomatOS.Phys.LinkedRegion

/-! The physical allocator over the list entries in memory, and its clients, who write to
the blocks they hold whatever they want. A run of calls and writes from boot keeps the links
in the free blocks in order, as no client's block has an entry in it, and does what the same
calls do over sequences. -/

namespace TomatOS.Phys

open Foundation Foundation.Dyadic Foundation.Links Lib

structure LinkedPhys (cpus : ℕ) where
  regions : List LinkedRegion
  links : Links ℕ
  lockCpu : Option (Fin cpus)
  reservedPage : Fin cpus → Option ℕ

variable {cpus : ℕ}

namespace LinkedPhys

def findRegion (s : LinkedPhys cpus) (ptr : ℕ) : Option ℕ :=
  s.regions.findIdx? fun region =>
    region.base ≤ ptr ∧ ptr < region.base + region.pageCount * pageSize

/-- Region `i` and the memory after an operation on them. -/
def store (s : LinkedPhys cpus) (i : ℕ) (l : Linked) : LinkedPhys cpus :=
  { s with regions := s.regions.set i l.region, links := l.links }

def internalPhysAllocFrom (level : Option ℕ) :
    ℕ → ℕ → LinkedPhys cpus → Result (Option ℕ × LinkedPhys cpus)
  | 0, _, s => .ok (none, s)
  | n + 1, i, s =>
    match s.regions[i]? with
    | none => .ok (none, s)
    | some region => do
      let (ptr, l) ← Linked.allocateFromLevel ⟨region, s.links⟩ level
      match ptr with
      | some a => return (some a, s.store i l)
      | none => internalPhysAllocFrom level n (i + 1) (s.store i l)

def internalPhysAlloc (level : Option ℕ) (s : LinkedPhys cpus) :
    Result (Option ℕ × LinkedPhys cpus) := internalPhysAllocFrom level s.regions.length 0 s

def irqAlloc (cpu : Fin cpus) (size : ℕ) (s : LinkedPhys cpus) :
    Result (Option ℕ × LinkedPhys cpus) :=
  if s.lockCpu = some cpu ∧ size = pageSize then
    match s.reservedPage cpu with
    | none => .error (.assertion .irqAlloc)
    | some ptr => .ok (some ptr, { s with reservedPage := Function.update s.reservedPage cpu none })
  else .ok (none, s)

def fillIrqAlloc (cpu : Fin cpus) (s : LinkedPhys cpus) : Result (LinkedPhys cpus) :=
  match s.reservedPage cpu with
  | some _ => .ok s
  | none => do
    let (page, s) ← internalPhysAlloc (getLevelBySize pageSize) s
    match page with
    | none => return s
    | some page => return { s with reservedPage := Function.update s.reservedPage cpu (some page) }

def nestedFaults (cpu : Fin cpus) : ℕ → LinkedPhys cpus → Result (List ℕ × LinkedPhys cpus)
  | 0, s => .ok ([], s)
  | n + 1, s => do
    let (ptr, s) ← irqAlloc cpu pageSize s
    let (ptrs, s) ← nestedFaults cpu n s
    return (ptr.toList ++ ptrs, s)

def physAlloc (cpu : Fin cpus) (size before after : ℕ) (s : LinkedPhys cpus) :
    Result (Option ℕ × List ℕ × LinkedPhys cpus) := do
  let (ptr, s) ← irqAlloc cpu size s
  match ptr with
  | some ptr => return (some ptr, [], s)
  | none =>
    match getLevelBySize (size % 2 ^ 32) with
    | none => return (none, [], s)
    | some level =>
      let s := { s with lockCpu := some cpu }
      let (early, s) ← nestedFaults cpu before s
      let (ptr, s) ← internalPhysAlloc (some level) s
      let s ← fillIrqAlloc cpu s
      let (late, s) ← nestedFaults cpu after s
      return (ptr, early ++ late, { s with lockCpu := none })

def physFree (ptr : Option ℕ) (s : LinkedPhys cpus) : Result (LinkedPhys cpus) :=
  match ptr with
  | none => .ok s
  | some ptr =>
    match s.findRegion ptr with
    | none => .error (.assertion .physFree)
    | some i =>
      match s.regions[i]? with
      | none => .error .nullAccess
      | some region =>
        match Linked.pageMetadata ⟨region, s.links⟩ ptr with
        | none => .error .nullAccess
        | some index =>
          let level := (region.metadata index).level
          if ptr &&& (1 <<< (level + buddyFirstLevel) - 1) = 0 then do
            let l ← Linked.freeAtLevel ⟨region, s.links⟩ ptr level
            return s.store i l
          else .error (.assertion .physFree)

def initPhysPerCpu (cpu : Fin cpus) (s : LinkedPhys cpus) : Result (LinkedPhys cpus) :=
  fillIrqAlloc cpu s

/-- The call of `add_memory_to_region` in `add_memory`. -/
def addMemory (i : ℕ) (s : LinkedPhys cpus) (range : ℕ × ℕ) : Result (LinkedPhys cpus) :=
  match s.regions[i]? with
  | none => .error .nullAccess
  | some region => do
    let l ← Linked.addMemoryToRegion ⟨region, s.links⟩ range.1 range.2
    return s.store i l

end LinkedPhys

/-- The loop of `create_memory_regions` over the heads. -/
def initLists (heads : ℕ → ℕ → ℕ) (count : ℕ) (k : Links ℕ) : Links ℕ :=
  (List.range count).foldl (fun k i =>
    (List.range buddyLevelCount).foldl (fun k l => IntrusiveList.listInit (heads i l) k) k) k

/-- The ranges of the regions from `i` on. -/
def addAll (i : ℕ) (s : LinkedPhys cpus) : List RegionSpec → Result (LinkedPhys cpus)
  | [] => .ok s
  | spec :: specs => do
    let s ← spec.ranges.foldlM (LinkedPhys.addMemory i) s
    addAll (i + 1) s specs

/-- The regions as `create_memory_regions` leaves them, in a memory with any links. -/
def MemoryMap.bootLinked (map : MemoryMap) (cpus : ℕ) (heads : ℕ → ℕ → ℕ) (k : Links ℕ) :
    Result (LinkedPhys cpus) :=
  addAll 0
    { regions := map.specs.mapIdx fun i spec =>
        ⟨spec.pageCount, spec.base, heads i, fun _ => ⟨0, false⟩⟩
      links := initLists heads map.specs.length k
      lockCpu := none
      reservedPage := fun _ => none } map.specs

/-! ### Clients -/

structure LinkedRun (cpus : ℕ) where
  phys : LinkedPhys cpus
  live : List (ℕ × ℕ)

/-- What a client does: call the allocator or write to a block. -/
inductive Action (cpus : ℕ) where
  | call (c : Call cpus)
  | write (block : ℕ × ℕ) (data : Links ℕ)

/-- The links after all of a block was written. -/
def overwrite (k : Links ℕ) (block : ℕ × ℕ) (data : Links ℕ) : Links ℕ where
  next a := if block.1 ≤ a ∧ a < block.1 + 2 ^ (block.2 + buddyFirstLevel) then data.next a
    else k.next a
  prev a := if block.1 ≤ a ∧ a < block.1 + 2 ^ (block.2 + buddyFirstLevel) then data.prev a
    else k.prev a

def LinkedRun.step (s : LinkedRun cpus) : Action cpus → Result (LinkedRun cpus)
  | .call (.alloc cpu size before after) => do
    let (ptr, nested, phys) ← s.phys.physAlloc cpu size before after
    return ⟨phys, granted size ptr ++ (nested.map (·, pageLevel) ++ s.live)⟩
  | .call (.free _ ptr) => do
    let phys ← s.phys.physFree (some ptr)
    return ⟨phys, s.live.eraseP (·.1 = ptr)⟩
  | .call (.initPerCpu cpu) => do
    let phys ← s.phys.initPhysPerCpu cpu
    return ⟨phys, s.live⟩
  | .write block data =>
    .ok { s with phys := { s.phys with links := overwrite s.phys.links block data } }

/-- Over sequences a write changes nothing. -/
def Run.act (s : Run cpus) : Action cpus → Result (Run cpus)
  | .call c => s.step c
  | .write _ _ => .ok s

/-- Live pointers are freed, in a state that describes them, and live blocks written. -/
def Action.Allowed (s : Run cpus) : Action cpus → Prop
  | .call c => AnySize s c ∧ Described s c
  | .write block _ => block ∈ s.live

/-- Every action of a run is allowed in the state it comes to. -/
def AllAllowed (s : Run cpus) : List (Action cpus) → Prop
  | [] => True
  | a :: as => a.Allowed s ∧ ∀ s', s.act a = .ok s' → AllAllowed s' as

/-! ### The allocator -/

def MemoryRegion.linkedAt (r : MemoryRegion) (head : ℕ → ℕ) : LinkedRegion :=
  ⟨r.pageCount, r.base, head, r.metadata⟩

/-- The allocator in memory and the one over sequences. -/
structure Simulates (map : MemoryMap) (heads : ℕ → ℕ → ℕ) (s : LinkedPhys cpus)
    (q : PhysState cpus) : Prop where
  regions : s.regions = q.regions.mapIdx fun i r => r.linkedAt (heads i)
  holds : Holds map heads s.links q.regions
  lockCpu : s.lockCpu = q.lockCpu
  reservedPage : s.reservedPage = q.reservedPage

variable {map : MemoryMap} {heads : ℕ → ℕ → ℕ} {s : LinkedPhys cpus} {q : PhysState cpus}
  {cpu : Fin cpus} {i : ℕ} {r : MemoryRegion} {extra : Multiset Block}

theorem Simulates.getElem? (h : Simulates map heads s q) (i : ℕ) :
    s.regions[i]? = (q.regions[i]?).map fun r => r.linkedAt (heads i) := by
  rw [h.regions, List.getElem?_mapIdx]

theorem Simulates.length_eq (h : Simulates map heads s q) :
    s.regions.length = q.regions.length := by
  rw [h.regions, List.length_mapIdx]

theorem Simulates.tracks (h : Simulates map heads s q) (hr : q.regions[i]? = some r) :
    Tracks map heads q.regions i ⟨r.linkedAt (heads i), s.links⟩ r := by
  obtain ⟨hi, rfl⟩ := List.getElem?_eq_some_iff.mp hr
  refine ⟨rfl, ?_⟩
  rw [List.set_getElem_self]
  exact h.holds

theorem Simulates.store (h : Simulates map heads s q) {l : Linked}
    (hl : Tracks map heads q.regions i l r) :
    Simulates map heads (s.store i l) { q with regions := q.regions.set i r } := by
  refine ⟨?_, hl.holds, h.lockCpu, h.reservedPage⟩
  apply List.ext_getElem?
  intro j
  rw [LinkedPhys.store, hl.region, List.getElem?_mapIdx, List.getElem?_set, List.getElem?_set,
    h.length_eq, h.getElem?]
  split_ifs with hij
  · subst hij
    rfl
  · rfl
  · rfl

/-- The free blocks lie in the memory that was given to their regions. -/
def FreeGiven (map : MemoryMap) (regions : List MemoryRegion) : Prop :=
  ∀ i r, regions[i]? = some r → ∀ b ∈ r.freeBlocks, ∀ x, b.Covers x → map.GivenTo i x

theorem StateOk.freeGiven {m : ℕ} (h : StateOk m map q extra) : FreeGiven map q.regions := by
  intro i r hr b hb x hx
  obtain ⟨hi, rfl⟩ := List.getElem?_eq_some_iff.mp hr
  obtain ⟨spec, hspec, hok⟩ := h.sound ⟨i, hi⟩
  exact ⟨spec, hspec, hok.tiles.mem_of_covers (Multiset.mem_add.mpr (Or.inl hb)) hx⟩

theorem allocateFromLevel_none {level : Option ℕ} {r' : MemoryRegion}
    (h : allocateFromLevel r level = .ok (none, r')) : r' = r := by
  cases level with
  | none =>
    cases h
    rfl
  | some level =>
    rw [allocateFromLevel] at h
    split_ifs at h with hl
    cases hf : findBlock r (buddyLevelCount - level) level with
    | none =>
      rw [hf] at h
      cases h
      rfl
    | some found =>
      rw [hf] at h
      simp only [bind, Except.bind, pure, Except.pure] at h
      split at h
      · cases h
      · split at h
        · cases h
        · split at h
          · cases h
          · cases h

theorem Simulates.internalPhysAllocFrom (h : Simulates map heads s q)
    (hheads : HeadsApart map heads) (hgiven : FreeGiven map q.regions) (level : Option ℕ) (n i : ℕ) :
    Follows (fun a b => a.1 = b.1 ∧ Simulates map heads a.2 { q with regions := b.2 })
      (LinkedPhys.internalPhysAllocFrom level n i s)
      (internalPhysAllocFrom level n i q.regions) := by
  induction n generalizing s i with
  | zero => exact .ok ⟨rfl, h⟩
  | succ n ih =>
    rw [LinkedPhys.internalPhysAllocFrom, Phys.internalPhysAllocFrom, h.getElem?]
    cases hr : q.regions[i]? with
    | none => exact .ok ⟨rfl, h⟩
    | some r =>
      have hi := (List.getElem?_eq_some_iff.mp hr).1
      have halloc := (h.tracks hr).allocateFromLevel hi hheads (hgiven i r hr) level
      have hkeep := halloc.and (q := fun b => b.1 = none → b.2 = r) (by
        rintro ⟨ptr, r'⟩ hb rfl
        exact allocateFromLevel_none hb)
      apply hkeep.bind
      rintro ⟨ptr, l⟩ ⟨ptr', r'⟩ ⟨⟨rfl, hl⟩, hsame⟩
      cases ptr with
      | some a => exact .ok ⟨rfl, h.store hl⟩
      | none =>
        obtain rfl : r' = r := hsame rfl
        have hset : q.regions.set i r' = q.regions := by
          obtain ⟨hi, rfl⟩ := List.getElem?_eq_some_iff.mp hr
          exact List.set_getElem_self hi
        have hstore := h.store hl
        rw [hset] at hstore
        simp only [hset]
        exact ih hstore (i + 1)

theorem Simulates.internalPhysAlloc (h : Simulates map heads s q)
    (hheads : HeadsApart map heads) (hgiven : FreeGiven map q.regions) (level : Option ℕ) :
    Follows (fun a b => a.1 = b.1 ∧ Simulates map heads a.2 b.2)
      (LinkedPhys.internalPhysAlloc level s) (internalPhysAlloc level q) := by
  rw [LinkedPhys.internalPhysAlloc, Phys.internalPhysAlloc, h.length_eq]
  have hrun := h.internalPhysAllocFrom hheads hgiven level q.regions.length 0
  intro b hb
  simp only [bind, Except.bind, pure, Except.pure] at hb
  split at hb
  · cases hb
  next ptr heq =>
    cases hb
    exact hrun _ heq

/-- The allocator in memory and a sound one over sequences. -/
structure Serves (map : MemoryMap) (heads : ℕ → ℕ → ℕ) (s : LinkedPhys cpus)
    (q : PhysState cpus) : Prop where
  simulates : Simulates map heads s q
  sound : ∃ extra, StateOk 4 map q extra

theorem Serves.of_follows {α : Type} {x : Result (α × LinkedPhys cpus)}
    {y : Result (α × PhysState cpus)}
    (h : Follows (fun a b => a.1 = b.1 ∧ Simulates map heads a.2 b.2) x y)
    (hy : ∀ b, y = .ok b → ∃ extra, StateOk 4 map b.2 extra) :
    Follows (fun a b => a.1 = b.1 ∧ Serves map heads a.2 b.2) x y := by
  apply (h.and hy).mono
  rintro a b ⟨⟨heq, hab⟩, hb⟩
  exact ⟨heq, hab, hb⟩

theorem Serves.lock (h : Serves map heads s q) (cpu : Option (Fin cpus)) :
    Serves map heads { s with lockCpu := cpu } { q with lockCpu := cpu } := by
  obtain ⟨extra, hq⟩ := h.sound
  exact ⟨⟨h.simulates.regions, h.simulates.holds, rfl, h.simulates.reservedPage⟩, extra, hq⟩

theorem Serves.irqAlloc (h : Serves map heads s q) (cpu : Fin cpus) (size : ℕ) :
    Follows (fun a b => a.1 = b.1 ∧ Serves map heads a.2 b.2) (LinkedPhys.irqAlloc cpu size s)
      (irqAlloc cpu size q) := by
  obtain ⟨hs, extra, hq⟩ := h
  apply Serves.of_follows
  · rw [LinkedPhys.irqAlloc, Phys.irqAlloc, hs.lockCpu, hs.reservedPage]
    split_ifs
    · cases q.reservedPage cpu with
      | none => exact .error _
      | some ptr => exact .ok ⟨rfl, hs.regions, hs.holds, rfl, rfl⟩
    · exact .ok ⟨rfl, hs⟩
  · intro b hb
    by_cases hc : q.lockCpu = some cpu ∧ size = pageSize
    · obtain ⟨hlock, rfl⟩ := hc
      rcases irqAlloc_locked hlock hq with herr | ⟨p, q', hok, -, hq'⟩
      · rw [herr] at hb
        cases hb
      · rw [hok] at hb
        cases hb
        exact ⟨_, hq'⟩
    · rw [Phys.irqAlloc, if_neg hc] at hb
      cases hb
      exact ⟨extra, hq⟩

theorem Serves.nestedFaults (h : Serves map heads s q) (cpu : Fin cpus) (n : ℕ) :
    Follows (fun a b => a.1 = b.1 ∧ Serves map heads a.2 b.2) (LinkedPhys.nestedFaults cpu n s)
      (nestedFaults cpu n q) := by
  induction n generalizing s q with
  | zero => exact .ok ⟨rfl, h⟩
  | succ n ih =>
    rw [LinkedPhys.nestedFaults, Phys.nestedFaults]
    apply (h.irqAlloc cpu pageSize).bind
    rintro ⟨ptr, s₁⟩ ⟨ptr', q₁⟩ ⟨rfl, h₁⟩
    apply (ih h₁).bind
    rintro ⟨ptrs, s₂⟩ ⟨ptrs', q₂⟩ ⟨rfl, h₂⟩
    exact .ok ⟨rfl, h₂⟩

theorem Serves.internalPhysAlloc (h : Serves map heads s q) (hheads : HeadsApart map heads)
    {level : ℕ} (hl : level < buddyLevelCount) :
    Follows (fun a b => a.1 = b.1 ∧ Serves map heads a.2 b.2)
      (LinkedPhys.internalPhysAlloc (some level) s) (internalPhysAlloc (some level) q) := by
  obtain ⟨hs, extra, hq⟩ := h
  apply Serves.of_follows (hs.internalPhysAlloc hheads hq.freeGiven _)
  intro b hb
  have hm : 4 ≤ level + buddyFirstLevel := Nat.le_add_left 4 level
  rcases internalPhysAlloc_spec le_rfl hl hm hq with ⟨-, hn⟩ | ⟨-, a, q', hok, -, -, hq'⟩
  · rw [hn] at hb
    cases hb
    exact ⟨extra, hq⟩
  · rw [hok] at hb
    cases hb
    exact ⟨_, hq'⟩

theorem Serves.fillIrqAlloc (h : Serves map heads s q) (hheads : HeadsApart map heads)
    (cpu : Fin cpus) :
    Follows (Serves map heads) (LinkedPhys.fillIrqAlloc cpu s) (fillIrqAlloc cpu q) := by
  obtain ⟨extra, hq⟩ := h.sound
  have hfill : Follows (Simulates map heads) (LinkedPhys.fillIrqAlloc cpu s)
      (Phys.fillIrqAlloc cpu q) := by
    rw [LinkedPhys.fillIrqAlloc, Phys.fillIrqAlloc, h.simulates.reservedPage]
    cases q.reservedPage cpu with
    | some page => exact .ok h.simulates
    | none =>
      have hlevel : getLevelBySize pageSize = some pageLevel := by decide
      rw [hlevel]
      apply (h.internalPhysAlloc hheads (by decide)).bind
      rintro ⟨page, s₁⟩ ⟨page', q₁⟩ ⟨rfl, h₁⟩
      obtain ⟨hregions, hholds, hlock, hpage⟩ := h₁.simulates
      cases page with
      | none => exact .ok h₁.simulates
      | some page => exact .ok ⟨hregions, hholds, hlock, congrArg (Function.update · cpu _) hpage⟩
  apply (hfill.and (q := fun b => ∃ extra, StateOk 4 map b extra) _).mono
  · rintro a b ⟨hab, hb⟩
    exact ⟨hab, hb⟩
  · intro b hb
    obtain ⟨q', hok, -, hq'⟩ := fillIrqAlloc_spec le_rfl (by decide) cpu hq
    rw [hok] at hb
    cases hb
    exact ⟨extra, hq'⟩

theorem Serves.physAlloc (h : Serves map heads s q) (hheads : HeadsApart map heads)
    (cpu : Fin cpus) (size before after : ℕ) :
    Follows (fun a b => a.1 = b.1 ∧ a.2.1 = b.2.1 ∧ Serves map heads a.2.2 b.2.2)
      (LinkedPhys.physAlloc cpu size before after s) (physAlloc cpu size before after q) := by
  rw [LinkedPhys.physAlloc, Phys.physAlloc]
  apply (h.irqAlloc cpu size).bind
  rintro ⟨ptr, s₁⟩ ⟨ptr', q₁⟩ ⟨rfl, h₁⟩
  cases ptr with
  | some ptr => exact .ok ⟨rfl, rfl, h₁⟩
  | none =>
    cases hlevel : getLevelBySize (size % 2 ^ 32) with
    | none => exact .ok ⟨rfl, rfl, h₁⟩
    | some level =>
      apply ((h₁.lock (some cpu)).nestedFaults cpu before).bind
      rintro ⟨early, s₂⟩ ⟨early', q₂⟩ ⟨rfl, h₂⟩
      apply (h₂.internalPhysAlloc hheads (getLevelBySize_spec hlevel).1).bind
      rintro ⟨ptr, s₃⟩ ⟨ptr', q₃⟩ ⟨rfl, h₃⟩
      apply (h₃.fillIrqAlloc hheads cpu).bind
      intro s₄ q₄ h₄
      apply (h₄.nestedFaults cpu after).bind
      rintro ⟨late, s₅⟩ ⟨late', q₅⟩ ⟨rfl, h₅⟩
      exact .ok ⟨rfl, rfl, h₅.lock none⟩

theorem findIdx?_mapIdx {α β : Type} {p : β → Bool} {p' : α → Bool} {f : ℕ → α → β} {l : List α}
    (h : ∀ i a, p (f i a) = p' a) : (l.mapIdx f).findIdx? p = l.findIdx? p' := by
  induction l generalizing f with
  | nil => rfl
  | cons a l ih =>
    rw [List.mapIdx_cons, List.findIdx?_cons, List.findIdx?_cons, h, ih fun i a => h (i + 1) a]

theorem Simulates.findRegion (h : Simulates map heads s q) (ptr : ℕ) :
    s.findRegion ptr = findRegion q.regions ptr := by
  rw [LinkedPhys.findRegion, h.regions]
  exact findIdx?_mapIdx fun _ _ => rfl

/-- Freeing a pointer into the memory that was given to its region. -/
theorem Simulates.physFree (h : Simulates map heads s q) (hheads : HeadsApart map heads)
    {ptr : ℕ} (hptr : ∀ i, Phys.findRegion q.regions ptr = some i → map.GivenTo i ptr) :
    Follows (Simulates map heads) (LinkedPhys.physFree (some ptr) s) (physFree (some ptr) q) := by
  rw [LinkedPhys.physFree, Phys.physFree]
  simp only [h.findRegion]
  cases hfind : Phys.findRegion q.regions ptr with
  | none => exact .error _
  | some i =>
    simp only [h.getElem?]
    cases hr : q.regions[i]? with
    | none => exact .error _
    | some r =>
      have hi := (List.getElem?_eq_some_iff.mp hr).1
      have htracks := h.tracks hr
      have hmetadata : (r.linkedAt (heads i)).metadata = r.metadata := rfl
      simp only [Option.map_some, htracks.pageMetadata_eq, hmetadata]
      cases pageMetadata r ptr with
      | none => exact .error _
      | some index =>
        by_cases haligned :
            ptr &&& (1 <<< ((r.metadata index).level + buddyFirstLevel) - 1) = 0
        · simp only [if_pos haligned]
          apply (htracks.freeAtLevel hi hheads (hptr i hfind)).bind
          intro l r' hl
          exact .ok (h.store hl)
        · simp only [if_neg haligned]
          exact .error _

/-! ### Boot -/

/-- The heads of the first regions. -/
def allHeads (heads : ℕ → ℕ → ℕ) (count : ℕ) : List ℕ :=
  (List.range count).flatMap fun i => (List.range buddyLevelCount).map (heads i)

theorem mem_allHeads {count h : ℕ} :
    h ∈ allHeads heads count ↔ ∃ i < count, ∃ l < buddyLevelCount, heads i l = h := by
  simp [allHeads]

theorem nodup_allHeads (hheads : HeadsApart map heads) (count : ℕ) :
    (allHeads heads count).Nodup := by
  rw [allHeads, List.nodup_flatMap]
  constructor
  · intro i _
    apply List.Nodup.map_on _ List.nodup_range
    intro l hl m hm he
    exact (hheads.injective i i l m (List.mem_range.mp hl) (List.mem_range.mp hm) he).2
  · apply List.Pairwise.imp _ (List.nodup_range (n := count))
    intro i j hne x hi hj
    obtain ⟨l, hl, rfl⟩ := List.mem_map.mp hi
    obtain ⟨m, hm, he⟩ := List.mem_map.mp hj
    rw [List.mem_range] at hl hm
    exact hne (hheads.injective j i m l hm hl he).1.symm

theorem initLists_represents (hheads : HeadsApart map heads) (count : ℕ) (k : Links ℕ) :
    (initLists heads count k).Represents fun h =>
      if h ∈ allHeads heads count then some [] else none := by
  have hinit := (IntrusiveList.noLists_refines k).toRepresents.init_all
    (nodup_allHeads hheads count) fun a _ => IntrusiveList.noLists_free a
  have hfold : initLists heads count k = (allHeads heads count).foldl (fun k a => k.join a a) k := by
    rw [initLists, allHeads, List.foldl_flatMap]
    simp only [List.foldl_map]
    rfl
  rw [hfold]
  exact hinit

theorem emptyRegions_hold (hheads : HeadsApart map heads) (k : Links ℕ) :
    Holds map heads (initLists heads map.specs.length k)
      (map.specs.map RegionSpec.emptyRegion) := by
  have hempty : ∀ i r, (map.specs.map RegionSpec.emptyRegion)[i]? = some r →
      i < map.specs.length ∧ ∀ l, r.freeList l = [] := by
    intro i r hr
    obtain ⟨hi, rfl⟩ := List.getElem?_eq_some_iff.mp hr
    rw [List.length_map] at hi
    rw [List.getElem_map]
    exact ⟨hi, fun _ => rfl⟩
  refine ⟨⟨_, initLists_represents hheads _ k, ?_, ?_⟩, ?_⟩
  · intro i r hr l hl
    obtain ⟨hi, hnil⟩ := hempty i r hr
    rw [hnil, if_pos (mem_allHeads.mpr ⟨i, hi, l, hl, rfl⟩)]
  · intro h es hh
    split_ifs at hh with hmem
    obtain ⟨i, hi, l, hl, rfl⟩ := mem_allHeads.mp hmem
    refine ⟨i, _, l, List.getElem?_eq_getElem (by rwa [List.length_map]), hl, rfl⟩
  · intro i r hr l hl a ha
    rw [(hempty i r hr).2] at ha
    cases ha

/-- No allocation yet, no page in reserve. -/
def booted (cpus : ℕ) (regions : List MemoryRegion) : PhysState cpus :=
  ⟨regions, none, fun _ => none⟩

theorem Simulates.addMemory {done rest : List MemoryRegion} {range : ℕ × ℕ}
    (h : Simulates map heads s (booted cpus (done ++ r :: rest)))
    (hheads : HeadsApart map heads)
    (hrange : map.RangeGiven done.length range.1 (range.2 * pageSize)) :
    Follows (fun a r' => Simulates map heads a (booted cpus (done ++ r' :: rest)))
      (LinkedPhys.addMemory done.length s range) (addMemoryToRegion r range.1 range.2) := by
  have hr : (booted cpus (done ++ r :: rest)).regions[done.length]? = some r := by
    simp [booted]
  have hi := (List.getElem?_eq_some_iff.mp hr).1
  rw [LinkedPhys.addMemory, h.getElem?, hr, ← bind_pure (addMemoryToRegion r range.1 range.2)]
  apply ((h.tracks hr).addMemoryToRegion hi hheads hrange).bind
  intro l r' hl
  have hstore := h.store hl
  have hset : (done ++ r :: rest).set done.length r' = done ++ r' :: rest := by simp
  exact .ok (by simpa only [booted, hset] using hstore)

/-- The ranges of the regions that are left, added to those regions. -/
theorem Simulates.addAll {pre specs : List RegionSpec} {done : List MemoryRegion}
    (h : Simulates map heads s (booted cpus (done ++ specs.map RegionSpec.emptyRegion)))
    (hheads : HeadsApart map heads) (hspecs : map.specs = pre ++ specs)
    (hlen : pre.length = done.length) :
    Follows (fun a rs => Simulates map heads a (booted cpus (done ++ rs)))
      (addAll done.length s specs) (specs.mapM RegionSpec.initRegion) := by
  induction specs generalizing s pre done with
  | nil => exact .ok h
  | cons spec specs ih =>
    rw [Phys.addAll, List.mapM_cons]
    have hspec : map.specs[done.length]? = some spec := by
      rw [hspecs, ← hlen]
      simp
    have hranges : Follows (fun a r => Simulates map heads a
        (booted cpus (done ++ r :: specs.map RegionSpec.emptyRegion)))
        (spec.ranges.foldlM (LinkedPhys.addMemory done.length) s) spec.initRegion := by
      have hfold := Follows.foldlM (r := fun a r => Simulates map heads a
        (booted cpus (done ++ r :: specs.map RegionSpec.emptyRegion))) (s := s)
        (t := spec.emptyRegion) (l := spec.ranges) (f := LinkedPhys.addMemory done.length)
        (g := fun r p => addMemoryToRegion r p.1 p.2) h
      apply hfold
      intro range hmem s' r' h'
      apply h'.addMemory hheads
      intro x hlo hhi
      exact ⟨spec, hspec, range, hmem, hlo, hhi⟩
    apply hranges.bind
    intro s' r' h'
    have hassoc : ∀ rs, done ++ r' :: rs = (done ++ [r']) ++ rs := by simp
    rw [hassoc] at h'
    have hrest := ih h' (by rw [hspecs]; simp : map.specs = (pre ++ [spec]) ++ specs)
      (by simp [hlen])
    rw [List.length_append, List.length_singleton] at hrest
    apply Follows.bind_right hrest
    intro a rs ha
    rw [hassoc]
    exact ha

theorem bootLinked_simulates (hheads : HeadsApart map heads) (cpus : ℕ) (k : Links ℕ) :
    ∃ s₀ q₀, map.bootLinked cpus heads k = .ok s₀ ∧ map.boot cpus = .ok q₀ ∧ q₀.live = [] ∧
      Simulates map heads s₀ q₀.phys ∧ RunOk 4 map q₀ := by
  obtain ⟨q₀, hq₀, hok⟩ := boot_spec map cpus
  obtain ⟨regions, hregions, -⟩ := mapM_initRegion map.specs
  have hboot : map.boot cpus = .ok ⟨booted cpus regions, []⟩ := by
    rw [MemoryMap.boot, hregions]
    rfl
  obtain rfl : q₀ = ⟨booted cpus regions, []⟩ := Except.ok.inj (hq₀.symm.trans hboot)
  have hempty : Simulates map heads
      ⟨map.specs.mapIdx fun i spec => ⟨spec.pageCount, spec.base, heads i, fun _ => ⟨0, false⟩⟩,
        initLists heads map.specs.length k, none, fun _ => none⟩
      (booted cpus ([] ++ map.specs.map RegionSpec.emptyRegion)) := by
    refine ⟨?_, emptyRegions_hold hheads k, rfl, rfl⟩
    apply List.ext_getElem?
    intro i
    simp only [booted, List.nil_append, List.getElem?_mapIdx, List.getElem?_map, Option.map_map]
    rfl
  obtain ⟨s₀, hs₀, hsim⟩ := hempty.addAll hheads (List.nil_append _).symm rfl regions hregions
  exact ⟨s₀, _, hs₀, hboot, rfl, hsim, hok.mono (by decide)⟩

/-! ### Runs -/

/-- A run in memory, and a sound run over sequences with the same clients. -/
structure LinkedRun.Simulates (map : MemoryMap) (heads : ℕ → ℕ → ℕ) (s : LinkedRun cpus)
    (q : Run cpus) : Prop where
  phys : Phys.Simulates map heads s.phys q.phys
  live : s.live = q.live
  sound : RunOk 4 map q

variable {run : LinkedRun cpus} {u : Run cpus}

/-- A live block lies in the memory that was given to one region. -/
theorem RunOk.live_given {m : ℕ} (h : RunOk m map u) {p : ℕ × ℕ} (hp : p ∈ u.live) :
    ∃ i, ∀ x, (blockOf p).Covers x → map.GivenTo i x := by
  have hmem : blockOf p ∈ liveBlocks u.live + reservedBlocks u.phys :=
    Multiset.mem_add.mpr (Or.inl (Multiset.mem_coe.mpr (List.mem_map_of_mem hp)))
  obtain ⟨i, spec, hspec, hok, hin⟩ := h.state.used_mem hmem
  exact ⟨i, fun x hx =>
    ⟨spec, hspec, hok.tiles.mem_of_covers (Multiset.mem_add.mpr (Or.inr hin)) hx⟩⟩

/-- A live pointer is found in the region it was given to. -/
theorem RunOk.findRegion_given {m : ℕ} (h : RunOk m map u) {p : ℕ × ℕ} (hp : p ∈ u.live) {i : ℕ}
    (hi : findRegion u.phys.regions p.1 = some i) : map.GivenTo i p.1 := by
  obtain ⟨j, hj⟩ := h.live_given hp
  have hbase := hj p.1 (blockOf p).covers_base
  obtain ⟨spec, hspec, hgiven⟩ := hbase
  obtain ⟨hlt, hcontains, -⟩ := List.findIdx?_eq_some_iff_getElem.mp hi
  obtain ⟨spec', hspec', hok⟩ := h.state.sound ⟨i, hlt⟩
  rw [decide_eq_true_eq] at hcontains
  have hin : spec'.Contains p.1 := by
    obtain ⟨hb, hn⟩ := hok.located
    have hend := congrArg₂ (fun base count => base + count * pageSize) hb hn
    exact ⟨hb.ge.trans hcontains.1, hcontains.2.trans_eq hend⟩
  have hji : j = i := by
    by_contra hne
    exact map.not_contains hspec' hspec hin hne (RegionSpec.contains_of_given hgiven)
  subst hji
  exact ⟨spec, hspec, hgiven⟩

/-- No free list has an entry or a head in a live block. -/
theorem Holds.overwrite {k : Links ℕ} {regions : List MemoryRegion} {block : ℕ × ℕ}
    (h : Holds map heads k regions)
    (hheads : ∀ i l, l < buddyLevelCount → ¬ (blockOf block).Covers (heads i l))
    (hentries : ∀ (i : ℕ) (r : MemoryRegion), regions[i]? = some r → ∀ l < buddyLevelCount, ∀ a ∈ r.freeList l,
      ¬ (blockOf block).Covers a) (data : Links ℕ) :
    Holds map heads (overwrite k block data) regions := by
  obtain ⟨⟨f, hf, hlists, honly⟩, hgiven⟩ := h
  refine ⟨⟨f, ⟨hf.toSeparate, ?_⟩, hlists, honly⟩, hgiven⟩
  intro head es hhead
  obtain ⟨i, r, l, hr, hl, rfl⟩ := honly head es hhead
  obtain rfl := Option.some.inj ((hlists i r hr l hl).symm.trans hhead)
  have hout : ∀ x ∈ heads i l :: r.freeList l, ¬ (blockOf block).Covers x := by
    intro x hx
    rcases List.mem_cons.mp hx with rfl | hx
    · exact hheads i l hl
    · exact hentries i r hr l hl x hx
  apply (hf.rings hhead).congr
  · intro x hx
    exact if_neg (hout x hx)
  · intro x hx
    exact if_neg (hout x hx)

theorem LinkedRun.Simulates.write (h : run.Simulates map heads u) (hheads : HeadsApart map heads)
    {block : ℕ × ℕ} (hblock : block ∈ u.live) (data : Links ℕ) :
    Follows (LinkedRun.Simulates map heads) (run.step (.write block data))
      (u.act (.write block data)) := by
  obtain ⟨⟨hregions, hholds, hlock, hpage⟩, hlive, hsound⟩ := h
  have hwritten : Holds map heads (overwrite run.phys.links block data) u.phys.regions := by
    apply hholds.overwrite
    · intro i l hl hcovers
      obtain ⟨j, hj⟩ := hsound.live_given hblock
      exact hheads.outside i l hl (hj _ hcovers).given
    · intro i r hr l hl a ha hcovers
      have hpos := Nat.two_pow_pos (l + buddyFirstLevel)
      have hcov : block.1 ≤ a ∧ a < block.1 + 2 ^ (block.2 + buddyFirstLevel) := hcovers
      rcases hsound.liveDisjoint.2 block hblock r (List.mem_of_getElem? hr) l hl a ha with hb | ha
      · omega
      · simp only at ha
        omega
  exact .ok ⟨⟨hregions, hwritten, hlock, hpage⟩, hlive, hsound⟩

/-- One action of the clients. -/
theorem LinkedRun.Simulates.step (h : run.Simulates map heads u) (hheads : HeadsApart map heads)
    {a : Action cpus} (ha : a.Allowed u) :
    Follows (LinkedRun.Simulates map heads) (run.step a) (u.act a) := by
  cases a with
  | write block data => exact h.write hheads ha data
  | call c =>
    obtain ⟨hphys, hlive, hsound⟩ := h
    have hserves : Serves map heads run.phys u.phys :=
      ⟨hphys, _, hsound.state⟩
    have hcall : Follows (fun a b => Phys.Simulates map heads a.phys b.phys ∧ a.live = b.live)
        (run.step (.call c)) (u.step c) := by
      cases c with
      | alloc cpu size before after =>
        apply (hserves.physAlloc hheads cpu size before after).bind
        rintro ⟨ptr, nested, s⟩ ⟨ptr', nested', q⟩ ⟨rfl, rfl, hs⟩
        exact .ok ⟨hs.simulates, by rw [hlive]⟩
      | free cpu ptr =>
        obtain ⟨p, hp, rfl⟩ := ha.1
        apply (hphys.physFree hheads fun i hi => hsound.findRegion_given hp hi).bind
        intro s q hs
        exact .ok ⟨hs, by rw [hlive]⟩
      | initPerCpu cpu =>
        apply (hserves.fillIrqAlloc hheads cpu).bind
        intro s q hs
        exact .ok ⟨hs.simulates, hlive⟩
    apply (hcall.and (q := RunOk 4 map) _).mono
    · rintro s q ⟨⟨hs, hl⟩, hok⟩
      exact ⟨hs, hl, hok⟩
    · intro q hq
      rcases described_step hsound ha with ⟨_, _, _, _, _, _, herr⟩ | ⟨q', hq', hok⟩
      · rw [herr] at hq
        cases hq
      · rw [hq'] at hq
        exact Except.ok.inj hq ▸ hok

theorem LinkedRun.Simulates.actions {actions : List (Action cpus)} (h : run.Simulates map heads u)
    (hheads : HeadsApart map heads) (ha : AllAllowed u actions) :
    Follows (LinkedRun.Simulates map heads) (actions.foldlM LinkedRun.step run)
      (actions.foldlM Run.act u) := by
  induction actions generalizing run u with
  | nil => exact .ok h
  | cons a actions ih =>
    rw [List.foldlM_cons, List.foldlM_cons]
    have hstep := (h.step hheads ha.1).and (q := fun u' => AllAllowed u' actions) ha.2
    apply hstep.bind
    rintro run' u' ⟨h', ha'⟩
    exact ih h' ha'

/-- The allocator in memory works, from boot on, as long as the one over sequences does: with
clients that write anything to their blocks it returns the same pointers, and every list is
read forwards from its head as the sequence and backwards as the reverse of it. -/
theorem linked_runs_refine (map : MemoryMap) (cpus : ℕ) (heads : ℕ → ℕ → ℕ) (k : Links ℕ)
    (hheads : HeadsApart map heads) :
    ∃ s₀ q₀, map.bootLinked cpus heads k = .ok s₀ ∧ map.boot cpus = .ok q₀ ∧
      ∀ actions q, AllAllowed q₀ actions → actions.foldlM Run.act q₀ = .ok q →
        ∃ s, actions.foldlM LinkedRun.step ⟨s₀, []⟩ = .ok s ∧ s.live = q.live ∧
          ∀ (i : ℕ) (r : MemoryRegion), q.phys.regions[i]? = some r → ∀ l < buddyLevelCount,
            ∀ fuel ≥ (r.freeList l).length,
              IntrusiveList.forward (heads i l) fuel s.phys.links = some (r.freeList l) ∧
              IntrusiveList.backward (heads i l) fuel s.phys.links =
                some (r.freeList l).reverse := by
  obtain ⟨s₀, q₀, hs₀, hq₀, hlive, hsim, hok⟩ := bootLinked_simulates hheads cpus k
  refine ⟨s₀, q₀, hs₀, hq₀, ?_⟩
  intro actions q hallowed hq
  have hboot : LinkedRun.Simulates map heads ⟨s₀, []⟩ q₀ := ⟨hsim, hlive.symm, hok⟩
  obtain ⟨s, hs, hrun⟩ := hboot.actions hheads hallowed q hq
  refine ⟨s, hs, hrun.live, ?_⟩
  intro i r hr l hl fuel hfuel
  obtain ⟨f, hf, hlists, -⟩ := hrun.phys.holds.rings
  have hhead := hlists i r hr l hl
  have hnot := (List.nodup_cons.mp (hf.nodup hhead)).1
  exact ⟨(hf.rings hhead).trail_next hnot hfuel, (hf.rings hhead).trail_prev hnot hfuel⟩

theorem fourPages_base : pageSize ∣ 0xFFFF800000000000 := by
  decide

/-- A region of four pages. -/
def fourPages : MemoryMap where
  specs := [{
    base := 0xFFFF800000000000
    pageCount := 4
    base_dvd := fourPages_base
    ranges := [(0xFFFF800000000000, 4)]
    ranges_dvd := by decide
    ranges_inside := by decide
    ranges_disjoint := by decide }]
  disjoint := by decide

/-- Heads behind the four pages. -/
def pageHeads (i l : ℕ) : ℕ := 0xFFFF800000004000 + 512 * i + 16 * l

theorem pageHeads_apart : HeadsApart fourPages pageHeads := by
  constructor
  · intro i j l m hl hm he
    rw [buddyLevelCount] at hl hm
    unfold pageHeads at he
    omega
  · rintro i l hl ⟨spec, hspec, range, hrange, -, hhi⟩
    obtain rfl := List.mem_singleton.mp hspec
    obtain rfl := List.mem_singleton.mp hrange
    unfold pageHeads pageSize at hhi
    omega

/-- Two pages are allocated, the second, which holds the third page, is written all over,
and the first is freed. A page was taken for the reserve. -/
def fourPagesActions (cpu : Fin 1) : List (Action 1) :=
  [.call (.alloc cpu 4096 0 0), .call (.alloc cpu 4096 0 0),
    .write (0xFFFF800000002000, 8) ⟨fun _ => 5, fun _ => 6⟩,
    .call (.free cpu 0xFFFF800000000000)]

theorem fourPages_allowed {q₀ : Run 1} (hq₀ : fourPages.boot 1 = .ok q₀) :
    AllAllowed q₀ (fourPagesActions 0) := by
  refine ⟨⟨trivial, trivial⟩, fun q₁ h₁ => ⟨⟨trivial, trivial⟩, fun q₂ h₂ => ?_⟩⟩
  have hrun : ((fourPages.boot 1).bind fun q => ((fourPagesActions 0).take 2).foldlM Run.act q).map
      Run.live = .ok [(0xFFFF800000002000, 8), (0xFFFF800000000000, 8)] := by decide +kernel
  rw [hq₀] at hrun
  simp only [fourPagesActions, List.take, Except.bind, List.foldlM_cons, List.foldlM_nil, h₁, bind]
    at hrun
  simp only [h₂, pure, Except.pure, Except.map, Except.ok.injEq] at hrun
  have hwritten : (0xFFFF800000002000, 8) ∈ q₂.live := by simp [hrun]
  refine ⟨hwritten, fun q₃ h₃ => ?_⟩
  obtain rfl : q₂ = q₃ := Except.ok.inj h₃
  refine ⟨⟨⟨(0xFFFF800000000000, 8), by simp [hrun], rfl⟩, ?_⟩, fun _ _ => trivial⟩
  intro p hp hptr hlt
  simp only [hrun, List.mem_cons, List.not_mem_nil, or_false] at hp
  rcases hp with rfl | rfl
  · exact absurd hlt (by decide)
  · exact absurd hlt (by decide)

theorem linked_fourPages : ∃ s₀ s,
    fourPages.bootLinked 1 pageHeads ⟨fun a => a + 1, fun _ => 7⟩ = .ok s₀ ∧
      (fourPagesActions 0).foldlM LinkedRun.step ⟨s₀, []⟩ = .ok s ∧
      s.live = [(0xFFFF800000002000, 8)] ∧
      IntrusiveList.forward (pageHeads 0 8) 2 s.phys.links =
        some [0xFFFF800000000000, 0xFFFF800000003000] ∧
      IntrusiveList.backward (pageHeads 0 8) 2 s.phys.links =
        some [0xFFFF800000003000, 0xFFFF800000000000] := by
  obtain ⟨s₀, q₀, hs₀, hq₀, hruns⟩ :=
    linked_runs_refine fourPages 1 pageHeads ⟨fun a => a + 1, fun _ => 7⟩ pageHeads_apart
  have hrun : ((fourPages.boot 1).bind fun q => (fourPagesActions 0).foldlM Run.act q).map
      (fun q => (q.live, q.phys.regions.map (·.freeList 8))) =
      .ok ([(0xFFFF800000002000, 8)], [[0xFFFF800000000000, 0xFFFF800000003000]]) := by
    decide +kernel
  rw [hq₀] at hrun
  obtain ⟨q, hq, hend⟩ := Foundation.Transition.ok_of_map hrun
  rw [Prod.mk.injEq] at hend
  obtain ⟨s, hs, hlive, hlists⟩ := hruns (fourPagesActions 0) q (fourPages_allowed hq₀) hq
  obtain ⟨r, hr, hlist⟩ := List.map_eq_singleton_iff.mp hend.2
  have hfirst := hlists 0 r (by rw [hr]; rfl) 8 (by decide) 2 (by rw [hlist]; rfl)
  rw [hlist] at hfirst
  exact ⟨s₀, s, hs₀, hs, hlive.trans hend.1, hfirst.1, hfirst.2⟩

end TomatOS.Phys
