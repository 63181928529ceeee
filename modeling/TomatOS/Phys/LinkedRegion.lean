import TomatOS.Foundation.Simulation
import TomatOS.Lib.IntrusiveList
import TomatOS.Phys.Partition

/-! The buddy allocator of one region over the list entries in memory. A free block begins
with the two links of its entry, and the heads of the lists are in the region's structure.
The functions are those of `kernel/mem/phys.c` again, with `list_add` and `list_del` on the
links. Whatever the functions over sequences do without a fault, these do to the links. -/

namespace TomatOS.Phys

open Foundation Foundation.Dyadic Foundation.Links Lib

/-- `memory_region_t`, with the addresses of the heads in `free_list`. -/
structure LinkedRegion where
  pageCount : ℕ
  base : ℕ
  freeList : ℕ → ℕ
  metadata : ℕ → PageMetadata

/-- A region and the list entries in memory. -/
structure Linked where
  region : LinkedRegion
  links : Links ℕ

namespace Linked

def pageMetadata (s : Linked) (addr : ℕ) : Option ℕ :=
  if addr < s.region.base then none
  else
    let index := (addr - s.region.base) / pageSize
    if index ≥ s.region.pageCount then none else some index

def listAdd (s : Linked) (level entry : ℕ) : Linked :=
  { s with links := IntrusiveList.listAdd (s.region.freeList level) entry s.links }

def listDel (s : Linked) (entry : ℕ) : Linked :=
  { s with links := IntrusiveList.listDel entry s.links }

def setMetadata (s : Linked) (site : Site) (addr level : ℕ) (free : Bool) : Result Linked :=
  match s.pageMetadata addr with
  | none => .error (.assertion site)
  | some index => .ok { s with region := { s.region with
      metadata := Function.update s.region.metadata index ⟨level, free⟩ } }

def findBlock (s : Linked) : ℕ → ℕ → Option (ℕ × ℕ)
  | 0, _ => none
  | n + 1, level =>
    let freelist := s.region.freeList level
    if IntrusiveList.listIsEmpty freelist s.links then findBlock s n (level + 1)
    else some (level, s.links.next freelist)

def splitBlock (level block : ℕ) : ℕ → Linked → Result Linked
  | 0, s => .ok s
  | n + 1, s => do
    let blockSize := 1 <<< (level + n + 1 + buddyFirstLevel)
    let upper := block + blockSize / 2
    let s := s.listAdd (level + n) upper
    let s ← s.setMetadata .allocateFromLevel upper (level + n) true
    splitBlock level block n s

def allocateFromLevel (s : Linked) : Option ℕ → Result (Option ℕ × Linked)
  | none => .ok (none, s)
  | some level =>
    if level < buddyLevelCount then
      match s.findBlock (buddyLevelCount - level) level with
      | none => .ok (none, s)
      | some (blockAtLevel, block) => do
        let s := s.listDel block
        let s ← splitBlock level block (blockAtLevel - level) s
        let s ← s.setMetadata .allocateFromLevel block level false
        return (some block, s)
    else .error (.assertion .allocateFromLevel)

def coalesce : ℕ → Linked → ℕ → ℕ → Result (Linked × ℕ × ℕ)
  | 0, s, ptr, level => .ok (s, ptr, level)
  | n + 1, s, ptr, level =>
    let blockSize := 1 <<< (level + buddyFirstLevel)
    let above : Bool := ptr &&& (blockSize * 2 - 1) = 0
    let neighbor := if above then ptr + blockSize else ptr - blockSize
    match s.pageMetadata neighbor with
    | none => .ok (s, ptr, level)
    | some index =>
      if !(s.region.metadata index).free then .ok (s, ptr, level)
      else if (s.region.metadata index).level ≠ level then .ok (s, ptr, level)
      else
        let s := s.listDel neighbor
        coalesce n s (if above then ptr else ptr - blockSize) (level + 1)

def freeAtLevel (s : Linked) (ptr level : ℕ) : Result Linked :=
  if level < buddyLevelCount then do
    let (s, ptr, level) ← coalesce (buddyLevelCount - 1 - level) s ptr level
    let s ← s.setMetadata .freeAtLevel ptr level true
    return s.listAdd level ptr
  else .error (.assertion .freeAtLevel)

def addUntilTop : ℕ → Linked → ℕ → Result (Linked × ℕ × ℕ)
  | 0, s, base => .ok (s, base, 0)
  | n + 1, s, base =>
    if base % buddyTopLevelSize ≠ 0 then do
      let s ← s.freeAtLevel base pageLevel
      addUntilTop n s (base + pageSize)
    else .ok (s, base, n + 1)

def addTopBlocks : ℕ → Linked → ℕ → Result (Linked × ℕ)
  | 0, s, base => .ok (s, base)
  | n + 1, s, base => do
    let s ← s.freeAtLevel base (buddyLevelCount - 1)
    addTopBlocks n s (base + buddyTopLevelSize)

def addPages : ℕ → Linked → ℕ → Result Linked
  | 0, s, _ => .ok s
  | n + 1, s, base => do
    let s ← s.freeAtLevel base pageLevel
    addPages n s (base + pageSize)

def addMemoryToRegion (s : Linked) (base pageCount : ℕ) : Result Linked := do
  let (s, base, pageCount) ← addUntilTop pageCount s base
  let perTop := buddyTopLevelSize / pageSize
  let (s, base) ← addTopBlocks (pageCount / perTop) s base
  addPages (pageCount % perTop) s base

end Linked

/-! ### The sequences in memory -/

/-- Where the heads are: apart from each other and from the memory given. -/
structure HeadsApart (map : MemoryMap) (heads : ℕ → ℕ → ℕ) : Prop where
  injective : ∀ i j l m, l < buddyLevelCount → m < buddyLevelCount → heads i l = heads j m →
    i = j ∧ l = m
  outside : ∀ i l, l < buddyLevelCount → ¬ map.Given (heads i l)

/-- The address was given to the region of this index. -/
def MemoryMap.GivenTo (map : MemoryMap) (i x : ℕ) : Prop :=
  ∃ spec, map.specs[i]? = some spec ∧ spec.Given x

/-- The links hold the free lists of all regions and nothing else, with entries in the memory
that was given. -/
structure Holds (map : MemoryMap) (heads : ℕ → ℕ → ℕ) (k : Links ℕ)
    (regions : List MemoryRegion) : Prop where
  rings : ∃ s, k.Represents s ∧
    (∀ i r, regions[i]? = some r → ∀ l < buddyLevelCount, s (heads i l) = some (r.freeList l)) ∧
    ∀ h es, s h = some es → ∃ i r l, regions[i]? = some r ∧ l < buddyLevelCount ∧ h = heads i l
  given : ∀ i r, regions[i]? = some r → ∀ l < buddyLevelCount, ∀ a ∈ r.freeList l,
    map.GivenTo i a

/-- Region `i` of `regions` is `r`, and this is what it looks like in memory. -/
structure Tracks (map : MemoryMap) (heads : ℕ → ℕ → ℕ) (regions : List MemoryRegion) (i : ℕ)
    (s : Linked) (r : MemoryRegion) : Prop where
  region : s.region = ⟨r.pageCount, r.base, heads i, r.metadata⟩
  holds : Holds map heads s.links (regions.set i r)

variable {map : MemoryMap} {heads : ℕ → ℕ → ℕ} {regions : List MemoryRegion} {i : ℕ}
  {s : Linked} {r r' : MemoryRegion}

theorem RegionSpec.contains_of_given {spec : RegionSpec} {x : ℕ} (h : spec.Given x) :
    spec.Contains x := by
  obtain ⟨p, hp, hlo, hhi⟩ := h
  have hin := spec.ranges_inside p hp
  constructor <;> omega

theorem MemoryMap.GivenTo.index_eq {j x : ℕ} (hi : map.GivenTo i x) (hj : map.GivenTo j x) :
    i = j := by
  obtain ⟨a, ha, hax⟩ := hi
  obtain ⟨b, hb, hbx⟩ := hj
  by_contra hne
  exact map.not_contains ha hb (RegionSpec.contains_of_given hax) (Ne.symm hne)
    (RegionSpec.contains_of_given hbx)

theorem MemoryMap.GivenTo.given {x : ℕ} (h : map.GivenTo i x) : map.Given x := by
  obtain ⟨spec, hspec, hx⟩ := h
  exact ⟨spec, List.mem_of_getElem? hspec, hx⟩

/-! ### Operations on the lists -/

theorem Tracks.getElem? (h : Tracks map heads regions i s r) (hi : i < regions.length) {j : ℕ}
    {q : MemoryRegion} : (regions.set i r')[j]? = some q ↔
      j = i ∧ q = r' ∨ j ≠ i ∧ (regions.set i r)[j]? = some q := by
  rcases eq_or_ne j i with rfl | hne
  · simp [List.getElem?_set_self hi, eq_comm]
  · simp [List.getElem?_set_ne hne.symm, hne]

/-- A change of one list of the region. -/
theorem Tracks.update (h : Tracks map heads regions i s r) (hi : i < regions.length)
    (hheads : HeadsApart map heads) {k : Links ℕ} {level : ℕ} {es : List ℕ}
    (hl : level < buddyLevelCount)
    (hk : ∀ f, s.links.Represents f → f (heads i level) = some (r.freeList level) →
      (∀ a, map.GivenTo i a → r.linked a = false → Free f a) →
      k.Represents (Function.update f (heads i level) (some es)))
    (hes : ∀ a ∈ es, map.GivenTo i a) (hr : r'.freeList level = es)
    (hother : ∀ l < buddyLevelCount, l ≠ level → r'.freeList l = r.freeList l) :
    Holds map heads k (regions.set i r') := by
  have hself : (regions.set i r)[i]? = some r := List.getElem?_set_self hi
  obtain ⟨f, hf, hlists, honly⟩ := h.holds.rings
  have hfree : ∀ a, map.GivenTo i a → r.linked a = false → Free f a := by
    intro a ha hlinked head es' hhead hmem
    obtain ⟨j, q, l, hq, hl', rfl⟩ := honly head es' hhead
    obtain rfl := Option.some.inj ((hlists j q hq l hl').symm.trans hhead)
    rcases List.mem_cons.mp hmem with rfl | hin
    · exact hheads.outside j l hl' ha.given
    · obtain rfl := ha.index_eq (h.holds.given j q hq l hl' a hin)
      obtain rfl := Option.some.inj (hself.symm.trans hq)
      rw [MemoryRegion.linked, List.any_eq_false] at hlinked
      exact hlinked l (List.mem_range.mpr hl') (decide_eq_true hin)
  refine ⟨⟨_, hk f hf (hlists i r hself level hl) hfree, ?_, ?_⟩, ?_⟩
  · intro j q hq l hl'
    rcases (h.getElem? hi).mp hq with ⟨rfl, rfl⟩ | ⟨hne, hq⟩
    · rcases eq_or_ne l level with rfl | hlne
      · rw [Function.update_self, hr]
      · have hne : heads j l ≠ heads j level := fun he =>
          hlne (hheads.injective j j l level hl' hl he).2
        rw [Function.update_of_ne hne, hother l hl' hlne]
        exact hlists j r hself l hl'
    · have hne' : heads j l ≠ heads i level := fun he =>
        hne (hheads.injective j i l level hl' hl he).1
      rw [Function.update_of_ne hne']
      exact hlists j q hq l hl'
  · intro head es' hhead
    rcases cases_of_update hhead with ⟨rfl, -⟩ | ⟨-, hhead⟩
    · exact ⟨i, r', level, (h.getElem? hi).mpr (Or.inl ⟨rfl, rfl⟩), hl, rfl⟩
    · obtain ⟨j, q, l, hq, hl', rfl⟩ := honly head es' hhead
      rcases eq_or_ne j i with rfl | hne
      · exact ⟨j, r', l, (h.getElem? hi).mpr (Or.inl ⟨rfl, rfl⟩), hl', rfl⟩
      · exact ⟨j, q, l, (h.getElem? hi).mpr (Or.inr ⟨hne, hq⟩), hl', rfl⟩
  · intro j q hq l hl' a ha
    rcases (h.getElem? hi).mp hq with ⟨rfl, rfl⟩ | ⟨hne, hq⟩
    · rcases eq_or_ne l level with rfl | hlne
      · exact hes a (hr ▸ ha)
      · rw [hother l hl' hlne] at ha
        exact h.holds.given j r hself l hl' a ha
    · exact h.holds.given j q hq l hl' a ha

theorem Tracks.listAdd (h : Tracks map heads regions i s r) (hi : i < regions.length)
    (hheads : HeadsApart map heads) {level entry : ℕ} (hl : level < buddyLevelCount)
    (hentry : map.GivenTo i entry) :
    Follows (Tracks map heads regions i) (.ok (s.listAdd level entry) : Result Linked)
      (r.listAdd level entry) := by
  have hself : (regions.set i r)[i]? = some r := List.getElem?_set_self hi
  rw [MemoryRegion.listAdd]
  split_ifs with hlinked
  · exact .error _
  · apply Follows.ok
    have hnot : r.linked entry = false := by simpa using hlinked
    refine ⟨h.region, h.update hi hheads hl ?_ ?_ (Function.update_self ..) ?_⟩
    · intro f hf hhead hfree
      rw [Linked.listAdd, h.region, IntrusiveList.listAdd, IntrusiveList.listAddBetween_eq_join]
      exact hf.insert_front hhead (hfree entry hentry hnot)
    · intro a ha
      rcases List.mem_cons.mp ha with rfl | ha
      · exact hentry
      · exact h.holds.given i r hself level hl a ha
    · intro l _ hne
      exact Function.update_of_ne hne ..

theorem Tracks.listDel (h : Tracks map heads regions i s r) (hi : i < regions.length)
    (hheads : HeadsApart map heads) {entry : ℕ} :
    Follows (Tracks map heads regions i) (.ok (s.listDel entry) : Result Linked)
      (r.listDel entry) := by
  have hself : (regions.set i r)[i]? = some r := List.getElem?_set_self hi
  rw [MemoryRegion.listDel]
  split_ifs with hlinked
  · apply Follows.ok
    rw [MemoryRegion.linked, List.any_eq_true] at hlinked
    obtain ⟨level, hlevel, hmem⟩ := hlinked
    rw [List.mem_range] at hlevel
    rw [decide_eq_true_eq] at hmem
    obtain ⟨f, hf, hlists, -⟩ := h.holds.rings
    refine ⟨h.region, h.update hi hheads hlevel ?_ ?_ rfl ?_⟩
    · intro f hf hhead _
      rw [Linked.listDel, IntrusiveList.listDel, IntrusiveList.listDelBetween_eq_join]
      have hfree := hf.free_erase hhead hmem
      exact ((hf.unlink hhead hmem).setNext hfree).setPrev hfree
    · intro a ha
      exact h.holds.given i r hself level hlevel a (List.mem_of_mem_erase ha)
    · intro l hl hne
      have hhead := hlists i r hself level hlevel
      have hne' : heads i l ≠ heads i level := fun he =>
        hne (hheads.injective i i l level hl hlevel he).2
      have hout := hf.onlyOn hhead (List.mem_cons_of_mem _ hmem) _ _ (hlists i r hself l hl) hne'
      exact List.erase_of_not_mem fun hin => hout (List.mem_cons_of_mem _ hin)
  · exact .error _

theorem Tracks.pageMetadata_eq (h : Tracks map heads regions i s r) (addr : ℕ) :
    s.pageMetadata addr = pageMetadata r addr := by
  rw [Linked.pageMetadata, h.region]
  rfl

theorem Tracks.setMetadata (h : Tracks map heads regions i s r) (hi : i < regions.length)
    (hheads : HeadsApart map heads) (site : Site) (addr level : ℕ) (free : Bool) :
    Follows (Tracks map heads regions i) (s.setMetadata site addr level free)
      (r.setMetadata site addr level free) := by
  have hself : (regions.set i r)[i]? = some r := List.getElem?_set_self hi
  rw [Linked.setMetadata, MemoryRegion.setMetadata, h.pageMetadata_eq]
  cases pageMetadata r addr with
  | none => exact .error _
  | some index =>
    apply Follows.ok
    refine ⟨by rw [h.region], h.update hi hheads (show 0 < buddyLevelCount by decide) ?_ ?_ rfl ?_⟩
    · intro f hf hhead _
      rwa [← hhead, Function.update_eq_self]
    · exact h.holds.given i r hself 0 (by decide)
    · intro l _ _
      rfl

/-! ### Allocation and release -/

theorem Tracks.findBlock (h : Tracks map heads regions i s r) (hi : i < regions.length) {n : ℕ}
    {level : ℕ} (hn : level + n ≤ buddyLevelCount) :
    s.findBlock n level = findBlock r n level := by
  induction n generalizing level with
  | zero => rfl
  | succ n ih =>
    obtain ⟨f, hf, hlists, -⟩ := h.holds.rings
    have hself : (regions.set i r)[i]? = some r := List.getElem?_set_self hi
    have hhead := hlists i r hself level (by omega)
    have hring := hf.rings hhead
    have hnodup := (List.nodup_cons.mp (hf.nodup hhead)).1
    have hempty := IntrusiveList.listIsEmpty_iff hring hnodup
    rw [Linked.findBlock, Phys.findBlock, h.region]
    cases hlist : r.freeList level with
    | nil =>
      simp only [hempty.mpr hlist, if_true]
      exact ih (by omega)
    | cons block es =>
      rw [hlist] at hring
      have hne : ¬IntrusiveList.listIsEmpty (heads i level) s.links = true := by
        rw [hempty, hlist]
        exact List.cons_ne_nil block es
      simp only [if_neg hne, hring.next_head]

theorem Tracks.splitBlock (h : Tracks map heads regions i s r) (hi : i < regions.length)
    (hheads : HeadsApart map heads) {level block n : ℕ} (hn : level + n < buddyLevelCount)
    (hblock : ∀ x, block ≤ x → x < block + 2 ^ (level + n + buddyFirstLevel) → map.GivenTo i x) :
    Follows (Tracks map heads regions i) (Linked.splitBlock level block n s)
      (splitBlock level block n r) := by
  induction n generalizing s r with
  | zero => exact .ok h
  | succ n ih =>
    have hhalf : 1 <<< (level + n + 1 + buddyFirstLevel) / 2 =
        2 ^ (level + n + buddyFirstLevel) := by
      rw [Nat.one_shiftLeft, show level + n + 1 + buddyFirstLevel =
        level + n + buddyFirstLevel + 1 by omega, pow_succ, Nat.mul_div_cancel _ two_pos]
    have hsize : 2 ^ (level + (n + 1) + buddyFirstLevel) =
        2 ^ (level + n + buddyFirstLevel) * 2 := by
      rw [show level + (n + 1) + buddyFirstLevel = level + n + buddyFirstLevel + 1 by omega, pow_succ]
    have hpos := Nat.two_pow_pos (level + n + buddyFirstLevel)
    have hupper : map.GivenTo i (block + 2 ^ (level + n + buddyFirstLevel)) :=
      hblock _ (by omega) (by omega)
    simp only [Linked.splitBlock, Phys.splitBlock, hhalf]
    apply (h.listAdd hi hheads (by omega) hupper).bind_of
    intro r₁ h₁
    apply (h₁.setMetadata hi hheads _ _ _ _).bind
    intro s₂ r₂ h₂
    apply ih h₂ (by omega)
    intro x hlo hhi
    exact hblock x hlo (by omega)

/-- With the block found in the memory that was given. -/
theorem Tracks.allocateFromLevel (h : Tracks map heads regions i s r) (hi : i < regions.length)
    (hheads : HeadsApart map heads)
    (hgiven : ∀ b ∈ r.freeBlocks, ∀ x, b.Covers x → map.GivenTo i x) (level : Option ℕ) :
    Follows (fun a b => a.1 = b.1 ∧ Tracks map heads regions i a.2 b.2)
      (s.allocateFromLevel level) (allocateFromLevel r level) := by
  cases level with
  | none => exact .ok ⟨rfl, h⟩
  | some level =>
    rw [Linked.allocateFromLevel, Phys.allocateFromLevel]
    split_ifs with hl
    · have hfind : s.findBlock (buddyLevelCount - level) level =
          Phys.findBlock r (buddyLevelCount - level) level := h.findBlock hi (by omega)
      rw [hfind]
      cases hf : Phys.findBlock r (buddyLevelCount - level) level with
      | none => exact .ok ⟨rfl, h⟩
      | some found =>
        obtain ⟨blockAtLevel, block⟩ := found
        obtain ⟨hle, hlt, hmem⟩ := findBlock_some hf
        have hfree := MemoryRegion.mem_freeBlocks_mk.mpr ⟨by omega, hmem⟩
        have hcover := hgiven _ hfree
        apply (h.listDel hi hheads).bind_of
        intro r₁ h₁
        have hlevel : level + (blockAtLevel - level) = blockAtLevel := by omega
        apply (h₁.splitBlock hi hheads (by omega) _).bind
        · intro s₂ r₂ h₂
          apply (h₂.setMetadata hi hheads _ _ _ _).bind
          intro s₃ r₃ h₃
          exact .ok ⟨rfl, h₃⟩
        · intro x hlo hhi
          rw [hlevel] at hhi
          exact hcover x ⟨hlo, hhi⟩
    · exact .error _

theorem Tracks.given_of_linked (h : Tracks map heads regions i s r) (hi : i < regions.length)
    {entry : ℕ} (hlinked : r.linked entry = true) : map.GivenTo i entry := by
  rw [MemoryRegion.linked, List.any_eq_true] at hlinked
  obtain ⟨level, hlevel, hmem⟩ := hlinked
  exact h.holds.given i r (List.getElem?_set_self hi) level (List.mem_range.mp hlevel) entry
    (of_decide_eq_true hmem)

/-- The pointer stays in the memory that was given, as what it is merged with was on a
list. -/
theorem Tracks.coalesce (h : Tracks map heads regions i s r) (hi : i < regions.length)
    (hheads : HeadsApart map heads) {n ptr level : ℕ} (hptr : map.GivenTo i ptr)
    (hl : level + n < buddyLevelCount) :
    Follows (fun a b => Tracks map heads regions i a.1 b.1 ∧ a.2 = b.2 ∧
        map.GivenTo i b.2.1 ∧ b.2.2 < buddyLevelCount)
      (Linked.coalesce n s ptr level) (coalesce n r ptr level) := by
  induction n generalizing s r ptr level with
  | zero => exact .ok ⟨h, rfl, hptr, hl⟩
  | succ n ih =>
    have hl' : level < buddyLevelCount := by omega
    simp only [Linked.coalesce, Phys.coalesce, h.pageMetadata_eq,
      show s.region.metadata = r.metadata by rw [h.region]]
    generalize decide (ptr &&& (1 <<< (level + buddyFirstLevel) * 2 - 1) = 0) = above
    generalize 1 <<< (level + buddyFirstLevel) = blockSize
    generalize hneighbor : (if above = true then ptr + blockSize else ptr - blockSize) = neighbor
    generalize hlower : (if above = true then ptr else ptr - blockSize) = lower
    have hgiven : r.linked neighbor = true → map.GivenTo i lower := by
      intro hlinked
      have hn := h.given_of_linked hi hlinked
      rw [← hlower]
      rw [← hneighbor] at hn
      split_ifs at hn ⊢ with ha
      · exact hptr
      · exact hn
    cases Phys.pageMetadata r neighbor with
    | none => exact .ok ⟨h, rfl, hptr, hl'⟩
    | some index =>
      simp only []
      split_ifs with hfree hlevel
      · exact .ok ⟨h, rfl, hptr, hl'⟩
      · exact .ok ⟨h, rfl, hptr, hl'⟩
      · cases hlinked : r.linked neighbor with
        | false =>
          rw [MemoryRegion.listDel, hlinked]
          exact .error _
        | true =>
          apply (h.listDel hi hheads).bind_of
          intro r₁ h₁
          exact ih h₁ (hgiven hlinked) (by omega)

theorem Tracks.freeAtLevel (h : Tracks map heads regions i s r) (hi : i < regions.length)
    (hheads : HeadsApart map heads) {ptr level : ℕ} (hptr : map.GivenTo i ptr) :
    Follows (Tracks map heads regions i) (s.freeAtLevel ptr level) (freeAtLevel r ptr level) := by
  rw [Linked.freeAtLevel, Phys.freeAtLevel]
  split_ifs with hl
  · apply (h.coalesce hi hheads hptr (by omega)).bind
    rintro ⟨s₁, ptr₁, level₁⟩ ⟨r₁, ptr₂, level₂⟩ ⟨h₁, heq, hptr₁, hl₁⟩
    obtain ⟨rfl, rfl⟩ := Prod.mk.inj heq
    apply (h₁.setMetadata hi hheads _ _ _ _).bind
    intro s₂ r₂ h₂
    exact h₂.listAdd hi hheads hl₁ hptr₁
  · exact .error _

/-! ### Adding memory -/

/-- The range was given to the region. -/
def MemoryMap.RangeGiven (map : MemoryMap) (i base size : ℕ) : Prop :=
  ∀ x, base ≤ x → x < base + size → map.GivenTo i x

theorem Tracks.addUntilTop (h : Tracks map heads regions i s r) (hi : i < regions.length)
    (hheads : HeadsApart map heads) {n base : ℕ} (hrange : map.RangeGiven i base (n * pageSize)) :
    Follows (fun a b => Tracks map heads regions i a.1 b.1 ∧ a.2 = b.2 ∧
        map.RangeGiven i b.2.1 (b.2.2 * pageSize))
      (Linked.addUntilTop n s base) (addUntilTop n r base) := by
  induction n generalizing s r base with
  | zero => exact .ok ⟨h, rfl, hrange⟩
  | succ n ih =>
    have hpage : 0 < pageSize := by decide
    rw [Linked.addUntilTop, Phys.addUntilTop]
    split_ifs with htop
    · apply (h.freeAtLevel hi hheads _).bind
      · intro s₁ r₁ h₁
        apply ih h₁
        intro x hlo hhi
        apply hrange x (by omega)
        rw [Nat.add_mul]
        omega
      · apply hrange base le_rfl
        rw [Nat.add_mul]
        omega
    · exact .ok ⟨h, rfl, hrange⟩

theorem Tracks.addTopBlocks (h : Tracks map heads regions i s r) (hi : i < regions.length)
    (hheads : HeadsApart map heads) {n base : ℕ}
    (hrange : map.RangeGiven i base (n * buddyTopLevelSize)) :
    Follows (fun a b => Tracks map heads regions i a.1 b.1 ∧ a.2 = b.2 ∧
        b.2 = base + n * buddyTopLevelSize)
      (Linked.addTopBlocks n s base) (addTopBlocks n r base) := by
  induction n generalizing s r base with
  | zero => exact .ok ⟨h, rfl, by simp⟩
  | succ n ih =>
    have htop : 0 < buddyTopLevelSize := by decide
    rw [Linked.addTopBlocks, Phys.addTopBlocks]
    apply (h.freeAtLevel hi hheads _).bind
    · intro s₁ r₁ h₁
      apply (ih h₁ _).mono
      · rintro a b ⟨hab, heq, hend⟩
        refine ⟨hab, heq, hend.trans ?_⟩
        rw [Nat.add_mul]
        omega
      · intro x hlo hhi
        apply hrange x (by omega)
        rw [Nat.add_mul]
        omega
    · apply hrange base le_rfl
      rw [Nat.add_mul]
      omega

theorem Tracks.addPages (h : Tracks map heads regions i s r) (hi : i < regions.length)
    (hheads : HeadsApart map heads) {n base : ℕ} (hrange : map.RangeGiven i base (n * pageSize)) :
    Follows (Tracks map heads regions i) (Linked.addPages n s base) (addPages n r base) := by
  induction n generalizing s r base with
  | zero => exact .ok h
  | succ n ih =>
    have hpage : 0 < pageSize := by decide
    rw [Linked.addPages, Phys.addPages]
    apply (h.freeAtLevel hi hheads _).bind
    · intro s₁ r₁ h₁
      apply ih h₁
      intro x hlo hhi
      apply hrange x (by omega)
      rw [Nat.add_mul]
      omega
    · apply hrange base le_rfl
      rw [Nat.add_mul]
      omega

theorem Tracks.addMemoryToRegion (h : Tracks map heads regions i s r) (hi : i < regions.length)
    (hheads : HeadsApart map heads) {n base : ℕ} (hrange : map.RangeGiven i base (n * pageSize)) :
    Follows (Tracks map heads regions i) (s.addMemoryToRegion base n)
      (addMemoryToRegion r base n) := by
  rw [Linked.addMemoryToRegion, Phys.addMemoryToRegion]
  apply (h.addUntilTop hi hheads hrange).bind
  rintro ⟨s₁, base₁, n₁⟩ ⟨r₁, base₂, n₂⟩ ⟨h₁, heq, hrange₁⟩
  obtain ⟨rfl, rfl⟩ := Prod.mk.inj heq
  have hper : buddyTopLevelSize = buddyTopLevelSize / pageSize * pageSize := by decide
  have hsplit : n₁ * pageSize = n₁ / (buddyTopLevelSize / pageSize) * buddyTopLevelSize +
      n₁ % (buddyTopLevelSize / pageSize) * pageSize := by
    calc n₁ * pageSize
        = (buddyTopLevelSize / pageSize * (n₁ / (buddyTopLevelSize / pageSize)) +
            n₁ % (buddyTopLevelSize / pageSize)) * pageSize := by rw [Nat.div_add_mod]
      _ = n₁ / (buddyTopLevelSize / pageSize) * (buddyTopLevelSize / pageSize * pageSize) +
            n₁ % (buddyTopLevelSize / pageSize) * pageSize := by ring
      _ = _ := by rw [← hper]
  simp only at hrange₁
  rw [hsplit] at hrange₁
  apply (h₁.addTopBlocks hi hheads _).bind
  · rintro ⟨s₂, base₂⟩ ⟨r₂, base₃⟩ ⟨h₂, rfl, hend⟩
    simp only at hend
    apply h₂.addPages hi hheads
    intro x hlo hhi
    rw [hend] at hlo hhi
    exact hrange₁ x (by omega) (by omega)
  · intro x hlo hhi
    exact hrange₁ x hlo (by omega)

end TomatOS.Phys
