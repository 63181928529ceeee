import TomatOS.Phys.Allocator
import Mathlib.Data.Fintype.Basic
import Mathlib.Tactic.Abel

/-! The invariant of the allocator over all regions: every region is sound with
the blocks in use that start in it, and every block in use starts in some
region. Blocks in use are the live allocations of the clients and the pages the
cores keep in reserve. Every call that finds the marks it reads in order keeps
the invariant and fails no assertion but the one on an empty reserve. -/

namespace TomatOS.Phys

open Foundation.Dyadic

variable {m cpus : ℕ}

/-- The blocks in use that start in a region. -/
def usedIn (spec : RegionSpec) (used : Multiset Block) : Multiset Block :=
  used.filter fun b => spec.Contains b.base

theorem usedIn_cons_of_contains {spec : RegionSpec} {used : Multiset Block} {b : Block}
    (h : spec.Contains b.base) : usedIn spec (b ::ₘ used) = b ::ₘ usedIn spec used :=
  Multiset.filter_cons_of_pos _ h

theorem usedIn_cons_of_not {spec : RegionSpec} {used : Multiset Block} {b : Block}
    (h : ¬ spec.Contains b.base) : usedIn spec (b ::ₘ used) = usedIn spec used :=
  Multiset.filter_cons_of_neg _ h

/-- The region is sound with its share of the blocks in use. -/
def RegionOk (m : ℕ) (spec : RegionSpec) (r : MemoryRegion) (used : Multiset Block) : Prop :=
  Sound m spec.toSpan r spec.Given spec.Given (usedIn spec used)

structure RegionsOk (m : ℕ) (specs : List RegionSpec) (regions : List MemoryRegion)
    (used : Multiset Block) : Prop where
  length_eq : regions.length = specs.length
  region : ∀ (i : ℕ) (spec : RegionSpec) (r : MemoryRegion), specs[i]? = some spec →
    regions[i]? = some r → RegionOk m spec r used
  located : ∀ b ∈ used, ∃ spec ∈ specs, spec.Contains b.base

theorem MemoryMap.not_contains (map : MemoryMap) {i j : ℕ} {a b : RegionSpec} {x : ℕ}
    (hi : map.specs[i]? = some a) (hj : map.specs[j]? = some b) (hx : a.Contains x)
    (hne : j ≠ i) : ¬ b.Contains x := by
  intro hb
  obtain ⟨hi', rfl⟩ := List.getElem?_eq_some_iff.mp hi
  obtain ⟨hj', rfl⟩ := List.getElem?_eq_some_iff.mp hj
  have hp := List.pairwise_iff_getElem.mp map.disjoint
  simp only [Span.Contains] at hx hb
  rcases Nat.lt_or_gt_of_ne hne with hlt | hgt
  · have := hp j i hj' hi' hlt
    omega
  · have := hp i j hi' hj' hgt
    omega

/-- Replacing one region, together with a change of the blocks in use that only
concerns addresses of that region. -/
theorem RegionsOk.set (map : MemoryMap) {regions : List MemoryRegion} {used used' : Multiset Block}
    (h : RegionsOk m map.specs regions used) {i : ℕ} {spec : RegionSpec} {r' : MemoryRegion}
    (hi : map.specs[i]? = some spec) (hr : RegionOk m spec r' used')
    (hother : ∀ j sp, map.specs[j]? = some sp → j ≠ i → usedIn sp used' = usedIn sp used)
    (hloc : ∀ b ∈ used', ∃ spec ∈ map.specs, spec.Contains b.base) :
    RegionsOk m map.specs (regions.set i r') used' where
  length_eq := by rw [List.length_set, h.length_eq]
  region := by
    intro j sp r hj hrj
    by_cases hji : i = j
    · subst hji
      obtain rfl : spec = sp := Option.some.inj (hi.symm.trans hj)
      have hlt : i < regions.length := by
        rw [h.length_eq]
        exact (List.getElem?_eq_some_iff.mp hi).1
      rw [List.getElem?_set_self hlt] at hrj
      exact Option.some.inj hrj ▸ hr
    · rw [List.getElem?_set_ne hji] at hrj
      have := h.region j sp r hj hrj
      rw [RegionOk] at this ⊢
      rwa [hother j sp hj (Ne.symm hji)]
  located := hloc

/-- Giving a block of one region to a user. -/
theorem RegionsOk.grant (map : MemoryMap) {regions : List MemoryRegion} {used : Multiset Block}
    (h : RegionsOk m map.specs regions used) {i : ℕ} {spec : RegionSpec} {r' : MemoryRegion}
    {b : Block} (hi : map.specs[i]? = some spec)
    (hr : Sound m spec.toSpan r' spec.Given spec.Given (b ::ₘ usedIn spec used)) :
    RegionsOk m map.specs (regions.set i r') (b ::ₘ used) := by
  have hb : spec.Contains b.base := by
    have := hr.base_mem (Multiset.mem_add.mpr (Or.inr (Multiset.mem_cons_self _ _)))
    exact hr.inside _ this
  refine h.set map hi ?_ ?_ ?_
  · rwa [RegionOk, usedIn_cons_of_contains hb]
  · intro j sp hj hne
    exact usedIn_cons_of_not (map.not_contains hi hj hb hne)
  · intro c hc
    rcases Multiset.mem_cons.mp hc with rfl | hc
    · exact ⟨spec, List.mem_of_getElem? hi, hb⟩
    · exact h.located c hc

theorem internalPhysAllocFrom_spec (h4 : 4 ≤ m) (map : MemoryMap) {level : ℕ}
    (hl : level < buddyLevelCount) (hm : m ≤ level + buddyFirstLevel) (n i : ℕ)
    {regions : List MemoryRegion} {used : Multiset Block}
    (h : RegionsOk m map.specs regions used) :
    ((∀ j r, i ≤ j → j < i + n → regions[j]? = some r → r.Exhausted level) ∧
      internalPhysAllocFrom (some level) n i regions = .ok (none, regions)) ∨
    (∃ r ∈ regions, ¬ r.Exhausted level) ∧
      ∃ a regions', internalPhysAllocFrom (some level) n i regions = .ok (some a, regions') ∧
        RegionsOk m map.specs regions' (⟨a, level + buddyFirstLevel⟩ ::ₘ used) := by
  induction n generalizing i with
  | zero => exact Or.inl ⟨fun j r hij hji => by omega, rfl⟩
  | succ n ih =>
    rw [internalPhysAllocFrom]
    rcases hr : regions[i]? with _ | r
    · left
      refine ⟨fun j r hij _ hj => ?_, rfl⟩
      rw [List.getElem?_eq_none ((List.getElem?_eq_none_iff.mp hr).trans hij)] at hj
      cases hj
    · have hi : i < map.specs.length := by
        rw [← h.length_eq]
        exact (List.getElem?_eq_some_iff.mp hr).1
      have hsp := List.getElem?_eq_getElem hi
      rcases allocateFromLevel_spec h4 (h.region i _ r hsp hr) hl hm with
        ⟨hex, hnone⟩ | ⟨hleft, a, r', ha, hs⟩
      · have hset : regions.set i r = regions := by
          obtain ⟨hi', rfl⟩ := List.getElem?_eq_some_iff.mp hr
          exact List.set_getElem_self hi'
        simp only [hnone, bind, Except.bind, hset]
        rcases ih (i + 1) with ⟨hall, hrest⟩ | hrest
        · left
          refine ⟨fun j q hij hji hj => ?_, hrest⟩
          rcases Nat.eq_or_lt_of_le hij with rfl | hlt
          · exact Option.some.inj (hr.symm.trans hj) ▸ hex
          · exact hall j q hlt (by omega) hj
        · exact Or.inr hrest
      · right
        refine ⟨⟨r, List.mem_of_getElem? hr, hleft⟩, a, regions.set i r', ?_, h.grant map hsp hs⟩
        simp only [ha, bind, Except.bind, pure, Except.pure]

/-! ### Blocks in use -/

/-- The reserved page of a core as a block. -/
def reservedBlock : Option ℕ → Multiset Block
  | none => 0
  | some page => {⟨page, 12⟩}

def reservedBlocks (s : PhysState cpus) : Multiset Block :=
  ∑ cpu, reservedBlock (s.reservedPage cpu)

/-- The block of an allocation record. -/
def blockOf (p : ℕ × ℕ) : Block := ⟨p.1, p.2 + buddyFirstLevel⟩

def liveBlocks (live : List (ℕ × ℕ)) : Multiset Block := (live.map blockOf : Multiset Block)

@[simp] theorem liveBlocks_nil : liveBlocks [] = 0 := rfl

@[simp] theorem liveBlocks_cons (p : ℕ × ℕ) (live : List (ℕ × ℕ)) :
    liveBlocks (p :: live) = blockOf p ::ₘ liveBlocks live := rfl

theorem liveBlocks_append (xs ys : List (ℕ × ℕ)) :
    liveBlocks (xs ++ ys) = liveBlocks xs + liveBlocks ys := by
  simp only [liveBlocks, List.map_append, ← Multiset.coe_add]

/-- Replacing the reserved page of one core. -/
theorem reservedBlocks_update (s : PhysState cpus) (cpu : Fin cpus) (page : Option ℕ) :
    reservedBlock (s.reservedPage cpu) + reservedBlocks
      { s with reservedPage := Function.update s.reservedPage cpu page } =
    reservedBlock page + reservedBlocks s := by
  have hu := Finset.mem_univ cpu
  have hother : ∀ c ∈ Finset.univ.erase cpu,
      reservedBlock (Function.update s.reservedPage cpu page c) =
        reservedBlock (s.reservedPage c) := by
    intro c hc
    rw [Function.update_of_ne (Finset.ne_of_mem_erase hc)]
  simp only [reservedBlocks]
  rw [← Finset.add_sum_erase _ _ hu, ← Finset.add_sum_erase _ _ hu,
    Finset.sum_congr rfl hother, Function.update_self]
  abel

/-- The invariant of a run, with blocks `extra` in use besides the reserve. -/
def StateOk (m : ℕ) (map : MemoryMap) (s : PhysState cpus) (extra : Multiset Block) : Prop :=
  RegionsOk m map.specs s.regions (extra + reservedBlocks s)

structure RunOk (m : ℕ) (map : MemoryMap) (s : Run cpus) : Prop where
  unlocked : s.phys.lockCpu = none
  state : StateOk m map s.phys (liveBlocks s.live)

/-! ### Allocation -/

variable {map : MemoryMap} {s : PhysState cpus} {extra : Multiset Block}

theorem internalPhysAlloc_spec (h4 : 4 ≤ m) {level : ℕ} (hl : level < buddyLevelCount)
    (hm : m ≤ level + buddyFirstLevel) (h : StateOk m map s extra) :
    ((∀ r ∈ s.regions, r.Exhausted level) ∧ internalPhysAlloc (some level) s = .ok (none, s)) ∨
    (∃ r ∈ s.regions, ¬ r.Exhausted level) ∧
      ∃ a s', internalPhysAlloc (some level) s = .ok (some a, s') ∧ s'.lockCpu = s.lockCpu ∧
        s'.reservedPage = s.reservedPage ∧
        StateOk m map s' (⟨a, level + buddyFirstLevel⟩ ::ₘ extra) := by
  rcases internalPhysAllocFrom_spec h4 map hl hm s.regions.length 0 h with
    ⟨hall, hn⟩ | ⟨hleft, a, rs, ha, hs⟩
  · left
    refine ⟨fun r hr => ?_, by simp only [internalPhysAlloc, hn, bind, Except.bind, pure,
      Except.pure]⟩
    obtain ⟨j, hj, rfl⟩ := List.mem_iff_getElem.mp hr
    exact hall j _ (Nat.zero_le j) (by omega) (List.getElem?_eq_getElem hj)
  · right
    refine ⟨hleft, a, { s with regions := rs }, ?_, rfl, rfl, ?_⟩
    · simp only [internalPhysAlloc, ha, bind, Except.bind, pure, Except.pure]
    · rwa [StateOk, Multiset.cons_add]

theorem fillIrqAlloc_spec (h4 : 4 ≤ m) (hm : m ≤ 12) (cpu : Fin cpus) (h : StateOk m map s extra) :
    ∃ s', fillIrqAlloc cpu s = .ok s' ∧ s'.lockCpu = s.lockCpu ∧ StateOk m map s' extra := by
  rw [fillIrqAlloc]
  rcases hres : s.reservedPage cpu with _ | p
  · have hlev : getLevelBySize pageSize = some pageLevel := by decide
    rw [hlev]
    have hlt : pageLevel < buddyLevelCount := by decide
    rcases internalPhysAlloc_spec h4 hlt hm h with
      ⟨-, hn⟩ | ⟨-, a, s', ha, hlock, hpage, hs⟩
    · exact ⟨s, by simp only [hn, bind, Except.bind, pure, Except.pure], rfl, h⟩
    · refine ⟨{ s' with reservedPage := Function.update s'.reservedPage cpu (some a) },
        by simp only [ha, bind, Except.bind, pure, Except.pure], hlock, ?_⟩
      have hupd := reservedBlocks_update s' cpu (some a)
      rw [hpage, hres] at hupd
      rw [StateOk, Multiset.cons_add] at hs
      rw [StateOk]
      convert hs using 1
      rw [← hpage, reservedBlock, zero_add] at hupd
      rw [hupd]
      simp only [reservedBlock, Multiset.singleton_add, Multiset.add_cons]
      rfl
  · exact ⟨s, rfl, rfl, h⟩

/-- A nested fault takes the reserved page or finds none. -/
theorem irqAlloc_locked {cpu : Fin cpus} (hlock : s.lockCpu = some cpu)
    (h : StateOk m map s extra) :
    irqAlloc cpu pageSize s = .error (.assertion .irqAlloc) ∨
    ∃ p s', irqAlloc cpu pageSize s = .ok (some p, s') ∧ s'.lockCpu = some cpu ∧
      StateOk m map s' (blockOf (p, pageLevel) ::ₘ extra) := by
  rw [irqAlloc, if_pos ⟨hlock, rfl⟩]
  rcases hres : s.reservedPage cpu with _ | p
  · exact Or.inl rfl
  · right
    refine ⟨p, _, rfl, hlock, ?_⟩
    have hupd := reservedBlocks_update s cpu none
    rw [hres, reservedBlock, reservedBlock, zero_add] at hupd
    rw [StateOk, ← hupd] at h
    rw [StateOk]
    convert h using 1
    simp only [Multiset.singleton_add, Multiset.add_cons, Multiset.cons_add]
    rfl

theorem nestedFaults_spec {cpu : Fin cpus} (n : ℕ) (hlock : s.lockCpu = some cpu)
    (h : StateOk m map s extra) :
    (0 < n ∧ nestedFaults cpu n s = .error (.assertion .irqAlloc)) ∨
    ∃ ps s', nestedFaults cpu n s = .ok (ps, s') ∧ s'.lockCpu = some cpu ∧
      StateOk m map s' (liveBlocks (ps.map (·, pageLevel)) + extra) := by
  induction n generalizing s extra with
  | zero => exact Or.inr ⟨[], s, rfl, hlock, by simpa using h⟩
  | succ n ih =>
    rw [nestedFaults]
    rcases irqAlloc_locked hlock h with herr | ⟨p, s₁, hp, hlock₁, hs₁⟩
    · exact Or.inl ⟨by omega, by simp only [herr, bind, Except.bind]⟩
    · rcases ih hlock₁ hs₁ with ⟨-, herr⟩ | ⟨ps, s', hps, hlock', hs'⟩
      · exact Or.inl ⟨by omega, by simp only [hp, herr, bind, Except.bind]⟩
      · refine Or.inr ⟨p :: ps, s', ?_, hlock', ?_⟩
        · simp only [hp, hps, bind, Except.bind, pure, Except.pure]
          rfl
        · rwa [List.map_cons, liveBlocks_cons, Multiset.cons_add, ← Multiset.add_cons]

/-- A call of `phys_alloc` on a free lock either keeps the invariant, with the
returned block and the pages of the nested faults in use, or one of the nested
faults found the reserve empty. -/
theorem physAlloc_spec (h4 : 4 ≤ m) (hm12 : m ≤ 12) (cpu : Fin cpus) (size before after : ℕ)
    (hsize : ∀ level, getLevelBySize (size % 2 ^ 32) = some level → m ≤ level + buddyFirstLevel)
    (hlock : s.lockCpu = none) (h : StateOk m map s extra) :
    (0 < before + after ∧
      physAlloc cpu size before after s = .error (.assertion .irqAlloc)) ∨
    ∃ ptr ps s', physAlloc cpu size before after s = .ok (ptr, ps, s') ∧ s'.lockCpu = none ∧
      StateOk m map s'
        (liveBlocks (granted size ptr ++ ps.map (·, pageLevel)) + extra) := by
  have hirq : irqAlloc cpu size s = .ok (none, s) := by
    rw [irqAlloc, if_neg (by simp [hlock])]
  rw [physAlloc, hirq]
  simp only [bind, Except.bind, pure, Except.pure]
  rcases hlev : getLevelBySize (size % 2 ^ 32) with _ | level
  · exact Or.inr ⟨none, [], s, rfl, hlock, by simpa [granted] using h⟩
  · have hlt := (getLevelBySize_spec hlev).1
    have h₀ : StateOk m map { s with lockCpu := some cpu } extra := h
    rcases nestedFaults_spec before rfl h₀ with ⟨hpos, herr⟩ | ⟨ps, s₁, hps, hl₁, hs₁⟩
    · exact Or.inl ⟨by omega, by simp only [herr]⟩
    · -- the block found, if any, is in use from here on
      obtain ⟨ptr, s₂, hptr, hl₂, hs₂⟩ : ∃ ptr s₂, internalPhysAlloc (some level) s₁ =
          .ok (ptr, s₂) ∧ s₂.lockCpu = some cpu ∧ StateOk m map s₂
            (liveBlocks (granted size ptr) + (liveBlocks (ps.map (·, pageLevel)) + extra)) := by
        rcases internalPhysAlloc_spec h4 hlt (hsize level hlev) hs₁ with
          ⟨-, hn⟩ | ⟨-, a, s₂, ha, hl₂, -, hs₂⟩
        · exact ⟨none, s₁, hn, hl₁, by simpa [granted] using hs₁⟩
        · refine ⟨some a, s₂, ha, hl₂.trans hl₁, ?_⟩
          rwa [granted, hlev, Option.getD_some, liveBlocks_cons, liveBlocks_nil,
            Multiset.cons_add, zero_add]
      obtain ⟨s₃, hfill, hl₃, hs₃⟩ := fillIrqAlloc_spec h4 hm12 cpu hs₂
      rcases nestedFaults_spec after (hl₃.trans hl₂) hs₃ with ⟨hpos, herr⟩ | ⟨qs, s₄, hqs, -, hs₄⟩
      · exact Or.inl ⟨by omega, by simp only [hps, hptr, hfill, herr]⟩
      · refine Or.inr ⟨ptr, ps ++ qs, { s₄ with lockCpu := none }, ?_, rfl, ?_⟩
        · simp only [hps, hptr, hfill, hqs]
        · have he : liveBlocks (granted size ptr ++ (ps ++ qs).map (·, pageLevel)) + extra =
              liveBlocks (qs.map (·, pageLevel)) + (liveBlocks (granted size ptr) +
                (liveBlocks (ps.map (·, pageLevel)) + extra)) := by
            rw [List.map_append, liveBlocks_append, liveBlocks_append]
            abel
          rw [he]
          exact hs₄

/-! ### Release -/

/-- The marks `phys_free` reads for a block: nothing is asked of a block of at
least a page. -/
def MarksRight (s : PhysState cpus) (b : Block) : Prop :=
  b.order < 12 → ∀ r ∈ s.regions, r.base ≤ b.base → b.base < r.base + r.pageCount * pageSize →
    SubPageMark r b

theorem physFree_spec (h4 : 4 ≤ m) {b : Block} (h : StateOk m map s (b ::ₘ extra))
    (hm : MarksRight s b) :
    ∃ s', physFree (some b.base) s = .ok s' ∧ s'.lockCpu = s.lockCpu ∧
      s'.reservedPage = s.reservedPage ∧ StateOk m map s' extra := by
  obtain ⟨spec, hspec, hcont⟩ := h.located b (by
    rw [Multiset.cons_add]; exact Multiset.mem_cons_self _ _)
  obtain ⟨i, hi⟩ := List.mem_iff_getElem?.mp hspec
  have hilt : i < s.regions.length := by
    rw [h.length_eq]
    exact (List.getElem?_eq_some_iff.mp hi).1
  have hri := List.getElem?_eq_getElem hilt
  set r := s.regions[i] with hrdef
  have hok := h.region i spec r hi hri
  rw [RegionOk, Multiset.cons_add, usedIn_cons_of_contains hcont] at hok
  have hbU : b ∈ b ::ₘ usedIn spec (extra + reservedBlocks s) := Multiset.mem_cons_self _ _
  have hbM := Multiset.mem_add.mpr (Or.inr hbU : b ∈ r.freeBlocks ∨ _)
  have hal := hok.tiles.aligned b hbM
  have hord := hok.orders b hbM
  have hrc : r.base ≤ b.base ∧ b.base < r.base + r.pageCount * pageSize := by
    rw [hok.located.1, hok.located.2]
    exact hcont
  have hsub : b.order < 12 → SubPageMark r b := fun hlt =>
    hm hlt r (List.getElem_mem hilt) hrc.1 hrc.2
  -- the region found is the one the block lies in
  have hfind : findRegion s.regions b.base = some i := by
    rw [findRegion, List.findIdx?_eq_some_iff_getElem]
    refine ⟨hilt, by simpa [← hrdef] using hrc, fun j hj => ?_⟩
    have hjlt : j < map.specs.length := by rw [← h.length_eq]; omega
    have hrj := h.region j _ _ (List.getElem?_eq_getElem hjlt)
      (List.getElem?_eq_getElem (show j < s.regions.length by omega))
    have hnc := map.not_contains hi (List.getElem?_eq_getElem hjlt) hcont (by omega)
    simp only [Span.Contains, ← hrj.located.1, ← hrj.located.2] at hnc
    simpa using hnc
  have hlevel : (r.mark b.base).level = b.order - buddyFirstLevel := by
    by_cases hlt : b.order < 12
    · exact (hsub hlt).1
    · rw [hok.usedMark b hbU (by omega)]
  have hmask : b.base &&& (1 <<< (b.order - buddyFirstLevel + buddyFirstLevel) - 1) = 0 := by
    rw [Nat.sub_add_cancel (by simp only [buddyFirstLevel]; omega), Nat.one_shiftLeft,
      Nat.and_two_pow_sub_one_eq_mod]
    exact Nat.mod_eq_zero_of_dvd hal
  obtain ⟨r', hr', hs'⟩ := freeAtLevel_spec h4 hal hord.1 hord.2
    (fun x hx => hok.tiles.mem_of_covers hbM hx) hok.takeUsed hsub
  refine ⟨{ s with regions := s.regions.set i r' }, ?_, rfl, rfl, ?_⟩
  · have hpm : pageMetadata r b.base = some ((b.base - r.base) / pageSize) :=
      Span.pageMetadata_eq hok.located hcont
    have hlev' : (r.metadata ((b.base - r.base) / pageSize)).level = b.order - buddyFirstLevel :=
      hlevel
    simp only [physFree, hfind, hri, hpm, hlev', hmask, ↓reduceIte, hr', bind, Except.bind, pure,
      Except.pure]
  · refine RegionsOk.set map h hi hs' ?_ fun c hc => h.located c ?_
    · intro j sp hj hne
      rw [Multiset.cons_add, usedIn_cons_of_not (map.not_contains hi hj hcont hne)]
      rfl
    · rw [Multiset.cons_add]
      exact Multiset.mem_cons_of_mem hc

/-! ### Boot -/

theorem mapM_initRegion (specs : List RegionSpec) :
    ∃ regions, specs.mapM RegionSpec.initRegion = .ok regions ∧
      List.Forall₂ (fun spec r => Sound 12 spec.toSpan r spec.Given spec.Given 0) specs regions := by
  induction specs with
  | nil => exact ⟨[], rfl, List.Forall₂.nil⟩
  | cons spec specs ih =>
    obtain ⟨r, hr, hs⟩ := spec.initRegion_spec
    obtain ⟨rs, hrs, hf⟩ := ih
    refine ⟨r :: rs, ?_, List.Forall₂.cons hs hf⟩
    rw [List.mapM_cons, hr]
    simp only [bind, Except.bind, hrs, pure, Except.pure]

theorem boot_spec (map : MemoryMap) (cpus : ℕ) :
    ∃ s₀, map.boot cpus = .ok s₀ ∧ RunOk 12 map s₀ := by
  obtain ⟨regions, hr, hf⟩ := mapM_initRegion map.specs
  refine ⟨⟨⟨regions, none, fun _ => none⟩, []⟩, ?_, rfl, ?_⟩
  · simp only [MemoryMap.boot, hr, bind, Except.bind, pure, Except.pure]
  · have hzero : liveBlocks [] + reservedBlocks (⟨regions, none, fun _ => none⟩ : PhysState cpus) =
        0 := by
      simp [reservedBlocks, reservedBlock]
    refine ⟨hf.length_eq.symm, fun i spec r hi hri => ?_, fun b hb => ?_⟩
    · obtain ⟨hi', rfl⟩ := List.getElem?_eq_some_iff.mp hi
      obtain ⟨hri', rfl⟩ := List.getElem?_eq_some_iff.mp hri
      rw [RegionOk, hzero]
      exact (List.forall₂_iff_get.mp hf).2 i hi' hri'
    · rw [hzero] at hb
      exact absurd hb (Multiset.notMem_zero b)

end TomatOS.Phys
