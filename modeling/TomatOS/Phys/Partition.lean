import TomatOS.Foundation.Transition
import TomatOS.Phys.AllocatorInvariant

/-! Whole runs of the allocator. As long as every request is larger than half a
page, the free blocks, the live allocations and the reserved pages tile exactly
the memory given at initialisation. Smaller requests share the metadata entry
of their page: a run stays safe as long as every release of such a block still
finds the entry describing it, and a run of four calls shows that it need not. -/

namespace TomatOS.Phys

open Foundation.Dyadic Foundation.Transition

variable {m cpus : ℕ} {map : MemoryMap}

/-- The addresses given to the allocator at initialisation. -/
def MemoryMap.Given (map : MemoryMap) (x : ℕ) : Prop := ∃ spec ∈ map.specs, spec.Given x

/-- Every block of a run: on the free lists, live, or in reserve. -/
def Run.blocks (s : Run cpus) : Multiset Block :=
  (∑ i : Fin s.phys.regions.length, (s.phys.regions.get i).freeBlocks) +
    (liveBlocks s.live + reservedBlocks s.phys)

/-- The blocks of two allocation records do not overlap. -/
def Apart (p q : ℕ × ℕ) : Prop :=
  p.1 + 2 ^ (p.2 + buddyFirstLevel) ≤ q.1 ∨ q.1 + 2 ^ (q.2 + buddyFirstLevel) ≤ p.1

instance (p q : ℕ × ℕ) : Decidable (Apart p q) := by unfold Apart; infer_instance

/-- Live allocations overlap neither each other nor a block on a free list. -/
def Run.LiveDisjoint (s : Run cpus) : Prop :=
  s.live.Pairwise Apart ∧ ∀ p ∈ s.live, ∀ r ∈ s.phys.regions, ∀ level < buddyLevelCount,
    ∀ a ∈ r.freeList level, Apart p (a, level)

instance (s : Run cpus) : Decidable s.LiveDisjoint := by unfold Run.LiveDisjoint; infer_instance

/-- Requests of `lo` bytes up to 128MB, releases of live pointers. -/
def Legal (lo : ℕ) (s : Run cpus) : Call cpus → Prop
  | .alloc _ size _ _ => lo ≤ size ∧ size ≤ buddyTopLevelSize
  | .free _ ptr => ∃ p ∈ s.live, p.1 = ptr
  | .initPerCpu _ => True

instance (lo : ℕ) (s : Run cpus) (c : Call cpus) : Decidable (Legal lo s c) := by
  cases c <;> unfold Legal <;> infer_instance

/-- Requests of at least page-size levels, releases of live pointers. -/
def PageSized (s : Run cpus) : Call cpus → Prop
  | .alloc _ size _ _ => ∀ level, getLevelBySize (size % 2 ^ 32) = some level → pageLevel ≤ level
  | .free _ ptr => ∃ p ∈ s.live, p.1 = ptr
  | .initPerCpu _ => True

/-- Requests of any size, releases of live pointers. -/
def AnySize (s : Run cpus) : Call cpus → Prop
  | .free _ ptr => ∃ p ∈ s.live, p.1 = ptr
  | _ => True

/-- A release of a block below the page size finds the entry of its page
describing it. -/
def Described (s : Run cpus) : Call cpus → Prop
  | .free _ ptr => ∀ p ∈ s.live, p.1 = ptr → MarksRight s.phys (blockOf p)
  | _ => True

/-! ### One tiling for all regions -/

theorem RegionsOk.sound {regions : List MemoryRegion} {used : Multiset Block}
    (h : RegionsOk m map.specs regions used) (i : Fin regions.length) :
    ∃ spec, map.specs[i.val]? = some spec ∧ RegionOk m spec (regions.get i) used := by
  have hi : i.val < map.specs.length := h.length_eq ▸ i.isLt
  exact ⟨map.specs[i.val], List.getElem?_eq_getElem hi,
    h.region i _ _ (List.getElem?_eq_getElem hi) (List.getElem?_eq_getElem i.isLt)⟩

/-- A block in use belongs to the tiling of a region. -/
theorem RegionsOk.used_mem {regions : List MemoryRegion} {used : Multiset Block}
    (h : RegionsOk m map.specs regions used) {b : Block} (hb : b ∈ used) :
    ∃ (i : Fin regions.length) (spec : RegionSpec), map.specs[i.val]? = some spec ∧
      RegionOk m spec (regions.get i) used ∧ b ∈ usedIn spec used := by
  obtain ⟨spec, hspec, hc⟩ := h.located b hb
  obtain ⟨i, hi⟩ := List.mem_iff_getElem?.mp hspec
  have hlt : i < regions.length := by
    rw [h.length_eq]
    exact (List.getElem?_eq_some_iff.mp hi).1
  obtain ⟨spec', hspec', hok⟩ := h.sound ⟨i, hlt⟩
  obtain rfl : spec = spec' := Option.some.inj (hi.symm.trans hspec')
  exact ⟨⟨i, hlt⟩, spec, hi, hok, Multiset.mem_filter.mpr ⟨hb, hc⟩⟩

/-- Free blocks of other regions do not reach into this one. -/
theorem RegionsOk.cover_free {regions : List MemoryRegion} {used : Multiset Block}
    (h : RegionsOk m map.specs regions used) {k : Fin regions.length} {spec : RegionSpec}
    (hk : map.specs[k.val]? = some spec) {x : ℕ} (hx : spec.Contains x) :
    cover (∑ i : Fin regions.length, (regions.get i).freeBlocks) x =
      cover (regions.get k).freeBlocks x := by
  rw [cover_sum]
  refine Finset.sum_eq_single k (fun j _ hj => ?_) (fun hn => absurd (Finset.mem_univ _) hn)
  obtain ⟨spec', hj', hok⟩ := h.sound j
  rw [cover_eq_zero]
  intro b hb hbx
  have hin := hok.inside x (hok.tiles.mem_of_covers (Multiset.mem_add.mpr (Or.inl hb)) hbx)
  exact map.not_contains hk hj' hx (fun he => hj (Fin.ext he)) hin

theorem RegionsOk.cover_used {regions : List MemoryRegion} {used : Multiset Block}
    (h : RegionsOk m map.specs regions used) {k : Fin regions.length} {spec : RegionSpec}
    (hk : map.specs[k.val]? = some spec) {x : ℕ} (hx : spec.Contains x) :
    cover used x = cover (usedIn spec used) x := by
  have hsplit : usedIn spec used + used.filter (fun b => ¬ spec.Contains b.base) = used :=
    Multiset.filter_add_not _ _
  have hzero : cover (used.filter fun b => ¬ spec.Contains b.base) x = 0 := by
    rw [cover_eq_zero]
    intro b hb hbx
    obtain ⟨hb, hnot⟩ := Multiset.mem_filter.mp hb
    obtain ⟨i, speci, hi, hok, hbi⟩ := h.used_mem hb
    have hin := hok.inside x (hok.tiles.mem_of_covers (Multiset.mem_add.mpr (Or.inr hbi)) hbx)
    by_cases hik : i.val = k.val
    · rw [hik] at hi
      obtain rfl : speci = spec := Option.some.inj (hi.symm.trans hk)
      exact hnot (Multiset.mem_filter.mp hbi).2
    · exact map.not_contains hk hi hx hik hin
  conv_lhs => rw [← hsplit]
  rw [cover_add, hzero, add_zero]

/-- The regions' tilings together tile all the memory given. -/
theorem RegionsOk.tiles {regions : List MemoryRegion} {used : Multiset Block}
    (h : RegionsOk m map.specs regions used) :
    Tiles ((∑ i : Fin regions.length, (regions.get i).freeBlocks) + used) map.Given := by
  have hfree : ∀ (i : Fin regions.length) (b : Block), b ∈ (regions.get i).freeBlocks →
      b.Aligned ∧ ∀ x, b.Covers x → map.Given x := by
    intro i b hb
    obtain ⟨spec, hi, hok⟩ := h.sound i
    have hb' := Multiset.mem_add.mpr (Or.inl hb : _ ∨ b ∈ usedIn spec used)
    exact ⟨hok.tiles.aligned b hb', fun x hx =>
      ⟨spec, List.mem_of_getElem? hi, hok.tiles.mem_of_covers hb' hx⟩⟩
  have hused : ∀ b ∈ used, b.Aligned ∧ ∀ x, b.Covers x → map.Given x := by
    intro b hb
    obtain ⟨i, spec, hi, hok, hb⟩ := h.used_mem hb
    have hb' := Multiset.mem_add.mpr (Or.inr hb : b ∈ (regions.get i).freeBlocks ∨ _)
    exact ⟨hok.tiles.aligned b hb', fun x hx =>
      ⟨spec, List.mem_of_getElem? hi, hok.tiles.mem_of_covers hb' hx⟩⟩
  have hall : ∀ b ∈ (∑ i : Fin regions.length, (regions.get i).freeBlocks) + used,
      b.Aligned ∧ ∀ x, b.Covers x → map.Given x := by
    intro b hb
    rcases Multiset.mem_add.mp hb with hb | hb
    · obtain ⟨i, -, hb⟩ := Multiset.mem_sum.mp hb
      exact hfree i b hb
    · exact hused b hb
  refine ⟨fun b hb => (hall b hb).1, fun x hx => ?_, fun x hx => ?_⟩
  · obtain ⟨spec, hspec, hgiven⟩ := hx
    obtain ⟨k, hk⟩ := List.mem_iff_getElem?.mp hspec
    have hlt : k < regions.length := by
      rw [h.length_eq]
      exact (List.getElem?_eq_some_iff.mp hk).1
    obtain ⟨spec', hk', hok⟩ := h.sound ⟨k, hlt⟩
    obtain rfl : spec = spec' := Option.some.inj (hk.symm.trans hk')
    have hin := hok.inside x hgiven
    rw [cover_add, h.cover_free hk' hin, h.cover_used hk' hin, ← cover_add]
    exact hok.tiles.once x hgiven
  · rw [cover_eq_zero]
    intro b hb hbx
    exact hx ((hall b hb).2 x hbx)

theorem RunOk.tiles {s : Run cpus} (h : RunOk m map s) : Tiles s.blocks map.Given := h.state.tiles

theorem RunOk.order_le {s : Run cpus} (h : RunOk m map s) {p : ℕ × ℕ} (hp : p ∈ s.live) :
    m ≤ (blockOf p).order := by
  have hb : blockOf p ∈ liveBlocks s.live + reservedBlocks s.phys :=
    Multiset.mem_add.mpr (Or.inl (List.mem_map_of_mem hp))
  obtain ⟨i, spec, -, hok, hb⟩ := h.state.used_mem hb
  exact (hok.orders _ (Multiset.mem_add.mpr (Or.inr hb))).1

private theorem apart_of_disjoint {p q : ℕ × ℕ}
    (h : ∀ x, (blockOf p).Covers x → ¬ (blockOf q).Covers x) : Apart p q := by
  have h1 := h p.1
  have h2 := h q.1
  have hp := Nat.two_pow_pos (p.2 + buddyFirstLevel)
  have hq := Nat.two_pow_pos (q.2 + buddyFirstLevel)
  simp only [blockOf, Block.Covers] at h1 h2
  unfold Apart
  omega

/-- Exact coverage makes the live blocks disjoint from each other and from the
free lists. -/
theorem RunOk.liveDisjoint {s : Run cpus} (h : RunOk m map s) : s.LiveDisjoint := by
  have hle := h.tiles.cover_le_one
  constructor
  · have hlive : ∀ x, cover (liveBlocks s.live) x ≤ 1 := by
      intro x
      refine le_trans (cover_le_of_le ?_ x) (hle x)
      exact (Multiset.le_add_right _ _).trans (Multiset.le_add_left _ _)
    generalize s.live = live at hlive
    induction live with
    | nil => exact List.Pairwise.nil
    | cons p live ih =>
      refine List.Pairwise.cons (fun q hq => ?_) (ih fun x => ?_)
      · apply apart_of_disjoint
        intro x hx
        have hle := hlive x
        rw [liveBlocks_cons] at hle
        exact not_covers_of_cover_le_one hle hx
          (List.mem_map_of_mem hq : blockOf q ∈ liveBlocks live)
      · have := hlive x
        rw [liveBlocks_cons, cover_cons] at this
        omega
  · intro p hp r hr level hlev a ha
    apply apart_of_disjoint
    intro x hpx hax
    obtain ⟨i, rfl⟩ := List.mem_iff_get.mp hr
    have hfree : 0 < cover (∑ i : Fin s.phys.regions.length, (s.phys.regions.get i).freeBlocks) x :=
      cover_pos.mpr ⟨⟨a, level + buddyFirstLevel⟩, Multiset.mem_sum.mpr ⟨i, Finset.mem_univ i,
        MemoryRegion.mem_freeBlocks_mk.mpr ⟨hlev, ha⟩⟩, hax⟩
    have hlive : 0 < cover (liveBlocks s.live) x :=
      cover_pos.mpr ⟨blockOf p, List.mem_map_of_mem hp, hpx⟩
    have := hle x
    rw [Run.blocks, cover_add, cover_add] at this
    omega

/-! ### Steps -/

/-- A call keeps the invariant, or stops at the empty reserve in a nested page
fault. -/
def Run.Keeps (m : ℕ) (map : MemoryMap) (s : Run cpus) (c : Call cpus) : Prop :=
  (∃ cpu size before after, c = .alloc cpu size before after ∧ 0 < before + after ∧
    s.step c = .error (.assertion .irqAlloc)) ∨
  ∃ s', s.step c = .ok s' ∧ RunOk m map s'

/-- What every call with sizes and marks in order can do. -/
theorem step_ok (h4 : 4 ≤ m) (hm : m ≤ 12) {s : Run cpus} (h : RunOk m map s) (c : Call cpus)
    (hsize : ∀ cpu size before after level, c = .alloc cpu size before after →
      getLevelBySize (size % 2 ^ 32) = some level → m ≤ level + buddyFirstLevel)
    (hfree : ∀ cpu ptr, c = .free cpu ptr →
      ∃ p ∈ s.live, p.1 = ptr ∧ ∀ q ∈ s.live, q.1 = ptr → MarksRight s.phys (blockOf q)) :
    s.Keeps m map c := by
  cases c with
  | alloc cpu size before after =>
    rcases physAlloc_spec h4 hm cpu size before after
      (fun level hlev => hsize _ _ _ _ level rfl hlev) h.unlocked h.state with
      ⟨hpos, herr⟩ | ⟨ptr, ps, s', hs', hlock, hok⟩
    · exact Or.inl ⟨cpu, size, before, after, rfl, hpos,
        by simp only [Run.step, herr, bind, Except.bind]⟩
    · refine Or.inr ⟨_, by simp only [Run.step, hs', bind, Except.bind, pure, Except.pure]; rfl,
        hlock, ?_⟩
      rwa [← liveBlocks_append, List.append_assoc] at hok
  | free cpu ptr =>
    right
    obtain ⟨p, hp, hptr, hmarks⟩ := hfree cpu ptr rfl
    obtain ⟨q, l₁, l₂, -, hq, hlive, herase⟩ :=
      List.exists_of_eraseP (p := fun q : ℕ × ℕ => decide (q.1 = ptr)) hp (by simpa using hptr)
    obtain rfl : q.1 = ptr := by simpa using hq
    have hblocks : liveBlocks s.live = blockOf q ::ₘ liveBlocks (l₁ ++ l₂) := by
      rw [hlive, liveBlocks_append, liveBlocks_append, liveBlocks_cons, Multiset.add_cons]
    have hst := h.state
    rw [hblocks] at hst
    obtain ⟨s', hs', hlock, -, hok⟩ := physFree_spec h4 hst
      (hmarks q (by rw [hlive]; exact List.mem_append_right _ List.mem_cons_self) rfl)
    refine ⟨⟨s', s.live.eraseP (·.1 = q.1)⟩, ?_, hlock.trans h.unlocked, ?_⟩
    · have hs'' : physFree (some q.1) s.phys = .ok s' := hs'
      simp only [Run.step, hs'', bind, Except.bind, pure, Except.pure]
    · simp only [herase]
      exact hok
  | initPerCpu cpu =>
    right
    obtain ⟨s', hs', hlock, hok⟩ := fillIrqAlloc_spec h4 hm cpu h.state
    refine ⟨⟨s', s.live⟩, ?_, hlock.trans h.unlocked, hok⟩
    simp only [Run.step, initPhysPerCpu, hs', bind, Except.bind, pure, Except.pure]

theorem RunOk.of_keeps {guard : Run cpus → Call cpus → Prop} {s₀ s : Run cpus}
    (h₀ : RunOk m map s₀) (hkeep : ∀ u c, RunOk m map u → guard u c → u.Keeps m map c)
    (hs : Reaches Run.step guard s₀ s) : RunOk m map s := by
  apply hs.invariant (motive := RunOk m map) h₀
  intro u c v hu hc hv
  rcases hkeep u c hu hc with ⟨_, _, _, _, _, _, herr⟩ | ⟨s', hs', hok⟩
  · rw [herr] at hv
    cases hv
  · rw [hs'] at hv
    exact Except.ok.inj hv ▸ hok

theorem RunOk.mono {k : ℕ} {s : Run cpus} (h : RunOk m map s) (hk : k ≤ m) : RunOk k map s where
  unlocked := h.unlocked
  state :=
    { h.state with
      region := fun i spec r hi hr => (h.state.region i spec r hi hr).mono hk }

/-- Requests of whole pages: one such call keeps the page-granular invariant. -/
theorem pageSized_step {s : Run cpus} (h : RunOk 12 map s) {c : Call cpus} (hc : PageSized s c) :
    s.Keeps 12 map c := by
  refine step_ok (by decide) le_rfl h c ?_ ?_
  · rintro cpu size before after level rfl hlev
    have := hc level hlev
    simp only [pageLevel, buddyFirstLevel] at this ⊢
    omega
  · rintro cpu ptr rfl
    obtain ⟨p, hp, hptr⟩ := hc
    refine ⟨p, hp, hptr, fun q hq _ hlt => ?_⟩
    have := h.order_le hq
    omega

theorem Legal.pageSized {s : Run cpus} {c : Call cpus} (hc : Legal 2049 s c) : PageSized s c := by
  cases c with
  | alloc cpu size before after =>
    intro level hlev
    have hlt : size % 2 ^ 32 = size := by
      rw [Nat.mod_eq_of_lt]
      have := hc.2
      rw [buddyTopLevelSize_eq] at this
      omega
    rw [hlt] at hlev
    exact pageLevel_le_of_size hlev hc.1
  | free cpu ptr => exact hc
  | initPerCpu cpu => exact hc

theorem RunOk.reaches {s₀ s : Run cpus} (h₀ : RunOk 12 map s₀)
    (hs : Reaches Run.step PageSized s₀ s) : RunOk 12 map s :=
  h₀.of_keeps (fun _ _ hu hc => pageSized_step hu hc) hs

theorem Legal.anySize {lo : ℕ} {s : Run cpus} {c : Call cpus} (hc : Legal lo s c) :
    AnySize s c := by
  cases c with
  | free cpu ptr => exact hc
  | _ => exact trivial

/-- Any request size: a call keeps the invariant when a released block is
described. -/
theorem described_step {s : Run cpus} (h : RunOk 4 map s) {c : Call cpus}
    (hc : AnySize s c ∧ Described s c) : s.Keeps 4 map c := by
  refine step_ok le_rfl (by decide) h c ?_ ?_
  · rintro cpu size before after level rfl hlev
    simp only [buddyFirstLevel]
    omega
  · rintro cpu ptr rfl
    obtain ⟨p, hp, hptr⟩ := hc.1
    exact ⟨p, hp, hptr, hc.2⟩

theorem RunOk.reaches_described {s₀ s : Run cpus} (h₀ : RunOk 4 map s₀)
    (hs : Reaches Run.step (fun s c => AnySize s c ∧ Described s c) s₀ s) : RunOk 4 map s :=
  h₀.of_keeps (fun _ _ hu hc => described_step hu hc) hs

/-! ### Runs -/

/-- With requests above half a page no assertion of the buddy code fails and
free blocks, live allocations and reserved pages tile the memory given at
initialisation; every block is marked with its own level. -/
theorem page_runs_partition (map : MemoryMap) (cpus : ℕ) :
    ∃ s₀, map.boot cpus = .ok s₀ ∧ ∀ s, Reaches Run.step (Legal 2049) s₀ s →
      Tiles s.blocks map.Given ∧
      (∀ b ∈ s.blocks, 12 ≤ b.order ∧ b.order ≤ 27) ∧
      (∀ r ∈ s.phys.regions, ∀ level < buddyLevelCount, ∀ a ∈ r.freeList level,
        r.mark a = ⟨level, true⟩) ∧
      ∀ c, Legal 2049 s c → ∀ f, s.step c = .error f →
        f = .assertion .irqAlloc ∧
          ∃ cpu size before after, c = .alloc cpu size before after ∧ 0 < before + after := by
  obtain ⟨s₀, hboot, h₀⟩ := boot_spec map cpus
  refine ⟨s₀, hboot, fun s hs => ?_⟩
  have h : RunOk 12 map s := h₀.reaches (hs.mono fun _ _ => Legal.pageSized)
  refine ⟨h.tiles, fun b hb => ?_, fun r hr level hlev a ha => ?_, fun c hc f hf => ?_⟩
  · rcases Multiset.mem_add.mp hb with hb | hb
    · obtain ⟨i, -, hb⟩ := Multiset.mem_sum.mp hb
      obtain ⟨spec, -, hok⟩ := h.state.sound i
      exact hok.orders b (Multiset.mem_add.mpr (Or.inl hb))
    · obtain ⟨i, spec, -, hok, hb⟩ := h.state.used_mem hb
      exact hok.orders b (Multiset.mem_add.mpr (Or.inr hb))
  · obtain ⟨i, rfl⟩ := List.mem_iff_get.mp hr
    obtain ⟨spec, -, hok⟩ := h.state.sound i
    have hb := MemoryRegion.mem_freeBlocks_mk.mpr ⟨hlev, ha⟩
    have ho := hok.orders _ (Multiset.mem_add.mpr (Or.inl hb))
    have hm := hok.freeMark _ hb ho.1
    rwa [Nat.add_sub_cancel] at hm
  · rcases pageSized_step h hc.pageSized with ⟨cpu, size, before, after, hceq, hpos, herr⟩ | ⟨s', hs', -⟩
    · rw [herr] at hf
      exact ⟨(Except.error.inj hf).symm, cpu, size, before, after, hceq, hpos⟩
    · rw [hs'] at hf
      cases hf

/-- With any request sizes the live blocks stay disjoint as long as every
release of a block below the page size finds its entry describing it. -/
theorem described_runs_disjoint (map : MemoryMap) (cpus : ℕ) :
    ∃ s₀, map.boot cpus = .ok s₀ ∧
      ∀ s, Reaches Run.step (fun s c => Legal 0 s c ∧ Described s c) s₀ s → s.LiveDisjoint := by
  obtain ⟨s₀, hboot, h₀⟩ := boot_spec map cpus
  refine ⟨s₀, hboot, fun s hs => ?_⟩
  have h := (h₀.mono (show 4 ≤ 12 by decide)).reaches_described
    (hs.mono fun _ _ hc => ⟨hc.1.anySize, hc.2⟩)
  exact h.liveDisjoint

/-- One region of one page at the start of the direct map. -/
def onePage : MemoryMap where
  specs := [{
    base := 0xFFFF800000000000
    pageCount := 1
    base_dvd := by decide
    ranges := [(0xFFFF800000000000, 1)]
    ranges_dvd := by decide
    ranges_inside := by decide
    ranges_disjoint := by decide }]
  disjoint := by decide

/-- Two 16-byte blocks and a 2KB block of one page; the release of the first
reads back the level of the third. -/
def sharedEntryCalls : List (Call 1) :=
  [.alloc 0 16 0 0, .alloc 0 16 0 0, .alloc 0 2048 0 0, .free 0 0xFFFF800000000000]

/-- Live blocks are not disjoint from the free lists in every legal run. -/
theorem shared_entry_breaks_disjointness :
    ¬ ∀ (map : MemoryMap) (cpus : ℕ), ∃ s₀, map.boot cpus = .ok s₀ ∧
      ∀ s, Reaches Run.step (Legal 0) s₀ s → s.LiveDisjoint := by
  intro h
  obtain ⟨s₀, hboot, hall⟩ := h onePage 1
  have hrun : (match onePage.boot 1 with
      | .ok s => leadsTo Run.step (fun s c => Legal 0 s c) (fun s => !decide s.LiveDisjoint) s
          sharedEntryCalls
      | .error _ => false) = true := by decide +kernel
  rw [hboot] at hrun
  obtain ⟨s, hs, hbad⟩ := reaches_of_leadsTo (Legal 0) (by simp) hrun
  simp [hall s hs] at hbad

end TomatOS.Phys
