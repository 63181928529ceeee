import TomatOS.Phys.Partition

/-! Which level a request gets. `phys_alloc` takes a 64-bit size but computes the
level from its low 32 bits, so a size above 128MB is refused only when those
bits are above 128MB as well; otherwise the caller gets a block that is far too
short. -/

namespace TomatOS.Phys

open Foundation.Dyadic Foundation.Transition

variable {cpus : ℕ} {map : MemoryMap}

/-- A call without page faults inside returns, and a pointer returned, whatever
page faults were taken inside, starts a block of the least level whose blocks
hold `size` bytes; with it all blocks still tile the memory. -/
def RightLevel (map : MemoryMap) (s : Run cpus) (cpu : Fin cpus) (size : ℕ) : Prop :=
  (∃ ptr nested s', physAlloc cpu size 0 0 s.phys = .ok (ptr, nested, s')) ∧
  ∀ before after a nested s', physAlloc cpu size before after s.phys = .ok (some a, nested, s') →
    ∃ level < buddyLevelCount, size ≤ 2 ^ (level + buddyFirstLevel) ∧
      (∀ k < level, 2 ^ (k + buddyFirstLevel) < size) ∧
      Tiles (Run.blocks ⟨s', (a, level) :: (nested.map (·, pageLevel) ++ s.live)⟩) map.Given

/-- No region has a block for the request `phys_alloc` makes of itself. -/
def NothingLeft (s : PhysState cpus) (size : ℕ) : Prop :=
  ∀ level, getLevelBySize (size % 2 ^ 32) = some level → ∀ r ∈ s.regions, r.Exhausted level

theorem getLevelBySize_none {size : ℕ} : getLevelBySize size = none ↔ 2 ^ 27 < size := by
  rw [getLevelBySize, buddyTopLevelSize_eq]
  split_ifs with h
  · exact ⟨fun _ => h, fun _ => rfl⟩
  · exact ⟨fun hn => (by cases hn), fun hlt => absurd hlt h⟩

/-! ### When nothing is returned -/

section Outcome

variable {s s' : PhysState cpus} {cpu : Fin cpus} {extra : Multiset Block}

theorem irqAlloc_regions {size : ℕ} {ptr : Option ℕ} (h : irqAlloc cpu size s = .ok (ptr, s')) :
    s'.regions = s.regions := by
  rw [irqAlloc] at h
  split_ifs at h with hlock
  · rcases hres : s.reservedPage cpu with _ | page
    · simp [hres] at h
    · simp only [hres, Except.ok.injEq, Prod.mk.injEq] at h
      rw [← h.2]
  · cases h
    rfl

theorem nestedFaults_regions {n : ℕ} {nested : List ℕ}
    (h : nestedFaults cpu n s = .ok (nested, s')) : s'.regions = s.regions := by
  induction n generalizing s s' nested with
  | zero =>
    cases h
    rfl
  | succ n ih =>
    rw [nestedFaults] at h
    rcases hi : irqAlloc cpu pageSize s with e | ⟨ptr, s₁⟩
    · simp [hi, bind, Except.bind] at h
    · rcases hn : nestedFaults cpu n s₁ with e | ⟨ptrs, s₂⟩
      · simp [hi, hn, bind, Except.bind] at h
      · simp only [hi, hn, bind, Except.bind, pure, Except.pure, Except.ok.injEq,
          Prod.mk.injEq] at h
        rw [← h.2, ih hn, irqAlloc_regions hi]

/-- On a free lock the pointer returned is what `internal_phys_alloc` found after
the page faults taken up to there. -/
theorem physAlloc_pointer {size before after level : ℕ} {ptr : Option ℕ} {nested : List ℕ}
    (hlock : s.lockCpu = none) (hlev : getLevelBySize (size % 2 ^ 32) = some level)
    (h : physAlloc cpu size before after s = .ok (ptr, nested, s')) :
    ∃ early s₁ s₂, nestedFaults cpu before { s with lockCpu := some cpu } = .ok (early, s₁) ∧
      internalPhysAlloc (some level) s₁ = .ok (ptr, s₂) := by
  have hirq : irqAlloc cpu size s = .ok (none, s) := by
    rw [irqAlloc, if_neg (by simp [hlock])]
  rw [physAlloc, hirq] at h
  simp only [bind, Except.bind, hlev] at h
  rcases hearly : nestedFaults cpu before { s with lockCpu := some cpu } with e | ⟨early, s₁⟩
  · simp [hearly] at h
  · rcases hptr : internalPhysAlloc (some level) s₁ with e | ⟨ptr', s₂⟩
    · simp [hearly, hptr] at h
    · rcases hfill : fillIrqAlloc cpu s₂ with e | s₃
      · simp [hearly, hptr, hfill] at h
      · rcases hlate : nestedFaults cpu after s₃ with e | ⟨late, s₄⟩
        · simp [hearly, hptr, hfill, hlate] at h
        · simp only [hearly, hptr, hfill, hlate, pure, Except.pure, Except.ok.injEq,
            Prod.mk.injEq] at h
          exact ⟨early, s₁, s₂, rfl, by rw [hptr, h.1]⟩

/-- A call that returns gives no block exactly when no region has one. -/
theorem physAlloc_none_iff {size before after : ℕ} {ptr : Option ℕ} {nested : List ℕ}
    (hlock : s.lockCpu = none) (hok : StateOk 4 map s extra)
    (h : physAlloc cpu size before after s = .ok (ptr, nested, s')) :
    ptr = none ↔ NothingLeft s size := by
  rcases hlev : getLevelBySize (size % 2 ^ 32) with _ | level
  · have hirq : irqAlloc cpu size s = .ok (none, s) := by
      rw [irqAlloc, if_neg (by simp [hlock])]
    simp only [physAlloc, hirq, hlev, bind, Except.bind, pure, Except.pure, Except.ok.injEq,
      Prod.mk.injEq] at h
    apply iff_of_true h.1.symm
    intro level hl
    rw [hlev] at hl
    cases hl
  · obtain ⟨early, s₁, s₂, hearly, hptr⟩ := physAlloc_pointer hlock hlev h
    have hregions : s₁.regions = s.regions := (nestedFaults_regions hearly :)
    have hleft : NothingLeft s size ↔ ∀ r ∈ s₁.regions, r.Exhausted level := by
      rw [hregions]
      constructor
      · exact fun hn => hn level hlev
      · intro hall k hk
        rw [hlev] at hk
        cases hk
        exact hall
    have hok₀ : StateOk 4 map { s with lockCpu := some cpu } extra := hok
    rcases nestedFaults_spec before rfl hok₀ with ⟨-, herr⟩ | ⟨ps, s₁', hps, -, hok₁⟩
    · rw [herr] at hearly
      cases hearly
    · rw [hps] at hearly
      cases hearly
      rw [hleft]
      rcases internalPhysAlloc_spec le_rfl (getLevelBySize_spec hlev).1 (Nat.le_add_left 4 level)
        hok₁ with ⟨hall, hnone⟩ | ⟨⟨r, hr, hsome⟩, a, s₂', ha, -⟩
      · rw [hnone] at hptr
        cases hptr
        exact iff_of_true rfl hall
      · rw [ha] at hptr
        cases hptr
        exact iff_of_false (by simp) fun hall => hsome (hall r hr)

end Outcome

/-! ### The level -/

theorem getLevelBySize_least {size level k : ℕ} (h : getLevelBySize size = some level)
    (hk : k < level) : 2 ^ (k + buddyFirstLevel) < size := by
  have hle : 2 ^ (k + buddyFirstLevel) ≤ 2 ^ (level - 1 + buddyFirstLevel) :=
    Nat.pow_le_pow_right two_pos (by omega)
  exact hle.trans_lt ((getLevelBySize_spec h).2.2 (by omega))

theorem le_top_of_level {size level : ℕ} (hl : level < buddyLevelCount)
    (hs : size ≤ 2 ^ (level + buddyFirstLevel)) : size ≤ 2 ^ 27 := by
  have hpow : 2 ^ (level + buddyFirstLevel) ≤ 2 ^ 27 := by
    apply Nat.pow_le_pow_right two_pos
    simp only [buddyLevelCount, buddyFirstLevel] at *
    omega
  exact hs.trans hpow

theorem RunOk.right_level {s : Run cpus} (h : RunOk 4 map s) (cpu : Fin cpus) (size : ℕ) :
    RightLevel map s cpu size ↔
      size ≤ 2 ^ 27 ∨ 2 ^ 27 < size % 2 ^ 32 ∨ NothingLeft s.phys size := by
  have hspec := fun before after => physAlloc_spec le_rfl (show 4 ≤ 12 by decide) cpu size before
    after (fun level _ => Nat.le_add_left 4 level) h.unlocked h.state
  constructor
  · rintro ⟨⟨ptr, nested, s', hret⟩, hright⟩
    by_cases hnone : ptr = none
    · exact Or.inr (Or.inr ((physAlloc_none_iff h.unlocked h.state hret).mp hnone))
    · obtain ⟨a, rfl⟩ := Option.ne_none_iff_exists'.mp hnone
      obtain ⟨level, hl, hsize, -⟩ := hright 0 0 a nested s' hret
      exact Or.inl (le_top_of_level hl hsize)
  · intro hcond
    constructor
    · rcases hspec 0 0 with ⟨hpos, -⟩ | ⟨ptr, ps, s', hret, -⟩
      · omega
      · exact ⟨ptr, ps, s', hret⟩
    · intro before after a nested s' hret
      have hsome : ¬ NothingLeft s.phys size := by
        intro hn
        have := (physAlloc_none_iff h.unlocked h.state hret).mpr hn
        cases this
      obtain ⟨level, hlev⟩ : ∃ level, getLevelBySize (size % 2 ^ 32) = some level := by
        by_contra hno
        exact hsome fun level hl => absurd ⟨level, hl⟩ hno
      -- a size above 128MB would have been refused by its low bits
      have hsize : size % 2 ^ 32 = size := by
        rcases hcond with hle | hgt | hn
        · exact Nat.mod_eq_of_lt (by omega)
        · rw [getLevelBySize_none.mpr hgt] at hlev
          cases hlev
        · exact absurd hn hsome
      rcases hspec before after with ⟨-, herr⟩ | ⟨ptr, ps, s₁, hret₁, hlock₁, hok₁⟩
      · rw [herr] at hret
        cases hret
      · rw [hret] at hret₁
        cases hret₁
        have hblocks : granted size (some a) = [(a, level)] := by
          rw [granted, hlev, Option.getD_some]
        rw [hblocks, ← liveBlocks_append] at hok₁
        refine ⟨level, (getLevelBySize_spec hlev).1, ?_, fun k hk => ?_, hok₁.tiles⟩
        · exact hsize ▸ (getLevelBySize_spec hlev).2.1
        · exact hsize ▸ getLevelBySize_least hlev hk

/-- In every run whose releases of blocks below the page size find their entry
describing them, a request gets the least level that holds it or nothing
exactly when it is at most 128MB, its low 32 bits are above 128MB, or there is
no block for its low 32 bits. -/
theorem rightLevel_iff (map : MemoryMap) (cpus : ℕ) :
    ∃ s₀, map.boot cpus = .ok s₀ ∧
      ∀ s, Reaches Run.step (fun s c => AnySize s c ∧ Described s c) s₀ s →
        ∀ (cpu : Fin cpus) (size : ℕ), size < 2 ^ 64 → (RightLevel map s cpu size ↔
          size ≤ 2 ^ 27 ∨ 2 ^ 27 < size % 2 ^ 32 ∨ NothingLeft s.phys size) := by
  obtain ⟨s₀, hboot, h₀⟩ := boot_spec map cpus
  refine ⟨s₀, hboot, fun s hs cpu size _ => ?_⟩
  exact ((h₀.mono (show 4 ≤ 12 by decide)).reaches_described hs).right_level cpu size

/-- A request of 4GB is served although no level holds it. -/
theorem request_of_4GB_served :
    ¬ ∀ (map : MemoryMap) (cpus : ℕ), ∃ s₀, map.boot cpus = .ok s₀ ∧
      ∀ s, Reaches Run.step (fun s c => AnySize s c ∧ Described s c) s₀ s →
        ∀ (cpu : Fin cpus) (size : ℕ), size < 2 ^ 64 → RightLevel map s cpu size := by
  intro h
  obtain ⟨s₀, hboot, hall⟩ := h onePage 1
  have hrun : (match onePage.boot 1 with
      | .ok s => match physAlloc 0 (2 ^ 32) 0 0 s.phys with
        | .ok (some _, _, _) => true
        | _ => false
      | .error _ => false) = true := by decide +kernel
  rw [hboot] at hrun
  simp only at hrun
  split at hrun
  · rename_i a nested s' hret
    obtain ⟨-, hright⟩ := hall s₀ (Reaches.refl s₀) 0 (2 ^ 32) (by decide)
    obtain ⟨level, hl, hsize, -⟩ := hright 0 0 a nested s' hret
    have := le_top_of_level hl hsize
    omega
  · cases hrun

end TomatOS.Phys
