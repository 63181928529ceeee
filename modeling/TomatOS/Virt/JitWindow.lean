import TomatOS.Virt.Permissions

/-! The addresses `tdn_host_jit_alloc` hands out, when `virt_alloc_range` maps a whole
range or nothing. The watermark moves up by whole pages and the check is on bytes, so
they agree up to the last page of the window; an allocation that reaches into that
page takes the watermark to zero. In runs without such an allocation every result is
mapped, lies in the window, and shares no page with another. -/

namespace TomatOS.Virt

open Foundation.Transition PageTables

/-- `tdn_host_jit_alloc` over any `virt_alloc_range`: the pointer, and the tables and
the watermark afterwards. -/
def jitAlloc {m : Type → Type} [Monad m] {T : Type}
    (virtAllocRange : T → ℕ → ℕ → m (Option Err × T)) (tables : T) (watermark size : ℕ) :
    m (Option ℕ × T × ℕ) :=
  if wordSize - 1 - watermark < size then pure (none, tables, watermark)
  else do
    let (err, tables) ← virtAllocRange tables watermark (sizeToPages size)
    match err with
    | some _ => return (none, tables, watermark)
    | none => return (some watermark, tables, (watermark + pageAlignUp size) % wordSize)

/-- Over the page tables it is the kernel's own. -/
theorem Kernel.tdnHostJitAlloc_eq (k : Kernel) (size : ℕ) :
    k.tdnHostJitAlloc size =
      (jitAlloc PageTables.virtAllocRange k.tables k.jitWatermark size).map
        fun r => (r.1, ⟨r.2.1, r.2.2⟩) := by
  rw [Kernel.tdnHostJitAlloc, jitAlloc]
  split_ifs
  · rfl
  · rcases hr : k.tables.virtAllocRange k.jitWatermark (sizeToPages size) with
      f | ⟨_ | err, tables⟩ <;> simp only [hr] <;> rfl

/-! ### Whole ranges -/

/-- The numbers of the pages of a range. -/
def rangePages (virt count : ℕ) : Set ℕ := {p | ∃ i < count, p = pageAt virt i / pageSize}

/-- A `virt_alloc_range` that maps the whole range or nothing. -/
def allocWhole (succeeds : Bool) (mapped : Set ℕ) (virt count : ℕ) : Id (Option Err × Set ℕ) :=
  if succeeds then (none, mapped ∪ rangePages virt count) else (some .outOfMemory, mapped)

/-- The pages mapped, the watermark, and the pointers returned with their sizes. -/
structure Jit where
  mapped : Set ℕ
  watermark : ℕ
  results : List (ℕ × ℕ)

/-- A call, and what `virt_alloc_range` does if it gets there. -/
structure JitCall where
  size : ℕ
  succeeds : Bool
  deriving DecidableEq, Repr

namespace Jit

def start : Jit := ⟨∅, jitAddr, []⟩

def call (s : Jit) (c : JitCall) : Option ℕ × Jit :=
  let (ptr, mapped, watermark) := jitAlloc (allocWhole c.succeeds) s.mapped s.watermark c.size
  (ptr, ⟨mapped, watermark, (ptr.map fun p => (p, c.size)).toList ++ s.results⟩)

def step (s : Jit) (c : JitCall) : Except Empty Jit := .ok (s.call c).2

/-- The call is let through, is not refused, and its memory reaches into the last page
of the address space. -/
def TakesLastPage (s : Jit) (c : JitCall) : Prop :=
  c.succeeds = true ∧ c.size ≤ wordSize - 1 - s.watermark ∧
    wordSize - pageSize < s.watermark + c.size

/-- The bytes of two results are on different pages. -/
def Separate (r r' : ℕ × ℕ) : Prop :=
  ∀ b b', r.1 ≤ b → b < r.1 + r.2 → r'.1 ≤ b' → b' < r'.1 + r'.2 → ¬ SamePage b b'

/-- What a result promises: a page-aligned address whose range is in the window and mapped. -/
structure Good (s : Jit) (r : ℕ × ℕ) : Prop where
  nonnull : r.1 ≠ 0
  aligned : r.1 % pageSize = 0
  low : jitAddr ≤ r.1
  high : r.1 + r.2 ≤ wordSize
  mapped : ∀ b, r.1 ≤ b → b < r.1 + r.2 → b / pageSize ∈ s.mapped

/-- What the allocator promises in a state, and for a further call there. -/
structure Correct (s : Jit) : Prop where
  good : ∀ r ∈ s.results, s.Good r
  separate : s.results.Pairwise Separate
  failed : ∀ c, (s.call c).1 = none → (s.call c).2 = s
  watermark_low : jitAddr ≤ s.watermark
  watermark_high : s.watermark < wordSize

/-! ### One call -/

variable {s : Jit} {c : JitCall}

theorem call_cases (s : Jit) (c : JitCall) :
    (s.call c = (none, s) ∧ (c.succeeds = false ∨ wordSize - 1 - s.watermark < c.size)) ∨
    (c.succeeds = true ∧ c.size ≤ wordSize - 1 - s.watermark ∧
      s.call c = (some s.watermark,
        ⟨s.mapped ∪ rangePages s.watermark (sizeToPages c.size),
          (s.watermark + pageAlignUp c.size) % wordSize, (s.watermark, c.size) :: s.results⟩)) := by
  rw [call, jitAlloc]
  split_ifs with hfull
  · exact .inl ⟨rfl, .inr hfull⟩
  · rcases hs : c.succeeds with _ | _
    · exact .inl ⟨rfl, .inl rfl⟩
    · exact .inr ⟨rfl, not_lt.mp hfull, rfl⟩

theorem call_failed (h : (s.call c).1 = none) : (s.call c).2 = s := by
  rcases call_cases s c with ⟨hcall, -⟩ | ⟨-, -, hcall⟩
  · rw [hcall]
  · rw [hcall] at h
    cases h

/-- A page of the range for each page begun. -/
theorem lt_sizeToPages {size k : ℕ} (h : k < size) : k / pageSize < sizeToPages size := by
  rw [sizeToPages, Nat.shiftRight_eq_div_pow]
  by_cases hrest : size % pageSize = 0
  · rw [if_neg (not_not.mpr hrest)]
    simp only [pageSize] at *
    omega
  · rw [if_pos hrest]
    simp only [pageSize] at *
    omega

theorem pageAlignUp_eq (size : ℕ) (h : size + pageSize ≤ wordSize) :
    size ≤ pageAlignUp size ∧ pageAlignUp size < size + pageSize ∧
      pageAlignUp size % pageSize = 0 := by
  rw [pageAlignUp, alignDown, Nat.mod_eq_of_lt (by simp only [pageSize] at *; omega)]
  simp only [pageSize] at *
  omega

/-- The invariant: the watermark is in the window, and every result below it. -/
structure Inv (s : Jit) : Prop where
  low : jitAddr ≤ s.watermark
  high : s.watermark < wordSize
  aligned : s.watermark % pageSize = 0
  below : ∀ r ∈ s.results, r.1 + pageAlignUp r.2 ≤ s.watermark ∧ r.2 ≤ pageAlignUp r.2
  good : ∀ r ∈ s.results, s.Good r
  separate : s.results.Pairwise Separate

theorem Inv.correct (h : s.Inv) : s.Correct :=
  ⟨h.good, h.separate, fun _ => call_failed, h.low, h.high⟩

theorem inv_start : start.Inv := by
  constructor
  case low => exact le_rfl
  case high => decide
  case aligned => decide
  case below =>
    intro r hr
    cases hr
  case good =>
    intro r hr
    cases hr
  case separate => exact List.Pairwise.nil

theorem mem_rangePages {virt size b : ℕ} (halign : virt % pageSize = 0) (hend : virt + size ≤ wordSize)
    (hlow : virt ≤ b) (hhigh : b < virt + size) :
    b / pageSize ∈ rangePages virt (sizeToPages size) := by
  have hdiff : (b - virt) / pageSize * pageSize ≤ b - virt := Nat.div_mul_le_self _ _
  refine ⟨(b - virt) / pageSize, lt_sizeToPages (by omega), ?_⟩
  rw [pageAt, Nat.mod_eq_of_lt (by omega)]
  simp only [pageSize] at *
  omega

/-- A call that is let through and stays off the last page moves the watermark up. -/
theorem watermark_step (h : s.Inv) (hlast : s.watermark + c.size ≤ wordSize - pageSize) :
    (s.watermark + pageAlignUp c.size) % wordSize = s.watermark + pageAlignUp c.size ∧
      s.watermark + pageAlignUp c.size < wordSize := by
  have hlow := h.low
  have halign := h.aligned
  obtain ⟨-, hup, hmod⟩ := pageAlignUp_eq c.size
    (by simp only [pageSize, wordSize, jitAddr] at *; omega)
  have hlt : s.watermark + pageAlignUp c.size < wordSize := by
    simp only [pageSize, wordSize] at *
    omega
  exact ⟨Nat.mod_eq_of_lt hlt, hlt⟩

theorem Good.mono {t : Jit} {r : ℕ × ℕ} (h : s.Good r) (hsub : s.mapped ⊆ t.mapped) : t.Good r :=
  { h with mapped := fun b hlow hhigh => hsub (h.mapped b hlow hhigh) }

theorem Inv.call (h : s.Inv) (hlast : ¬ s.TakesLastPage c) : (s.call c).2.Inv := by
  rcases call_cases s c with ⟨hcall, -⟩ | ⟨hok, hsize, hcall⟩
  · rw [hcall]
    exact h
  rw [hcall]
  have hroom : s.watermark + c.size ≤ wordSize - pageSize := by
    by_contra hin
    exact hlast ⟨hok, hsize, not_le.mp hin⟩
  have hlow := h.low
  have halign := h.aligned
  obtain ⟨hw, hlt⟩ := watermark_step h hroom
  obtain ⟨hle, -, hmod⟩ := pageAlignUp_eq c.size
    (by simp only [pageSize, wordSize, jitAddr] at *; omega)
  have hend : s.watermark + c.size ≤ wordSize := by omega
  have hnew : Good ⟨s.mapped ∪ rangePages s.watermark (sizeToPages c.size),
      s.watermark + pageAlignUp c.size, (s.watermark, c.size) :: s.results⟩
      (s.watermark, c.size) :=
    ⟨by simp only [jitAddr] at hlow; omega, halign, hlow, hend,
      fun b hb hb' => .inr (mem_rangePages halign hend hb hb')⟩
  have hold : ∀ r ∈ s.results, Good ⟨s.mapped ∪ rangePages s.watermark (sizeToPages c.size),
      s.watermark + pageAlignUp c.size, (s.watermark, c.size) :: s.results⟩ r :=
    fun r hr => (h.good r hr).mono Set.subset_union_left
  rw [hw]
  constructor
  case low =>
    dsimp only
    omega
  case high => exact hlt
  case aligned =>
    simp only [pageSize] at *
    omega
  case below =>
    intro r hr
    rcases List.mem_cons.mp hr with rfl | hr
    · exact ⟨le_rfl, hle⟩
    · have := h.below r hr
      dsimp only
      omega
  case good =>
    intro r hr
    rcases List.mem_cons.mp hr with rfl | hr
    · exact hnew
    · exact hold r hr
  case separate =>
    refine List.pairwise_cons.mpr ⟨?_, h.separate⟩
    -- an earlier result ends on a page below the watermark
    intro r hr b b' hb _ _ hb' hsame
    have hbelow := h.below r hr
    simp only [SamePage, pageSize] at *
    omega

end Jit

/-! ### Runs -/

/-- In every run in which no allocation takes the last page of the address space, with
any sizes and any failures, the allocator is correct in every state reached; and a
further call moves the watermark down exactly if it takes that page. -/
theorem jit_window {s : Jit}
    (hrun : Reaches Jit.step (fun s c => c.size < wordSize ∧ ¬ s.TakesLastPage c) Jit.start s) :
    s.Correct ∧ ∀ c, c.size < wordSize →
      ((s.call c).2.watermark < s.watermark ↔ s.TakesLastPage c) := by
  have hinv : s.Inv := by
    apply hrun.invariant (motive := Jit.Inv) Jit.inv_start
    intro s c t hs hc ht
    cases ht
    exact hs.call hc.2
  refine ⟨hinv.correct, fun c _ => ?_⟩
  rcases Jit.call_cases s c with ⟨hcall, hno⟩ | ⟨hok, hsize, hcall⟩
  · rw [hcall]
    constructor
    · intro hlt
      exact absurd hlt (lt_irrefl _)
    · intro ⟨hok, hsize, _⟩
      rcases hno with hno | hno
      · rw [hok] at hno
        cases hno
      · omega
  · rw [hcall]
    have hlow := hinv.low
    have halign := hinv.aligned
    obtain ⟨hle, hup, hmod⟩ := Jit.pageAlignUp_eq c.size
      (by simp only [pageSize, wordSize, jitAddr] at *; omega)
    constructor
    · intro hlt
      refine ⟨hok, hsize, not_le.mp fun hroom => ?_⟩
      have := Jit.watermark_step hinv hroom
      dsimp only at hlt
      omega
    · intro ⟨_, _, hlast⟩
      have hhigh := hinv.high
      have hwrap : s.watermark + pageAlignUp c.size = wordSize := by
        simp only [pageSize, wordSize] at *
        omega
      dsimp only
      rw [hwrap, Nat.mod_self]
      simp only [jitAddr] at hlow
      omega

theorem jit_window_two : ((Jit.start.call ⟨0x800, true⟩).2.call ⟨0x800, true⟩).2.Correct := by
  have h0 : Reaches Jit.step (fun s c => c.size < wordSize ∧ ¬ s.TakesLastPage c) Jit.start
      Jit.start := Reaches.refl _
  have h1 := h0.snoc ⟨0x800, true⟩ ⟨by decide, fun h => absurd h.2.2 (by decide)⟩ rfl
  have h2 := h1.snoc ⟨0x800, true⟩ ⟨by decide, fun h => absurd h.2.2 (by decide)⟩ rfl
  exact (jit_window h2).1

/-- An allocation of the whole window but one byte takes the watermark to zero. -/
theorem jit_watermark_wraps :
    ¬ ∀ s, Reaches Jit.step (fun _ c => c.size < wordSize) Jit.start s → s.Correct := by
  intro hall
  have hrun : Reaches Jit.step (fun _ c => c.size < wordSize) Jit.start
      ((Jit.start.call ⟨0x6FFFFFFF, true⟩).2) :=
    (Reaches.refl Jit.start).snoc ⟨0x6FFFFFFF, true⟩ (by decide) rfl
  exact absurd (hall _ hrun).watermark_low (by decide)

end TomatOS.Virt
