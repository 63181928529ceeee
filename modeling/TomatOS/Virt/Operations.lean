import Mathlib.Data.Set.Insert
import TomatOS.Virt.Tables

/-! What each function of `kernel/mem/virt.c` may change. Every one of them keeps the
shape of the tables, whether it succeeds or not, and changes page entries of the
addresses it is called with at most. Initialisation builds the shape, so it holds in
every state that a run of calls leads to. -/

namespace TomatOS.Virt

open Foundation Foundation.PageTree Foundation.Transition

namespace PageTables

variable {k : ℕ} {s s' : PageTables} {A : Set ℕ}

/-! ### Single pages -/

theorem physAlloc_returns (h : s.Sound k) :
    Returns s.physAlloc fun phys s' => Extends k s s' ∧
      ∀ page, phys = some page → page < frameSize ∧ page ∉ s'.tables := by
  refine s.physAlloc_allocated.mono ?_
  rintro _ _ (⟨answers⟩ | ⟨page, answers, hp, ht, -⟩)
  · exact ⟨h.withAnswers answers, fun page hp => by cases hp⟩
  · refine ⟨h.withPage page answers, fun page' hpage => ?_⟩
    cases hpage
    exact ⟨hp, ht⟩

theorem getPml1_returns (h : s.Sound k) (hk : k ≤ 32) (virt : ℕ) :
    Returns (s.getPml1 virt) fun pml1 s' => Extends k s s' ∧
      ∀ t, pml1 = some t → s'.resolve (path virt) = some t := by
  rcases getPml1_spec h hk virt with ⟨hf, -⟩ | ⟨pml1, s', hf, hs', ht⟩
  · rw [hf]
    exact .error _
  · rw [hf]
    exact .ok ⟨hs', ht⟩

/-- The effect of `virt_map_page`: the one page entry, or nothing. -/
theorem virtMapPage_returns (h : s.Sound k) (hk : k ≤ 32) (phys virt : ℕ) (flags : MapFlags) :
    Returns (s.virtMapPage phys virt flags) fun err s' =>
      (err = none ∧ Writes k virt (leafEntry phys flags) s s') ∨
        (err = some .outOfMemory ∧ Extends k s s') := by
  refine (getPml1_returns h hk virt).bind fun pml1 s₁ ⟨h₁, ht⟩ => ?_
  rcases pml1 with _ | pml1
  · exact .ok (Or.inr ⟨rfl, h₁⟩)
  · exact .ok (Or.inl ⟨rfl, h₁.trans_writes (h₁.sound.setEntry (ht pml1 rfl) _)⟩)

theorem virtMapPage_within (h : s.Sound k) (hk : k ≤ 32) (phys : ℕ) {virt : ℕ} (hv : virt ∈ A)
    (flags : MapFlags) : Returns (s.virtMapPage phys virt flags) fun _ s' => Within k A s s' := by
  refine (virtMapPage_returns h hk phys virt flags).mono fun err s' hs' => ?_
  rcases hs' with ⟨-, hw⟩ | ⟨-, he⟩
  · exact hw.within hv
  · exact he.within

/-- `phys_alloc` answers at most three times. -/
theorem virtMapPage_answered (h : s.Sound k) (hk : k ≤ 32) (phys virt : ℕ) (flags : MapFlags)
    (ha : 3 ≤ s.answers.length) : ∃ err s', s.virtMapPage phys virt flags = .ok (err, s') := by
  rw [virtMapPage]
  rcases getPml1_spec h hk virt with ⟨-, hlt⟩ | ⟨pml1, s₁, hf, -⟩
  · omega
  · simp only [hf, bind, Except.bind, pure, Except.pure]
    rcases pml1 with _ | pml1
    · exact ⟨some .outOfMemory, s₁, rfl⟩
    · exact ⟨none, s₁.setEntry pml1 (pml1Index virt) (leafEntry phys flags), rfl⟩

theorem virtIsMapped_returns (h : s.Sound k) (hk : k ≤ 32) (virt : ℕ) :
    Returns (s.virtIsMapped virt) fun _ s' => Extends k s s' := by
  refine (getPml1_returns h hk virt).bind fun pml1 s₁ ⟨h₁, _⟩ => ?_
  rcases pml1 with _ | pml1
  · exact .ok h₁
  · exact .ok h₁

/-! ### Ranges -/

/-- The pages of a range. -/
def pagesOf (virt n : ℕ) : Set ℕ := { v | ∃ i < n, v = pageAt virt i }

theorem mapPages_within (h : s.Sound k) (hk : k ≤ 32) {phys virt : ℕ} {flags : MapFlags}
    {count n i : ℕ} (hi : i + n ≤ count) :
    Returns (mapPages phys virt flags n i s) fun _ s' => Within k (pagesOf virt count) s s' := by
  induction n generalizing i s with
  | zero => exact .ok (Extends.refl h).within
  | succ n ih =>
    have hv : pageAt virt i ∈ pagesOf virt count := ⟨i, by omega, rfl⟩
    refine (virtMapPage_within h hk _ hv flags).bind fun err s₁ h₁ => ?_
    rcases err with _ | err
    · exact h₁.andThen fun hs₁ => ih hs₁ (by omega)
    · exact .ok h₁

theorem virtMapRange_within (h : s.Sound k) (hk : k ≤ 32) (phys virt pageCount : ℕ)
    (flags : MapFlags) : Returns (s.virtMapRange phys virt pageCount flags) fun _ s' =>
      Within k (pagesOf virt pageCount) s s' :=
  mapPages_within h hk (by omega)

theorem remapPages_within (h : s.Sound k) (hk : k ≤ 32) {virt : ℕ} {flags : MapFlags}
    {count n i : ℕ} (hi : i + n ≤ count) :
    Returns (remapPages virt flags n i s) fun _ s' => Within k (pagesOf virt count) s s' := by
  induction n generalizing i s with
  | zero => exact .ok (Extends.refl h).within
  | succ n ih =>
    have hv : pageAt virt i ∈ pagesOf virt count := ⟨i, by omega, rfl⟩
    refine (getPml1_returns h hk (pageAt virt i)).bind fun pml1 s₁ ⟨h₁, ht⟩ => ?_
    rcases pml1 with _ | pml1
    · exact .ok h₁.within
    dsimp only
    split
    · exact (h₁.setEntry_within (ht pml1 rfl) hv _).andThen fun hs₂ => ih hs₂ (by omega)
    · exact .ok h₁.within

theorem virtRemapRange_within (h : s.Sound k) (hk : k ≤ 32) (virt pageCount : ℕ)
    (flags : MapFlags) : Returns (s.virtRemapRange virt pageCount flags) fun _ s' =>
      Within k (pagesOf virt pageCount) s s' :=
  remapPages_within h hk (by omega)

/-- The page an error is met at is one of the range. -/
theorem allocPages_within (h : s.Sound k) (hk : k ≤ 32) (virt : ℕ) {count n i : ℕ}
    (hi : i + n ≤ count) :
    Returns (allocPages virt n i s) fun failed s' =>
      Within k (pagesOf virt count) s s' ∧ ∀ err j, failed = some (err, j) → j < count := by
  induction n generalizing i s with
  | zero => exact .ok ⟨(Extends.refl h).within, fun _ _ hf => by cases hf⟩
  | succ n ih =>
    have hv : pageAt virt i ∈ pagesOf virt count := ⟨i, by omega, rfl⟩
    have hfailed : ∀ (e err : Err) j, some (e, i) = some (err, j) → j < count := by
      intro e err j hf
      cases hf
      omega
    refine (physAlloc_returns h).bind fun phys s₁ ⟨h₁, _⟩ => ?_
    rcases phys with _ | page
    · exact .ok ⟨h₁.within, hfailed _⟩
    refine (getPml1_returns h₁.sound hk (pageAt virt i)).bind fun pml1 s₂ ⟨h₂, ht⟩ => ?_
    rcases pml1 with _ | pml1
    · exact .ok ⟨(h₁.trans h₂).within, hfailed _⟩
    dsimp only
    split
    · exact .ok ⟨(h₁.trans h₂).within, hfailed _⟩
    · have hw := (h₁.trans h₂).setEntry_within (ht pml1 rfl) hv ⟨true, true, true, page % frameSize⟩
      exact (ih hw.sound (by omega)).mono fun _ _ h₃ => ⟨hw.trans h₃.1, h₃.2⟩

theorem cleanupPass_within (h : s.Sound k) (hk : k ≤ 32) {virt i : ℕ} (hv : pageAt virt i ∈ A)
    (n : ℕ) : Returns (cleanupPass virt i n s) fun _ s' => Within k A s s' := by
  induction n generalizing s with
  | zero => exact .ok (Extends.refl h).within
  | succ n ih =>
    refine (getPml1_returns h hk (pageAt virt i)).bind fun pml1 s₁ ⟨h₁, ht⟩ => ?_
    rcases pml1 with _ | pml1
    · exact .ok h₁.within
    dsimp only
    split
    · have hfree : Extends k s₁ (s₁.physFree (s₁.mem pml1 (pml1Index (pageAt virt i))).frame) :=
        h₁.sound.extends_of_eq rfl rfl rfl
      exact ((h₁.trans hfree).setEntry_within (ht pml1 rfl) hv .zero).andThen fun hs₂ => ih hs₂
    · exact .error _

theorem cleanup_within (h : s.Sound k) (hk : k ≤ 32) {virt i : ℕ} (hv : pageAt virt i ∈ A)
    (passes : ℕ) (err : Err) :
    Returns (cleanup virt i passes s err) fun _ s' => Within k A s s' := by
  induction passes generalizing s err with
  | zero => exact .error _
  | succ passes ih =>
    refine (cleanupPass_within h hk hv i).bind fun again s₁ h₁ => ?_
    rcases again with _ | err'
    · exact .ok h₁
    · exact h₁.andThen fun hs₁ => ih hs₁ err'

theorem virtAllocRange_within (h : s.Sound k) (hk : k ≤ 32) (virt pageCount : ℕ) :
    Returns (s.virtAllocRange virt pageCount) fun _ s' =>
      Within k (pagesOf virt pageCount) s s' := by
  have halloc := allocPages_within h hk virt (le_of_eq (Nat.zero_add pageCount))
  refine halloc.bind fun failed s₁ ⟨h₁, hi⟩ => ?_
  rcases failed with _ | ⟨err, i⟩
  · exact .ok h₁
  · have hv : pageAt virt i ∈ pagesOf virt pageCount := ⟨i, hi err i rfl, rfl⟩
    exact (cleanup_within h₁.sound hk hv _ err).bind fun err' s₂ h₂ => .ok (h₁.trans h₂)

/-! ### Page faults -/

theorem clearPage_mem {page : ℕ} (hpage : page ∉ s.tables) {t : ℕ} (ht : t ∈ s.tables) :
    (s.clearPage page).mem t = s.mem t := by
  have hne : t ≠ page := by
    rintro rfl
    exact hpage ht
  exact Function.update_of_ne hne _ _

theorem Sound.resolve_clearPage (h : s.Sound k) {page : ℕ} (hpage : page ∉ s.tables)
    {p : List ℕ} (hp : p.length ≤ 3) : (s.clearPage page).resolve p = s.resolve p :=
  h.linked.resolve_unused (fun _ => clearPage_mem hpage) hp

theorem Sound.clearPage (h : s.Sound k) {page : ℕ} (hpage : page ∉ s.tables) :
    Extends k s (s.clearPage page) := by
  have hmem : ∀ t, t ∈ s.tables → (s.clearPage page).mem t = s.mem t :=
    fun _ => clearPage_mem hpage
  refine ⟨⟨h.linked.of_unused hmem, fun slot h1 h2 => ?_⟩, fun p t hp ht => ?_, fun p i hp => ?_⟩
  · rw [h.resolve_clearPage hpage (by simp)]
    exact h.top slot h1 h2
  · rw [h.resolve_clearPage hpage hp, ht]
  · exact h.linked.leaf_unused hmem (le_of_eq hp) i

theorem virtHandlePageFault_within (h : s.Sound k) (hk : k ≤ 32) (addr : ℕ) :
    Returns (s.virtHandlePageFault addr) fun _ s' =>
      Within k {alignDown addr pageSize} s s' := by
  rw [virtHandlePageFault]
  cases faultAction addr with
  | overflow => exact .ok (Extends.refl h).within
  | unknown => exact .ok (Extends.refl h).within
  | direct =>
    exact (virtMapPage_within h hk _ (Set.mem_singleton _) _).bind fun _ _ h₁ => .ok h₁
  | allocate =>
    refine (physAlloc_returns h).bind fun phys s₁ ⟨h₁, hpage⟩ => ?_
    rcases phys with _ | page
    · exact .ok h₁.within
    · have hclear := h₁.trans (h₁.sound.clearPage (hpage page rfl).2)
      exact (virtMapPage_within hclear.sound hk _ (Set.mem_singleton _) _).bind
        fun _ _ h₂ => .ok (hclear.within.trans h₂)

/-! ### Initialisation -/

theorem mapSegments_sound (h : s.Sound k) (hk : k ≤ 32) (b : Boot) (phdrs : List Phdr) :
    Returns (mapSegments b phdrs s) fun _ s' => s'.Sound k := by
  induction phdrs generalizing s with
  | nil => exact .ok h
  | cons ph phdrs ih =>
    rw [mapSegments]
    split
    · split
      · exact .ok h
      · refine (virtMapRange_within h hk _ _ _ _).bind fun err s₁ h₁ => ?_
        rcases err with _ | err
        · exact ih h₁.sound
        · exact .ok h₁.sound
    · exact ih h

theorem shadowOf_zero : shadowOf 0 = id := by
  funext slot
  rw [shadowOf, if_neg (by omega)]
  rfl

theorem shadowOf_succ (i : ℕ) :
    Function.update (shadowOf i) (288 + i) (256 + i) = shadowOf (i + 1) := by
  funext slot
  by_cases hs : slot = 288 + i
  · rw [hs, Function.update_self, shadowOf, if_pos (by omega)]
    omega
  · rw [Function.update_of_ne hs, shadowOf, shadowOf]
    exact if_congr (by omega) rfl rfl

/-- A cleared root. -/
theorem sound_root (mem : ℕ → ℕ → Entry) (root : ℕ) (pages : List ℕ)
    (answers : List (Option ℕ)) :
    Sound 0 ⟨Function.update mem root fun _ => .zero, root, [root], pages, answers⟩ := by
  have hz : Entry.zero.link = none := rfl
  refine ⟨?_, fun slot h1 h2 => by omega⟩
  rw [shadowOf_zero]
  exact linked_root hz (fun i => by simp) (by simp)

theorem ShareAt.of_sound {i : ℕ} (h : s.Sound i) (hi : i < 32) {e : Entry}
    (he : e.link = (s.mem s.cr3 (256 + i)).link) :
    ShareAt 3 Entry.link (shadowOf i) (· ∈ s.tables) s.mem s.cr3 (256 + i) (288 + i) e := by
  refine ⟨h.linked, by omega, fun j => ?_, fun j => ?_, he⟩
  · rw [shadowOf]
    split_ifs <;> omega
  · rw [shadowOf]
    split_ifs <;> omega

/-- Copying the slot `256 + i` of the root to its shadow. -/
theorem Sound.shareSlot {i : ℕ} (h : s.Sound i) (hi : i < 32)
    (hpres : s.resolve [256 + i] ≠ none) {e : Entry}
    (he : e.link = (s.mem s.cr3 (256 + i)).link) :
    (s.setEntry s.cr3 (288 + i) e).Sound (i + 1) := by
  have hat := ShareAt.of_sound h hi he
  refine ⟨?_, fun slot h1 h2 => ?_⟩
  · rw [← shadowOf_succ]
    exact hat.linked_share
  · have hsame := hat.resolve_share (q := [slot]) (by simp)
    rw [through, if_neg (by omega)] at hsame
    rw [resolve, PageTables.setEntry, hsame]
    by_cases hslot : slot = 256 + i
    · rw [hslot]
      exact hpres
    · exact h.top slot h1 (by omega)

/-- The first half of a round of the shadow loop: the table of slot `256 + i` is there,
and no other slot of the root has changed. -/
structure Filled (i : ℕ) (s t : PageTables) : Prop where
  ext : Extends i s t
  there : t.resolve [256 + i] ≠ none
  rest : ∀ slot, slot ≠ 256 + i → t.mem t.cr3 slot = s.mem s.cr3 slot
  new : (s.mem s.cr3 (256 + i)).present = false →
    ∃ frame, t.mem t.cr3 (256 + i) = ⟨true, true, true, frame⟩

/-- The second half: the slot is copied. -/
def shadowCopy (i : ℕ) (t : PageTables) : PageTables :=
  t.setEntry t.cr3 (288 + i) { t.mem t.cr3 (256 + i) with
    writeable := (t.mem t.cr3 (256 + i)).writeable && !inGcHeap (directMapOffset + i * size512GB) }

theorem filled_of_present {i : ℕ} (h : s.Sound i)
    (hpres : (s.mem s.cr3 (256 + i)).present = true) : Filled i s s := by
  refine ⟨.refl h, ?_, fun _ _ => rfl, fun hn => ?_⟩
  · rw [resolve, resolve_cons, Entry.link, if_pos hpres]
    simp
  · rw [hpres] at hn
    cases hn

theorem filled_of_alloc {i : ℕ} (h : s.Sound i) (hi : i < 32) {page : ℕ} {answers : List (Option ℕ)}
    (hfree : (s.mem s.cr3 (256 + i)).present = false) (hpage : page < frameSize)
    (hunused : page ∉ s.tables) :
    Filled i s (PageTables.linkTable { s with answers := answers, pages := page :: s.pages } page
      s.cr3 (256 + i) ⟨true, true, true, page % frameSize⟩) := by
  have hext := h.withPage page answers
  obtain ⟨hlink, hnew⟩ := hext.sound.linkTable (by omega) (p := []) (by simp) rfl hfree hpage hunused
    (e := ⟨true, true, true, page % frameSize⟩) rfl rfl
  have hne : page ≠ s.cr3 := by
    rintro rfl
    exact hunused (h.linked.used [] _ (Nat.zero_le 3) rfl)
  have hroot : ∀ slot, PageTree.linkNew s.mem .zero page s.cr3 (256 + i)
      ⟨true, true, true, page % frameSize⟩ s.cr3 slot =
      if slot = 256 + i then ⟨true, true, true, page % frameSize⟩ else s.mem s.cr3 slot := by
    intro slot
    rw [linkNew_apply hne, if_neg hne.symm]
    simp only [true_and]
  refine ⟨hext.trans hlink, ?_, fun slot hslot => ?_, fun _ => ⟨page % frameSize, ?_⟩⟩
  · rw [List.nil_append] at hnew
    rw [hnew]
    simp
  · exact (hroot slot).trans (if_neg hslot)
  · exact (hroot (256 + i)).trans (if_pos rfl)

/-- A round of the shadow loop. -/
theorem shadowRound_returns {i : ℕ} (h : s.Sound i) (hi : i < 32) :
    Returns (s.shadowRound i) fun err s' =>
      (err = none ∧ ∃ t, Filled i s t ∧ s' = shadowCopy i t) ∨
        (err = some .outOfMemory ∧ Extends i s s') := by
  have hslot : pml4Index (directMapOffset + i * size512GB) = 256 + i := by
    simp only [pml4Index, directMapOffset, size512GB, Nat.shiftRight_eq_div_pow]
    omega
  have hshadow : pml4Index (directMapOffset + i * size512GB + size16TB) = 288 + i := by
    simp only [pml4Index, directMapOffset, size512GB, size16TB, Nat.shiftRight_eq_div_pow]
    omega
  rw [shadowRound]
  simp only [hslot, hshadow]
  split
  · rename_i hpres
    exact .ok (.inl ⟨rfl, s, filled_of_present h hpres, rfl⟩)
  · rename_i hfree
    rw [Bool.not_eq_true] at hfree
    refine s.physAlloc_allocated.bind ?_
    rintro _ _ (⟨answers⟩ | ⟨page, answers, hp, ht, -⟩)
    · exact .ok (.inr ⟨rfl, h.extends_of_eq rfl rfl rfl⟩)
    · exact .ok (.inl ⟨rfl, _, filled_of_alloc h hi hfree hp ht, rfl⟩)

theorem Filled.copy_sound {i : ℕ} {t : PageTables} (h : Filled i s t) (hi : i < 32) :
    (shadowCopy i t).Sound (i + 1) :=
  h.ext.sound.shareSlot hi h.there rfl

theorem shadowRounds_sound {n i : ℕ} (h : s.Sound i) (hi : i + n ≤ 32) :
    Returns (shadowRounds n i s) fun err s' => err = none → s'.Sound (i + n) := by
  induction n generalizing i s with
  | zero => exact .ok fun _ => h
  | succ n ih =>
    refine (shadowRound_returns h (by omega)).bind ?_
    rintro err s₁ (⟨rfl, t, hfilled, rfl⟩ | ⟨rfl, -⟩)
    · have hrest := ih (hfilled.copy_sound (by omega)) (by omega)
      rwa [show i + (n + 1) = i + 1 + n by omega]
    · exact .ok fun hn => by cases hn

/-- Initialisation leaves all 32 slots shared. -/
theorem initVirt_sound (b : Boot) (answers : List (Option ℕ)) :
    Returns (initVirt b answers) fun err s => err = none → s.Sound 32 := by
  refine (physAlloc_allocated ⟨b.mem, 0, [], [], answers⟩).bind ?_
  rintro _ _ (⟨answers'⟩ | ⟨root, answers', -⟩)
  · exact .ok fun hn => by cases hn
  · refine (mapSegments_sound (sound_root b.mem root [] answers') (by omega) b b.phdrs).bind
      fun err s₁ h₁ => ?_
    rcases err with _ | err
    · exact shadowRounds_sound h₁ (le_of_eq (by decide : 0 + shadowSlots = 32))
    · exact .ok fun hn => by cases hn

end PageTables

/-! ### Runs -/

inductive Call where
  | mapPage (phys virt : ℕ) (flags : MapFlags)
  | mapRange (phys virt pageCount : ℕ) (flags : MapFlags)
  | allocRange (virt pageCount : ℕ)
  | remapRange (virt pageCount : ℕ) (flags : MapFlags)
  | isMapped (virt : ℕ)
  | pageFault (addr : ℕ)
  deriving DecidableEq, Repr

namespace Call

/-- The state a call leaves behind, whatever it returns. -/
def run (s : PageTables) : Call → Result PageTables
  | mapPage phys virt flags => Prod.snd <$> s.virtMapPage phys virt flags
  | mapRange phys virt pageCount flags => Prod.snd <$> s.virtMapRange phys virt pageCount flags
  | allocRange virt pageCount => Prod.snd <$> s.virtAllocRange virt pageCount
  | remapRange virt pageCount flags => Prod.snd <$> s.virtRemapRange virt pageCount flags
  | isMapped virt => Prod.snd <$> s.virtIsMapped virt
  | pageFault addr => Prod.snd <$> s.virtHandlePageFault addr

/-- The pages whose entries a call may write. -/
def pages : Call → Set ℕ
  | mapPage _ virt _ => {virt}
  | mapRange _ virt pageCount _ => PageTables.pagesOf virt pageCount
  | allocRange virt pageCount => PageTables.pagesOf virt pageCount
  | remapRange virt pageCount _ => PageTables.pagesOf virt pageCount
  | isMapped _ => ∅
  | pageFault addr => {alignDown addr pageSize}

end Call

/-- A call together with the answers `phys_alloc` gives during it. -/
def step (s : PageTables) (c : Call × List (Option ℕ)) : Result PageTables :=
  c.1.run { s with answers := c.2 }

/-- States after a successful initialisation and any calls. -/
def Reachable (s : PageTables) : Prop :=
  ∃ b answers s₀, PageTables.initVirt b answers = .ok (none, s₀) ∧
    Reaches step (fun _ _ => True) s₀ s

namespace PageTables

variable {s s' : PageTables}

/-- What a function keeps, the state it leaves behind keeps. -/
theorem within_of_snd {k : ℕ} {A : Set ℕ} {β : Type} {r : Result (β × PageTables)}
    (h : Returns r fun _ s' => Within k A s s') (hr : Prod.snd <$> r = .ok s') :
    Within k A s s' := by
  rcases r with f | ⟨x, t⟩
  · cases hr
  · cases hr
    exact h x t rfl

theorem call_within (h : s.Sound 32) (c : Call) (hc : c.run s = .ok s') :
    Within 32 c.pages s s' := by
  cases c with
  | mapPage phys virt flags =>
    exact within_of_snd (virtMapPage_within h (by omega) phys (Set.mem_singleton virt) flags) hc
  | mapRange phys virt pageCount flags =>
    exact within_of_snd (virtMapRange_within h (by omega) phys virt pageCount flags) hc
  | allocRange virt pageCount =>
    exact within_of_snd (virtAllocRange_within h (by omega) virt pageCount) hc
  | remapRange virt pageCount flags =>
    exact within_of_snd (virtRemapRange_within h (by omega) virt pageCount flags) hc
  | isMapped virt =>
    exact within_of_snd ((virtIsMapped_returns h (by omega) virt).mono fun _ _ he => he.within) hc
  | pageFault addr =>
    exact within_of_snd (virtHandlePageFault_within h (by omega) addr) hc

theorem step_within (h : s.Sound 32) {c : Call × List (Option ℕ)} (hc : step s c = .ok s') :
    Within 32 c.1.pages s s' := by
  have hext := h.withAnswers c.2
  exact hext.within.trans (call_within hext.sound c.1 hc)

end PageTables

theorem Reachable.snoc {s s' : PageTables} (h : Reachable s) (c : Call × List (Option ℕ))
    (hc : step s c = .ok s') : Reachable s' := by
  obtain ⟨b, answers, s₀, hinit, hrun⟩ := h
  exact ⟨b, answers, s₀, hinit, hrun.snoc c trivial hc⟩

/-- The shape of the tables holds along every run. -/
theorem Reachable.sound {s : PageTables} (h : Reachable s) : s.Sound 32 := by
  obtain ⟨b, answers, s₀, hinit, hrun⟩ := h
  have h₀ : s₀.Sound 32 := PageTables.initVirt_sound b answers none s₀ hinit rfl
  exact hrun.invariant (motive := PageTables.Sound 32) h₀
    fun u c v hu _ hv => (PageTables.step_within hu hv).sound

end TomatOS.Virt
