import TomatOS.Virt.Operations

/-! The functions of `kernel/mem/virt.c` as chains of small steps. Whatever they do,
and wherever they stop, they hand out and take back frames, clear pages that are no
tables, link cleared tables where there are none, and write page entries. So no slot
of the root that is there ever changes again, and page entries are only those that
were there and those that were written. -/

namespace TomatOS.Virt

open Foundation Foundation.PageTree Foundation.Transition

namespace PageTables

/-- A step for an address in `A`; page entries that are written satisfy `P`. -/
inductive Small (P : Entry → Prop) (A : Set ℕ) (s : PageTables) : PageTables → Prop
  | frames (pages : List ℕ) (answers : List (Option ℕ)) :
      Small P A s { s with pages := pages, answers := answers }
  | clear (page : ℕ) : page ∉ s.tables → Small P A s (s.clearPage page)
  | link (p : List ℕ) (table index page : ℕ) (e : Entry) : p.length < 3 →
      s.resolve p = some table → (s.mem table index).present = false →
      (p = [] → ∃ virt ∈ A, index = pml4Index virt) → page < frameSize → page ∉ s.tables →
      e.present = true → e.frame = page % frameSize → Small P A s (s.linkTable page table index e)
  | write (virt table : ℕ) (e : Entry) : virt ∈ A → s.resolve (path virt) = some table → P e →
      Small P A s (s.setEntry table (pml1Index virt) e)

def Chain (P : Entry → Prop) (A : Set ℕ) : PageTables → PageTables → Prop :=
  Relation.ReflTransGen (Small P A)

variable {k : ℕ} {P : Entry → Prop} {A : Set ℕ} {s s' s'' : PageTables}

theorem Chain.refl (s : PageTables) : Chain P A s s := Relation.ReflTransGen.refl

theorem Small.chain (h : Small P A s s') : Chain P A s s' := Relation.ReflTransGen.single h

theorem Chain.trans (h : Chain P A s s') (h' : Chain P A s' s'') : Chain P A s s'' :=
  Relation.ReflTransGen.trans h h'

/-! ### What a chain keeps -/

theorem Small.sound (h : s.Sound k) (hk : k ≤ 32) (hs : Small P A s s') : s'.Sound k := by
  cases hs with
  | frames pages answers =>
    have hsame : Extends k s { s with pages := pages, answers := answers } :=
      h.extends_of_eq rfl rfl rfl
    exact hsame.sound
  | clear page hpage => exact (h.clearPage hpage).sound
  | link p table index page e hp hr hfree _ hpage hunused hpres hframe =>
    exact (h.linkTable hk hp hr hfree hpage hunused hpres hframe).1.sound
  | write virt table e _ hr _ => exact (h.setEntry hr e).sound

theorem Chain.sound (h : s.Sound k) (hk : k ≤ 32) (hs : Chain P A s s') : s'.Sound k := by
  induction hs with
  | refl => exact h
  | tail _ hstep ih => exact hstep.sound ih hk

/-- A slot of the root that stays: it is there, or no address in `A` goes through it. -/
def Stays (A : Set ℕ) (s : PageTables) (slot : ℕ) : Prop :=
  (s.mem s.cr3 slot).present = true ∨ ∀ virt ∈ A, slot ≠ pml4Index virt

theorem Small.root (h : s.Sound k) (hs : Small P A s s') {slot : ℕ} (hslot : Stays A s slot) :
    s'.mem s'.cr3 slot = s.mem s.cr3 slot := by
  have hroot : s.cr3 ∈ s.tables := h.linked.used [] s.cr3 (Nat.zero_le 3) rfl
  cases hs with
  | frames pages answers => rfl
  | clear page hpage =>
    have hne : s.cr3 ≠ page := by
      intro he
      exact hpage (he ▸ hroot)
    show Function.update s.mem page (fun _ => .zero) s.cr3 slot = s.mem s.cr3 slot
    rw [Function.update_of_ne hne]
  | link p table index page e hp hr hfree hA _ hunused _ _ =>
    have hpage : page ≠ s.cr3 := by
      intro he
      exact hunused (he ▸ hroot)
    have htable : page ≠ table := by
      intro he
      exact hunused (he ▸ h.linked.used p table (le_of_lt hp) hr)
    show PageTree.linkNew s.mem .zero page table index e s.cr3 slot = s.mem s.cr3 slot
    rw [linkNew_apply htable, if_neg, if_neg hpage.symm]
    rintro ⟨rfl, rfl⟩
    have hnil := h.linked.eq_nil_of_root (le_of_lt hp) hr
    rcases hslot with hpres | hout
    · rw [hfree] at hpres
      cases hpres
    · obtain ⟨virt, hvirt, hindex⟩ := hA hnil
      exact hout virt hvirt hindex
  | write virt table e _ hr _ =>
    have hne : s.cr3 ≠ table := by
      rintro rfl
      have hnil := h.linked.eq_nil_of_root (le_of_eq rfl) hr
      cases hnil
    show PageTree.write s.mem table (pml1Index virt) e s.cr3 slot = s.mem s.cr3 slot
    rw [write_of_ne hne]

/-- Slots of the root that stay are left as they are. -/
theorem Chain.root (h : s.Sound k) (hk : k ≤ 32) (hs : Chain P A s s') {slot : ℕ}
    (hslot : Stays A s slot) : s'.mem s'.cr3 slot = s.mem s.cr3 slot := by
  induction hs with
  | refl => rfl
  | @tail t u hchain hstep ih =>
    have hstays : Stays A t slot := by
      rcases hslot with hpres | hout
      · exact .inl (by rw [ih, hpres])
      · exact .inr hout
    rw [hstep.root (Chain.sound h hk hchain) hstays, ih]

theorem Small.leaf (h : s.Sound k) (hk : k ≤ 32) (hs : Small P A s s') {p : List ℕ} {i : ℕ}
    (hp : p.length = 3) {e : Entry} (he : s'.leaf p i = some e) : s.leaf p i = some e ∨ P e := by
  cases hs with
  | frames pages answers => exact .inl he
  | clear page hpage =>
    rw [(h.clearPage hpage).leaf p i hp] at he
    exact .inl he
  | link q table index page e' hq hr hfree _ hpage hunused hpres hframe =>
    rw [(h.linkTable hk hq hr hfree hpage hunused hpres hframe).1.leaf p i hp] at he
    exact .inl he
  | write virt table e' _ hr hP =>
    rw [(h.setEntry hr e').leaf p i hp] at he
    split_ifs at he
    · obtain rfl := Option.some.inj he
      exact .inr hP
    · exact .inl he

/-- Page entries are old ones or satisfy `P`. -/
theorem Chain.leaf (h : s.Sound k) (hk : k ≤ 32) (hs : Chain P A s s') {p : List ℕ} {i : ℕ}
    (hp : p.length = 3) {e : Entry} (he : s'.leaf p i = some e) : s.leaf p i = some e ∨ P e := by
  induction hs with
  | refl => exact .inl he
  | tail hchain hstep ih =>
    rcases hstep.leaf (Chain.sound h hk hchain) hk hp he with hold | hP
    · exact ih hold
    · exact .inr hP

/-! ### The functions -/

theorem physAlloc_chain : Returns s.physAlloc fun _ s' => Chain P A s s' := by
  refine s.physAlloc_allocated.mono ?_
  rintro _ _ (⟨answers⟩ | ⟨page, answers, -⟩)
  · exact (Small.frames s.pages answers).chain
  · exact (Small.frames (page :: s.pages) answers).chain

theorem getNextLevel_chain (h : s.Sound k) (hk : k ≤ 32) {p : List ℕ} (hp : p.length < 3)
    {table : ℕ} (hr : s.resolve p = some table) {index : ℕ}
    (hA : p = [] → ∃ virt ∈ A, index = pml4Index virt) :
    Returns (s.getNextLevel table index) fun next s' => Chain P A s s' ∧
      ∀ t, next = some t → s'.resolve (p ++ [index]) = some t := by
  have hspec : Returns (s.getNextLevel table index) fun next s' =>
      ∀ t, next = some t → s'.resolve (p ++ [index]) = some t := by
    rcases getNextLevel_spec h hk hp hr index with ⟨hf, -⟩ | ⟨next, s₁, hf, -, -, -, hnext⟩
    · rw [hf]
      exact .error _
    · rw [hf]
      exact .ok hnext
  apply Returns.and _ hspec
  rw [getNextLevel]
  cases hpres : (s.mem table index).present with
  | true => exact .ok (Chain.refl s)
  | false =>
    refine s.physAlloc_allocated.bind ?_
    rintro _ _ (⟨answers⟩ | ⟨page, answers, hpage, hun, -⟩)
    · exact .ok (Small.frames s.pages answers).chain
    · apply Returns.ok
      apply (Small.frames (page :: s.pages) answers).chain.trans
      apply Small.chain
      exact .link p table index page ⟨true, true, (s.mem table index).noExecute, page % frameSize⟩
        hp hr hpres hA hpage hun rfl rfl

theorem getPml1_chain (h : s.Sound k) (hk : k ≤ 32) {virt : ℕ} (hv : virt ∈ A) :
    Returns (s.getPml1 virt) fun pml1 s' => Chain P A s s' ∧
      ∀ t, pml1 = some t → s'.resolve (path virt) = some t := by
  refine (getNextLevel_chain (P := P) (A := A) h hk (p := []) (by simp) rfl fun _ => ⟨virt, hv, rfl⟩).bind ?_
  rintro (_ | pml3) s₁ ⟨h₁, hpml3⟩
  · exact .ok ⟨h₁, fun t ht => (by cases ht)⟩
  have hs₁ := h₁.sound h hk
  refine (getNextLevel_chain (P := P) (A := A) hs₁ hk (by simp) (hpml3 pml3 rfl) fun hn => (by cases hn)).bind ?_
  rintro (_ | pml2) s₂ ⟨h₂, hpml2⟩
  · exact .ok ⟨h₁.trans h₂, fun t ht => (by cases ht)⟩
  have hs₂ := h₂.sound hs₁ hk
  have h₃ : Returns (s₂.getNextLevel pml2 (pml2Index virt)) _ :=
    getNextLevel_chain (P := P) (A := A) hs₂ hk (by simp) (hpml2 pml2 rfl)
      fun hn => (by cases hn)
  exact h₃.mono fun pml1 s₃ h₃ => ⟨(h₁.trans h₂).trans h₃.1, h₃.2⟩

theorem virtMapPage_chain (h : s.Sound k) (hk : k ≤ 32) {phys virt : ℕ} {flags : MapFlags}
    (hv : virt ∈ A) (hP : P (leafEntry phys flags)) :
    Returns (s.virtMapPage phys virt flags) fun _ s' => Chain P A s s' := by
  refine (getPml1_chain (P := P) (A := A) h hk hv).bind ?_
  rintro (_ | pml1) s₁ ⟨h₁, ht⟩
  · exact .ok h₁
  · exact .ok (h₁.trans (Small.write virt pml1 _ hv (ht pml1 rfl) hP).chain)

/-- The rest of a loop after a first chain. -/
theorem Chain.andThen {β : Type} {r : Result (β × PageTables)} (h : s.Sound k) (hk : k ≤ 32)
    (hs : Chain P A s s') (hr : s'.Sound k → Returns r fun _ s'' => Chain P A s' s'') :
    Returns r fun _ s'' => Chain P A s s'' :=
  (hr (hs.sound h hk)).mono fun _ _ h' => hs.trans h'

theorem mapPages_chain (h : s.Sound k) (hk : k ≤ 32) {phys virt : ℕ} {flags : MapFlags} {n i : ℕ}
    (hv : ∀ j, i ≤ j → j < i + n → pageAt virt j ∈ A) (hP : ∀ phys, P (leafEntry phys flags)) :
    Returns (mapPages phys virt flags n i s) fun _ s' => Chain P A s s' := by
  induction n generalizing i s with
  | zero => exact .ok (Chain.refl s)
  | succ n ih =>
    refine (virtMapPage_chain (P := P) (A := A) h hk (hv i (by omega) (by omega)) (hP _)).bind ?_
    rintro (_ | err) s₁ h₁
    · exact h₁.andThen h hk fun hs₁ => ih hs₁ fun j h1 h2 => hv j (by omega) (by omega)
    · exact .ok h₁

theorem virtMapRange_chain (h : s.Sound k) (hk : k ≤ 32) {phys virt pageCount : ℕ}
    {flags : MapFlags} (hv : ∀ j, j < pageCount → pageAt virt j ∈ A)
    (hP : ∀ phys, P (leafEntry phys flags)) :
    Returns (s.virtMapRange phys virt pageCount flags) fun _ s' => Chain P A s s' :=
  mapPages_chain h hk (fun j _ hj => hv j (by omega)) hP

theorem remapPages_chain (h : s.Sound k) (hk : k ≤ 32) {virt : ℕ} {flags : MapFlags} {n i : ℕ}
    (hv : ∀ j, pageAt virt j ∈ A)
    (hP : ∀ e : Entry, P { e with writeable := flags.permW, noExecute := !flags.permX }) :
    Returns (remapPages virt flags n i s) fun _ s' => Chain P A s s' := by
  induction n generalizing i s with
  | zero => exact .ok (Chain.refl s)
  | succ n ih =>
    refine (getPml1_chain (P := P) (A := A) h hk (hv i)).bind ?_
    rintro (_ | pml1) s₁ ⟨h₁, ht⟩
    · exact .ok h₁
    dsimp only
    split
    · have hwrite := (Small.write (pageAt virt i) pml1 _ (hv i) (ht pml1 rfl)
        (hP (s₁.mem pml1 (pml1Index (pageAt virt i))))).chain
      exact (h₁.trans hwrite).andThen h hk fun hs₂ => ih hs₂
    · exact .ok h₁

theorem allocPages_chain (h : s.Sound k) (hk : k ≤ 32) {virt n i : ℕ}
    (hv : ∀ j, pageAt virt j ∈ A) (hP : ∀ frame, P ⟨true, true, true, frame⟩) :
    Returns (allocPages virt n i s) fun _ s' => Chain P A s s' := by
  induction n generalizing i s with
  | zero => exact .ok (Chain.refl s)
  | succ n ih =>
    refine (physAlloc_chain (P := P) (A := A)).bind ?_
    rintro (_ | page) s₁ h₁
    · exact .ok h₁
    refine (getPml1_chain (P := P) (A := A) (h₁.sound h hk) hk (hv i)).bind ?_
    rintro (_ | pml1) s₂ ⟨h₂, ht⟩
    · exact .ok (h₁.trans h₂)
    dsimp only
    split
    · exact .ok (h₁.trans h₂)
    · have hwrite := (Small.write (pageAt virt i) pml1 _ (hv i) (ht pml1 rfl)
        (hP (page % frameSize))).chain
      exact ((h₁.trans h₂).trans hwrite).andThen h hk fun hs₃ => ih hs₃

theorem cleanupPass_chain (h : s.Sound k) (hk : k ≤ 32) {virt i n : ℕ}
    (hv : ∀ j, pageAt virt j ∈ A) (hP : P .zero) :
    Returns (cleanupPass virt i n s) fun _ s' => Chain P A s s' := by
  induction n generalizing s with
  | zero => exact .ok (Chain.refl s)
  | succ n ih =>
    refine (getPml1_chain (P := P) (A := A) h hk (hv i)).bind ?_
    rintro (_ | pml1) s₁ ⟨h₁, ht⟩
    · exact .ok h₁
    dsimp only
    split
    · let freed := s₁.physFree (s₁.mem pml1 (pml1Index (pageAt virt i))).frame
      have hfree : Chain P A s₁ freed := (Small.frames _ s₁.answers).chain
      have hr : freed.resolve (path (pageAt virt i)) = some pml1 := ht pml1 rfl
      have hwrite := hfree.trans (Small.write (pageAt virt i) pml1 .zero (hv i) hr hP).chain
      exact (h₁.trans hwrite).andThen h hk fun hs₂ => ih hs₂
    · exact .error _

theorem cleanup_chain (h : s.Sound k) (hk : k ≤ 32) {virt i passes : ℕ} {err : Err}
    (hv : ∀ j, pageAt virt j ∈ A) (hP : P .zero) :
    Returns (cleanup virt i passes s err) fun _ s' => Chain P A s s' := by
  induction passes generalizing s err with
  | zero => exact .error _
  | succ passes ih =>
    refine (cleanupPass_chain (P := P) (A := A) h hk hv hP).bind ?_
    rintro (_ | err') s₁ h₁
    · exact .ok h₁
    · exact h₁.andThen h hk fun hs₁ => ih hs₁

theorem virtAllocRange_chain (h : s.Sound k) (hk : k ≤ 32) {virt pageCount : ℕ}
    (hv : ∀ j, pageAt virt j ∈ A) (hP : ∀ frame, P ⟨true, true, true, frame⟩) (hzero : P .zero) :
    Returns (s.virtAllocRange virt pageCount) fun _ s' => Chain P A s s' := by
  refine (allocPages_chain (P := P) (A := A) h hk hv hP).bind ?_
  rintro (_ | ⟨err, i⟩) s₁ h₁
  · exact .ok h₁
  · refine (cleanup_chain (P := P) (A := A) (h₁.sound h hk) hk hv hzero).bind ?_
    intro err' s₂ h₂
    exact .ok (h₁.trans h₂)

theorem virtIsMapped_chain (h : s.Sound k) (hk : k ≤ 32) {virt : ℕ} (hv : virt ∈ A) :
    Returns (s.virtIsMapped virt) fun _ s' => Chain P A s s' := by
  refine (getPml1_chain (P := P) (A := A) h hk hv).bind ?_
  rintro (_ | pml1) s₁ ⟨h₁, -⟩
  · exact .ok h₁
  · exact .ok h₁

theorem virtHandlePageFault_chain (h : s.Sound k) (hk : k ≤ 32) {addr : ℕ}
    (hv : alignDown addr pageSize ∈ A) (hP : ∀ phys, P (leafEntry phys ⟨true, false⟩)) :
    Returns (s.virtHandlePageFault addr) fun _ s' => Chain P A s s' := by
  rw [virtHandlePageFault]
  cases faultAction addr with
  | overflow => exact .ok (Chain.refl s)
  | unknown => exact .ok (Chain.refl s)
  | direct =>
    refine (virtMapPage_chain (P := P) (A := A) h hk hv (hP _)).bind ?_
    intro err s₁ h₁
    exact .ok h₁
  | allocate =>
    refine ((physAlloc_returns h).and (physAlloc_chain (P := P) (A := A))).bind ?_
    rintro (_ | page) s₁ ⟨⟨-, hpage⟩, h₁⟩
    · exact .ok h₁
    have hclear := h₁.trans (Small.clear page (hpage page rfl).2).chain
    refine (virtMapPage_chain (P := P) (A := A) (hclear.sound h hk) hk hv (hP _)).bind ?_
    intro err s₂ h₂
    exact .ok (hclear.trans h₂)

/-! ### Initialisation -/

/-- The number of pages `init_virt` maps for a segment. -/
def segmentPages (b : Boot) (ph : Phdr) : ℕ :=
  ((b.toPhys ((ph.vaddr + ph.memsz) % wordSize) + (wordSize - b.toPhys ph.vaddr)) % wordSize +
    (pageSize - 1)) % wordSize / pageSize

theorem mapSegments_chain (h : s.Sound k) (hk : k ≤ 32) {b : Boot} {phdrs : List Phdr}
    (hA : ∀ ph ∈ phdrs, ph.load = true → ∀ j < segmentPages b ph, pageAt ph.vaddr j ∈ A)
    (hP : ∀ ph ∈ phdrs, (ph.flagW && ph.flagX) = false →
      ∀ phys, P (leafEntry phys ⟨ph.flagW, ph.flagX⟩)) :
    Returns (mapSegments b phdrs s) fun _ s' => Chain P A s s' := by
  induction phdrs generalizing s with
  | nil => exact .ok (Chain.refl s)
  | cons ph phdrs ih =>
    have hrest : ∀ {s : PageTables}, s.Sound k →
        Returns (mapSegments b phdrs s) fun _ s' => Chain P A s s' := by
      intro s hs
      apply ih hs
      · intro ph hph
        exact hA ph (List.mem_cons_of_mem _ hph)
      · intro ph hph
        exact hP ph (List.mem_cons_of_mem _ hph)
    rw [mapSegments]
    split
    · rename_i hload
      split
      · exact .ok (Chain.refl s)
      · rename_i hflags
        rw [Bool.not_eq_true] at hflags
        refine (virtMapRange_chain (P := P) (A := A) h hk
          (hA ph List.mem_cons_self hload) (hP ph List.mem_cons_self hflags)).bind ?_
        rintro (_ | err) s₁ h₁
        · exact h₁.andThen h hk fun hs₁ => hrest hs₁
        · exact .ok h₁
    · exact hrest h

end PageTables

end TomatOS.Virt
