import TomatOS.Heap.Requests
import TomatOS.Lib.Memmove

/-! The contract of `mem_realloc`. Whatever way it takes, a block that still fits,
a move to a larger block, a refusal or a fresh block for a null pointer, it either
changes nothing or returns a block that holds the request and starts with the bytes
of the old one, and it writes into no other live block. A request of no bytes frees
the block once. -/

namespace TomatOS.Heap

open Foundation.LinkedMemory Foundation.Transition

/-- The block lies on the free list of some order. -/
def Clients.OnFreelist (s : Clients) (ptr : ℕ) : Prop :=
  ∃ i l, Linked s.heap.memory (s.heap.regions i).freelist l ∧ ptr ∈ l

/-- Every live block but the one at `ptr` stays live with its bytes. -/
def OthersKept (s s' : Clients) (ptr : ℕ) : Prop :=
  ∀ b ∈ s.live, b.ptr ≠ ptr →
    b ∈ s'.live ∧ ∀ a ∈ b.bytes, s'.heap.memory a = s.heap.memory a

/-- The block at `ptr`, on no free list before, is pushed on the one of its order
and is not live any more; for null nothing happens. -/
def FreedOnce (s s' : Clients) (ptr : ℕ) : Prop :=
  if ptr = 0 then s' = s
  else ∃ (i : Fin 24) (free : Fin 24 → List ℕ), orderOf ptr = i ∧
    (∀ j, Linked s.heap.memory (s.heap.regions j).freelist (free j) ∧ ptr ∉ free j) ∧
    (∀ j, Linked s'.heap.memory (s'.heap.regions j).freelist
      (if j = i then ptr :: free j else free j)) ∧
    ¬ s'.IsLive ptr

/-- The result is a live block that holds `size` bytes and starts with those of the
old block, which is live afterwards only if it is the result. -/
structure Reallocated (s s' : Clients) (ptr size p : ℕ) : Prop where
  result : ∃ c ∈ s'.live, c.ptr = p ∧ c.requested = size ∧ size ≤ blockSize c.order ∧ c.Sound
  bytes : ∀ b ∈ s.live, b.ptr = ptr → b.requested ≤ blockSize b.order ∧
    ∀ i < min (blockSize b.order) size, s'.heap.memory (p + i) = s.heap.memory (ptr + i)
  live_iff : s'.IsLive ptr ↔ p = ptr
  freed : ptr ≠ 0 → p ≠ ptr → s'.OnFreelist ptr
  others : OthersKept s s' ptr

variable {s : Clients} {free : Fin 24 → List ℕ} {ptr size : ℕ}

/-- The copy of `mem_realloc` is the `memcpy` of the kernel, since the two blocks
are apart. -/
theorem realloc_memcpy {h : HeapState} {live : List Block} (hinv : Invariant h live free)
    {b c : Block} (hb : b ∈ live) (hc : c ∈ live) (hne : c.ptr ≠ b.ptr)
    (hle : blockSize b.order ≤ blockSize c.order) (m : Memory) :
    Lib.memcpy m c.ptr b.ptr (blockSize b.order) =
      (c.ptr, copyBytes m c.ptr b.ptr (blockSize b.order)) := by
  have hapart := hinv.apart hc hb hne
  have htop := allocRegionTop_lt (show 23 < 24 by decide)
  have hbend := (hinv.bounds hb).2
  have hcend := (hinv.bounds hc).2
  exact Lib.memcpy_eq_copyBytes (by omega) (by omega) (by omega)

theorem Invariant.not_mem_bytes {h : HeapState} {live : List Block} (hinv : Invariant h live free)
    {b c : Block} (hb : b ∈ live) (hc : c ∈ live) (hne : b.ptr ≠ c.ptr) {a : ℕ} (ha : a ∈ b.bytes) :
    a < c.ptr ∨ c.ptr + blockSize c.order ≤ a := by
  have hdisj := Set.disjoint_left.mp (hinv.disjoint hb hc hne) ha
  by_contra hin
  exact hdisj ⟨by omega, by omega⟩

theorem mem_relocated {live : List Block} {p : ℕ} {b : Block} (hb : b ∈ live) (hne : b.ptr ≠ ptr) :
    b ∈ relocated live ptr size p := by
  unfold relocated
  split_ifs
  · exact mem_drop.mpr ⟨hb, hne⟩
  · exact hb
  · exact List.mem_map.mpr ⟨b, hb, if_neg hne⟩
  · exact List.mem_append_right _ (mem_drop.mpr ⟨hb, hne⟩)

theorem reallocated_inPlace (hinv : Invariant s.heap s.live free) {b : Block} (hpos : size ≠ 0)
    (hb : b ∈ s.live) (hle : size ≤ blockSize b.order) :
    Reallocated s ⟨s.heap, relocated s.live b.ptr size b.ptr⟩ b.ptr size b.ptr := by
  obtain ⟨i, hi, hbi, _⟩ := hinv.held b hb
  obtain ⟨free', hinv'⟩ := (ReallocOutcome.inPlace hb rfl hle).invariant hinv hpos
  have hmem : { b with requested := size } ∈ relocated s.live b.ptr size b.ptr := by
    rw [relocated, if_neg hpos, if_neg hbi.ne_zero, if_pos rfl]
    exact List.mem_map.mpr ⟨b, hb, if_pos rfl⟩
  refine ⟨⟨_, hmem, rfl, rfl, hle, hinv'.sound hmem⟩, fun c hc _ => ?_, ?_, ?_, fun c hc hne => ?_⟩
  · exact ⟨(hinv.sound hc).large_enough, fun _ _ => rfl⟩
  · exact ⟨fun _ => rfl, fun _ => ⟨_, hmem, rfl⟩⟩
  · intro _ hne
    exact absurd rfl hne
  · exact ⟨mem_relocated hc hne, fun _ _ => rfl⟩

theorem reallocated_fresh (hinv : Invariant s.heap s.live free) {p order : ℕ} {h' : HeapState}
    {free' : Fin 24 → List ℕ} (hpos : size ≠ 0) (hp : p ≠ 0)
    (hc : sizeClass size = .ok (blockSize order, order)) (hle : size ≤ blockSize order)
    (hmem : h'.memory = s.heap.memory) (hinv' : Invariant h' (⟨p, order, size⟩ :: s.live) free') :
    Reallocated s ⟨h', relocated s.live 0 size p⟩ 0 size p := by
  have hrel : relocated s.live 0 size p = ⟨p, order, size⟩ :: s.live := by
    rw [relocated, if_neg hpos, if_neg hp, if_neg hp, granted_of_ne hp hc, hinv.drop_zero]
    rfl
  have hnull : ∀ b ∈ (⟨p, order, size⟩ :: s.live : List Block), b.ptr ≠ 0 := by
    intro b hb
    obtain ⟨i, _, hbi, _⟩ := hinv'.held b hb
    exact hbi.ne_zero
  refine ⟨?_, fun b hb hb0 => ?_, ?_, ?_, fun b hb hne => ?_⟩
  · refine ⟨⟨p, order, size⟩, ?_, rfl, rfl, hle, hinv'.sound List.mem_cons_self⟩
    rw [hrel]
    exact List.mem_cons_self
  · exact absurd hb0 (hnull b (List.mem_cons_of_mem _ hb))
  · constructor
    · rintro ⟨b, hb, hb0⟩
      rw [hrel] at hb
      exact absurd hb0 (hnull b hb)
    · intro h0
      exact absurd h0 hp
  · intro h0
    exact absurd rfl h0
  · exact ⟨mem_relocated hb hne, fun a _ => by rw [hmem]⟩

theorem reallocated_moved (hinv : Invariant s.heap s.live free) {b : Block} {p order : ℕ}
    {h' : HeapState} {free' : Fin 24 → List ℕ} {i : Fin 24} (hpos : size ≠ 0) (hb : b ∈ s.live)
    (hp : p ≠ 0) (hne : p ≠ b.ptr) (hc : sizeClass size = .ok (blockSize order, order))
    (hle : size ≤ blockSize order)
    (hbytes : BytesMoved s.heap.memory h'.memory b.ptr (blockSize b.order) p (blockSize order))
    (hfree : b.ptr ∈ free' i)
    (hinv' : Invariant h' (⟨p, order, size⟩ :: drop s.live b.ptr) free') :
    Reallocated s ⟨h', relocated s.live b.ptr size p⟩ b.ptr size p := by
  have hrel : relocated s.live b.ptr size p = ⟨p, order, size⟩ :: drop s.live b.ptr := by
    rw [relocated, if_neg hpos, if_neg hp, if_neg hne, granted_of_ne hp hc]
    rfl
  refine ⟨?_, fun c hc' hcb => ?_, ?_, fun _ _ => ?_, fun c hc' hcb => ?_⟩
  · refine ⟨⟨p, order, size⟩, ?_, rfl, rfl, hle, hinv'.sound List.mem_cons_self⟩
    rw [hrel]
    exact List.mem_cons_self
  · refine ⟨(hinv.sound hc').large_enough, fun k hk => ?_⟩
    have horder : c.order = b.order := by
      rw [← (hinv.sound hc').order_eq, hcb, (hinv.sound hb).order_eq]
    exact hbytes.copied k (by rw [← horder]; omega)
  · constructor
    · rintro ⟨c, hc', hcb⟩
      rw [hrel] at hc'
      rcases List.mem_cons.mp hc' with rfl | hc'
      · exact hcb
      · exact absurd hcb (mem_drop.mp hc').2
    · intro h0
      exact absurd h0 hne
  · exact ⟨i, free' i, (hinv'.region i).linked, hfree⟩
  · refine ⟨mem_relocated hc' hcb, fun a ha => ?_⟩
    -- apart from the old block before, apart from the new one after
    have hold := hinv.not_mem_bytes hc' hb hcb ha
    have hcd : c ∈ (⟨p, order, size⟩ :: drop s.live b.ptr : List Block) :=
      List.mem_cons_of_mem _ (mem_drop.mpr ⟨hc', hcb⟩)
    have hcp : c.ptr ≠ p :=
      (List.rel_of_pairwise_cons hinv'.distinct (mem_drop.mpr ⟨hc', hcb⟩)).symm
    have hnew := hinv'.not_mem_bytes hcd List.mem_cons_self hcp ha
    have := eight_le_blockSize b.order
    exact hbytes.kept a hnew (by omega)

/-- Each way of `mem_realloc` with a result meets the contract. -/
theorem ReallocOutcome.reallocated (hinv : Invariant s.heap s.live free) {p : ℕ} {h' : HeapState}
    (hpos : size ≠ 0) (hout : ReallocOutcome s.heap s.live ptr size p h') :
    p = 0 ∧ (⟨h', relocated s.live ptr size p⟩ : Clients) = s ∨
      p ≠ 0 ∧ Reallocated s ⟨h', relocated s.live ptr size p⟩ ptr size p := by
  cases hout with
  | refused =>
    left
    refine ⟨rfl, ?_⟩
    rw [relocated, if_neg hpos, if_pos rfl]
  | @inPlace b hb hptr hle =>
    subst hptr
    obtain ⟨i, _, hbi, _⟩ := hinv.held b hb
    exact .inr ⟨hbi.ne_zero, reallocated_inPlace hinv hpos hb hle⟩
  | @fresh p order h' free' hptr hp hc hle hmem hinv' =>
    subst hptr
    exact .inr ⟨hp, reallocated_fresh hinv hpos hp hc hle hmem hinv'⟩
  | @moved b p order h' free' i hb hptr hp hne hc hle hbytes hfree hinv' =>
    subst hptr
    exact .inr ⟨hp, reallocated_moved hinv hpos hb hp hne hc hle hbytes hfree hinv'⟩

theorem memRealloc_zero (hinv : Invariant s.heap s.live free) (hptr : ptr = 0 ∨ s.IsLive ptr) :
    ∃ h', memRealloc s.heap ptr 0 = .ok (0, h') ∧
      FreedOnce s ⟨h', drop s.live ptr⟩ ptr ∧ OthersKept s ⟨h', drop s.live ptr⟩ ptr := by
  rcases hptr with rfl | ⟨b, hb, rfl⟩
  · refine ⟨s.heap, rfl, ?_, fun b hb _ => ?_⟩
    · rw [FreedOnce, if_pos rfl, hinv.drop_zero]
    · rw [hinv.drop_zero]
      exact ⟨hb, fun _ _ => rfl⟩
  · obtain ⟨i, h', hi, hfree, hmem, hinv'⟩ := memFree_spec hinv hb
    have hsound := hinv.sound hb
    obtain ⟨j, _, hbj, _⟩ := hinv.held b hb
    refine ⟨h', by rw [memRealloc, if_pos rfl, hfree]; rfl, ?_, fun c hc hne => ?_⟩
    · rw [FreedOnce, if_neg hbj.ne_zero]
      refine ⟨i, free, by rw [hsound.order_eq, hi], fun k => ?_, fun k => ?_, ?_⟩
      · exact ⟨(hinv.region k).linked, fun hk => hinv.notFree k _ hk b hb rfl⟩
      · have hk := (hinv'.region k).linked
        rw [Function.update_apply] at hk
        by_cases hki : k = i
        · subst hki
          rwa [if_pos rfl] at hk ⊢
        · rwa [if_neg hki] at hk ⊢
      · rintro ⟨c, hc, hcb⟩
        exact (mem_drop.mp hc).2 hcb
    · refine ⟨mem_drop.mpr ⟨hc, hne⟩, fun a ha => ?_⟩
      have hold := hinv.not_mem_bytes hc hb hne ha
      have := eight_le_blockSize b.order
      rw [hmem, setNext, storeBytes_apply_of_outside (by omega)]

/-! ### The other blocks -/

/-- The block that a call is about, 0 for none. -/
def Call.target : Call → ℕ
  | .free ptr => ptr
  | .realloc ptr _ => ptr
  | _ => 0

theorem free_others (hinv : Invariant s.heap s.live free) (hptr : ptr = 0 ∨ s.IsLive ptr)
    {h' : HeapState} (hfree : memFree s.heap ptr = .ok h') :
    OthersKept s ⟨h', drop s.live ptr⟩ ptr := by
  obtain ⟨h'', hre, -, hkept⟩ := memRealloc_zero hinv hptr
  rw [memRealloc, if_pos rfl, hfree] at hre
  cases hre
  exact hkept

theorem realloc_others (hinv : Invariant s.heap s.live free) (hptr : ptr = 0 ∨ s.IsLive ptr)
    (hsize : size ≤ size1GB) {p : ℕ} {h' : HeapState}
    (hre : memRealloc s.heap ptr size = .ok (p, h')) :
    OthersKept s ⟨h', relocated s.live ptr size p⟩ ptr := by
  by_cases hpos : size = 0
  · subst hpos
    obtain ⟨h'', hre', -, hkept⟩ := memRealloc_zero hinv hptr
    rw [hre] at hre'
    cases hre'
    exact hkept
  · obtain ⟨p', h'', hre', hout⟩ := memRealloc_outcome hinv hptr hpos hsize
    rw [hre] at hre'
    cases hre'
    rcases hout.reallocated hinv hpos with ⟨-, hsame⟩ | ⟨-, hrealloc⟩
    · rw [hsame]
      exact fun b hb _ => ⟨hb, fun _ _ => rfl⟩
    · exact hrealloc.others

/-- A call leaves the blocks that it is not about where they are, with their bytes unless
it writes one. -/
theorem step_others (hinv : Invariant s.heap s.live free) {c : Call} (hc : Permitted s c)
    {s' : Clients} (hs : s.step c = .ok s') {b : Block} (hb : b ∈ s.live) (hne : b.ptr ≠ c.target) :
    b ∈ s'.live ∧
      ∀ a ∈ b.bytes, (∀ byte, c ≠ .write a byte) → s'.heap.memory a = s.heap.memory a := by
  cases c with
  | alloc size =>
    rcases memAlloc_cases hinv hc with halloc | ⟨p, h', free', order, halloc, -, -, -, hmem, -⟩
    · simp only [Clients.step, halloc, bind, Except.bind, pure, Except.pure] at hs
      cases hs
      exact ⟨List.mem_append_right _ hb, fun _ _ _ => rfl⟩
    · simp only [Clients.step, halloc, bind, Except.bind, pure, Except.pure] at hs
      cases hs
      exact ⟨List.mem_append_right _ hb, fun a _ _ => by rw [hmem]⟩
  | free ptr =>
    cases hfree : memFree s.heap ptr with
    | error e =>
      simp only [Clients.step, hfree] at hs
      cases hs
    | ok h' =>
      simp only [Clients.step, hfree, bind, Except.bind, pure, Except.pure] at hs
      cases hs
      obtain ⟨hlive, hbytes⟩ := free_others hinv hc hfree b hb hne
      exact ⟨hlive, fun a ha _ => hbytes a ha⟩
  | realloc ptr size =>
    cases hre : memRealloc s.heap ptr size with
    | error e =>
      simp only [Clients.step, hre] at hs
      cases hs
    | ok r =>
      simp only [Clients.step, hre, bind, Except.bind, pure, Except.pure] at hs
      cases hs
      obtain ⟨hlive, hbytes⟩ := realloc_others hinv hc.1 hc.2 hre b hb hne
      exact ⟨hlive, fun a ha _ => hbytes a ha⟩
  | write addr byte =>
    cases hs
    refine ⟨hb, fun a _ hother => Function.update_of_ne ?_ _ _⟩
    rintro rfl
    exact hother byte rfl

/-- In every reachable state, for null or a live block and up to 1GB. -/
theorem memRealloc_contract {memory : Memory} {s : Clients}
    (hrun : Reaches Clients.step Usable (booted memory) s) {ptr size : ℕ}
    (hptr : ptr = 0 ∨ s.IsLive ptr) (hsize : size ≤ size1GB) :
    ∃ p s', memRealloc s.heap ptr size = .ok (p, s'.heap) ∧
      s'.live = relocated s.live ptr size p ∧
      (size = 0 → p = 0 ∧ FreedOnce s s' ptr ∧ OthersKept s s' ptr) ∧
      (0 < size → p = 0 ∧ s' = s ∨ p ≠ 0 ∧ Reallocated s s' ptr size p) := by
  obtain ⟨free, hinv⟩ := (reachable_of_usable hrun).invariant
  by_cases hpos : size = 0
  · subst hpos
    obtain ⟨h', hre, hfreed, hkept⟩ := memRealloc_zero hinv hptr
    have hrel : relocated s.live ptr 0 0 = drop s.live ptr := if_pos rfl
    exact ⟨0, ⟨h', drop s.live ptr⟩, hre, hrel.symm, fun _ => ⟨rfl, hfreed, hkept⟩,
      fun h0 => absurd h0 (lt_irrefl 0)⟩
  · obtain ⟨p, h', hre, hout⟩ := memRealloc_outcome hinv hptr hpos hsize
    exact ⟨p, ⟨h', relocated s.live ptr size p⟩, hre, rfl, fun h0 => absurd h0 hpos,
      fun _ => hout.reallocated hinv hpos⟩

/-- The state after one `mem_alloc(24)`. -/
def oneBlock : Clients :=
  ⟨(takeBlock (initAlloc fun _ => 0) 2 32).2, [⟨0xFFFFC10000000000, 2, 24⟩]⟩

theorem memRealloc_contract_oneBlock :
    ∃ p s', memRealloc oneBlock.heap 0xFFFFC10000000000 100 = .ok (p, s'.heap) ∧
      (p = 0 ∧ s' = oneBlock ∨ p ≠ 0 ∧ Reallocated oneBlock s' 0xFFFFC10000000000 100 p) := by
  have hrun : Reaches Clients.step Usable (booted fun _ => 0) oneBlock :=
    (Reaches.refl _).snoc (.alloc 24) (by decide : 24 < 2 ^ 64) rfl
  obtain ⟨p, s', hre, -, -, hres⟩ := memRealloc_contract hrun
    (show 0xFFFFC10000000000 = 0 ∨ oneBlock.IsLive 0xFFFFC10000000000 from
      .inr ⟨_, List.mem_cons_self, rfl⟩) (show 100 ≤ size1GB by decide)
  exact ⟨p, s', hre, hres (by decide)⟩

end TomatOS.Heap
