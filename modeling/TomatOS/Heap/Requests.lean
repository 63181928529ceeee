import TomatOS.Heap.Blocks

/-! Requests of every 64-bit size. Up to 1GB `mem_alloc` takes the least order that
holds the request, or refuses it when there is none; up to 2GB it computes an order
past the last one and refuses too. Beyond 2GB the shift that rounds the size up is
out of range. Refused requests change nothing, so the states of runs with requests
of any size are those of runs with sizes up to 1GB. -/

namespace TomatOS.Heap

open Foundation.LinkedMemory Foundation.Transition

variable {h : HeapState} {live : List Block} {free : Fin 24 → List ℕ} {size : ℕ}

theorem memAlloc_signBit (h1 : size1GB < size) (h2 : size ≤ 2 ^ 31) :
    memAlloc h size = .ok (0, h) := by
  have hc := sizeClassFrom_signBit (show 1 ≤ 3 by decide) (by decide) h1 h2
  unfold memAlloc sizeClass
  rw [hc]
  rfl

theorem memAlloc_outOfRange (h1 : 2 ^ 31 < size) (h2 : size < 2 ^ 64) :
    memAlloc h size = .error .intShift := by
  have hc := sizeClassFrom_none (show 1 ≤ 3 by decide) (by decide) h1 h2
  unfold memAlloc sizeClass
  rw [hc]
  rfl

/-- What refuses a request beyond 1GB, or faults on it, leaves the heap as it is. -/
theorem memAlloc_large {p : ℕ} {h' : HeapState} (h1 : size1GB < size) (h2 : size < 2 ^ 64)
    (halloc : memAlloc h size = .ok (p, h')) : p = 0 ∧ h' = h := by
  by_cases h31 : size ≤ 2 ^ 31
  · rw [memAlloc_signBit h1 h31] at halloc
    cases halloc
    exact ⟨rfl, rfl⟩
  · rw [memAlloc_outOfRange (by omega) h2] at halloc
    cases halloc

/-- Whatever the size, what is returned is null and nothing happened, or it is a block no
one held. -/
theorem memAlloc_returns (hinv : Invariant h live free) {p : ℕ} {h' : HeapState}
    (hsize : size < 2 ^ 64) (halloc : memAlloc h size = .ok (p, h')) :
    (p = 0 ∧ h' = h) ∨ (p ≠ 0 ∧ size ≤ size1GB ∧ h'.memory = h.memory ∧
      ∃ order free', granted p size = [⟨p, order, size⟩] ∧ size ≤ blockSize order ∧
        Invariant h' (⟨p, order, size⟩ :: live) free') := by
  by_cases hle : size ≤ size1GB
  · rcases memAlloc_cases hinv hle with hnone | ⟨q, g, free', order, hsome, hq, hc, hfit, hmem, hg⟩
    · rw [hnone] at halloc
      cases halloc
      exact .inl ⟨rfl, rfl⟩
    · rw [hsome] at halloc
      cases halloc
      exact .inr ⟨hq, hle, hmem, order, free', granted_of_ne hq hc, hfit, hg⟩
  · exact .inl (memAlloc_large (not_le.mp hle) hsize halloc)

/-! ### Runs with requests of any size -/

/-- Any 64-bit size, only pointers of live blocks or null, only writes inside live
blocks. -/
def Usable (s : Clients) : Call → Prop
  | .alloc size => size < 2 ^ 64
  | .free ptr => ptr = 0 ∨ s.IsLive ptr
  | .realloc ptr size => (ptr = 0 ∨ s.IsLive ptr) ∧ size < 2 ^ 64
  | .write addr _ => ∃ b ∈ s.live, addr ∈ b.bytes

theorem Invariant.capacity_le (hinv : Invariant h live free) {b : Block} (hb : b ∈ live) :
    orderOf b.ptr < 24 := by
  obtain ⟨i, _, hbi, _⟩ := hinv.held b hb
  rw [hbi.orderOf_eq i.isLt (hinv.region i).watermark_le]
  exact i.isLt

theorem memRealloc_large (hinv : Invariant h live free) {ptr p : ℕ} {h' : HeapState}
    (hptr : ptr = 0 ∨ ∃ b ∈ live, b.ptr = ptr) (h1 : size1GB < size) (h2 : size < 2 ^ 64)
    (hre : memRealloc h ptr size = .ok (p, h')) : p = 0 ∧ h' = h := by
  have hmove : ∀ {oldMaxSize}, moveBlock h ptr oldMaxSize size = .ok (p, h') → p = 0 ∧ h' = h := by
    intro oldMaxSize hm
    unfold moveBlock at hm
    cases halloc : memAlloc h size with
    | error e =>
      rw [halloc] at hm
      cases hm
    | ok r =>
      obtain ⟨hp, hh⟩ := memAlloc_large h1 h2 halloc
      rw [halloc] at hm
      simp only [bind, Except.bind, hp, hh, ↓reduceIte, pure, Except.pure] at hm
      cases hm
      exact ⟨rfl, rfl⟩
  unfold size1GB at h1
  rw [memRealloc, if_neg (by omega)] at hre
  rcases hptr with rfl | ⟨b, hb, rfl⟩
  · rw [if_pos rfl] at hre
    exact hmove hre
  · have hcap : 1 <<< (orderOf b.ptr + 3) ≤ 2 ^ 26 := by
      have := hinv.capacity_le hb
      rw [Nat.one_shiftLeft]
      exact Nat.pow_le_pow_right (by decide) (by omega)
    obtain ⟨i, _, hbi, _⟩ := hinv.held b hb
    simp only [if_neg hbi.ne_zero] at hre
    rw [if_neg (by omega)] at hre
    exact hmove hre

/-- A step with a request beyond 1GB changes nothing. -/
theorem step_usable {s s' : Clients} (hinv : Invariant s.heap s.live free) {c : Call}
    (hc : Usable s c) (hs : s.step c = .ok s') : Permitted s c ∨ s' = s := by
  cases c with
  | alloc size =>
    by_cases hsize : size ≤ size1GB
    · exact .inl hsize
    · cases halloc : memAlloc s.heap size with
      | error e =>
        simp only [Clients.step, halloc] at hs
        cases hs
      | ok r =>
        obtain ⟨hp, hh⟩ := memAlloc_large (by omega) hc halloc
        simp only [Clients.step, halloc, bind, Except.bind, pure, Except.pure, hp, hh] at hs
        cases hs
        exact .inr rfl
  | free ptr => exact .inl hc
  | realloc ptr size =>
    by_cases hsize : size ≤ size1GB
    · exact .inl ⟨hc.1, hsize⟩
    · cases hre : memRealloc s.heap ptr size with
      | error e =>
        simp only [Clients.step, hre] at hs
        cases hs
      | ok r =>
        obtain ⟨hp, hh⟩ := memRealloc_large hinv hc.1 (by omega) hc.2 hre
        have hlive : relocated s.live ptr size 0 = s.live := by
          rw [relocated, if_neg (by omega), if_pos rfl]
        simp only [Clients.step, hre, hp, hh, bind, Except.bind, pure, Except.pure, hlive] at hs
        cases hs
        exact .inr rfl
  | write addr byte => exact .inl hc

theorem reachable_of_usable {memory : Memory} {s : Clients}
    (hrun : Reaches Clients.step Usable (booted memory) s) : Reachable s := by
  apply hrun.invariant (motive := Reachable)
  · exact ⟨memory, Reaches.refl _⟩
  · intro u c v hu hc hv
    obtain ⟨free, hinv⟩ := hu.invariant
    rcases step_usable hinv hc hv with hperm | rfl
    · obtain ⟨m, hm⟩ := hu
      exact ⟨m, hm.snoc c hperm hv⟩
    · exact hu

/-! ### What a request gets -/

theorem takeBlock_watermark (h : HeapState) (i o : Fin 24) (alignedSize : ℕ) :
    ((takeBlock h i alignedSize).2.regions o).watermark = (h.regions o).watermark ∨
      o = i ∧ ((takeBlock h i alignedSize).2.regions o).watermark =
        (h.regions o).watermark + alignedSize := by
  by_cases ho : o = i
  · subst ho
    unfold takeBlock
    simp only
    split_ifs
    · exact .inl (by simp [HeapState.setRegion])
    · exact .inr ⟨trivial, by simp [HeapState.setRegion]⟩
    · exact .inl rfl
  · left
    unfold takeBlock
    simp only
    split_ifs <;> simp [HeapState.setRegion, ho]

/-- The request returns null or a block of the least order that holds it, a request
beyond the biggest order returns null and changes nothing, and every watermark
stays or moves up by one block of its order. -/
def ServesRequest (h : HeapState) (size : ℕ) : Prop :=
  ∃ p h', memAlloc h size = .ok (p, h') ∧
    (p = 0 ∨ ∃ order < 24, size ≤ blockSize order ∧ (∀ o, size ≤ blockSize o → order ≤ o) ∧
      blockSize order ∣ p ∧ allocRegionBottom order ≤ p ∧
      p + blockSize order ≤ allocRegionTop order) ∧
    (blockSize 23 < size → p = 0 ∧ h' = h) ∧
    ∀ o, (h'.regions o).watermark = (h.regions o).watermark ∨
      (h'.regions o).watermark = (h.regions o).watermark + blockSize o

theorem servesRequest_null (halloc : memAlloc h size = .ok (0, h)) : ServesRequest h size :=
  ⟨0, h, halloc, .inl rfl, fun _ => ⟨rfl, rfl⟩, fun _ => .inl rfl⟩

theorem servesRequest_small (hinv : Invariant h live free) (hsize : size ≤ size1GB) :
    ServesRequest h size := by
  obtain ⟨order, hc, hle, hleast⟩ := sizeClass_spec hsize
  have halloc := memAlloc_eq (h := h) hc
  by_cases ho : order < 24
  · rw [dif_pos ho] at halloc
    rcases takeBlock_spec hinv ⟨order, ho⟩ hle with hb | ⟨p, h', free', hb, hp, hinv'⟩
    · exact servesRequest_null (halloc.trans (by rw [hb]))
    · have hsound := hinv'.sound List.mem_cons_self
      refine ⟨p, h', by rw [halloc, hb], .inr ⟨order, ho, hle, hleast, hsound.aligned,
        hsound.window⟩, fun hbig => ?_, fun o => ?_⟩
      · have hmono : blockSize order ≤ blockSize 23 :=
          Nat.pow_le_pow_right (by decide) (by omega)
        omega
      · have hw := takeBlock_watermark h ⟨order, ho⟩ o (blockSize order)
        simp only at hb
        rw [hb] at hw
        rcases hw with hw | ⟨rfl, hw⟩
        · exact .inl hw
        · exact .inr hw
  · rw [dif_neg ho] at halloc
    exact servesRequest_null halloc

/-- In every reachable state a request is served as it should be exactly when it
is for at most 2GB. -/
theorem servesRequest_iff {memory : Memory} {s : Clients}
    (hrun : Reaches Clients.step Usable (booted memory) s) {size : ℕ} (hsize : size < 2 ^ 64) :
    ServesRequest s.heap size ↔ size ≤ 2 ^ 31 := by
  obtain ⟨free, hinv⟩ := (reachable_of_usable hrun).invariant
  constructor
  · rintro ⟨p, h', halloc, -⟩
    by_contra hbig
    rw [memAlloc_outOfRange (by omega) hsize] at halloc
    cases halloc
  · intro hle
    by_cases h1 : size ≤ size1GB
    · exact servesRequest_small hinv h1
    · exact servesRequest_null (memAlloc_signBit (by omega) hle)

theorem servesRequest_first : ServesRequest (booted fun _ => 0).heap 24 :=
  (servesRequest_iff (Reaches.refl (booted fun _ => 0)) (show 24 < 2 ^ 64 by decide)).mpr
    (by decide)

/-- A first request, for 2GB and a byte, shifts out of range. -/
theorem request_beyond_2GB :
    ¬ ∀ (memory : Memory) (s : Clients), Reaches Clients.step Usable (booted memory) s →
      ∀ size < 2 ^ 64, ServesRequest s.heap size := by
  intro h
  obtain ⟨p, h', halloc, -⟩ := h (fun _ => 0) _ (Reaches.refl _) (2 ^ 31 + 1) (by decide)
  rw [memAlloc_outOfRange (by decide) (by decide)] at halloc
  cases halloc

end TomatOS.Heap
