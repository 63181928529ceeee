import TomatOS.Foundation.LinkedMemory
import Mathlib.Algebra.Order.Ring.Nat

/-! Copying bytes, from `kernel/lib/string.c`. `rep movsb` copies one byte after
the other upwards, which is right unless the destination starts inside the source.
There `memmove` copies chunks of the distance between the two from the top
downwards. The pointers it keeps for the next chunk are those of a whole chunk, so
the last, shorter one is copied to the wrong place: the copy is right exactly when
there is none, that is when the distance divides the length. -/

namespace TomatOS.Lib

open Foundation.LinkedMemory

/-- Addresses are 64 bits wide. -/
def addPtr (p n : ℕ) : ℕ := (p + n) % 2 ^ 64

theorem addPtr_le (p n : ℕ) : addPtr p n ≤ p + n := Nat.mod_le _ _

def subPtr (p n : ℕ) : ℕ := (p + (2 ^ 64 - n)) % 2 ^ 64

/-- `__rep_movsb`: a copy upwards, byte by byte. -/
def repMovsb (m : Memory) (dest src : ℕ) : ℕ → Memory
  | 0 => m
  | n + 1 => repMovsb (Function.update m dest (m src)) (addPtr dest 1) (addPtr src 1) n

def memcpy (m : Memory) (dest src n : ℕ) : ℕ × Memory :=
  if n = 0 then (dest, m) else (dest, repMovsb m dest src n)

/-- The loop of `memmove` over the chunks, which is entered with more than a chunk
left: the memory, the two pointers and the length after it. -/
def moveChunks (tailSize : ℕ) (m : Memory) (dest src n : ℕ) (hpos : 0 < tailSize)
    (_hlt : tailSize < n) : Memory × ℕ × ℕ × ℕ :=
  let m := repMovsb m dest src tailSize
  let dest := subPtr dest tailSize
  let src := subPtr src tailSize
  if h : tailSize < n - tailSize then moveChunks tailSize m dest src (n - tailSize) hpos h
  else (m, dest, src, n - tailSize)
termination_by n
decreasing_by exact Nat.sub_lt (Nat.zero_lt_of_lt _hlt) hpos

def memmove (m : Memory) (dest src n : ℕ) : ℕ × Memory :=
  if n = 0 ∨ dest = src then (dest, m)
  else if h : src < dest ∧ dest < addPtr src n then
    let tailSize := dest - src
    let (m, dest', src', n') := moveChunks tailSize m (addPtr dest (n - tailSize))
      (addPtr src (n - tailSize)) n (by omega) (by have := addPtr_le src n; omega)
    (dest, if n' ≠ 0 then repMovsb m dest' src' n' else m)
  else (dest, repMovsb m dest src n)

/-- One `__rep_movsb`. -/
structure Copy where
  dest : ℕ
  src : ℕ
  length : ℕ

def Copy.run (m : Memory) (c : Copy) : Memory := repMovsb m c.dest c.src c.length

/-- What it reads and what it writes, each with its first address and its length. -/
def Copy.areas (c : Copy) : List (ℕ × ℕ) := [(c.src, c.length), (c.dest, c.length)]

/-- The copies of the loop and the one behind it. -/
def chunkCopies (tailSize dest src n : ℕ) (hpos : 0 < tailSize) (_hlt : tailSize < n) :
    List Copy :=
  ⟨dest, src, tailSize⟩ ::
    if h : tailSize < n - tailSize then
      chunkCopies tailSize (subPtr dest tailSize) (subPtr src tailSize) (n - tailSize) hpos h
    else if n - tailSize ≠ 0 then
      [⟨subPtr dest tailSize, subPtr src tailSize, n - tailSize⟩]
    else []
termination_by n
decreasing_by exact Nat.sub_lt (Nat.zero_lt_of_lt _hlt) hpos

/-- The copies that `memmove` makes, in their order. -/
def copies (dest src n : ℕ) : List Copy :=
  if n = 0 ∨ dest = src then []
  else if h : src < dest ∧ dest < addPtr src n then
    chunkCopies (dest - src) (addPtr dest (n - (dest - src))) (addPtr src (n - (dest - src))) n
      (by omega) (by have := addPtr_le src n; omega)
  else [⟨dest, src, n⟩]

/-! ### Copying upwards -/

variable {m : Memory} {dest src n : ℕ}

theorem repMovsb_outside {a : ℕ} (hd : dest + n ≤ 2 ^ 64) (h : a < dest ∨ dest + n ≤ a) :
    repMovsb m dest src n a = m a := by
  induction n generalizing m dest src with
  | zero => rfl
  | succ n ih =>
    rw [repMovsb]
    by_cases hn : n = 0
    · subst hn
      rw [repMovsb, Function.update_of_ne (by omega)]
    · have hnext : addPtr dest 1 = dest + 1 := Nat.mod_eq_of_lt (by omega)
      rw [hnext, ih (by omega) (by omega), Function.update_of_ne (by omega)]

/-- A copy upwards reads every byte before it is overwritten unless the
destination starts inside the source. -/
theorem repMovsb_eq_copyBytes (hd : dest + n ≤ 2 ^ 64) (hs : src + n ≤ 2 ^ 64)
    (h : dest ≤ src ∨ src + n ≤ dest) : repMovsb m dest src n = copyBytes m dest src n := by
  induction n generalizing m dest src with
  | zero =>
    funext a
    rw [repMovsb, copyBytes_apply_of_outside (by omega)]
  | succ n ih =>
    rw [repMovsb]
    by_cases hn : n = 0
    · subst hn
      funext a
      rw [repMovsb, copyBytes, Function.update_apply]
      by_cases ha : a = dest
      · subst ha
        simp
      · rw [if_neg ha, if_neg (by omega)]
    · have hdest : addPtr dest 1 = dest + 1 := Nat.mod_eq_of_lt (by omega)
      have hsrc : addPtr src 1 = src + 1 := Nat.mod_eq_of_lt (by omega)
      rw [hdest, hsrc, ih (by omega) (by omega) (by omega)]
      funext a
      rw [copyBytes, copyBytes]
      by_cases ha : a = dest
      · subst ha
        rw [if_neg (by omega), if_pos (by omega), Function.update_self, Nat.sub_self, Nat.add_zero]
      · by_cases hin : dest ≤ a ∧ a < dest + (n + 1)
        · rw [if_pos (by omega), if_pos hin, Function.update_of_ne (by omega)]
          congr 1
          omega
        · rw [if_neg (by omega), if_neg hin, Function.update_of_ne ha]

theorem memcpy_eq_copyBytes (hd : dest + n ≤ 2 ^ 64) (hs : src + n ≤ 2 ^ 64)
    (h : dest + n ≤ src ∨ src + n ≤ dest) : memcpy m dest src n = (dest, copyBytes m dest src n) := by
  rw [memcpy, ← repMovsb_eq_copyBytes hd hs (by omega)]
  split_ifs with hn
  · rw [hn, repMovsb]
  · rfl

/-! ### Copying chunks downwards -/

/-- The loop over the chunks, entered with the pointers of the topmost one of `n`
bytes: it leaves one chunk or less uncopied, and the pointers one chunk below the
end of what is left. -/
theorem moveChunks_spec {tailSize : ℕ} (hpos : 0 < tailSize) (hlt : tailSize < n)
    (hd : src + tailSize + n ≤ 2 ^ 64) :
    ∃ m' k n', moveChunks tailSize m (src + n) (src + n - tailSize) n hpos hlt =
        (m', src + n', subPtr (src + n') tailSize, n') ∧
      n = n' + k * tailSize ∧ 0 < n' ∧ n' ≤ tailSize ∧
      ∀ a, m' a = if src + tailSize + n' ≤ a ∧ a < src + tailSize + n then m (a - tailSize)
        else m a := by
  induction n using Nat.strong_induction_on generalizing m with
  | _ n ih =>
    rw [moveChunks]
    have hcopy : repMovsb m (src + n) (src + n - tailSize) tailSize =
        copyBytes m (src + n) (src + n - tailSize) tailSize :=
      repMovsb_eq_copyBytes (by omega) (by omega) (by omega)
    have hdest : subPtr (src + n) tailSize = src + (n - tailSize) := by
      rw [subPtr]
      omega
    have hsrc : subPtr (src + n - tailSize) tailSize = subPtr (src + (n - tailSize)) tailSize := by
      rw [Nat.add_sub_assoc hlt.le]
    rw [hcopy, hdest, hsrc]
    by_cases h : tailSize < n - tailSize
    · rw [dif_pos h]
      have hback : subPtr (src + (n - tailSize)) tailSize = src + (n - tailSize) - tailSize := by
        rw [subPtr]
        omega
      obtain ⟨m', k, n', hrun, hn, hn0, hn', hm'⟩ := @ih (n - tailSize) (by omega)
        (copyBytes m (src + n) (src + n - tailSize) tailSize) h (by omega)
      rw [hback]
      refine ⟨m', k + 1, n', hrun, by rw [Nat.add_one_mul]; omega, hn0, hn', fun a => ?_⟩
      -- what the later chunks read is below what this one wrote
      rw [hm' a]
      by_cases hlow : src + tailSize + n' ≤ a ∧ a < src + tailSize + (n - tailSize)
      · rw [if_pos hlow, if_pos (by omega), copyBytes_apply_of_outside (by omega)]
      · rw [if_neg hlow, copyBytes]
        by_cases htop : src + n ≤ a ∧ a < src + n + tailSize
        · rw [if_pos htop, if_pos (by omega)]
          congr 1
          omega
        · rw [if_neg htop, if_neg (by omega)]
    · rw [dif_neg h]
      refine ⟨_, 1, n - tailSize, rfl, by omega, by omega, by omega, fun a => ?_⟩
      rw [copyBytes]
      by_cases htop : src + n ≤ a ∧ a < src + n + tailSize
      · rw [if_pos htop, if_pos (by omega)]
        congr 1
        omega
      · rw [if_neg htop, if_neg (by omega)]

/-! ### `memmove` -/

/-- The destination starts inside the source. -/
def OverlapsAbove (dest src n : ℕ) : Prop := src < dest ∧ dest < src + n
  deriving Decidable

/-- The `n` bytes at `dest` are those that were at `src`, and all others are as
they were. -/
def Moved (m m' : Memory) (dest src n : ℕ) : Prop :=
  (∀ i < n, m' (dest + i) = m (src + i)) ∧ ∀ a, a < dest ∨ dest + n ≤ a → m' a = m a

theorem moved_copyBytes : Moved m (copyBytes m dest src n) dest src n := by
  constructor
  · intro i hi
    rw [copyBytes, if_pos (by omega), Nat.add_sub_cancel_left]
  · intro a ha
    exact copyBytes_apply_of_outside ha

theorem memmove_apart (hd : dest + n ≤ 2 ^ 64) (hs : src + n ≤ 2 ^ 64)
    (h : ¬ OverlapsAbove dest src n) : Moved m (memmove m dest src n).2 dest src n := by
  rw [memmove]
  split_ifs with htriv hover
  · refine ⟨fun i hi => ?_, fun a _ => rfl⟩
    rcases htriv with hn | heq
    · omega
    · rw [heq]
  · have := addPtr_le src n
    exact absurd ⟨hover.1, by omega⟩ h
  · rw [repMovsb_eq_copyBytes hd hs (by unfold OverlapsAbove at h; omega)]
    exact moved_copyBytes

/-- With an overlap: all but the lowest `n'` bytes are copied by the loop, and then
`n'` bytes to the address `n'` above the source, which is the destination only for
a whole chunk. -/
theorem memmove_overlap (hd : dest + n ≤ 2 ^ 64) (h : OverlapsAbove dest src n) :
    ∃ m' k n', n = n' + k * (dest - src) ∧ 0 < n' ∧ n' ≤ dest - src ∧
      (memmove m dest src n).2 = repMovsb m' (src + n') (subPtr (src + n') (dest - src)) n' ∧
      ∀ a, m' a = if dest + n' ≤ a ∧ a < dest + n then m (a - (dest - src)) else m a := by
  obtain ⟨hlt, hin⟩ := h
  have hend : addPtr src n = src + n := Nat.mod_eq_of_lt (by omega)
  have hdest : addPtr dest (n - (dest - src)) = src + n := by
    rw [addPtr]
    omega
  have hsrc : addPtr src (n - (dest - src)) = src + n - (dest - src) := by
    rw [addPtr]
    omega
  obtain ⟨m', k, n', hrun, hn, hn0, hn', hm'⟩ := moveChunks_spec (m := m)
    (show 0 < dest - src by omega) (show dest - src < n by omega)
    (show src + (dest - src) + n ≤ 2 ^ 64 by omega)
  refine ⟨m', k, n', hn, hn0, hn', ?_, ?_⟩
  · rw [memmove, if_neg (by omega), dif_pos ⟨hlt, by omega⟩]
    simp only [hdest, hsrc, hrun]
    rw [if_pos (by omega)]
  · rwa [Nat.add_sub_cancel' hlt.le] at hm'

theorem memmove_whole_chunks (hd : dest + n ≤ 2 ^ 64) (h : OverlapsAbove dest src n)
    (hdvd : dest - src ∣ n) : Moved m (memmove m dest src n).2 dest src n := by
  obtain ⟨m', k, n', hn, hn0, hn', hres, hm'⟩ := memmove_overlap (m := m) hd h
  obtain ⟨hlt, hin⟩ := h
  have hwhole : n' = dest - src := by
    rw [hn, Nat.dvd_add_left (Nat.dvd_mul_left _ k)] at hdvd
    exact le_antisymm hn' (Nat.le_of_dvd hn0 hdvd)
  have hdest : src + n' = dest := by omega
  have hsrc : subPtr dest (dest - src) = src := by
    rw [subPtr]
    omega
  rw [hres, hdest, hsrc, repMovsb_eq_copyBytes (by omega) (by omega) (by omega)]
  constructor
  · intro i hi
    rw [copyBytes]
    by_cases hlow : i < n'
    · rw [if_pos (by omega), hm', if_neg (by omega), Nat.add_sub_cancel_left]
    · rw [if_neg (by omega), hm', if_pos (by omega)]
      congr 1
      omega
  · intro a ha
    rw [copyBytes_apply_of_outside (by omega), hm', if_neg (by omega)]

/-- The last byte of a partial chunk is never written. -/
theorem memmove_partial_chunk (hd : dest + n ≤ 2 ^ 64) (h : OverlapsAbove dest src n)
    (hdvd : ¬ dest - src ∣ n) : ∃ i < n, ∀ m, (memmove m dest src n).2 (dest + i) = m (dest + i) := by
  refine ⟨n % (dest - src) - 1, ?_, fun m => ?_⟩
  · have := Nat.mod_le n (dest - src)
    have := h.2
    omega
  · obtain ⟨m', k, n', hn, hn0, hn', hres, hm'⟩ := memmove_overlap (m := m) hd h
    obtain ⟨hlt, hin⟩ := h
    have hpartial : n' < dest - src := by
      apply lt_of_le_of_ne hn'
      rintro rfl
      exact hdvd ⟨k + 1, by rw [Nat.mul_add_one, Nat.mul_comm]; omega⟩
    have hmod : n % (dest - src) = n' := by
      rw [hn, Nat.add_mul_mod_self_right, Nat.mod_eq_of_lt hpartial]
    rw [hmod, hres, repMovsb_outside (by omega) (by omega), hm', if_neg (by omega)]

/-! ### The copies of `memmove` -/

theorem moveChunks_eq_copies {tailSize : ℕ} (hpos : 0 < tailSize) (hlt : tailSize < n) :
    (let (m', dest', src', n') := moveChunks tailSize m dest src n hpos hlt
      if n' ≠ 0 then repMovsb m' dest' src' n' else m') =
      (chunkCopies tailSize dest src n hpos hlt).foldl Copy.run m := by
  induction n using Nat.strong_induction_on generalizing m dest src with
  | _ n ih =>
    rw [moveChunks, chunkCopies, List.foldl_cons]
    by_cases h : tailSize < n - tailSize
    · simp only [dif_pos h]
      exact ih (n - tailSize) (by omega) h
    · simp only [dif_neg h]
      split_ifs with hrest
      · rfl
      · rfl

/-- `memmove` is its copies, one after the other. -/
theorem memmove_eq_copies : (memmove m dest src n).2 = (copies dest src n).foldl Copy.run m := by
  rw [memmove, copies]
  split_ifs with htriv hover
  · rfl
  · exact moveChunks_eq_copies _ _
  · rfl

/-- A copy reads inside the source and writes inside the destination. -/
def Copy.Inside (c : Copy) (dest src n : ℕ) : Prop :=
  (dest ≤ c.dest ∧ c.dest + c.length ≤ dest + n) ∧ src ≤ c.src ∧ c.src + c.length ≤ src + n

theorem chunkCopies_inside {tailSize : ℕ} (hpos : 0 < tailSize) (hlt : tailSize < n)
    (hd : src + tailSize + n ≤ 2 ^ 64) (hdvd : tailSize ∣ n) :
    ∀ c ∈ chunkCopies tailSize (src + n) (src + n - tailSize) n hpos hlt,
      c.Inside (src + tailSize) src n := by
  induction n using Nat.strong_induction_on with
  | _ n ih =>
    have hrest : tailSize ∣ n - tailSize := Nat.dvd_sub hdvd (dvd_refl tailSize)
    -- what is left is a whole chunk at least
    have hwhole : tailSize ≤ n - tailSize := Nat.le_of_dvd (by omega) hrest
    have hdest : subPtr (src + n) tailSize = src + (n - tailSize) := by
      rw [subPtr]
      omega
    have hsrc : subPtr (src + n - tailSize) tailSize = src + (n - tailSize) - tailSize := by
      rw [subPtr]
      omega
    intro c hc
    rw [chunkCopies, hdest, hsrc] at hc
    rcases List.mem_cons.mp hc with rfl | hc
    · constructor <;> dsimp only <;> omega
    · split_ifs at hc with h hlast
      · obtain ⟨⟨hd1, hd2⟩, hs1, hs2⟩ := ih (n - tailSize) (by omega) h (by omega) hrest c hc
        exact ⟨⟨hd1, by omega⟩, hs1, by omega⟩
      · rw [List.mem_singleton] at hc
        subst hc
        constructor <;> dsimp only <;> omega
      · cases hc

theorem copies_inside (hd : dest + n ≤ 2 ^ 64) (h : OverlapsAbove dest src n → dest - src ∣ n) :
    ∀ c ∈ copies dest src n, c.Inside dest src n := by
  intro c hc
  rw [copies] at hc
  split_ifs at hc with htriv hover
  · cases hc
  · have hle := addPtr_le src n
    have hdest : addPtr dest (n - (dest - src)) = src + n := by
      rw [addPtr]
      omega
    have hsrc : addPtr src (n - (dest - src)) = src + n - (dest - src) := by
      rw [addPtr]
      omega
    simp only [hdest, hsrc] at hc
    have hin := chunkCopies_inside (show 0 < dest - src by omega) (show dest - src < n by omega)
      (by omega) (h ⟨hover.1, by omega⟩) c hc
    rwa [Nat.add_sub_cancel' hover.1.le] at hin
  · rw [List.mem_singleton] at hc
    subst hc
    exact ⟨⟨le_refl _, le_refl _⟩, le_refl _, le_refl _⟩

/-- `memmove` moves every content exactly when the destination does not start
inside the source or the distance between the two divides the length. -/
theorem memmove_moves_iff (dest src n : ℕ) (hd : dest + n ≤ 2 ^ 64) (hs : src + n ≤ 2 ^ 64) :
    (∀ m, Moved m (memmove m dest src n).2 dest src n) ↔
      ¬ OverlapsAbove dest src n ∨ dest - src ∣ n := by
  constructor
  · intro hall
    by_contra hbad
    obtain ⟨h, hdvd⟩ := not_or.mp hbad
    rw [not_not] at h
    obtain ⟨i, hi, hkept⟩ := memmove_partial_chunk hd h hdvd
    -- a memory in which this byte alone differs
    have hmoved := (hall (Function.update (fun _ => 0) (dest + i) 1)).1 i hi
    have hne : src + i ≠ dest + i := by
      have := h.1
      omega
    rw [hkept, Function.update_self, Function.update_of_ne hne] at hmoved
    exact absurd hmoved (by decide)
  · rintro (h | hdvd) m
    · exact memmove_apart hd hs h
    · by_cases h : OverlapsAbove dest src n
      · exact memmove_whole_chunks hd h hdvd
      · exact memmove_apart hd hs h

theorem memmove_moves_even :
    4098 - 4096 ∣ 4 ∧ ∀ m, Moved m (memmove m 4098 4096 4).2 4098 4096 4 :=
  ⟨by decide, (memmove_moves_iff 4098 4096 4 (by decide) (by decide)).mpr (Or.inr (by decide))⟩

/-- Three bytes moved up by two: the lowest is lost. -/
theorem memmove_three_by_two :
    ¬ ∀ (m : Memory) (dest src n : ℕ), dest + n ≤ 2 ^ 64 → src + n ≤ 2 ^ 64 →
      Moved m (memmove m dest src n).2 dest src n := by
  intro h
  obtain ⟨m', k, n', hn, hn0, hn', hres, hm'⟩ := memmove_overlap
    (m := Function.update (fun _ => 0) 4096 1) (show 4098 + 3 ≤ 2 ^ 64 by decide)
    (show OverlapsAbove 4098 4096 3 by decide)
  have hmoved := (h (Function.update (fun _ => 0) 4096 1) 4098 4096 3 (by decide) (by decide)).1 0
    (by decide)
  have hone : n' = 1 := by omega
  subst hone
  rw [hres, repMovsb_outside (by decide) (by decide), hm'] at hmoved
  exact absurd hmoved (by decide)

end TomatOS.Lib
