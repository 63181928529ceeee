import Mathlib.Algebra.Ring.Nat
import Mathlib.Logic.Function.Basic

/-! Byte-addressed memory with little-endian words, and lists that are linked
through the first word of their own nodes. A list depends on nothing but those
words, so it survives every write elsewhere. -/

namespace TomatOS.Foundation.LinkedMemory

/-- The contents of every byte. -/
abbrev Memory := ℕ → UInt8

/-- The little-endian number in the `n` bytes at `a`. -/
def loadBytes (m : Memory) (a : ℕ) : ℕ → ℕ
  | 0 => 0
  | n + 1 => (m a).toNat + 256 * loadBytes m (a + 1) n

/-- Write the low `n` bytes of `v` at `a`. -/
def storeBytes (m : Memory) (a v : ℕ) : ℕ → Memory
  | 0 => m
  | n + 1 => Function.update (storeBytes m (a + 1) (v / 256) n) a (UInt8.ofNat v)

/-- Copy `n` bytes from `src` to `dst`, all read before any is written. -/
def copyBytes (m : Memory) (dst src n : ℕ) : Memory := fun a =>
  if dst ≤ a ∧ a < dst + n then m (src + (a - dst)) else m a

variable {m m' : Memory} {a b v n : ℕ}

theorem loadBytes_congr (h : ∀ x, a ≤ x → x < a + n → m' x = m x) :
    loadBytes m' a n = loadBytes m a n := by
  induction n generalizing a with
  | zero => rfl
  | succ n ih =>
    unfold loadBytes
    rw [h a (Nat.le_refl a) (by omega), ih fun x hx hx' => h x (by omega) (by omega)]

/-- What is read depends on the bytes only, not on where they are. -/
theorem loadBytes_shift (h : ∀ i < n, m' (b + i) = m (a + i)) :
    loadBytes m' b n = loadBytes m a n := by
  induction n generalizing a b with
  | zero => rfl
  | succ n ih =>
    have hfirst := h 0 (Nat.zero_lt_succ n)
    rw [Nat.add_zero, Nat.add_zero] at hfirst
    unfold loadBytes
    rw [hfirst, ih fun i hi => ?_]
    rw [Nat.add_right_comm, Nat.add_right_comm a]
    exact h (i + 1) (Nat.succ_lt_succ hi)

theorem loadBytes_lt (m : Memory) (a n : ℕ) : loadBytes m a n < 256 ^ n := by
  induction n generalizing a with
  | zero => exact Nat.one_pos
  | succ n ih =>
    have hbyte : (m a).toNat < 256 := (m a).toNat_lt
    have hrest := ih (a + 1)
    unfold loadBytes
    rw [Nat.pow_succ']
    omega

theorem storeBytes_apply_of_outside (h : b < a ∨ a + n ≤ b) : storeBytes m a v n b = m b := by
  induction n generalizing a v with
  | zero => rfl
  | succ n ih =>
    unfold storeBytes
    rw [Function.update_of_ne (by omega)]
    exact ih (by omega)

theorem copyBytes_apply_of_outside {dst src : ℕ} (h : b < dst ∨ dst + n ≤ b) :
    copyBytes m dst src n b = m b := by
  unfold copyBytes
  rw [if_neg (by omega)]

theorem loadBytes_storeBytes : loadBytes (storeBytes m a v n) a n = v % 256 ^ n := by
  induction n generalizing a v with
  | zero => simp [loadBytes, Nat.mod_one]
  | succ n ih =>
    have hrest : loadBytes (storeBytes m a v (n + 1)) (a + 1) n =
        loadBytes (storeBytes m (a + 1) (v / 256) n) (a + 1) n := by
      apply loadBytes_congr
      intro x hx _
      exact Function.update_of_ne (by omega) _ _
    have hbyte : (storeBytes m a v (n + 1) a).toNat = v % 256 := by
      unfold storeBytes
      rw [Function.update_self]
      exact UInt8.toNat_ofNat'
    unfold loadBytes
    rw [hrest, ih, hbyte, Nat.pow_succ', Nat.mod_mul]

/-- A write elsewhere does not change what is read. -/
theorem loadBytes_storeBytes_apart {k : ℕ} (h : a + n ≤ b ∨ b + k ≤ a) :
    loadBytes (storeBytes m b v k) a n = loadBytes m a n := by
  apply loadBytes_congr
  intro x hx hx'
  exact storeBytes_apply_of_outside (by omega)

theorem loadBytes_zero (h : ∀ x, a ≤ x → x < a + n → m x = 0) : loadBytes m a n = 0 := by
  induction n generalizing a with
  | zero => rfl
  | succ n ih =>
    unfold loadBytes
    rw [h a (Nat.le_refl a) (by omega), ih fun x hx hx' => h x (by omega) (by omega)]
    rfl

/-! ### Lists linked through their nodes -/

/-- The pointer stored in the eight bytes at `p`. -/
def next (m : Memory) (p : ℕ) : ℕ := loadBytes m p 8

def setNext (m : Memory) (p v : ℕ) : Memory := storeBytes m p v 8

/-- The nodes met by following pointers from a head, with 0 as the end. -/
inductive Linked (m : Memory) : ℕ → List ℕ → Prop
  | nil : Linked m 0 []
  | cons {p : ℕ} {l : List ℕ} : p ≠ 0 → Linked m (next m p) l → Linked m p (p :: l)

theorem next_congr {p : ℕ} (h : ∀ x, p ≤ x → x < p + 8 → m' x = m x) : next m' p = next m p :=
  loadBytes_congr h

theorem next_setNext {p : ℕ} (hv : v < 2 ^ 64) : next (setNext m p v) p = v := by
  unfold next setNext
  rw [loadBytes_storeBytes]
  exact Nat.mod_eq_of_lt hv

variable {p : ℕ} {l : List ℕ}

theorem Linked.frame (h : Linked m p l) (hl : ∀ q ∈ l, next m' q = next m q) :
    Linked m' p l := by
  induction h with
  | nil => exact Linked.nil
  | cons hp _ ih =>
    apply Linked.cons hp
    rw [hl _ List.mem_cons_self]
    exact ih fun q hq => hl q (List.mem_cons_of_mem _ hq)

/-- A nonempty list starts at its head and goes on at the pointer stored there. -/
theorem Linked.pop (h : Linked m p l) (hp : p ≠ 0) : ∃ l', l = p :: l' ∧ Linked m (next m p) l' := by
  cases h with
  | nil => exact absurd rfl hp
  | cons _ hl => exact ⟨_, rfl, hl⟩

/-- Writing the old head into a node outside the list puts that node in front. -/
theorem Linked.push {q : ℕ} (h : Linked m p l) (hq : q ≠ 0) (hp : p < 2 ^ 64)
    (hl : ∀ r ∈ l, r + 8 ≤ q ∨ q + 8 ≤ r) : Linked (setNext m q p) q (q :: l) := by
  apply Linked.cons hq
  rw [next_setNext hp]
  apply h.frame
  intro r hr
  apply next_congr
  intro x _ _
  have := hl r hr
  exact storeBytes_apply_of_outside (by omega)

end TomatOS.Foundation.LinkedMemory
