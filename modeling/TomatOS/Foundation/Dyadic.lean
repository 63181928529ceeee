import Mathlib.Data.Nat.Bitwise
import Mathlib.Algebra.BigOperators.Group.Finset.Basic
import Mathlib.Algebra.Order.Group.Multiset
import Mathlib.Algebra.Order.Group.Nat
import Mathlib.Tactic.Ring
import Mathlib.Tactic.Linarith

/-! Naturally aligned power-of-two blocks of addresses and multisets of them
that tile a set exactly once. Two aligned blocks are nested or disjoint, so the
block covering the first address of a buddy starts there unless it also covers
the sibling. Coverage is counted with multiplicity: a multiset of blocks tiles
a set when every address of the set is covered once and no other is covered,
which rules out duplicates as well as overlaps. -/

namespace TomatOS.Foundation.Dyadic

/-- The addresses from `base` up to `base + 2^order`. -/
structure Block where
  base : ℕ
  order : ℕ
  deriving DecidableEq, Repr

namespace Block

def Covers (b : Block) (x : ℕ) : Prop := b.base ≤ x ∧ x < b.base + 2 ^ b.order

instance (b : Block) (x : ℕ) : Decidable (b.Covers x) := by unfold Covers; infer_instance

def Aligned (b : Block) : Prop := 2 ^ b.order ∣ b.base

instance (b : Block) : Decidable b.Aligned := by unfold Aligned; infer_instance

theorem covers_base (b : Block) : b.Covers b.base :=
  ⟨le_rfl, Nat.lt_add_of_pos_right (Nat.two_pow_pos _)⟩

/-- An aligned block is one class of the quotient by its size. -/
theorem Aligned.covers_iff {b : Block} (hb : b.Aligned) (x : ℕ) :
    b.Covers x ↔ x / 2 ^ b.order = b.base / 2 ^ b.order := by
  obtain ⟨k, hk⟩ := hb
  have hp : 0 < 2 ^ b.order := Nat.two_pow_pos _
  rw [Covers, hk, Nat.mul_div_cancel_left k hp, Nat.div_eq_iff hp]
  constructor
  · rintro ⟨h1, h2⟩
    rw [mul_comm k]
    omega
  · rintro ⟨h1, h2⟩
    rw [mul_comm k] at h1 h2
    omega

/-- Of two aligned blocks sharing an address the larger contains the smaller. -/
theorem Aligned.nested {b c : Block} (hb : b.Aligned) (hc : c.Aligned) (ho : c.order ≤ b.order)
    {x y : ℕ} (hbx : b.Covers x) (hcx : c.Covers x) (hcy : c.Covers y) : b.Covers y := by
  rw [hb.covers_iff] at hbx ⊢
  rw [hc.covers_iff] at hcx hcy
  have hs : ∀ z, z / 2 ^ b.order = z / 2 ^ c.order / 2 ^ (b.order - c.order) := by
    intro z
    rw [Nat.div_div_eq_div_mul, ← pow_add, Nat.add_sub_cancel' ho]
  rw [hs y, hcy, ← hcx, ← hs x, hbx]

/-- An aligned block covers whole aligned cells no larger than itself. -/
theorem Aligned.covers_of_div_eq {b : Block} (hb : b.Aligned) {k x y : ℕ} (hk : k ≤ b.order)
    (hxy : x / 2 ^ k = y / 2 ^ k) (hy : b.Covers y) : b.Covers x := by
  rw [hb.covers_iff] at hy ⊢
  rw [← hy, ← Nat.add_sub_cancel' hk, pow_add, ← Nat.div_div_eq_div_mul,
    ← Nat.div_div_eq_div_mul, hxy]

/-- An aligned block covering an address aligned to its size starts there. -/
theorem Aligned.base_eq {b : Block} (hb : b.Aligned) {x : ℕ} (hx : 2 ^ b.order ∣ x)
    (h : b.Covers x) : b.base = x := by
  rw [hb.covers_iff] at h
  rw [← Nat.div_mul_cancel hb, ← h, Nat.div_mul_cancel hx]

/-- The lower half of a block. -/
def lower (b : Block) : Block := ⟨b.base, b.order - 1⟩

/-- The upper half of a block. -/
def upper (b : Block) : Block := ⟨b.base + 2 ^ (b.order - 1), b.order - 1⟩

theorem Aligned.lower {b : Block} (hb : b.Aligned) : b.lower.Aligned :=
  (pow_dvd_pow 2 (Nat.sub_le _ _)).trans hb

theorem Aligned.upper {b : Block} (hb : b.Aligned) : b.upper.Aligned :=
  Nat.dvd_add ((pow_dvd_pow 2 (Nat.sub_le _ _)).trans hb) (dvd_refl _)

theorem covers_halves {b : Block} (ho : 0 < b.order) (x : ℕ) :
    b.Covers x ↔ b.lower.Covers x ∨ b.upper.Covers x := by
  have hs : 2 ^ b.order = 2 ^ (b.order - 1) + 2 ^ (b.order - 1) := by
    rw [← two_mul, ← pow_succ', Nat.sub_add_cancel ho]
  simp only [Covers, Block.lower, Block.upper, hs]
  omega

theorem halves_disjoint (b : Block) (x : ℕ) : ¬ (b.lower.Covers x ∧ b.upper.Covers x) := by
  simp only [Covers, Block.lower, Block.upper]
  omega

/-- The first address of the buddy: the other half of the enclosing block. -/
def buddy (b : Block) : ℕ :=
  if b.base % (2 ^ b.order * 2) = 0 then b.base + 2 ^ b.order else b.base - 2 ^ b.order

/-- The enclosing block of twice the size. -/
def parent (b : Block) : Block :=
  if b.base % (2 ^ b.order * 2) = 0 then ⟨b.base, b.order + 1⟩
  else ⟨b.base - 2 ^ b.order, b.order + 1⟩

/-- The buddy as a block. -/
def buddyBlock (b : Block) : Block := ⟨b.buddy, b.order⟩

@[simp] theorem parent_order (b : Block) : b.parent.order = b.order + 1 := by
  unfold parent
  split_ifs <;> rfl

theorem Aligned.base_mod {b : Block} (hb : b.Aligned)
    (h : b.base % (2 ^ b.order * 2) ≠ 0) :
    b.base % (2 ^ b.order * 2) = 2 ^ b.order := by
  obtain ⟨k, hk⟩ := hb
  rw [hk, Nat.mul_mod_mul_left] at h ⊢
  have h2 : k % 2 = 1 := by
    rcases Nat.mod_two_eq_zero_or_one k with h0 | h1
    · simp [h0] at h
    · exact h1
  rw [h2, mul_one]

theorem Aligned.size_le_base {b : Block} (hb : b.Aligned)
    (h : b.base % (2 ^ b.order * 2) ≠ 0) : 2 ^ b.order ≤ b.base :=
  (hb.base_mod h).symm.le.trans (Nat.mod_le _ _)

theorem Aligned.parent {b : Block} (hb : b.Aligned) : b.parent.Aligned := by
  unfold Block.parent Aligned
  split_ifs with h
  · rw [pow_succ]
    exact Nat.dvd_of_mod_eq_zero h
  · simp only [pow_succ]
    have hm := hb.base_mod h
    have hd := Nat.div_add_mod b.base (2 ^ b.order * 2)
    exact ⟨b.base / (2 ^ b.order * 2), by omega⟩

theorem Aligned.buddy {b : Block} (hb : b.Aligned) : b.buddyBlock.Aligned := by
  simp only [buddyBlock, Block.buddy, Aligned]
  split_ifs with h
  · exact Nat.dvd_add hb (dvd_refl _)
  · exact Nat.dvd_sub hb (dvd_refl _)

/-- The two halves of the parent are the block and its buddy. -/
theorem Aligned.covers_parent {b : Block} (hb : b.Aligned) (x : ℕ) :
    b.parent.Covers x ↔ b.Covers x ∨ b.buddyBlock.Covers x := by
  simp only [Block.parent, buddyBlock, Block.buddy, Covers]
  split_ifs with h
  · simp only [pow_succ]
    omega
  · have := hb.size_le_base h
    simp only [pow_succ]
    omega

theorem Aligned.buddy_disjoint {b : Block} (hb : b.Aligned) (x : ℕ) :
    ¬ (b.Covers x ∧ b.buddyBlock.Covers x) := by
  simp only [buddyBlock, Block.buddy, Covers]
  split_ifs with h
  · omega
  · have := hb.size_le_base h
    omega

/-- A block that covers the buddy's first address but not the block itself
starts at the buddy and is no larger. -/
theorem Aligned.starts_at_buddy {b c : Block} (hb : b.Aligned) (hc : c.Aligned)
    (hcy : c.Covers b.buddy) (hn : ¬ c.Covers b.base) : c.base = b.buddy ∧ c.order ≤ b.order := by
  have hpar := b.parent_order
  have hle : c.order ≤ b.order := by
    by_contra hlt
    -- a larger block sharing the buddy's address would contain the whole parent
    have hpy : b.parent.Covers b.buddy :=
      (hb.covers_parent _).mpr (Or.inr b.buddyBlock.covers_base)
    have hpx : b.parent.Covers b.base := (hb.covers_parent _).mpr (Or.inl b.covers_base)
    exact hn (hc.nested hb.parent (by omega) hcy hpy hpx)
  exact ⟨hc.base_eq ((pow_dvd_pow 2 hle).trans hb.buddy) hcy, hle⟩

end Block

/-! ### Counted coverage -/

/-- How many blocks of `M` cover `x`. -/
def cover (M : Multiset Block) (x : ℕ) : ℕ := M.countP (fun b => b.Covers x)

@[simp] theorem cover_zero (x : ℕ) : cover 0 x = 0 := Multiset.countP_zero _

@[simp] theorem cover_add (M N : Multiset Block) (x : ℕ) :
    cover (M + N) x = cover M x + cover N x := Multiset.countP_add _ _ _

theorem cover_cons (b : Block) (M : Multiset Block) (x : ℕ) :
    cover (b ::ₘ M) x = cover M x + if b.Covers x then 1 else 0 := by
  unfold cover
  rw [Multiset.countP_cons]

theorem cover_pos {M : Multiset Block} {x : ℕ} : 0 < cover M x ↔ ∃ b ∈ M, b.Covers x :=
  Multiset.countP_pos

theorem cover_eq_zero {M : Multiset Block} {x : ℕ} :
    cover M x = 0 ↔ ∀ b ∈ M, ¬ b.Covers x := Multiset.countP_eq_zero

theorem cover_sum {ι : Type*} (s : Finset ι) (f : ι → Multiset Block) (x : ℕ) :
    cover (∑ i ∈ s, f i) x = ∑ i ∈ s, cover (f i) x := by
  unfold cover
  exact map_sum (Multiset.countPAddMonoidHom fun b : Block => b.Covers x) f s

theorem cover_le_of_le {M N : Multiset Block} (h : M ≤ N) (x : ℕ) : cover M x ≤ cover N x :=
  Multiset.countP_le_of_le _ h

/-- Two members of a multiset without multiple coverage that share an address
are one occurrence of one block. -/
theorem not_covers_of_cover_le_one {M : Multiset Block} {b c : Block} {x : ℕ}
    (h : cover (b ::ₘ M) x ≤ 1) (hb : b.Covers x) (hc : c ∈ M) : ¬ c.Covers x := by
  intro hcx
  have hpos : 0 < cover M x := cover_pos.mpr ⟨c, hc, hcx⟩
  rw [cover_cons, if_pos hb] at h
  omega

/-- `M` covers every address of `G` exactly once and no other address. -/
structure Tiles (M : Multiset Block) (G : ℕ → Prop) : Prop where
  aligned : ∀ b ∈ M, b.Aligned
  once : ∀ x, G x → cover M x = 1
  outside : ∀ x, ¬ G x → cover M x = 0

namespace Tiles

variable {M : Multiset Block} {G : ℕ → Prop}

theorem cover_le_one (h : Tiles M G) (x : ℕ) : cover M x ≤ 1 := by
  by_cases hx : G x
  · exact (h.once x hx).le
  · exact (h.outside x hx).le.trans zero_le_one

theorem mem_of_covers (h : Tiles M G) {b : Block} (hb : b ∈ M) {x : ℕ} (hx : b.Covers x) : G x := by
  by_contra hn
  exact cover_eq_zero.mp (h.outside x hn) b hb hx

/-- Taking a block out leaves exactly its addresses uncovered. -/
theorem remove {b : Block} (h : Tiles (b ::ₘ M) G) :
    Tiles M (fun x => G x ∧ ¬ b.Covers x) where
  aligned c hc := h.aligned c (Multiset.mem_cons_of_mem hc)
  once x hx := by
    have := h.once x hx.1
    rwa [cover_cons, if_neg hx.2, add_zero] at this
  outside x hx := by
    by_cases hb : b.Covers x
    · have := h.cover_le_one x
      rw [cover_cons, if_pos hb] at this
      omega
    · have := h.outside x (fun hg => hx ⟨hg, hb⟩)
      rwa [cover_cons, if_neg hb, add_zero] at this

/-- Filling in an uncovered aligned block. -/
theorem insert {b : Block} (h : Tiles M G) (hb : b.Aligned) (hn : ∀ x, b.Covers x → ¬ G x) :
    Tiles (b ::ₘ M) (fun x => G x ∨ b.Covers x) where
  aligned c hc := by
    rcases Multiset.mem_cons.mp hc with rfl | hc
    · exact hb
    · exact h.aligned c hc
  once x hx := by
    rw [cover_cons]
    by_cases hbx : b.Covers x
    · rw [if_pos hbx, h.outside x (hn x hbx)]
    · rw [if_neg hbx, h.once x (hx.resolve_right hbx)]
  outside x hx := by
    rw [not_or] at hx
    rw [cover_cons, if_neg hx.2, h.outside x hx.1]

theorem congr {H : ℕ → Prop} (h : Tiles M G) (hG : ∀ x, G x ↔ H x) : Tiles M H := by
  rwa [show H = G from funext fun x => propext (hG x).symm]

/-- One part of a tiling tiles what the other part leaves. -/
theorem left {N : Multiset Block} (h : Tiles (M + N) G) :
    Tiles M (fun x => G x ∧ ∀ b ∈ N, ¬ b.Covers x) where
  aligned b hb := h.aligned b (Multiset.mem_add.mpr (Or.inl hb))
  once x hx := by
    have honce := h.once x hx.1
    rwa [cover_add, cover_eq_zero.mpr hx.2, add_zero] at honce
  outside x hx := by
    by_cases hg : G x
    · have hN : 0 < cover N x := by
        rw [cover_pos]
        by_contra hn
        exact hx ⟨hg, fun b hb hbx => hn ⟨b, hb, hbx⟩⟩
      have hle := h.cover_le_one x
      rw [cover_add] at hle
      omega
    · have hzero := h.outside x hg
      rw [cover_add] at hzero
      omega

/-- When a hole block is being filled, the tile at its buddy's first address
starts there and is no larger than the hole. -/
theorem tile_at_buddy {X : Block} (h : Tiles M G) (hX : X.Aligned)
    (hn : ¬ G X.base) (hy : G X.buddy) :
    ∃ c ∈ M, c.base = X.buddy ∧ c.order ≤ X.order := by
  have hpos : 0 < cover M X.buddy := by rw [h.once _ hy]; exact one_pos
  obtain ⟨c, hc, hcy⟩ := cover_pos.mp hpos
  have hcx : ¬ c.Covers X.base := cover_eq_zero.mp (h.outside _ hn) c hc
  exact ⟨c, hc, hX.starts_at_buddy (h.aligned c hc) hcy hcx⟩

end Tiles

/-! ### Merged tilings -/

namespace Block

theorem Aligned.lower_buddy {b : Block} (hb : b.Aligned) (ho : 0 < b.order) :
    b.lower.buddyBlock = b.upper := by
  have hd : b.base % (2 ^ (b.order - 1) * 2) = 0 := by
    rw [← pow_succ, Nat.sub_add_cancel ho]
    exact Nat.mod_eq_zero_of_dvd hb
  simp only [buddyBlock, Block.buddy, Block.lower, Block.upper, hd, ↓reduceIte]

theorem Aligned.upper_buddy {b : Block} (hb : b.Aligned) (ho : 0 < b.order) :
    b.upper.buddyBlock = b.lower := by
  have hpos : 0 < 2 ^ (b.order - 1) := Nat.two_pow_pos _
  have hd : (b.base + 2 ^ (b.order - 1)) % (2 ^ (b.order - 1) * 2) ≠ 0 := by
    have hdvd : 2 ^ (b.order - 1) * 2 ∣ b.base := by
      rw [← pow_succ, Nat.sub_add_cancel ho]
      exact hb
    rw [Nat.add_mod, Nat.mod_eq_zero_of_dvd hdvd, zero_add, Nat.mod_mod,
      Nat.mod_eq_of_lt (by omega)]
    omega
  simp only [buddyBlock, Block.buddy, Block.lower, Block.upper, hd, ↓reduceIte,
    Nat.add_sub_cancel]

/-- The buddy of the buddy is the block. -/
theorem Aligned.buddy_buddy {b : Block} (hb : b.Aligned) : b.buddyBlock.buddyBlock = b := by
  have hp := hb.parent
  have ho : 0 < b.parent.order := by
    rw [b.parent_order]
    omega
  by_cases h : b.base % (2 ^ b.order * 2) = 0
  · have hlow : b.parent.lower = b := by simp [Block.parent, h, Block.lower]
    rw [← hlow, hp.lower_buddy ho, hp.upper_buddy ho]
  · have hup : b.parent.upper = b := by
      have := hb.size_le_base h
      simp [Block.parent, h, Block.upper, Nat.sub_add_cancel this]
    rw [← hup, hp.upper_buddy ho, hp.lower_buddy ho]

end Block

/-- No two buddies below order `k` are both in `M`. -/
def Merged (k : ℕ) (M : Multiset Block) : Prop := ∀ b ∈ M, b.order < k → b.buddyBlock ∉ M

theorem Merged.mono {k : ℕ} {M N : Multiset Block} (h : Merged k M) (hN : ∀ b ∈ N, b ∈ M) :
    Merged k N := fun b hb ho hbuddy => h b (hN b hb) ho (hN _ hbuddy)

theorem Merged.cons {k : ℕ} {M : Multiset Block} {b : Block} (h : Merged k M)
    (hM : ∀ c ∈ M, c.Aligned) (hb : b.Aligned) (hn : b.order < k → b.buddyBlock ∉ M) :
    Merged k (b ::ₘ M) := by
  intro c hc ho hbuddy
  rcases Multiset.mem_cons.mp hc with rfl | hc
  · rcases Multiset.mem_cons.mp hbuddy with heq | hbuddy
    · have hcov : c.buddyBlock.Covers c.base := by
        rw [heq]
        exact c.covers_base
      exact hb.buddy_disjoint _ ⟨c.covers_base, hcov⟩
    · exact hn ho hbuddy
  · rcases Multiset.mem_cons.mp hbuddy with heq | hbuddy
    · have hback : b.buddyBlock = c := by rw [← heq, (hM c hc).buddy_buddy]
      have hord : b.order = c.order := by rw [← heq]; rfl
      exact hn (by omega) (hback ▸ hc)
    · exact h c hc ho hbuddy

namespace Tiles

variable {M N : Multiset Block} {G : ℕ → Prop} {j k : ℕ}

/-- Two tiles that share an address are one. -/
theorem eq_of_covers (h : Tiles M G) {b c : Block} (hb : b ∈ M) (hc : c ∈ M) {x : ℕ}
    (hbx : b.Covers x) (hcx : c.Covers x) : c = b := by
  by_contra hne
  obtain ⟨M', hM'⟩ := Multiset.exists_cons_of_mem hb
  have hcM : c ∈ M' := by
    rw [hM', Multiset.mem_cons] at hc
    exact hc.resolve_left hne
  have hle := h.cover_le_one x
  rw [hM'] at hle
  exact not_covers_of_cover_le_one hle hbx hcM hcx

theorem nodup (h : Tiles M G) : M.Nodup := by
  rw [Multiset.nodup_iff_ne_cons_cons]
  rintro b M' rfl
  exact not_covers_of_cover_le_one (h.cover_le_one b.base) b.covers_base
    (Multiset.mem_cons_self b M') b.covers_base

/-- A merged tiling is complete: every aligned range of tiled addresses, of an
order between those of the tiles, lies inside one tile. -/
theorem exists_tile_of_range (h : Tiles M G) (hm : Merged k M) (hj : ∀ b ∈ M, j ≤ b.order)
    {B : Block} (hB : B.Aligned) (hjB : j ≤ B.order) (hBk : B.order ≤ k)
    (hG : ∀ x, B.Covers x → G x) :
    ∃ b ∈ M, B.order ≤ b.order ∧ ∀ x, B.Covers x → b.Covers x := by
  -- a tile at least as large that covers one address of the range contains it
  have hcontains : ∀ {b C : Block}, b ∈ M → C.Aligned → C.order ≤ b.order → b.Covers C.base →
      ∀ x, C.Covers x → b.Covers x := by
    intro b C hb hC ho hbase x hx
    exact (h.aligned b hb).nested hC ho hbase C.covers_base hx
  obtain ⟨n, hn⟩ := Nat.exists_eq_add_of_le hjB
  induction n generalizing B with
  | zero =>
    have hpos : 0 < cover M B.base := by rw [h.once _ (hG _ B.covers_base)]; exact one_pos
    obtain ⟨b, hb, hcov⟩ := cover_pos.mp hpos
    have ho : B.order ≤ b.order := by
      rw [hn, add_zero]
      exact hj b hb
    exact ⟨b, hb, ho, hcontains hb hB ho hcov⟩
  | succ n ih =>
    have hpos : 0 < B.order := by omega
    have hhalf := Block.covers_halves hpos
    obtain ⟨b, hb, hbo, hbcov⟩ := ih (B := B.lower) hB.lower (by simp only [Block.lower]; omega)
      (by simp only [Block.lower]; omega) (fun x hx => hG x ((hhalf x).mpr (Or.inl hx)))
      (by simp only [Block.lower]; omega)
    obtain ⟨c, hc, hco, hccov⟩ := ih (B := B.upper) hB.upper (by simp only [Block.upper]; omega)
      (by simp only [Block.upper]; omega) (fun x hx => hG x ((hhalf x).mpr (Or.inr hx)))
      (by simp only [Block.upper]; omega)
    by_cases hbB : B.order ≤ b.order
    · exact ⟨b, hb, hbB, hcontains hb hB hbB (hbcov _ B.lower.covers_base)⟩
    by_cases hcB : B.order ≤ c.order
    · refine ⟨c, hc, hcB, fun x hx => ?_⟩
      have hup := (hhalf _).mpr (Or.inr B.upper.covers_base)
      exact (h.aligned c hc).nested hB hcB (hccov _ B.upper.covers_base) hup hx
    · -- both halves would be tiles of their own, and buddies
      simp only [Block.lower] at hbo
      simp only [Block.upper] at hco
      have hbeq : b = B.lower := by
        have hord : b.order = B.order - 1 := by omega
        have hbase := (h.aligned b hb).base_eq (x := B.lower.base) (by rw [hord]; exact hB.lower)
          (hbcov _ B.lower.covers_base)
        cases b
        simp only [Block.lower, Block.mk.injEq] at *
        exact ⟨hbase, hord⟩
      have hceq : c = B.upper := by
        have hord : c.order = B.order - 1 := by omega
        have hbase := (h.aligned c hc).base_eq (x := B.upper.base) (by rw [hord]; exact hB.upper)
          (hccov _ B.upper.covers_base)
        cases c
        simp only [Block.upper, Block.mk.injEq] at *
        exact ⟨hbase, hord⟩
      have hno := hm b hb (by omega)
      rw [hbeq, hB.lower_buddy hpos, ← hceq] at hno
      exact absurd hc hno

/-- A set has at most one merged tiling. -/
theorem merged_unique (hM : Tiles M G) (hN : Tiles N G) (hMm : Merged k M) (hNm : Merged k N)
    (hMo : ∀ b ∈ M, j ≤ b.order ∧ b.order ≤ k) (hNo : ∀ b ∈ N, j ≤ b.order ∧ b.order ≤ k) :
    M = N := by
  -- a tile of one lies in a tile of the other, which lies in a tile of the first again
  have hsub : ∀ {M N : Multiset Block}, Tiles M G → Tiles N G → Merged k M → Merged k N →
      (∀ b ∈ M, j ≤ b.order ∧ b.order ≤ k) → (∀ b ∈ N, j ≤ b.order ∧ b.order ≤ k) →
      ∀ b ∈ M, b ∈ N := by
    intro M N hM hN hMm hNm hMo hNo b hb
    obtain ⟨c, hc, hbc, hcov⟩ := hN.exists_tile_of_range hNm (fun c hc => (hNo c hc).1)
      (hM.aligned b hb) (hMo b hb).1 (hMo b hb).2 fun x hx => hM.mem_of_covers hb hx
    obtain ⟨b', hb', hcb', hcov'⟩ := hM.exists_tile_of_range hMm (fun b hb => (hMo b hb).1)
      (hN.aligned c hc) (hNo c hc).1 (hNo c hc).2 fun x hx => hN.mem_of_covers hc hx
    have hbase := hcov _ b.covers_base
    obtain rfl := hM.eq_of_covers hb hb' b.covers_base (hcov' _ hbase)
    have hord : c.order = b'.order := le_antisymm hcb' hbc
    have hstart := (hN.aligned c hc).base_eq (by rw [hord]; exact hM.aligned b' hb) hbase
    have hceq : c = b' := by
      cases c
      cases b'
      simp only [Block.mk.injEq] at *
      exact ⟨hstart, hord⟩
    exact hceq ▸ hc
  rw [hM.nodup.ext hN.nodup]
  intro b
  exact ⟨hsub hM hN hMm hNm hMo hNo b, hsub hN hM hNm hMm hNo hMo b⟩

end Tiles

end TomatOS.Foundation.Dyadic
