import Mathlib.Data.List.Basic
import Mathlib.Order.Lattice

/-! A search tree with a cached leftmost node, as the sequence of its nodes in
order. A node is inserted before the first node it is less than, so nodes with
equal keys stay in the order of their insertion; insertion reports whether the
new node is the leftmost, and erasing reports the new leftmost node only when
the old one was erased. -/

namespace TomatOS.Foundation.CachedTree

variable {ι : Type*} [DecidableEq ι]

/-- The leftmost node. -/
def leftmost (tree : List ι) : Option ι := tree.head?

def insert (less : ι → ι → Bool) (node : ι) : List ι → List ι
  | [] => [node]
  | e :: es => if less node e then node :: e :: es else e :: insert less node es

/-- Whether an inserted node becomes the leftmost. -/
def becomesLeftmost (less : ι → ι → Bool) (node : ι) : List ι → Bool
  | [] => true
  | e :: _ => less node e

/-- The new leftmost node if the leftmost is erased, none otherwise, and the
remaining sequence. -/
def eraseCached (node : ι) (tree : List ι) : Option ι × List ι :=
  (if leftmost tree = some node then leftmost (tree.erase node) else none, tree.erase node)

omit [DecidableEq ι] in
@[simp] theorem mem_insert {less : ι → ι → Bool} {node x : ι} {tree : List ι} :
    x ∈ insert less node tree ↔ x = node ∨ x ∈ tree := by
  induction tree with
  | nil => simp [insert]
  | cons e es ih =>
    rw [insert]
    split_ifs
    · simp
    · simp only [List.mem_cons, ih]
      tauto

omit [DecidableEq ι] in
theorem nodup_insert {less : ι → ι → Bool} {node : ι} {tree : List ι} (h : tree.Nodup)
    (hn : node ∉ tree) : (insert less node tree).Nodup := by
  induction tree with
  | nil => simp [insert]
  | cons e es ih =>
    rw [insert]
    rw [List.nodup_cons] at h
    rw [List.mem_cons, not_or] at hn
    split_ifs
    · simp_all
    · refine List.nodup_cons.mpr ⟨?_, ih h.2 hn.2⟩
      rw [mem_insert, not_or]
      exact ⟨Ne.symm hn.1, h.1⟩

omit [DecidableEq ι] in
theorem leftmost_insert (less : ι → ι → Bool) (node : ι) (tree : List ι) :
    leftmost (insert less node tree) =
      if becomesLeftmost less node tree then some node else leftmost tree := by
  cases tree with
  | nil => rfl
  | cons e es => by_cases h : less node e = true <;> simp [insert, becomesLeftmost, leftmost, h]

omit [DecidableEq ι] in
/-- Where nothing before the place of a node is greater and everything after it is. -/
theorem insert_of_split {less : ι → ι → Bool} {node : ι} {us vs : List ι}
    (hus : ∀ x ∈ us, less node x = false) (hvs : ∀ x ∈ vs, less node x = true) :
    insert less node (us ++ vs) = us ++ node :: vs ∧
      becomesLeftmost less node (us ++ vs) = us.isEmpty := by
  cases us with
  | nil =>
    cases vs with
    | nil => exact ⟨rfl, rfl⟩
    | cons v vs =>
      have hv := hvs v List.mem_cons_self
      exact ⟨by rw [List.nil_append, insert, if_pos hv]; rfl, hv⟩
  | cons u us =>
    have hu := hus u List.mem_cons_self
    refine ⟨?_, hu⟩
    have hrest := insert_of_split (fun x hx => hus x (List.mem_cons_of_mem u hx)) hvs
    rw [List.cons_append, insert, if_neg (by simp [hu]), hrest.1, List.cons_append]

/-- Erasing a node other than the leftmost keeps the leftmost. -/
theorem leftmost_erase_of_ne {node : ι} {tree : List ι} (h : leftmost tree ≠ some node) :
    leftmost (tree.erase node) = leftmost tree := by
  cases tree with
  | nil => rfl
  | cons e es =>
    have hne : e ≠ node := fun he => h (by rw [he]; rfl)
    rw [List.erase_cons_tail (by simpa using hne)]
    rfl

section Sorted

variable {κ : Type*} [LinearOrder κ]

/-- Keys never decrease along the sequence. -/
def Sorted (key : ι → κ) (tree : List ι) : Prop := tree.Pairwise fun a b => key a ≤ key b

omit [DecidableEq ι] in
/-- A relation that keys decide between the new node and the others, equal keys
counting as before the node, holds along the sequence after an insertion. -/
theorem Sorted.pairwise_insert {R : ι → ι → Prop} {key : ι → κ} {tree : List ι} {node : ι}
    (hs : Sorted key tree) (h : tree.Pairwise R) (hle : ∀ x ∈ tree, key x ≤ key node → R x node)
    (hlt : ∀ x ∈ tree, key node < key x → R node x) :
    (CachedTree.insert (fun a b => key a < key b) node tree).Pairwise R := by
  induction tree with
  | nil => exact List.pairwise_singleton _ _
  | cons e es ih =>
    obtain ⟨he, hes⟩ := List.pairwise_cons.mp h
    obtain ⟨hse, hses⟩ := List.pairwise_cons.mp hs
    rw [CachedTree.insert]
    split_ifs with hless
    · rw [decide_eq_true_eq] at hless
      refine List.Pairwise.cons (fun x hx => ?_) h
      rcases List.mem_cons.mp hx with rfl | hx
      · exact hlt x List.mem_cons_self hless
      · exact hlt x (List.mem_cons_of_mem e hx) (hless.trans_le (hse x hx))
    · rw [decide_eq_true_eq, not_lt] at hless
      refine List.Pairwise.cons (fun x hx => ?_) (ih hses hes
        (fun x hx => hle x (List.mem_cons_of_mem e hx))
        fun x hx => hlt x (List.mem_cons_of_mem e hx))
      rcases mem_insert.mp hx with rfl | hx
      · exact hle e List.mem_cons_self hless
      · exact he x hx

omit [DecidableEq ι] in
theorem Sorted.insert {key : ι → κ} {tree : List ι} (h : Sorted key tree) (node : ι) :
    Sorted key (CachedTree.insert (fun a b => key a < key b) node tree) :=
  h.pairwise_insert h (fun _ _ hle => hle) fun _ _ hlt => hlt.le

theorem Sorted.erase {key : ι → κ} {tree : List ι} (h : Sorted key tree) (node : ι) :
    Sorted key (tree.erase node) := h.sublist List.erase_sublist

omit [DecidableEq ι] in
/-- The leftmost node has a least key. -/
theorem Sorted.leftmost_le {key : ι → κ} {tree : List ι} (h : Sorted key tree) {a b : ι}
    (ha : leftmost tree = some a) (hb : b ∈ tree) : key a ≤ key b := by
  cases tree with
  | nil => cases ha
  | cons e es =>
    obtain rfl : e = a := Option.some.inj ha
    rcases List.mem_cons.mp hb with rfl | hb
    · exact le_rfl
    · exact (List.pairwise_cons.mp h).1 b hb

omit [DecidableEq ι] in
/-- Being inserted leftmost means having a key below every other. -/
theorem Sorted.becomesLeftmost_iff {key : ι → κ} {tree : List ι} (h : Sorted key tree) (node : ι) :
    becomesLeftmost (fun a b => key a < key b) node tree = true ↔ ∀ x ∈ tree, key node < key x := by
  cases tree with
  | nil => simp [becomesLeftmost]
  | cons e es =>
    simp only [becomesLeftmost, decide_eq_true_eq]
    constructor
    · intro hlt x hx
      exact hlt.trans_le (h.leftmost_le rfl hx)
    · intro hall
      exact hall e List.mem_cons_self

omit [DecidableEq ι] in
theorem Sorted.congr {key key' : ι → κ} {tree : List ι} (h : Sorted key tree)
    (he : ∀ x ∈ tree, key' x = key x) : Sorted key' tree := by
  refine List.Pairwise.imp_of_mem (fun {a b} ha hb hab => ?_) h
  rw [he a ha, he b hb]
  exact hab

end Sorted

end TomatOS.Foundation.CachedTree
