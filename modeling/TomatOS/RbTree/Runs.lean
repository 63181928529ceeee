import TomatOS.RbTree.Cached
import Mathlib.Order.Basic

/-! Runs of the operations on a tree with a cached leftmost node, as its users make them: a
node is given its key and added while it is in no tree, erased while it is in this one, and
replaced by a node that has the same key. Any run of them does to the tree what it does to
the sorted sequence of the nodes. -/

namespace TomatOS.RbTree

open Foundation Foundation.RedBlack

variable {κ : Type} [LinearOrder κ]

/-- The tree and the keys in the structures around its nodes. -/
structure KeyedTree (κ : Type) where
  root : RbRootCached
  key : ℕ → κ

inductive TreeOp (κ : Type) where
  | add (node : ℕ) (key : κ)
  | erase (node : ℕ)
  | replace (victim new : ℕ)

/-- The order of two nodes by their keys. -/
def keyLess (key : ℕ → κ) (a b : ℕ) : Bool := key a < key b

/-- An operation with what it returns. -/
def TreeOp.exec (fuel : ℕ) (s : KeyedTree κ) : TreeOp κ → Option (ℕ × KeyedTree κ)
  | .add node k =>
    let key := Function.update s.key node k
    (rbAddCached (keyLess key) fuel node s.root).map fun r => (r.1, ⟨r.2, key⟩)
  | .erase node => (rbEraseCached fuel node s.root).map fun r => (r.1, ⟨r.2, s.key⟩)
  | .replace victim new =>
    (rbReplaceNodeCached victim new s.root).map fun r =>
      (0, ⟨r.2, Function.update s.key new (s.key victim)⟩)

/-- The operations one after the other. -/
def execAll (s : KeyedTree κ) : List (TreeOp κ) → Option (List ℕ × KeyedTree κ)
  | [] => some ([], s)
  | op :: ops => do
    let (v, s) ← op.exec loopBound s
    let (vs, s) ← execAll s ops
    return (v :: vs, s)

/-- `RB_ROOT_CACHED`. -/
def rbRootCached (m : Mem) : RbRootCached := ⟨{ m with rbNode := 0 }, 0⟩

/-- The nodes in order, and their keys. -/
structure Sequence (κ : Type) where
  nodes : List ℕ
  key : ℕ → κ

/-- What the operations are for: a sequence sorted by key, nodes with equal keys in the order
of their insertion. Adding returns the node if it is now the first one, erasing the first
node if another one was first before. -/
def TreeOp.spec (s : Sequence κ) : TreeOp κ → ℕ × Sequence κ
  | .add node k =>
    let key := Function.update s.key node k
    (if CachedTree.becomesLeftmost (keyLess key) node s.nodes then node else 0,
      ⟨CachedTree.insert (keyLess key) node s.nodes, key⟩)
  | .erase node =>
    let (leftmost, nodes) := CachedTree.eraseCached node s.nodes
    (leftmost.getD 0, ⟨nodes, s.key⟩)
  | .replace victim new =>
    (0, ⟨s.nodes.map fun x => if x = victim then new else x,
      Function.update s.key new (s.key victim)⟩)

def specAll (s : Sequence κ) : List (TreeOp κ) → List ℕ × Sequence κ
  | [] => ([], s)
  | op :: ops =>
    let (v, s) := op.spec s
    let (vs, s) := specAll s ops
    (v :: vs, s)

/-- What the caller of an operation has to respect. -/
def TreeOp.Allowed (nodes : List ℕ) : TreeOp κ → Prop
  | .add node _ => NodeAddress node ∧ node ∉ nodes
  | .erase node => node ∈ nodes
  | .replace victim new => victim ∈ nodes ∧ NodeAddress new ∧ new ∉ nodes

def AllAllowed (s : Sequence κ) : List (TreeOp κ) → Prop
  | [] => True
  | op :: ops => op.Allowed s.nodes ∧ AllAllowed (op.spec s).2 ops

/-- The tree holds the sequence, which is sorted. -/
structure Refines (s : KeyedTree κ) (q : Sequence κ) : Prop where
  sound : Sound s.root q.nodes
  key : s.key = q.key
  sorted : CachedTree.Sorted q.key q.nodes

variable {s s' : KeyedTree κ} {q : Sequence κ}

theorem mono_of_sorted {key : ℕ → κ} {l : List ℕ} (h : CachedTree.Sorted key l) (node : ℕ) :
    l.Pairwise fun x y => keyLess key node x = true → keyLess key node y = true := by
  apply List.Pairwise.imp _ h
  intro x y hxy hx
  rw [keyLess, decide_eq_true_eq] at hx ⊢
  exact hx.trans_le hxy

theorem sorted_update {l : List ℕ} {key : ℕ → κ} {node : ℕ} (h : CachedTree.Sorted key l)
    (hn : node ∉ l) (k : κ) : CachedTree.Sorted (Function.update key node k) l := by
  apply h.congr
  intro x hx
  apply Function.update_of_ne
  rintro rfl
  exact hn hx

theorem sorted_replace {l : List ℕ} {key : ℕ → κ} {victim new : ℕ}
    (h : CachedTree.Sorted key l) (hn : new ∉ l) :
    CachedTree.Sorted (Function.update key new (key victim))
      (l.map fun x => if x = victim then new else x) := by
  have hkey : ∀ x ∈ l, Function.update key new (key victim) (if x = victim then new else x) =
      key x := by
    intro x hx
    split_ifs with he
    · rw [Function.update_self, he]
    · apply Function.update_of_ne
      rintro rfl
      exact hn hx
  unfold CachedTree.Sorted
  rw [List.pairwise_map]
  apply List.Pairwise.imp_of_mem _ h
  intro x y hx hy hxy
  rwa [hkey x hx, hkey y hy]

theorem refines_empty (m : Mem) (key : ℕ → κ) :
    Refines ⟨rbRootCached m, key⟩ ⟨[], key⟩ := by
  refine ⟨⟨⟨.nil, ⟨trivial, rfl⟩, rfl, 0, .nil⟩, ⟨List.nodup_nil, by simp⟩, rfl⟩, rfl, ?_⟩
  exact List.Pairwise.nil

/-- One operation. -/
theorem TreeOp.exec_refines {op : TreeOp κ} {fuel : ℕ} (h : Refines s q)
    (ha : op.Allowed q.nodes) (hfuel : Enough fuel q.nodes.length) :
    ∃ s', op.exec fuel s = some ((op.spec q).1, s') ∧ Refines s' (op.spec q).2 := by
  obtain ⟨hsound, hkey, hsorted⟩ := h
  cases op with
  | add node k =>
    obtain ⟨hnode, hn⟩ := ha
    have hsorted' := sorted_update hsorted hn k
    have hadd := wp_rbAddCached hsound hnode hn (mono_of_sorted hsorted' node) hfuel
    obtain ⟨v, t, hrun, rfl, hsound'⟩ := hadd
    refine ⟨⟨t, Function.update q.key node k⟩, ?_, hsound', rfl, hsorted'.insert node⟩
    rw [TreeOp.exec, hkey, hrun]
    rfl
  | erase node =>
    obtain ⟨v, t, hrun, rfl, hsound'⟩ := wp_rbEraseCached hsound ha hfuel
    refine ⟨⟨t, q.key⟩, ?_, hsound', rfl, hsorted.erase node⟩
    rw [TreeOp.exec, hkey, hrun]
    rfl
  | replace victim new =>
    obtain ⟨hv, hnew, hn⟩ := ha
    obtain ⟨v, t, hrun, hsound'⟩ := wp_rbReplaceNodeCached hsound hv hnew hn
    refine ⟨⟨t, Function.update q.key new (q.key victim)⟩, ?_, hsound', rfl, ?_⟩
    · rw [TreeOp.exec, hkey, hrun]
      rfl
    · exact sorted_replace hsorted hn

/-- No loop of an operation on a tree of `n` nodes has more than `2 * log (n + 1) + 1`
iterations. -/
theorem operations_logarithmic {op : TreeOp κ} {fuel : ℕ} (h : Refines s q)
    (ha : op.Allowed q.nodes) (hfuel : 2 * Nat.log 2 (q.nodes.length + 1) < fuel) :
    ∃ s', op.exec fuel s = some ((op.spec q).1, s') ∧ Refines s' (op.spec q).2 :=
  op.exec_refines h ha hfuel

/-- A black root and two red nodes, with their addresses as keys. -/
def redLeavesKeyed : KeyedTree ℕ := ⟨⟨redLeaves, 8⟩, id⟩

theorem redLeaves_refines : Refines redLeavesKeyed ⟨[8, 16, 24], id⟩ where
  sound := ⟨redLeaves_holds, redLeaves_placed, rfl⟩
  key := rfl
  sorted := by
    unfold CachedTree.Sorted
    decide

/-- A node is added below a red one, and the root, which has two children, is erased. -/
theorem redLeaves_logarithmic :
    (∃ s', (TreeOp.add 32 20).exec 5 redLeavesKeyed = some (0, s') ∧
        Sound s'.root [8, 16, 32, 24]) ∧
      ∃ s', (TreeOp.erase 16).exec 5 redLeavesKeyed = some (0, s') ∧ Sound s'.root [8, 24] := by
  have hfuel : 2 * Nat.log 2 ([8, 16, 24].length + 1) < 5 := by decide
  constructor
  · have hallowed : (TreeOp.add 32 20).Allowed [8, 16, 24] :=
      ⟨⟨by decide, by decide, by decide⟩, by decide⟩
    obtain ⟨s', hs', h⟩ := operations_logarithmic redLeaves_refines hallowed hfuel
    exact ⟨s', hs', h.sound⟩
  · have hallowed : (TreeOp.erase 16 : TreeOp ℕ).Allowed [8, 16, 24] :=
      (by decide : 16 ∈ [8, 16, 24])
    obtain ⟨s', hs', h⟩ := operations_logarithmic redLeaves_refines hallowed hfuel
    exact ⟨s', hs', h.sound⟩

/-- Any run of the operations. -/
theorem runs_refine_sequences (ops : List (TreeOp κ)) (h : Refines s q) (ha : AllAllowed q ops) :
    ∃ s', execAll s ops = some ((specAll q ops).1, s') ∧ Refines s' (specAll q ops).2 := by
  induction ops generalizing s q with
  | nil => exact ⟨s, rfl, h⟩
  | cons op ops ih =>
    obtain ⟨s₁, hop, h₁⟩ := op.exec_refines h ha.1 h.sound.placed.enough
    obtain ⟨s', hrest, h'⟩ := ih h₁ ha.2
    refine ⟨s', ?_, h'⟩
    rw [execAll, hop]
    simp only [bind, Option.bind, hrest]
    rfl

/-- Three nodes are added and the one that is leftmost then is erased. -/
def threeNodes : List (TreeOp ℕ) := [.add 8 5, .add 16 3, .add 24 4, .erase 16]

theorem threeNodes_refine :
    ∃ s', execAll ⟨rbRootCached ⟨fun _ => 0, fun _ _ => 0, 0⟩, fun _ => 0⟩ threeNodes =
      some ([8, 16, 0, 24], s') ∧ Sound s'.root [24, 8] := by
  have hallowed : AllAllowed ⟨[], fun _ => 0⟩ threeNodes := by
    refine ⟨⟨⟨by decide, by decide, by decide⟩, by decide⟩,
      ⟨⟨by decide, by decide, by decide⟩, by decide⟩,
      ⟨⟨by decide, by decide, by decide⟩, by decide⟩, ?_, trivial⟩
    show 16 ∈ [16, 24, 8]
    decide
  obtain ⟨s', hs', h⟩ := runs_refine_sequences threeNodes (refines_empty _ _) hallowed
  exact ⟨s', hs', h.sound⟩

end TomatOS.RbTree
