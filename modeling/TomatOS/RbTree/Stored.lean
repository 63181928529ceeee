import TomatOS.RbTree.Basic
import TomatOS.Foundation.WeakestPre

/-! Trees and spines as they lie in memory, what the writes of the code leave of them, and
the weakest preconditions of the small functions. -/

namespace TomatOS.RbTree

open Foundation Foundation.RedBlack Foundation.RedBlack.ColoredTree

/-- The address of the root of a tree. -/
def ptr : ColoredTree ℕ → ℕ
  | .nil => 0
  | .node _ _ a _ => a

/-- A tree below `parent`. -/
def Stored (m : Mem) : ℕ → ColoredTree ℕ → Prop
  | _, .nil => True
  | parent, .node c l a r =>
    m.parentColor a = parent + colorBit c ∧ m.child .left a = ptr l ∧ m.child .right a = ptr r ∧
      Stored m a l ∧ Stored m a r

/-- The parent of the hole of a stretch of a spine that hangs below `p`. -/
def above (p : ℕ) : Spine ℕ → ℕ
  | [] => p
  | f :: _ => f.here

/-- The topmost node of a stretch of a spine, what is in the hole if it has none. -/
def top (hole : ℕ) : Spine ℕ → ℕ
  | [] => hole
  | f :: spine => top f.here spine

/-- A stretch of a spine below `p`, with the address `hole` in its hole. -/
def Segment (m : Mem) (p : ℕ) : ℕ → Spine ℕ → Prop
  | _, [] => True
  | hole, f :: spine =>
    m.parentColor f.here = above p spine + colorBit f.color ∧ m.child f.side f.here = hole ∧
      m.child f.side.other f.here = ptr f.sibling ∧ Stored m f.here f.sibling ∧
      Segment m p f.here spine

/-- The parent of what is in the hole of a spine. -/
def parentPtr (spine : Spine ℕ) : ℕ := above 0 spine

/-- A spine with the address `hole` in its hole. -/
def StoredSpine (m : Mem) : ℕ → Spine ℕ → Prop
  | hole, [] => m.rbNode = hole
  | hole, f :: spine =>
    m.parentColor f.here = parentPtr spine + colorBit f.color ∧ m.child f.side f.here = hole ∧
      m.child f.side.other f.here = ptr f.sibling ∧ Stored m f.here f.sibling ∧
      StoredSpine m f.here spine

/-- A tree in the hole of a spine. -/
structure At (m : Mem) (spine : Spine ℕ) (t : ColoredTree ℕ) : Prop where
  stored : Stored m (parentPtr spine) t
  spine : StoredSpine m (ptr t) spine

/-- A balanced tree of these nodes, in order. -/
def Holds (m : Mem) (l : List ℕ) : Prop :=
  ∃ t, At m [] t ∧ t.inorder = l ∧ ∃ k, Balanced t .black k

/-- An address at which a node may be. -/
structure NodeAddress (a : ℕ) : Prop where
  ne_zero : a ≠ 0
  aligned : a % 4 = 0
  lt : a < 2 ^ 64

/-- The addresses of the nodes of one tree. -/
structure Placed (l : List ℕ) : Prop where
  nodup : l.Nodup
  valid : ∀ a ∈ l, NodeAddress a

variable {m : Mem} {a b p q v hole : ℕ} {t u l r : ColoredTree ℕ} {c k : Color} {d e : Side}
  {spine : Spine ℕ}

@[simp] theorem ptr_nil : ptr .nil = 0 := rfl

@[simp] theorem ptr_node : ptr (.node c l a r) = a := rfl

@[simp] theorem ptr_join : ptr (join d c a t u) = a := by cases d <;> rfl

@[simp] theorem parentPtr_cons {f : Frame ℕ} : parentPtr (f :: spine) = f.here := rfl

theorem stored_nil : Stored m p .nil := trivial

theorem stored_join : Stored m p (join d c a t u) ↔
    m.parentColor a = p + colorBit c ∧ m.child d a = ptr t ∧ m.child d.other a = ptr u ∧
      Stored m a t ∧ Stored m a u := by
  cases d
  · rfl
  · simp only [join, Stored, Side.other]
    tauto

/-- The tree of a spine and what is in its hole, from the hole and from the node above. -/
theorem at_cons {f : Frame ℕ} :
    At m (f :: spine) t ↔ At m spine (join f.side f.color f.here t f.sibling) := by
  constructor
  · rintro ⟨ht, hpc, hchild, hother, hs, hrest⟩
    constructor
    · exact stored_join.mpr ⟨hpc, hchild, hother, ht, hs⟩
    · rwa [ptr_join]
  · rintro ⟨hj, hrest⟩
    obtain ⟨hpc, hchild, hother, ht, hs⟩ := stored_join.mp hj
    rw [ptr_join] at hrest
    exact ⟨ht, hpc, hchild, hother, hs, hrest⟩

theorem at_plug {s : Spine ℕ} : At m s (plug t spine) ↔ At m (spine ++ s) t := by
  induction spine generalizing t with
  | nil => rfl
  | cons f spine ih => rw [plug, ih, List.cons_append, at_cons]

theorem parentPtr_append {f : Frame ℕ} {rest : Spine ℕ} :
    parentPtr (spine ++ f :: rest) = above f.here spine := by cases spine <;> rfl

theorem storedSpine_iff :
    StoredSpine m hole spine ↔ Segment m 0 hole spine ∧ m.rbNode = top hole spine := by
  induction spine generalizing hole with
  | nil => exact (and_iff_right trivial).symm
  | cons f spine ih =>
    rw [StoredSpine, ih, Segment, top, parentPtr]
    tauto

theorem storedSpine_append {f : Frame ℕ} {rest : Spine ℕ} :
    StoredSpine m hole (spine ++ f :: rest) ↔
      Segment m f.here hole spine ∧ StoredSpine m (top hole spine) (f :: rest) := by
  induction spine generalizing hole with
  | nil => simp [Segment, top]
  | cons g spine ih =>
    rw [List.cons_append, StoredSpine, ih, parentPtr_append, Segment, top]
    tauto

@[simp] theorem top_append {f : Frame ℕ} : top hole (spine ++ [f]) = f.here := by
  induction spine generalizing hole with
  | nil => rfl
  | cons g spine ih => exact ih

theorem segment_append {f : Frame ℕ} :
    Segment m p hole (spine ++ [f]) ↔
      Segment m f.here hole spine ∧ Segment m p (top hole spine) [f] := by
  induction spine generalizing hole with
  | nil => simp [Segment, top]
  | cons g spine ih =>
    have habove : above p (spine ++ [f]) = above f.here spine := by cases spine <;> rfl
    simp only [List.cons_append, Segment, ih, habove, top, and_assoc]

theorem stored_plug :
    Stored m p (plug t spine) ↔ Segment m p (ptr t) spine ∧ Stored m (above p spine) t := by
  induction spine generalizing t with
  | nil => exact (and_iff_right trivial).symm
  | cons f spine ih =>
    rw [plug, ih, stored_join, ptr_join, Segment, above]
    tauto

theorem at_root_plug : At m [] (plug t spine) ↔ At m spine t := by
  rw [at_plug, List.append_nil]

/-- What fits a spine with the right nodes gives a balanced tree. -/
theorem holds_of_fits {n : ℕ} (h : At m spine t) (ht : Balanced t c n) (hf : Fits spine c n)
    (ho : t.inorder = u.inorder) : Holds m (plug u spine).inorder :=
  ⟨_, at_root_plug.mpr h, inorder_plug_congr ho spine, hf.plug ht⟩

theorem Placed.ne_zero {l : List ℕ} (h : Placed l) (a : ℕ) (ha : a ∈ l) : a ≠ 0 :=
  (h.valid a ha).ne_zero

theorem Placed.aligned {l : List ℕ} (h : Placed l) (a : ℕ) (ha : a ∈ l) : a % 4 = 0 :=
  (h.valid a ha).aligned

theorem Placed.erase {l : List ℕ} (h : Placed l) (a : ℕ) : Placed (l.erase a) :=
  ⟨h.nodup.erase a, fun b hb => h.valid b (List.mem_of_mem_erase hb)⟩

theorem notMem_of_placed {l : List ℕ} (h : Placed l) : 0 ∉ l := fun h0 => h.ne_zero 0 h0 rfl

/-- The nodes of a subtree. -/
theorem Placed.subtree (h : Placed (plug t spine).inorder) : Placed t.inorder :=
  ⟨(nodup_plug.mp h.nodup).1, fun a ha => h.valid a (mem_plug.mpr (Or.inl ha))⟩

theorem Placed.around (h : Placed (plug t spine).inorder) : Placed (around spine) :=
  ⟨(nodup_plug.mp h.nodup).2.1, fun a ha => h.valid a (mem_plug.mpr (Or.inr ha))⟩

theorem above_aligned (h : ∀ a ∈ around spine, a % 4 = 0) (hp : p % 4 = 0) :
    above p spine % 4 = 0 := by
  cases spine with
  | nil => exact hp
  | cons f spine => exact h _ List.mem_cons_self

theorem Placed.ptr_aligned (h : Placed (plug t spine).inorder) : parentPtr spine % 4 = 0 :=
  above_aligned (fun a ha => h.aligned a (mem_plug.mpr (Or.inr ha))) rfl

theorem ptr_mem (h : ptr t ≠ 0) : ptr t ∈ t.inorder := by
  cases t with
  | nil => exact absurd rfl h
  | node c x a y => simp [inorder]

theorem ptr_eq_zero (h : ptr t = 0) (h0 : 0 ∉ t.inorder) : t = .nil := by
  cases t with
  | nil => rfl
  | node c x a y => exact absurd (by simp [inorder, ← ptr_node.symm.trans h]) h0

/-- The root of a tree is none of the nodes of another one. -/
theorem ptr_notMem {l : List ℕ} (hd : t.inorder.Disjoint l) (h0 : 0 ∉ l) : ptr t ∉ l := by
  cases t with
  | nil => exact h0
  | node c x a y =>
    intro h
    exact hd (by simp [inorder]) h

theorem ne_ptr (ha : a ∉ t.inorder) (h0 : a ≠ 0) : a ≠ ptr t := by
  cases t with
  | nil => exact h0
  | node c x b y =>
    rintro rfl
    exact ha (by simp [inorder])

theorem parentOf_add (hp : p % 4 = 0) : parentOf (p + colorBit c) = p := by
  unfold parentOf
  cases c
  · rw [colorBit]
    omega
  · rw [colorBit]
    omega

theorem add_colorBit_mod (hp : p % 4 = 0) : (p + colorBit c) % 2 = colorBit c := by
  cases c
  · rw [colorBit]
    omega
  · rw [colorBit]
    omega

/-! ### Writes -/

namespace Mem

/-- The root of `t` below `p` with the colour `c`. -/
def adopt (m : Mem) (t : ColoredTree ℕ) (p : ℕ) (c : Color) : Mem :=
  if ptr t = 0 then m else m.setParentColor (ptr t) (p + colorBit c)

/-- Another address in the hole of a spine. -/
def reattach (m : Mem) (new : ℕ) : Spine ℕ → Mem
  | [] => { m with rbNode := new }
  | f :: _ => m.setChild f.side f.here new

@[simp] theorem setChild_parentColor : (m.setChild d a v).parentColor = m.parentColor := rfl

@[simp] theorem setParentColor_child : (m.setParentColor a v).child = m.child := rfl

@[simp] theorem setParentColor_self : (m.setParentColor a v).parentColor a = v :=
  Function.update_self ..

@[simp] theorem setParentColor_of_ne (h : b ≠ a) :
    (m.setParentColor a v).parentColor b = m.parentColor b := Function.update_of_ne h ..

@[simp] theorem setChild_self : (m.setChild d a v).child d a = v := by simp [setChild]

@[simp] theorem setChild_of_ne (h : b ≠ a) : (m.setChild d a v).child e b = m.child e b := by
  by_cases he : e = d
  · subst he
    simp [setChild, h]
  · simp [setChild, he]

@[simp] theorem setChild_other : (m.setChild d a v).child d.other b = m.child d.other b := by
  simp [setChild]

@[simp] theorem setChild_of_other : (m.setChild d.other a v).child d b = m.child d b := by
  simp [setChild]

@[simp] theorem setChild_left_right : (m.setChild .left a v).child .right b = m.child .right b :=
  setChild_other

@[simp] theorem setChild_right_left : (m.setChild .right a v).child .left b = m.child .left b :=
  setChild_other

@[simp] theorem adopt_child : (m.adopt t p c).child = m.child := by
  unfold adopt
  split <;> rfl

@[simp] theorem adopt_parentColor (h : a ∉ t.inorder) :
    (m.adopt t p c).parentColor a = m.parentColor a := by
  unfold adopt
  split
  · rfl
  next hne =>
    apply setParentColor_of_ne
    rintro rfl
    exact h (ptr_mem hne)

@[simp] theorem reattach_parentColor : (m.reattach v spine).parentColor = m.parentColor := by
  cases spine <;> rfl

@[simp] theorem reattach_child (h : a ∉ around spine) :
    (m.reattach v spine).child e a = m.child e a := by
  cases spine with
  | nil => rfl
  | cons f spine =>
    apply setChild_of_ne
    rintro rfl
    exact h List.mem_cons_self

end Mem

/-- A tree depends on nothing but the words of its own nodes. -/
theorem Stored.congr {m' : Mem} (h : Stored m p t)
    (hc : ∀ a ∈ t.inorder, m'.parentColor a = m.parentColor a ∧ ∀ d, m'.child d a = m.child d a) :
    Stored m' p t := by
  induction t generalizing p with
  | nil => trivial
  | node c l a r ihl ihr =>
    obtain ⟨hpc, hl, hr, hsl, hsr⟩ := h
    obtain ⟨ha, hchild⟩ := hc a (by simp [inorder])
    refine ⟨ha.trans hpc, (hchild _).trans hl, (hchild _).trans hr, ihl hsl ?_, ihr hsr ?_⟩
    · intro b hb
      exact hc b (by simp [inorder, hb])
    · intro b hb
      exact hc b (by simp [inorder, hb])

theorem Segment.congr {m' : Mem} (h : Segment m p hole spine)
    (hc : ∀ a ∈ around spine, m'.parentColor a = m.parentColor a ∧
      ∀ d, m'.child d a = m.child d a) : Segment m' p hole spine := by
  induction spine generalizing hole with
  | nil => trivial
  | cons f spine ih =>
    obtain ⟨hpc, hchild, hother, hs, hrest⟩ := h
    obtain ⟨hf, hfc⟩ := hc f.here List.mem_cons_self
    refine ⟨hf.trans hpc, (hfc _).trans hchild, (hfc _).trans hother, hs.congr ?_, ih hrest ?_⟩
    · intro a ha
      exact hc a (by simp [around, ha])
    · intro a ha
      exact hc a (by simp [around, ha])

theorem StoredSpine.congr {m' : Mem} (h : StoredSpine m hole spine) (hr : m'.rbNode = m.rbNode)
    (hc : ∀ a ∈ around spine, m'.parentColor a = m.parentColor a ∧
      ∀ d, m'.child d a = m.child d a) : StoredSpine m' hole spine := by
  obtain ⟨hseg, hroot⟩ := storedSpine_iff.mp h
  exact storedSpine_iff.mpr ⟨hseg.congr hc, hr.trans hroot⟩

@[simp] theorem stored_setChild (h : a ∉ t.inorder) :
    Stored (m.setChild d a v) p t ↔ Stored m p t := by
  induction t generalizing p with
  | nil => rfl
  | node c l b r ihl ihr =>
    simp only [inorder, List.mem_append, List.mem_cons, not_or] at h
    simp [Stored, ihl h.1, ihr h.2.2, Ne.symm h.2.1]

@[simp] theorem stored_setParentColor (h : a ∉ t.inorder) :
    Stored (m.setParentColor a v) p t ↔ Stored m p t := by
  induction t generalizing p with
  | nil => rfl
  | node c l b r ihl ihr =>
    simp only [inorder, List.mem_append, List.mem_cons, not_or] at h
    simp [Stored, ihl h.1, ihr h.2.2, Ne.symm h.2.1]

@[simp] theorem stored_adopt (h : ptr u ∉ t.inorder) :
    Stored (m.adopt u q c) p t ↔ Stored m p t := by
  unfold Mem.adopt
  split
  · rfl
  · exact stored_setParentColor h

theorem stored_reattach (h : t.inorder.Disjoint (around spine)) :
    Stored (m.reattach v spine) p t ↔ Stored m p t := by
  cases spine with
  | nil =>
    constructor
    · intro hs
      exact hs.congr fun _ _ => ⟨rfl, fun _ => rfl⟩
    · intro hs
      exact hs.congr fun _ _ => ⟨rfl, fun _ => rfl⟩
  | cons f spine =>
    apply stored_setChild
    intro hf
    exact h hf List.mem_cons_self

@[simp] theorem storedSpine_setChild (h : a ∉ around spine) :
    StoredSpine (m.setChild d a v) hole spine ↔ StoredSpine m hole spine := by
  induction spine generalizing hole with
  | nil => rfl
  | cons f spine ih =>
    simp only [around, List.mem_append, List.mem_cons, not_or] at h
    simp [StoredSpine, ih h.2.2, Ne.symm h.1, h.2.1]

@[simp] theorem storedSpine_setParentColor (h : a ∉ around spine) :
    StoredSpine (m.setParentColor a v) hole spine ↔ StoredSpine m hole spine := by
  induction spine generalizing hole with
  | nil => rfl
  | cons f spine ih =>
    simp only [around, List.mem_append, List.mem_cons, not_or] at h
    simp [StoredSpine, ih h.2.2, Ne.symm h.1, h.2.1]

@[simp] theorem storedSpine_adopt (h : ptr t ∉ around spine) :
    StoredSpine (m.adopt t p c) hole spine ↔ StoredSpine m hole spine := by
  unfold Mem.adopt
  split
  · rfl
  · exact storedSpine_setParentColor h

theorem storedSpine_reattach (h : StoredSpine m hole spine) (hn : (around spine).Nodup) :
    StoredSpine (m.reattach v spine) v spine := by
  cases spine with
  | nil => rfl
  | cons f spine =>
    simp only [around, List.nodup_cons, List.mem_append, not_or] at hn
    obtain ⟨hpc, -, hother, hs, hrest⟩ := h
    simp [Mem.reattach, StoredSpine, hpc, hother, hn.1.1, hn.1.2, hs, hrest]

theorem segment_setHole {f : Frame ℕ} (h : Segment m p hole (f :: spine))
    (hn : (around (f :: spine)).Nodup) :
    Segment (m.setChild f.side f.here v) p v (f :: spine) := by
  simp only [around, List.nodup_cons, List.mem_append, not_or] at hn
  obtain ⟨hpc, -, hother, hs, hrest⟩ := h
  refine ⟨hpc, Mem.setChild_self, by simpa using hother, ?_, ?_⟩
  · exact (stored_setChild hn.1.1).mpr hs
  · apply hrest.congr
    intro z hz
    have hne : z ≠ f.here := fun h => hn.1.2 (h ▸ hz)
    exact ⟨rfl, fun _ => Mem.setChild_of_ne hne⟩

/-- A subtree below another node, in another colour. -/
theorem stored_recolor (h : Stored m q (.node k l a r)) (hn : (node k l a r).inorder.Nodup) :
    Stored (m.setParentColor a (p + colorBit c)) p (.node c l a r) := by
  obtain ⟨-, hl, hr, hsl, hsr⟩ := h
  obtain ⟨hal, har⟩ := (nodup_join (d := .left) (c := k)).mp hn |>.1
  simp [Stored, hl, hr, hal, har, hsl, hsr]

/-- A subtree hung below another node. -/
theorem stored_adopt_self (h : Stored m q t) (hn : t.inorder.Nodup) (h0 : 0 ∉ t.inorder)
    (hc : t.color = c) : Stored (m.adopt t p c) p t := by
  cases t with
  | nil => trivial
  | node k l a r =>
    obtain rfl : k = c := hc
    have ha : a ≠ 0 := fun h => h0 (by simp [inorder, h])
    rw [Mem.adopt, ptr_node, if_neg ha]
    exact stored_recolor h hn

/-! ### The small functions -/

section Rules

variable {post : Unit → Mem → Prop} {postn : ℕ → Mem → Prop} {postb : Bool → Mem → Prop}

@[simp] theorem wp_loadChild (ha : a ≠ 0) : wp (loadChild d a) postn m ↔ postn (m.child d a) m :=
  wp_of_eq (if_neg ha)

@[simp] theorem wp_loadParentColor (ha : a ≠ 0) :
    wp (loadParentColor a) postn m ↔ postn (m.parentColor a) m := wp_of_eq (if_neg ha)

@[simp] theorem wp_storeChild (ha : a ≠ 0) :
    wp (storeChild d a v) post m ↔ post () (m.setChild d a v) := wp_of_eq (if_neg ha)

@[simp] theorem wp_storeParentColor (ha : a ≠ 0) :
    wp (storeParentColor a v) post m ↔ post () (m.setParentColor a v) := wp_of_eq (if_neg ha)

@[simp] theorem wp_loadRoot : wp loadRoot postn m ↔ postn m.rbNode m := wp_of_eq rfl

@[simp] theorem wp_storeRoot : wp (storeRoot v) post m ↔ post () { m with rbNode := v } :=
  wp_of_eq rfl

@[simp] theorem wp_rbParent (ha : a ≠ 0) :
    wp (rbParent a) postn m ↔ postn (parentOf (m.parentColor a)) m := by
  rw [rbParent, wp_bind, wp_loadParentColor ha, wp_pure]

@[simp] theorem wp_rbRedParent (ha : a ≠ 0) :
    wp (rbRedParent a) postn m ↔ postn (m.parentColor a) m := wp_loadParentColor ha

@[simp] theorem wp_rbSetParentColor (ha : a ≠ 0) :
    wp (rbSetParentColor a p c) post m ↔ post () (m.setParentColor a (p + colorBit c)) :=
  wp_storeParentColor ha

@[simp] theorem wp_rbIsBlack (ha : a ≠ 0) :
    wp (rbIsBlack a) postb m ↔ postb (m.parentColor a % 2 == 1) m := by
  rw [rbIsBlack, wp_bind, wp_loadParentColor ha, wp_pure]

@[simp] theorem wp_rbIsRed (ha : a ≠ 0) :
    wp (rbIsRed a) postb m ↔ postb (m.parentColor a % 2 == 0) m := by
  rw [rbIsRed, wp_bind, wp_loadParentColor ha, wp_pure]

theorem wp_isRedNode (h : Stored m p t) (hp : p % 4 = 0) (h0 : 0 ∉ t.inorder) :
    wp (isRedNode (ptr t)) postb m ↔ postb (t.color == .red) m := by
  unfold isRedNode
  cases t with
  | nil => exact wp_pure
  | node c l a r =>
    have ha : a ≠ 0 := fun h => h0 (by simp [inorder, h])
    rw [ptr_node, if_neg ha, wp_rbIsRed ha, h.1, add_colorBit_mod hp]
    cases c <;> rfl

theorem wp_adopt : wp (unlessNull (ptr t) (rbSetParentColor (ptr t) p c)) post m ↔
    post () (m.adopt t p c) := by
  unfold unlessNull Mem.adopt
  split
  · exact wp_pure
  next h => exact wp_rbSetParentColor h

theorem wp_rbSetParentColor_ptr (h : ptr t ≠ 0) :
    wp (rbSetParentColor (ptr t) p c) post m ↔ post () (m.adopt t p c) := by
  rw [wp_rbSetParentColor h, Mem.adopt, if_neg h]

theorem wp_rbSetParent_ptr (h : Stored m q t) (hq : q % 4 = 0) (h0 : ptr t ≠ 0) :
    wp (rbSetParent (ptr t) p) post m ↔ post () (m.adopt t p t.color) := by
  cases t with
  | nil => exact absurd rfl h0
  | node c l a r =>
    rw [Mem.adopt, if_neg h0]
    rw [ptr_node] at h0 ⊢
    rw [rbSetParent, wp_bind, wp_loadParentColor h0, wp_storeParentColor h0, h.1,
      add_colorBit_mod hq, Nat.add_comm]
    rfl

theorem wp_adopt_keep (h : Stored m q t) (hq : q % 4 = 0) :
    wp (unlessNull (ptr t) (rbSetParent (ptr t) p)) post m ↔
      post () (m.adopt t p t.color) := by
  unfold unlessNull
  split
  next h0 =>
    rw [Mem.adopt, if_pos h0]
    exact wp_pure
  next h0 => exact wp_rbSetParent_ptr h hq h0

theorem wp_rbChangeChild (h : StoredSpine m hole spine) (hh : hole ≠ 0)
    (hn : hole ∉ around spine) (h0 : 0 ∉ around spine) :
    wp (rbChangeChild hole v (parentPtr spine)) post m ↔ post () (m.reattach v spine) := by
  unfold rbChangeChild
  cases spine with
  | nil => exact wp_of_eq rfl
  | cons f spine =>
    obtain ⟨side, color, here, sibling⟩ := f
    simp only [around, List.mem_cons, List.mem_append, not_or] at hn h0
    obtain ⟨-, hchild, hother, -, -⟩ := h
    have hne : hole ≠ ptr sibling := ne_ptr hn.2.1 hh
    have hhere : here ≠ 0 := Ne.symm h0.1
    rw [parentPtr_cons, if_neg hhere, wp_bind, wp_loadChild hhere]
    cases side with
    | left =>
      rw [if_pos hchild, wp_storeChild hhere]
      rfl
    | right =>
      have hleft : m.child .left here ≠ hole := fun h => hne (h.symm.trans hother)
      rw [if_neg hleft, wp_storeChild hhere]
      rfl

end Rules

/-! ### Rotations -/

section Rotations

variable {A T B : ColoredTree ℕ}

/-- The words that a rotation of `a` below its child `b` finds: the children are linked in
their new places already, the parent of `b` is still to be written. -/
structure Rotating (m : Mem) (d : Side) (a b : ℕ) (A T B : ColoredTree ℕ) (spine : Spine ℕ)
    (c : Color) : Prop where
  word : m.parentColor a = parentPtr spine + colorBit c
  near : m.child d a = ptr T
  far : m.child d.other a = ptr B
  outer : m.child d b = ptr A
  inner : m.child d.other b = a
  storedOuter : Stored m b A
  storedNear : Stored m a T
  storedFar : Stored m a B
  spine : StoredSpine m a spine

theorem Rotating.wp (h : Rotating m d a b A T B spine c)
    (hn : Placed (plug (join d c b A (join d k a T B)) spine).inorder) :
    wp (rbRotateSetParents a b k)
      (fun _ m' => At m' spine (join d c b A (join d k a T B))) m := by
  have h0 := notMem_of_placed hn
  have hpp := hn.ptr_aligned
  have hnd := hn.nodup
  simp only [mem_plug, mem_join, not_or, nodup_plug, nodup_join, disjoint_join_left,
    disjoint_join_right] at h0 hnd
  obtain ⟨⟨hb0, -, ha0, -⟩, hs0⟩ := h0
  obtain ⟨⟨⟨hbA, hba, hbT, hbB⟩, -, ⟨⟨haT, haB⟩, -⟩, haA, -⟩, hs, hbs, hAs, has, hTs, hBs⟩ := hnd
  have ha : a ≠ 0 := Ne.symm ha0
  have hb : b ≠ 0 := Ne.symm hb0
  have hab : a ≠ b := Ne.symm hba
  simp only [rbRotateSetParents, wp_bind, wp_rbParent ha, wp_loadParentColor ha,
    wp_storeParentColor hb, wp_rbSetParentColor ha]
  rw [h.word, parentOf_add hpp]
  have hspine : StoredSpine ((m.setParentColor b (parentPtr spine + colorBit c)).setParentColor a
      (b + colorBit k)) a spine := by simp [h.spine, has, hbs]
  rw [wp_rbChangeChild hspine ha has hs0]
  constructor
  · rw [stored_join, stored_join]
    simp [hba, has, hbs, haA, hbA, haT, hbT, haB, hbB, h.near, h.far, h.outer, h.inner,
      h.storedOuter, h.storedNear, h.storedFar, stored_reattach, hAs, hTs, hBs]
  · rw [ptr_join]
    exact storedSpine_reattach hspine hs

end Rotations

end TomatOS.RbTree
