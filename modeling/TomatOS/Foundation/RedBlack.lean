import Mathlib.Algebra.Order.Ring.Nat
import Mathlib.Data.List.Nodup
import Mathlib.Data.List.Perm.Basic
import Mathlib.Data.Nat.Log

/-! Red-black trees and the way from a root into them. A spine is the list of the nodes
above a hole, innermost first, each with the side of the hole and its other subtree. Balance
is a property of a subtree with its colour and black height, and of a spine for the colour
and black height of what may fill its hole; a rebalancing step is right if what it puts into
the hole fits the spine and has the same nodes in order. -/

namespace TomatOS.Foundation.RedBlack

inductive Color where
  | red
  | black
  deriving DecidableEq, Repr

inductive Side where
  | left
  | right
  deriving DecidableEq, Repr

def Side.other : Side → Side
  | left => right
  | right => left

@[simp] theorem Side.other_other (d : Side) : d.other.other = d := by cases d <;> rfl

@[simp] theorem Side.other_ne (d : Side) : d.other ≠ d := by cases d <;> decide

@[simp] theorem Side.ne_other (d : Side) : d ≠ d.other := by cases d <;> decide

theorem Side.eq_or_eq_other (d e : Side) : e = d ∨ e = d.other := by
  cases d <;> cases e <;> decide

inductive ColoredTree (α : Type*) where
  | nil
  | node (color : Color) (l : ColoredTree α) (a : α) (r : ColoredTree α)
  deriving DecidableEq, Repr

namespace ColoredTree

variable {α : Type*}

/-- A node with one child on the side `d` and the other one on the other side. -/
def join (d : Side) (c : Color) (a : α) (near far : ColoredTree α) : ColoredTree α :=
  match d with
  | .left => node c near a far
  | .right => node c far a near

def inorder : ColoredTree α → List α
  | nil => []
  | node _ l a r => l.inorder ++ a :: r.inorder

/-- Every node after its children. -/
def postorder : ColoredTree α → List α
  | nil => []
  | node _ l a r => l.postorder ++ (r.postorder ++ [a])

/-- The colour of the root; an empty tree counts as black. -/
def color : ColoredTree α → Color
  | nil => .black
  | node c _ _ _ => c

def height : ColoredTree α → ℕ
  | nil => 0
  | node _ l _ r => max l.height r.height + 1

theorem join_other (d : Side) (c : Color) (a : α) (x y : ColoredTree α) :
    join d.other c a x y = join d c a y x := by cases d <;> rfl

theorem postorder_perm (t : ColoredTree α) : t.postorder.Perm t.inorder := by
  induction t with
  | nil => exact List.Perm.refl _
  | node c l a r ihl ihr =>
    exact ihl.append ((ihr.append_right [a]).trans (List.perm_append_singleton a r.inorder))

theorem join_left (c : Color) (a : α) (x y : ColoredTree α) : join .left c a x y = node c x a y :=
  rfl

theorem exists_join (d : Side) (c : Color) (l : ColoredTree α) (a : α) (r : ColoredTree α) :
    ∃ x y, node c l a r = join d c a x y := by
  cases d
  · exact ⟨l, r, rfl⟩
  · exact ⟨r, l, rfl⟩

theorem exists_node (d : Side) (a : α) (x y : ColoredTree α) :
    ∃ l r, ∀ c, join d c a x y = node c l a r := by
  cases d
  · exact ⟨x, y, fun _ => rfl⟩
  · exact ⟨y, x, fun _ => rfl⟩

@[simp] theorem color_join {d : Side} {c : Color} {a : α} {x y : ColoredTree α} :
    (join d c a x y).color = c := by cases d <;> rfl

theorem height_join (d : Side) (c : Color) (a : α) (x y : ColoredTree α) :
    (join d c a x y).height = max x.height y.height + 1 := by
  cases d
  · rfl
  · rw [join, height, max_comm]

@[simp] theorem mem_join {d : Side} {c : Color} {a z : α} {x y : ColoredTree α} :
    z ∈ (join d c a x y).inorder ↔ z = a ∨ z ∈ x.inorder ∨ z ∈ y.inorder := by
  cases d
  · simp only [join, inorder, List.mem_append, List.mem_cons]
    tauto
  · simp only [join, inorder, List.mem_append, List.mem_cons]
    tauto

theorem join_perm (d : Side) (c : Color) (a : α) (x y : ColoredTree α) :
    (join d c a x y).inorder.Perm (a :: (x.inorder ++ y.inorder)) := by
  cases d
  · exact List.perm_middle
  · exact List.perm_middle.trans (List.Perm.cons a List.perm_append_comm)

@[simp] theorem nodup_join {d : Side} {c : Color} {a : α} {x y : ColoredTree α} :
    (join d c a x y).inorder.Nodup ↔ (a ∉ x.inorder ∧ a ∉ y.inorder) ∧
      x.inorder.Nodup ∧ y.inorder.Nodup ∧ x.inorder.Disjoint y.inorder := by
  rw [(join_perm d c a x y).nodup_iff, List.nodup_cons, List.mem_append, not_or,
    List.nodup_append']

@[simp] theorem disjoint_join_left {d : Side} {c : Color} {a : α} {x y : ColoredTree α} {l : List α} :
    (join d c a x y).inorder.Disjoint l ↔
      a ∉ l ∧ x.inorder.Disjoint l ∧ y.inorder.Disjoint l := by
  rw [(join_perm d c a x y).disjoint_left, List.disjoint_cons_left, List.disjoint_append_left]

@[simp] theorem disjoint_join_right {d : Side} {c : Color} {a : α} {x y : ColoredTree α} {l : List α} :
    l.Disjoint (join d c a x y).inorder ↔
      a ∉ l ∧ l.Disjoint x.inorder ∧ l.Disjoint y.inorder := by
  rw [(join_perm d c a x y).disjoint_right, List.disjoint_cons_right, List.disjoint_append_right]

/-- Rotating a node `x` below its child `y` on the side `d`. -/
theorem inorder_rotate (d : Side) (c c' k k' : Color) (x y : α) (s t u : ColoredTree α) :
    (join d k y s (join d k' x t u)).inorder = (join d c x (join d c' y s t) u).inorder := by
  cases d <;> simp [join, inorder]

/-- Rotating `x` below the inner grandchild `z`, its child `y` on the other side of `z`. -/
theorem inorder_rotate_twice (d : Side) (c c' c'' k k' k'' : Color) (x y z : α)
    (s t t' u : ColoredTree α) :
    (join d k z (join d k' y s t) (join d k'' x t' u)).inorder =
      (join d c x (join d c' y s (join d c'' z t t')) u).inorder := by
  cases d <;> simp [join, inorder]

theorem inorder_recolor (d : Side) (c c' : Color) (a : α) {x x' y y' : ColoredTree α}
    (hx : x'.inorder = x.inorder) (hy : y'.inorder = y.inorder) :
    (join d c' a x' y').inorder = (join d c a x y).inorder := by
  cases d <;> simp [join, inorder, hx, hy]

end ColoredTree

open ColoredTree

variable {α : Type*}

/-! ### Spines -/

/-- A node above the hole. -/
structure Frame (α : Type*) where
  side : Side
  color : Color
  here : α
  sibling : ColoredTree α

abbrev Spine (α : Type*) := List (Frame α)

/-- The tree with `t` in the hole. -/
def plug (t : ColoredTree α) : Spine α → ColoredTree α
  | [] => t
  | f :: spine => plug (join f.side f.color f.here t f.sibling) spine

/-- The nodes left of the hole. -/
def before : Spine α → List α
  | [] => []
  | ⟨.left, _, _, _⟩ :: spine => before spine
  | ⟨.right, _, a, s⟩ :: spine => before spine ++ (s.inorder ++ [a])

/-- The nodes right of the hole. -/
def after : Spine α → List α
  | [] => []
  | ⟨.left, _, a, s⟩ :: spine => a :: (s.inorder ++ after spine)
  | ⟨.right, _, _, _⟩ :: spine => after spine

/-- The nodes around the hole. -/
def around : Spine α → List α
  | [] => []
  | f :: spine => f.here :: (f.sibling.inorder ++ around spine)

theorem plug_append (t : ColoredTree α) (spine rest : Spine α) :
    plug t (spine ++ rest) = plug (plug t spine) rest := by
  induction spine generalizing t with
  | nil => rfl
  | cons f spine ih => exact ih _

theorem around_append (spine rest : Spine α) :
    around (spine ++ rest) = around spine ++ around rest := by
  induction spine with
  | nil => rfl
  | cons f spine ih => simp [around, ih]

theorem inorder_plug (t : ColoredTree α) (spine : Spine α) :
    (plug t spine).inorder = before spine ++ (t.inorder ++ after spine) := by
  induction spine generalizing t with
  | nil => simp [plug, before, after]
  | cons f spine ih =>
    obtain ⟨d, c, a, s⟩ := f
    rw [plug, ih]
    cases d <;> simp [join, inorder, before, after]

theorem inorder_plug_congr {t u : ColoredTree α} (h : t.inorder = u.inorder) (spine : Spine α) :
    (plug t spine).inorder = (plug u spine).inorder := by rw [inorder_plug, inorder_plug, h]

theorem plug_perm (t : ColoredTree α) (spine : Spine α) :
    (plug t spine).inorder.Perm (t.inorder ++ around spine) := by
  induction spine generalizing t with
  | nil => simp [plug, around]
  | cons f spine ih =>
    have hjoin := (join_perm f.side f.color f.here t f.sibling).append_right (around spine)
    apply ((ih _).trans hjoin).trans
    rw [List.cons_append, List.append_assoc]
    exact List.perm_middle.symm

theorem mem_plug {t : ColoredTree α} {spine : Spine α} {z : α} :
    z ∈ (plug t spine).inorder ↔ z ∈ t.inorder ∨ z ∈ around spine := by
  rw [(plug_perm t spine).mem_iff, List.mem_append]

theorem nodup_plug {t : ColoredTree α} {spine : Spine α} :
    (plug t spine).inorder.Nodup ↔ t.inorder.Nodup ∧ (around spine).Nodup ∧
      t.inorder.Disjoint (around spine) := by
  rw [(plug_perm t spine).nodup_iff, List.nodup_append']

@[simp] theorem disjoint_plug_left {t : ColoredTree α} {spine : Spine α} {l : List α} :
    (plug t spine).inorder.Disjoint l ↔ t.inorder.Disjoint l ∧ (around spine).Disjoint l := by
  rw [(plug_perm t spine).disjoint_left, List.disjoint_append_left]

@[simp] theorem disjoint_plug_right {t : ColoredTree α} {spine : Spine α} {l : List α} :
    l.Disjoint (plug t spine).inorder ↔ l.Disjoint t.inorder ∧ l.Disjoint (around spine) := by
  rw [(plug_perm t spine).disjoint_right, List.disjoint_append_right]

/-- A hole on the left all the way up has no nodes before it. -/
theorem before_eq_nil {spine : Spine α} (h : ∀ f ∈ spine, f.side = .left) : before spine = [] := by
  induction spine with
  | nil => rfl
  | cons f spine ih =>
    obtain ⟨d, c, a, s⟩ := f
    obtain rfl : d = .left := h _ List.mem_cons_self
    exact ih fun f hf => h f (List.mem_cons_of_mem _ hf)

/-- Every node has a spine above it. -/
theorem exists_plug_of_mem {t : ColoredTree α} {a : α} (h : a ∈ t.inorder) (spine : Spine α) :
    ∃ c l r rest, plug t spine = plug (node c l a r) (rest ++ spine) := by
  induction t generalizing spine with
  | nil => simp [inorder] at h
  | node c l b r ihl ihr =>
    simp only [inorder, List.mem_append, List.mem_cons] at h
    rcases h with h | rfl | h
    · obtain ⟨c', l', r', rest, he⟩ := ihl h (⟨.left, c, b, r⟩ :: spine)
      exact ⟨c', l', r', rest ++ [⟨.left, c, b, r⟩], by rw [List.append_assoc]; exact he⟩
    · exact ⟨c, l, r, [], rfl⟩
    · obtain ⟨c', l', r', rest, he⟩ := ihr h (⟨.right, c, b, l⟩ :: spine)
      exact ⟨c', l', r', rest ++ [⟨.right, c, b, l⟩], by rw [List.append_assoc]; exact he⟩

theorem height_plug (t : ColoredTree α) (spine : Spine α) :
    t.height + spine.length ≤ (plug t spine).height := by
  induction spine generalizing t with
  | nil => exact le_rfl
  | cons f spine ih =>
    have hstep : t.height + 1 ≤ (join f.side f.color f.here t f.sibling).height := by
      rw [height_join]
      exact Nat.succ_le_succ (le_max_left _ _)
    have hrest := ih (join f.side f.color f.here t f.sibling)
    rw [plug, List.length_cons]
    omega

/-! ### Going over the nodes from one end -/

/-- A sequence read from the end on the side `d`. -/
def toward (d : Side) (l : List α) : List α :=
  match d with
  | .left => l
  | .right => l.reverse

/-- The nodes on the side `d` of the hole, the nearest first. -/
def beyond (d : Side) : Spine α → List α
  | [] => []
  | f :: spine =>
    if f.side = d then beyond d spine
    else f.here :: (toward d.other f.sibling.inorder ++ beyond d spine)

@[simp] theorem mem_toward {d : Side} {l : List α} {a : α} : a ∈ toward d l ↔ a ∈ l := by
  cases d
  · rfl
  · exact List.mem_reverse

@[simp] theorem nodup_toward {d : Side} {l : List α} : (toward d l).Nodup ↔ l.Nodup := by
  cases d
  · rfl
  · exact List.nodup_reverse

@[simp] theorem length_toward {d : Side} {l : List α} : (toward d l).length = l.length := by
  cases d
  · rfl
  · exact List.length_reverse

@[simp] theorem toward_nil {d : Side} : toward d ([] : List α) = [] := by cases d <;> rfl

theorem toward_join (d : Side) (c : Color) (a : α) (x y : ColoredTree α) :
    toward d (join d c a x y).inorder = toward d x.inorder ++ a :: toward d y.inorder := by
  cases d <;> simp [toward, join, inorder]

theorem toward_inorder_plug (d : Side) (t : ColoredTree α) (spine : Spine α) :
    toward d (plug t spine).inorder =
      (beyond d spine).reverse ++ (toward d t.inorder ++ beyond d.other spine) := by
  induction spine generalizing t with
  | nil => simp [plug, beyond]
  | cons f spine ih =>
    obtain ⟨e, c, a, s⟩ := f
    rw [plug, ih]
    cases d <;> cases e <;> simp [toward, join, inorder, beyond, Side.other]

/-- The nodes after the subtree in the hole when children come before their parent. -/
def later : Spine α → List α
  | [] => []
  | ⟨.left, _, a, s⟩ :: spine => s.postorder ++ a :: later spine
  | ⟨.right, _, a, _⟩ :: spine => a :: later spine

/-- The nodes before it. -/
def earlier : Spine α → List α
  | [] => []
  | ⟨.left, _, _, _⟩ :: spine => earlier spine
  | ⟨.right, _, _, s⟩ :: spine => earlier spine ++ s.postorder

theorem postorder_plug (t : ColoredTree α) (spine : Spine α) :
    (plug t spine).postorder = earlier spine ++ (t.postorder ++ later spine) := by
  induction spine generalizing t with
  | nil => simp [plug, earlier, later]
  | cons f spine ih =>
    obtain ⟨d, c, a, s⟩ := f
    rw [plug, ih]
    cases d <;> simp [join, postorder, earlier, later]

/-! ### Balance -/

/-- A subtree by its root's colour, black for an empty one, and its black height. -/
inductive Balanced : ColoredTree α → Color → ℕ → Prop
  | nil : Balanced nil .black 0
  | red {l r : ColoredTree α} {a : α} {n : ℕ} : Balanced l .black n → Balanced r .black n →
      Balanced (node .red l a r) .red n
  | black {l r : ColoredTree α} {a : α} {cl cr : Color} {n : ℕ} : Balanced l cl n → Balanced r cr n →
      Balanced (node .black l a r) .black (n + 1)

/-- What colour and black height may fill the hole of a spine whose tree has a black root. -/
inductive Fits : Spine α → Color → ℕ → Prop
  | top {n : ℕ} : Fits [] .black n
  | red {d : Side} {a : α} {s : ColoredTree α} {spine : Spine α} {n : ℕ} : Balanced s .black n →
      Fits spine .red n → Fits (⟨d, .red, a, s⟩ :: spine) .black n
  | black {d : Side} {a : α} {s : ColoredTree α} {spine : Spine α} {c cs : Color} {n : ℕ} :
      Balanced s cs n → Fits spine .black (n + 1) → Fits (⟨d, .black, a, s⟩ :: spine) c n

variable {t l r s : ColoredTree α} {spine : Spine α} {c c' : Color} {d : Side} {a : α} {n : ℕ}

theorem Balanced.join_red (hs : Balanced s .black n) (ht : Balanced t .black n) :
    Balanced (join d .red a s t) .red n := by
  cases d
  · exact .red hs ht
  · exact .red ht hs

theorem Balanced.join_black (hs : Balanced s c n) (ht : Balanced t c' n) :
    Balanced (join d .black a s t) .black (n + 1) := by
  cases d
  · exact .black hs ht
  · exact .black ht hs

/-- Below a node of any colour. -/
theorem Balanced.join (hs : Balanced s .black (n + 1)) (ht : Balanced t .black (n + 1)) :
    Balanced (join d c a s t) c (n + if c = .red then 1 else 2) := by
  cases c
  · exact hs.join_red ht
  · exact hs.join_black ht

theorem balanced_join_red : Balanced (join d .red a s t) c n ↔
    c = .red ∧ Balanced s .black n ∧ Balanced t .black n := by
  constructor
  · intro h
    cases d
    · cases h with
      | red hs ht => exact ⟨rfl, hs, ht⟩
    · cases h with
      | red ht hs => exact ⟨rfl, hs, ht⟩
  · rintro ⟨rfl, hs, ht⟩
    exact hs.join_red ht

theorem balanced_join_black : Balanced (join d .black a s t) c n ↔
    c = .black ∧ ∃ k, n = k + 1 ∧ (∃ cs, Balanced s cs k) ∧ ∃ ct, Balanced t ct k := by
  constructor
  · intro h
    cases d
    · cases h with
      | black hs ht => exact ⟨rfl, _, rfl, ⟨_, hs⟩, _, ht⟩
    · cases h with
      | black ht hs => exact ⟨rfl, _, rfl, ⟨_, hs⟩, _, ht⟩
  · rintro ⟨rfl, k, rfl, ⟨cs, hs⟩, ct, ht⟩
    exact hs.join_black ht

/-- Where a red subtree fits, so does a black one. -/
theorem Fits.of_red (h : Fits spine .red n) : Fits spine c n := by
  cases h with
  | black hs hp => exact .black hs hp

/-- What fits a spine does not depend on its nodes. -/
theorem Fits.replace {stretch : Spine α} {u : ColoredTree α} {b : α}
    (h : Fits (stretch ++ ⟨d, c', a, u⟩ :: spine) c n) :
    Fits (stretch ++ ⟨d, c', b, u⟩ :: spine) c n := by
  induction stretch generalizing c n with
  | nil =>
    cases h with
    | red hs hrest => exact .red hs hrest
    | black hs hrest => exact .black hs hrest
  | cons f stretch ih =>
    cases h with
    | red hs hrest => exact .red hs (ih hrest)
    | black hs hrest => exact .black hs (ih hrest)

theorem Fits.sibling {f : Frame α} (h : Fits (f :: spine) c n) :
    ∃ cs, Balanced f.sibling cs n := by
  cases h with
  | red hs _ => exact ⟨_, hs⟩
  | black hs _ => exact ⟨_, hs⟩

theorem Fits.plug (h : Fits spine c n) (ht : Balanced t c n) :
    ∃ k, Balanced (plug t spine) .black k := by
  induction h generalizing t with
  | top => exact ⟨_, ht⟩
  | red hs _ ih => exact ih (ht.join_red hs)
  | black hs _ ih => exact ih (ht.join_black hs)

theorem fits_of_balanced_plug (h : Balanced (RedBlack.plug t spine) .black n) :
    ∃ c k, Balanced t c k ∧ Fits spine c k := by
  induction spine generalizing t with
  | nil => exact ⟨_, _, h, .top⟩
  | cons f spine ih =>
    obtain ⟨d, cf, a, s⟩ := f
    obtain ⟨c, k, hj, hp⟩ := ih h
    cases cf with
    | red =>
      obtain ⟨rfl, ht, hs⟩ := balanced_join_red.mp hj
      exact ⟨_, _, ht, .red hs hp⟩
    | black =>
      obtain ⟨rfl, k, rfl, ⟨ct, ht⟩, cs, hs⟩ := balanced_join_black.mp hj
      exact ⟨_, _, ht, .black hs hp⟩

theorem Balanced.color_eq (h : Balanced t c n) : t.color = c := by
  cases h <;> rfl

/-- A tree of positive black height has a root. -/
theorem Balanced.exists_join (h : Balanced t c (n + 1)) (d : Side) :
    ∃ a x y, t = ColoredTree.join d c a x y := by
  cases h with
  | @red l r a _ _ _ =>
    obtain ⟨x, y, hj⟩ := ColoredTree.exists_join d .red l a r
    exact ⟨a, x, y, hj⟩
  | @black l r a _ _ _ _ _ =>
    obtain ⟨x, y, hj⟩ := ColoredTree.exists_join d .black l a r
    exact ⟨a, x, y, hj⟩

theorem Balanced.zero_cases (h : Balanced t c 0) :
    t = .nil ∧ c = .black ∨ ∃ b, t = node .red .nil b .nil ∧ c = .red := by
  have hnil : ∀ {u : ColoredTree α}, Balanced u .black 0 → u = .nil := by
    intro u hu
    cases hu
    rfl
  cases h with
  | nil => exact Or.inl ⟨rfl, rfl⟩
  | @red l r b _ hl hr =>
    rw [hnil hl, hnil hr]
    exact Or.inr ⟨b, rfl, rfl⟩

/-- The only child of a node is red and has no children. -/
theorem Balanced.only_child (h : Balanced (ColoredTree.join d c a .nil t) c' n) :
    c' = c ∧ (t = .nil ∧ (c = .red ∧ n = 0 ∨ c = .black ∧ n = 1) ∨
      ∃ b, t = node .red .nil b .nil ∧ c = .black ∧ n = 1) := by
  cases c with
  | red =>
    obtain ⟨rfl, hnil, ht⟩ := balanced_join_red.mp h
    cases hnil
    obtain ⟨rfl, -⟩ | ⟨b, -, hc⟩ := ht.zero_cases
    · exact ⟨rfl, Or.inl ⟨rfl, Or.inl ⟨rfl, rfl⟩⟩⟩
    · cases hc
  | black =>
    obtain ⟨rfl, k, rfl, ⟨_, hnil⟩, ct, ht⟩ := balanced_join_black.mp h
    cases hnil
    obtain ⟨rfl, -⟩ | ⟨b, rfl, -⟩ := ht.zero_cases
    · exact ⟨rfl, Or.inl ⟨rfl, Or.inr ⟨rfl, rfl⟩⟩⟩
    · exact ⟨rfl, Or.inr ⟨b, rfl, rfl, rfl⟩⟩

/-! ### The height -/

theorem Balanced.height_le (h : Balanced t c n) :
    t.height ≤ 2 * n + if c = .red then 1 else 0 := by
  induction h with
  | nil => exact Nat.zero_le _
  | red _ _ ihl ihr =>
    simp only [height] at *
    simp at ihl ihr ⊢
    omega
  | black _ _ ihl ihr =>
    simp only [height] at *
    have hone : ∀ c : Color, (if c = .red then 1 else 0) ≤ 1 := by
      intro c
      split <;> omega
    have hl := ihl.trans (Nat.add_le_add_left (hone _) _)
    have hr := ihr.trans (Nat.add_le_add_left (hone _) _)
    simp
    omega

theorem Balanced.two_pow_le (h : Balanced t c n) : 2 ^ n ≤ t.inorder.length + 1 := by
  induction h with
  | nil => exact Nat.le_refl 1
  | red _ _ ihl ihr =>
    simp only [inorder, List.length_append, List.length_cons]
    omega
  | black _ _ ihl ihr =>
    simp only [inorder, List.length_append, List.length_cons, Nat.pow_succ]
    omega

/-- The logarithmic bound on the way down to any node. -/
theorem Balanced.height_le_log (h : Balanced t .black n) :
    t.height ≤ 2 * Nat.log 2 (t.inorder.length + 1) := by
  have hlog : n ≤ Nat.log 2 (t.inorder.length + 1) :=
    Nat.le_log_of_pow_le (by omega) h.two_pow_le
  have hheight := h.height_le
  simp at hheight
  omega

end TomatOS.Foundation.RedBlack
