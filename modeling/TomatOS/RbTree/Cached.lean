import TomatOS.RbTree.Insert
import TomatOS.RbTree.Erase
import TomatOS.RbTree.Walk
import TomatOS.Foundation.CachedTree

/-! The tree with a cached leftmost node, `rb_add_cached` and `rb_erase_cached`: they do to
the tree and the cache what insertion into and deletion from a sequence do, and the tree is
balanced in between. -/

namespace TomatOS.RbTree

open Foundation Foundation.RedBlack Foundation.RedBlack.ColoredTree

structure RbRootCached where
  mem : Mem
  rbLeftmost : ℕ

abbrev CachedOp := StateT RbRootCached Option

/-- An operation on `&root->rb_root`. -/
def onRoot {α : Type} (x : Op α) : CachedOp α := fun s =>
  (x s.mem).map fun r => (r.1, { s with mem := r.2 })

def rbFirstCached : CachedOp ℕ := fun s => some (s.rbLeftmost, s)

def storeLeftmost (v : ℕ) : CachedOp Unit := fun s => some ((), { s with rbLeftmost := v })

/-- A pointer to the root pointer or to a child pointer, the type `struct rb_node **`. -/
inductive Link where
  | root
  | child (d : Side) (rb : ℕ)
  deriving DecidableEq, Repr

def loadLink : Link → Op ℕ
  | .root => loadRoot
  | .child d rb => loadChild d rb

def storeLink : Link → ℕ → Op Unit
  | .root, v => storeRoot v
  | .child d rb, v => storeChild d rb v

def rbLinkNode (node parent : ℕ) (link : Link) : Op Unit := do
  storeParentColor node parent
  storeChild .right node 0
  storeChild .left node 0
  storeLink link node

def rbInsertColorCached (fuel node : ℕ) (leftmost : Bool) : CachedOp Unit := do
  if leftmost then storeLeftmost node
  onRoot (rbInsertColor fuel node)

/-- The loop of `rb_add_cached`: the link to write, its node and whether it is leftmost. -/
def rbAddDescend (less : ℕ → ℕ → Bool) (node : ℕ) :
    ℕ → Link → ℕ → Bool → Op (Link × ℕ × Bool)
  | 0, _, _, _ => failure
  | fuel + 1, link, parent, leftmost => do
    let next ← loadLink link
    if next = 0 then return (link, parent, leftmost)
    else if less node next then rbAddDescend less node fuel (.child .left next) next leftmost
    else rbAddDescend less node fuel (.child .right next) next false

def rbAddCached (less : ℕ → ℕ → Bool) (fuel node : ℕ) : CachedOp ℕ := do
  let (link, parent, leftmost) ← onRoot (rbAddDescend less node fuel .root 0 true)
  onRoot (rbLinkNode node parent link)
  rbInsertColorCached fuel node leftmost
  return if leftmost then node else 0

def rbEraseCached (fuel node : ℕ) : CachedOp ℕ := do
  let first ← rbFirstCached
  if first = node then
    let leftmost ← onRoot (rbNext fuel node)
    storeLeftmost leftmost
    onRoot (rbErase fuel node)
    return leftmost
  else
    onRoot (rbErase fuel node)
    return 0

def rbReplaceNodeCached (victim new : ℕ) : CachedOp Unit := do
  let first ← rbFirstCached
  if first = victim then storeLeftmost new
  onRoot (rbReplaceNode victim new)

/-! ### Insertion -/

variable {m : Mem} {a node : ℕ} {t : ColoredTree ℕ} {spine : Spine ℕ} {fuel : ℕ} {l : List ℕ}
  {less : ℕ → ℕ → Bool} {s : RbRootCached}

/-- The pointer to the hole of a spine. -/
def linkOf : Spine ℕ → Link
  | [] => .root
  | f :: _ => .child f.side f.here

theorem wp_loadLink {post : ℕ → Mem → Prop} (h : At m spine t) (h0 : 0 ∉ around spine) :
    wp (loadLink (linkOf spine)) post m ↔ post (ptr t) m := by
  cases spine with
  | nil =>
    rw [linkOf, loadLink, wp_loadRoot, show m.rbNode = ptr t from h.spine]
  | cons f spine =>
    have hf : f.here ≠ 0 := fun hf => h0 (hf ▸ List.mem_cons_self)
    obtain ⟨-, hchild, -⟩ := h.spine
    rw [linkOf, loadLink, wp_loadChild hf, hchild]

theorem wp_storeLink {post : Unit → Mem → Prop} {v : ℕ} (h0 : 0 ∉ around spine) :
    wp (storeLink (linkOf spine) v) post m ↔ post () (m.reattach v spine) := by
  cases spine with
  | nil => exact wp_storeRoot
  | cons f spine =>
    have hf : f.here ≠ 0 := fun hf => h0 (hf ▸ List.mem_cons_self)
    exact wp_storeChild hf

/-- The descent ends at the place of the new node: the nodes before it are not greater. -/
theorem wp_rbAddDescend (h : At m spine t) (h0 : 0 ∉ (plug t spine).inorder)
    (hmono : (plug t spine).inorder.Pairwise fun x y => less node x = true → less node y = true)
    (hb : ∀ x ∈ before spine, less node x = false) (ha : ∀ x ∈ after spine, less node x = true)
    (hfuel : t.height < fuel) :
    wp (rbAddDescend less node fuel (linkOf spine) (parentPtr spine) (before spine).isEmpty)
      (fun v m' => m' = m ∧ ∃ spine', v = (linkOf spine', parentPtr spine', (before spine').isEmpty) ∧
        plug .nil spine' = plug t spine ∧ (∀ x ∈ before spine', less node x = false) ∧
        ∀ x ∈ after spine', less node x = true) m := by
  induction t generalizing spine fuel with
  | nil =>
    obtain ⟨fuel, rfl⟩ : ∃ n, fuel = n + 1 := Nat.exists_eq_succ_of_ne_zero (by omega)
    have hS0 : 0 ∉ around spine := fun hmem => h0 (mem_plug.mpr (Or.inr hmem))
    rw [rbAddDescend, wp_bind, wp_loadLink h hS0, ptr_nil, if_pos rfl, wp_pure]
    exact ⟨rfl, spine, rfl, rfl, hb, ha⟩
  | node c l b r ihl ihr =>
    obtain ⟨fuel, rfl⟩ : ∃ n, fuel = n + 1 := Nat.exists_eq_succ_of_ne_zero (by omega)
    have hS0 : 0 ∉ around spine := fun hmem => h0 (mem_plug.mpr (Or.inr hmem))
    have hb0 : b ≠ 0 := fun hb => h0 (mem_plug.mpr (Or.inl (by simp [inorder, hb])))
    rw [height] at hfuel
    have hmaxl := le_max_left l.height r.height
    have hmaxr := le_max_right l.height r.height
    rw [rbAddDescend, wp_bind, wp_loadLink h hS0, ptr_node, if_neg hb0]
    have hmono' := hmono
    rw [inorder_plug, inorder] at hmono'
    have hnode := (List.pairwise_append.mp (List.pairwise_append.mp hmono').2.1).1
    obtain ⟨-, hright, hleft⟩ := List.pairwise_append.mp hnode
    cases hless : less node b with
    | true =>
      have hafter : ∀ x ∈ after (⟨.left, c, b, r⟩ :: spine), less node x = true := by
        intro x hx
        rw [after, List.mem_cons, List.mem_append] at hx
        rcases hx with rfl | hx | hx
        · exact hless
        · exact (List.pairwise_cons.mp hright).1 x hx hless
        · exact ha x hx
      rw [if_pos rfl]
      exact @ihl (⟨.left, c, b, r⟩ :: spine) fuel (at_cons.mpr h) h0 hmono hb hafter (by omega)
    | false =>
      have hbefore : ∀ x ∈ before (⟨.right, c, b, l⟩ :: spine), less node x = false := by
        intro x hx
        rw [before, List.mem_append, List.mem_append, List.mem_singleton] at hx
        rcases hx with hx | hx | rfl
        · exact hb x hx
        · rw [Bool.eq_false_iff] at hless ⊢
          exact fun hlt => hless (hleft x hx b List.mem_cons_self hlt)
        · exact hless
      have hempty : (before (⟨.right, c, b, l⟩ :: spine)).isEmpty = false := by simp [before]
      have hrun := @ihr (⟨.right, c, b, l⟩ :: spine) fuel (at_cons.mpr h) h0 hmono hbefore ha
        (by omega)
      rw [hempty] at hrun
      rw [if_neg Bool.false_ne_true]
      exact hrun

/-- The root and the cache of a balanced tree of these nodes, in order. -/
structure Sound (s : RbRootCached) (l : List ℕ) : Prop where
  holds : Holds s.mem l
  placed : Placed l
  leftmost : s.rbLeftmost = l.headD 0

/-- Enough iterations for every loop on a tree of `n` nodes. -/
def Enough (fuel n : ℕ) : Prop := 2 * Nat.log 2 (n + 1) < fuel

/-- A bound on the iterations of every loop in a 64-bit address space. -/
def loopBound : ℕ := 125

/-- The address space has less than `2 ^ 62` places for nodes. -/
theorem Placed.length_lt (h : Placed l) : l.length < 2 ^ 62 := by
  have hmap : (l.map (· / 4)).Nodup := by
    apply List.Nodup.map_on _ h.nodup
    intro x hx y hy hxy
    have hx4 := h.aligned x hx
    have hy4 := h.aligned y hy
    omega
  have hzero : 0 ∉ l.map (· / 4) := by
    intro hmem
    obtain ⟨x, hx, hx0⟩ := List.mem_map.mp hmem
    have hx4 := h.aligned x hx
    exact h.ne_zero x hx (by omega)
  have hsub : 0 :: l.map (· / 4) ⊆ List.range (2 ^ 62) := by
    intro y hy
    rw [List.mem_range]
    rcases List.mem_cons.mp hy with rfl | hy
    · exact Nat.two_pow_pos 62
    · obtain ⟨x, hx, rfl⟩ := List.mem_map.mp hy
      have hlt := (h.valid x hx).lt
      omega
  have hle := (List.subperm_of_subset (List.nodup_cons.mpr ⟨hzero, hmap⟩) hsub).length_le
  rwa [List.length_cons, List.length_map, List.length_range] at hle

theorem Placed.enough (h : Placed l) : Enough loopBound l.length := by
  have hlog : Nat.log 2 (l.length + 1) ≤ 62 := by
    calc Nat.log 2 (l.length + 1) ≤ Nat.log 2 (2 ^ 62) := Nat.log_mono_right h.length_lt
      _ = 62 := Nat.log_pow (by decide) 62
  unfold Enough loopBound
  omega

theorem wp_onRoot {α : Type} {x : Op α} {post : α → RbRootCached → Prop} :
    wp (onRoot x) post s ↔ wp x (fun v m' => post v { s with mem := m' }) s.mem := by
  constructor
  · rintro ⟨v, s', hrun, hpost⟩
    rw [onRoot, Option.map_eq_some_iff] at hrun
    obtain ⟨⟨v', m'⟩, hx, heq⟩ := hrun
    cases heq
    exact ⟨v', m', hx, hpost⟩
  · rintro ⟨v, m', hx, hpost⟩
    exact ⟨v, _, by rw [onRoot, hx]; rfl, hpost⟩

theorem wp_storeLeftmost {post : Unit → RbRootCached → Prop} {v : ℕ} :
    wp (storeLeftmost v) post s ↔ post () { s with rbLeftmost := v } := wp_of_eq rfl

theorem wp_rbFirstCached {post : ℕ → RbRootCached → Prop} :
    wp rbFirstCached post s ↔ post s.rbLeftmost s := wp_of_eq rfl

theorem Placed.insert (h : Placed l) (hnode : NodeAddress node) (hn : node ∉ l) :
    Placed (CachedTree.insert less node l) := by
  refine ⟨CachedTree.nodup_insert h.nodup hn, fun x hx => ?_⟩
  rcases CachedTree.mem_insert.mp hx with rfl | hx
  · exact hnode
  · exact h.valid x hx

/-- Linking a node in puts a red leaf into the hole. -/
theorem wp_rbLinkNode (h : At m spine .nil) (hn : Placed (around spine)) (ha : a ≠ 0)
    (haS : a ∉ around spine) :
    wp (rbLinkNode a (parentPtr spine) (linkOf spine))
      (fun _ m' => At m' spine (.node .red .nil a .nil)) m := by
  have hS0 := notMem_of_placed hn
  simp only [rbLinkNode, wp_bind, wp_storeParentColor ha, wp_storeChild ha, wp_storeLink hS0]
  constructor
  · simp [Stored, haS, colorBit]
  · apply storedSpine_reattach _ hn.nodup
    · exact 0
    · simpa [haS] using h.spine

/-- Adding a node inserts it into the sequence and says whether it is now the leftmost. -/
theorem wp_rbAddCached (h : Sound s l) (hnode : NodeAddress node) (hn : node ∉ l)
    (hmono : l.Pairwise fun x y => less node x = true → less node y = true)
    (hfuel : Enough fuel l.length) :
    wp (rbAddCached less fuel node)
      (fun v s' => v = (if CachedTree.becomesLeftmost less node l then node else 0) ∧
        Sound s' (CachedTree.insert less node l)) s := by
  obtain ⟨⟨t, hat, rfl, k, hb⟩, hplaced, hleft⟩ := h
  have hheight : t.height < fuel := hb.height_le_log.trans_lt hfuel
  have hdescend := @wp_rbAddDescend _ node t [] fuel less hat (notMem_of_placed hplaced) hmono
    (by simp [before]) (by simp [after]) hheight
  rw [rbAddCached, wp_bind, wp_onRoot]
  apply hdescend.mono
  rintro _ m' ⟨rfl, spine, rfl, hplug, hbefore, hafter⟩
  have hplug' : plug .nil spine = t := hplug
  subst hplug'
  rw [at_root_plug] at hat
  obtain ⟨c, n, hnil, hfits⟩ := fits_of_balanced_plug hb
  cases hnil
  have hsplit := CachedTree.insert_of_split hbefore hafter
  have horder : (plug .nil spine).inorder = before spine ++ after spine := inorder_plug .nil spine
  rw [← horder] at hsplit
  have hspine := hplaced.around
  have hnS : node ∉ around spine := fun hmem => hn (mem_plug.mpr (Or.inr hmem))
  simp only [wp_bind]
  rw [wp_onRoot]
  apply (wp_rbLinkNode hat hspine hnode.ne_zero hnS).mono
  intro _ m₁ hlinked
  have hnew : (plug (.node .red .nil node .nil) spine).inorder =
      CachedTree.insert less node (plug .nil spine).inorder := by
    rw [hsplit.1, inorder_plug]
    rfl
  have hplaced' : Placed (plug (.node .red .nil node .nil) spine).inorder := by
    rw [hnew]
    exact hplaced.insert hnode hn
  have hinsert : wp (rbInsertColor fuel node)
      (fun _ m' => Holds m' (CachedTree.insert less node (plug .nil spine).inorder)) m₁ := by
    have hword : m₁.parentColor node = parentPtr spine := hlinked.stored.1
    rw [rbInsertColor, wp_bind, wp_rbRedParent hnode.ne_zero, hword, ← hnew]
    have hlength := height_plug .nil spine
    exact wp_rbInsert hlinked hplaced' .nil .nil hfits (by omega)
  rw [hsplit.2, rbInsertColorCached]
  rw [hnew] at hplaced'
  cases hempty : (before spine).isEmpty with
  | true =>
    rw [List.isEmpty_iff] at hempty
    simp only [if_true, wp_bind, wp_storeLeftmost, wp_onRoot]
    apply hinsert.mono
    intro _ m₂ hholds
    rw [wp_pure]
    refine ⟨rfl, hholds, hplaced', ?_⟩
    rw [hsplit.1, hempty]
    rfl
  | false =>
    simp only [Bool.false_eq_true, if_false, wp_onRoot]
    apply hinsert.mono
    intro _ m₂ hholds
    rw [wp_pure]
    refine ⟨rfl, hholds, hplaced', ?_⟩
    rw [horder] at hleft
    rw [hsplit.1]
    cases hb' : before spine with
    | nil => simp [hb'] at hempty
    | cons u us => simpa [hb'] using hleft

/-! ### Erasing -/

/-- Erasing a node takes it out of the sequence and returns the new leftmost node if the old
one was erased. -/
theorem wp_rbEraseCached (h : Sound s l) (hn : node ∈ l) (hfuel : Enough fuel l.length) :
    wp (rbEraseCached fuel node)
      (fun v s' => v = (CachedTree.eraseCached node l).1.getD 0 ∧ Sound s' (l.erase node)) s := by
  obtain ⟨⟨t, hat, rfl, k, hb⟩, hplaced, hleft⟩ := h
  have hheight : t.height ≤ fuel := (hb.height_le_log.trans_lt hfuel).le
  have herase := wp_rbErase hat hb hplaced hn hheight
  have hplaced' := hplaced.erase node
  rw [rbEraseCached, wp_bind, wp_rbFirstCached]
  cases horder : t.inorder with
  | nil => simp [horder] at hn
  | cons x xs =>
    rw [horder] at hleft hplaced' herase hplaced
    rw [List.headD_cons] at hleft
    rcases eq_or_ne x node with rfl | hne
    · have hnext := @wp_rbStep _ x t .right fuel [] xs hat (horder ▸ hplaced) horder hheight
      rw [if_pos hleft, wp_bind, wp_onRoot]
      apply hnext.mono
      rintro _ m' ⟨rfl, rfl⟩
      simp only [wp_bind, wp_storeLeftmost, wp_onRoot]
      apply herase.mono
      intro _ m₁ hholds
      rw [wp_pure]
      rw [List.erase_cons_head] at hholds hplaced' ⊢
      refine ⟨?_, hholds, hplaced', rfl⟩
      simp [CachedTree.eraseCached, CachedTree.leftmost, List.headD_eq_head?_getD]
    · have hfirst : ¬s.rbLeftmost = node := by rwa [hleft]
      rw [if_neg hfirst, wp_bind, wp_onRoot]
      apply herase.mono
      intro _ m₁ hholds
      rw [wp_pure]
      refine ⟨?_, hholds, hplaced', ?_⟩
      · simp [CachedTree.eraseCached, CachedTree.leftmost, hne]
      · rw [List.erase_cons_tail (by simpa using hne)]
        exact hleft

theorem map_replace {us vs : List ℕ} {victim : ℕ} (new : ℕ) (h : (us ++ victim :: vs).Nodup) :
    (us ++ victim :: vs).map (fun x => if x = victim then new else x) = us ++ new :: vs := by
  obtain ⟨-, hvs, hus⟩ := List.nodup_append'.mp h
  have hvs' := (List.nodup_cons.mp hvs).1
  have hus' : victim ∉ us := fun hmem => hus hmem List.mem_cons_self
  have hout : ∀ l : List ℕ, victim ∉ l → l.map (fun x => if x = victim then new else x) = l := by
    intro l hl
    apply (List.map_congr_left _).trans (List.map_id l)
    intro x hx
    have hne : x ≠ victim := by
      rintro rfl
      exact hl hx
    exact if_neg hne
  rw [List.map_append, List.map_cons, hout us hus', hout vs hvs', if_pos rfl]

theorem Placed.replace {us vs : List ℕ} {victim new : ℕ} (h : Placed (us ++ victim :: vs))
    (hnew : NodeAddress new) (hn : new ∉ us ++ victim :: vs) :
    Placed (us ++ new :: vs) := by
  obtain ⟨hnd, hvalid⟩ := h
  rw [List.nodup_middle] at hnd
  have hmem : ∀ x ∈ us ++ vs, x ∈ us ++ victim :: vs := by
    intro x hx
    simp only [List.mem_append, List.mem_cons] at hx ⊢
    tauto
  refine ⟨List.nodup_middle.mpr (List.nodup_cons.mpr ⟨fun hx => hn (hmem _ hx), ?_⟩), ?_⟩
  · exact (List.nodup_cons.mp hnd).2
  · intro x hx
    rcases List.mem_cons.mp (List.perm_middle.mem_iff.mp hx) with rfl | hx
    · exact hnew
    · exact hvalid x (hmem x hx)

/-- The replacement takes the victim's place in the sequence, also at its front. -/
theorem wp_rbReplaceNodeCached {victim new : ℕ} (h : Sound s l) (hv : victim ∈ l)
    (hnew : NodeAddress new) (hn : new ∉ l) :
    wp (rbReplaceNodeCached victim new)
      (fun _ s' => Sound s' (l.map fun x => if x = victim then new else x)) s := by
  obtain ⟨⟨t, hat, rfl, k, hb⟩, hplaced, hleft⟩ := h
  obtain ⟨c, l, r, spine, heq⟩ := exists_plug_of_mem hv []
  rw [List.append_nil] at heq
  obtain rfl : t = plug (.node c l victim r) spine := heq
  rw [at_root_plug] at hat
  have hreplace := wp_rbReplaceNode hat hplaced hnew.ne_zero hn
  obtain ⟨k', n, hbal, hfits⟩ := fits_of_balanced_plug hb
  have hbal' : Balanced (.node c l new r) k' n := by
    cases hbal with
    | red hl hr => exact .red hl hr
    | black hl hr => exact .black hl hr
  have hold : (plug (.node c l victim r) spine).inorder =
      (before spine ++ l.inorder) ++ victim :: (r.inorder ++ after spine) := by
    simp [inorder_plug, inorder]
  have hnew' : (plug (.node c l new r) spine).inorder =
      (before spine ++ l.inorder) ++ new :: (r.inorder ++ after spine) := by
    simp [inorder_plug, inorder]
  have hmap := map_replace new (hold ▸ hplaced.nodup)
  rw [hold] at hleft hn hplaced ⊢
  rw [hmap]
  have hplaced' := hplaced.replace hnew hn
  have hvictim : victim ∉ before spine ++ l.inorder := by
    intro hmem
    exact (List.nodup_append'.mp hplaced.nodup).2.2 hmem List.mem_cons_self
  have hholds : ∀ m', At m' spine (.node c l new r) →
      Holds m' ((before spine ++ l.inorder) ++ new :: (r.inorder ++ after spine)) := by
    intro m' hat'
    rw [← hnew']
    exact holds_of_fits hat' hbal' hfits rfl
  generalize before spine ++ l.inorder = us at *
  rw [rbReplaceNodeCached, wp_bind, wp_rbFirstCached]
  cases us with
  | nil =>
    have hfirst : s.rbLeftmost = victim := hleft
    simp only [if_pos hfirst, wp_bind, wp_storeLeftmost, wp_onRoot]
    apply hreplace.mono
    intro _ m' hat'
    exact ⟨hholds m' hat', hplaced', rfl⟩
  | cons u us =>
    have hfirst : s.rbLeftmost = u := hleft
    have hne : ¬s.rbLeftmost = victim := by
      rw [hfirst]
      rintro rfl
      exact hvictim List.mem_cons_self
    simp only [if_neg hne, wp_onRoot]
    apply hreplace.mono
    intro _ m' hat'
    exact ⟨hholds m' hat', hplaced', hleft⟩

end TomatOS.RbTree
