import TomatOS.RbTree.Stored

/-! The ends of a tree, the steps from a node to its neighbours and the walks made of them,
in order and after the children, and the replacement of a node in its place. -/

namespace TomatOS.RbTree

open Foundation Foundation.RedBlack Foundation.RedBlack.ColoredTree

variable {m : Mem} {a b p hole : ℕ} {t u l r x y : ColoredTree ℕ} {c : Color} {d : Side}
  {spine : Spine ℕ} {fuel : ℕ}

theorem wp_rbDescend (h : Stored m p t) (h0 : 0 ∉ t.inorder) (ht : ptr t ≠ 0)
    (hfuel : t.height ≤ fuel) :
    wp (rbDescend d fuel (ptr t))
      (fun v m' => m' = m ∧ (toward d t.inorder).head? = some v) m := by
  induction fuel generalizing t p with
  | zero =>
    cases t with
    | nil => exact absurd rfl ht
    | node c l a r => simp [height] at hfuel
  | succ fuel ih =>
    cases t with
    | nil => exact absurd rfl ht
    | node c l a r =>
      obtain ⟨x, y, hj⟩ := exists_join d c l a r
      rw [hj] at h h0 ht hfuel ⊢
      rw [height_join] at hfuel
      rw [ptr_join] at ht ⊢
      obtain ⟨-, hchild, -, hx, -⟩ := stored_join.mp h
      rw [mem_join, not_or, not_or] at h0
      rw [rbDescend, wp_bind, wp_loadChild ht, hchild, toward_join]
      rcases eq_or_ne (ptr x) 0 with hx0 | hx0
      · obtain rfl := ptr_eq_zero hx0 h0.2.1
        rw [if_neg (not_not.mpr hx0), wp_pure]
        exact ⟨rfl, by simp [inorder]⟩
      · rw [if_pos hx0]
        apply (ih hx h0.2.1 hx0 (by omega)).mono
        rintro v m' ⟨rfl, hv⟩
        exact ⟨rfl, by rw [List.head?_append, hv]; rfl⟩

/-- The ascent ends at the nearest node on the side `d` of the hole. -/
theorem wp_rbAscend (h : StoredSpine m hole spine) (hh : hole ≠ 0) (hn : hole ∉ around spine)
    (hnd : (around spine).Nodup) (h0 : 0 ∉ around spine) (h4 : ∀ z ∈ around spine, z % 4 = 0)
    (hword : m.parentColor hole = parentPtr spine + colorBit c) (hfuel : spine.length < fuel) :
    wp (rbAscend d fuel hole) (fun v m' => m' = m ∧ v = (beyond d spine).headD 0) m := by
  induction spine generalizing hole c fuel with
  | nil =>
    obtain ⟨fuel, rfl⟩ : ∃ n, fuel = n + 1 := Nat.exists_eq_succ_of_ne_zero (by omega)
    rw [rbAscend, wp_bind, wp_rbParent hh, hword, parentOf_add rfl,
      if_pos (show parentPtr [] = 0 from rfl), wp_pure]
    exact ⟨rfl, rfl⟩
  | cons f spine ih =>
    obtain ⟨fuel, rfl⟩ : ∃ n, fuel = n + 1 := Nat.exists_eq_succ_of_ne_zero (by omega)
    obtain ⟨hf, hchild, hother, -, hrest⟩ := h
    have hp4 := h4 f.here List.mem_cons_self
    simp only [around, List.mem_cons, List.mem_append, not_or, List.nodup_cons] at hn h0 hnd h4
    have hf0 : f.here ≠ 0 := Ne.symm h0.1
    rw [rbAscend, wp_bind, wp_rbParent hh, hword, parentPtr_cons, parentOf_add hp4, if_neg hf0,
      wp_bind, wp_loadChild hf0]
    rcases Side.eq_or_eq_other f.side d with rfl | rfl
    · rw [hchild, if_pos rfl, beyond, if_pos rfl]
      have hnd' := (List.nodup_append.mp hnd.2).2.1
      exact ih hrest hf0 hnd.1.2 hnd' h0.2.2 (fun z hz => h4 z (Or.inr (Or.inr hz))) hf
        (by simpa using hfuel)
    · rw [hother, if_neg (ne_ptr hn.2.1 hh), wp_pure, beyond, if_neg (Side.ne_other _)]
      exact ⟨rfl, rfl⟩

/-- The step from a node of a tree goes to its neighbour on the side `d`. -/
theorem wp_rbStep {us vs : List ℕ} (h : At m [] t) (hn : Placed t.inorder)
    (hsplit : toward d.other t.inorder = us ++ a :: vs) (hfuel : t.height ≤ fuel) :
    wp (rbStep d fuel a) (fun v m' => m' = m ∧ v = vs.headD 0) m := by
  have hmem : a ∈ t.inorder := by
    rw [← mem_toward (d := d.other), hsplit]
    simp
  obtain ⟨c, l, r, spine, heq⟩ := exists_plug_of_mem hmem []
  rw [List.append_nil] at heq
  obtain ⟨x, y, hj⟩ := exists_join d c l a r
  rw [hj] at heq
  obtain rfl : t = plug (join d c a x y) spine := heq
  rw [at_root_plug] at h
  have h0 := notMem_of_placed hn
  have ha4 := hn.aligned a hmem
  have hpp := hn.ptr_aligned
  have ha := hn.ne_zero a hmem
  have h4 : ∀ z ∈ around spine, z % 4 = 0 := fun z hz => hn.aligned z (mem_plug.mpr (Or.inr hz))
  have hheight := height_plug (join d c a x y) spine
  have hnd := hn.nodup
  rw [height_join] at hheight
  have hlength : spine.length < fuel := by omega
  have hmax := le_max_left x.height y.height
  have hxh : x.height ≤ fuel := by omega
  simp only [mem_plug, mem_join, not_or, nodup_plug, nodup_join, disjoint_join_left] at h0 hnd
  obtain ⟨⟨-, hx0, -⟩, hS0⟩ := h0
  obtain ⟨⟨⟨hax, hay⟩, -⟩, hSn, haS, -⟩ := hnd
  have hvs : vs = toward d.other x.inorder ++ beyond d spine := by
    have hsplit' := toward_inorder_plug d.other (join d c a x y) spine
    rw [← join_other, toward_join, Side.other_other, join_other, hsplit] at hsplit'
    have hnodup : (us ++ a :: vs).Nodup := hsplit ▸ nodup_toward.mpr hn.nodup
    rw [List.nodup_append', List.nodup_cons] at hnodup
    have hus : a ∉ us := fun hmem => hnodup.2.2 hmem List.mem_cons_self
    rw [List.append_assoc, List.cons_append, ← List.append_assoc] at hsplit'
    exact ((List.append_cons_inj_of_notMem hus hnodup.2.1.1).mp hsplit').2.2
  obtain ⟨hword, hchild, -, hx, -⟩ := stored_join.mp h.stored
  have hspine := h.spine
  rw [ptr_join] at hspine
  have hempty : (m.parentColor a == a) = false := by
    rw [beq_eq_false_iff_ne, hword]
    intro he
    have hpar : parentPtr spine = a := by
      rw [← he] at ha4
      cases c <;> rw [colorBit] at ha4 he <;> omega
    cases spine with
    | nil => exact ha hpar.symm
    | cons f spine => exact haS (hpar ▸ List.mem_cons_self)
  rw [rbStep, wp_bind, rbEmptyNode, wp_bind, wp_loadParentColor ha, wp_pure, hempty,
    if_neg Bool.false_ne_true, wp_bind, wp_loadChild ha, hchild]
  rcases eq_or_ne (ptr x) 0 with hxnil | hxne
  · obtain rfl := ptr_eq_zero hxnil hx0
    rw [if_neg (not_not.mpr hxnil), hvs, inorder, toward_nil, List.nil_append]
    exact wp_rbAscend hspine ha haS hSn hS0 h4 hword hlength
  · rw [if_pos hxne, hvs]
    apply (wp_rbDescend hx hx0 hxne hxh).mono
    rintro v m' ⟨rfl, hv⟩
    rw [List.headD_eq_head?_getD, List.head?_append, hv]
    exact ⟨rfl, rfl⟩

theorem wp_rbEnd (h : At m [] t) (hn : Placed t.inorder) (hfuel : t.height ≤ fuel) :
    wp (rbEnd d fuel) (fun v m' => m' = m ∧ v = (toward d t.inorder).headD 0) m := by
  have h0 := notMem_of_placed hn
  have hroot : m.rbNode = ptr t := h.spine
  rw [rbEnd, wp_bind, wp_loadRoot, hroot]
  rcases eq_or_ne (ptr t) 0 with hnil | hne
  · obtain rfl := ptr_eq_zero hnil h0
    rw [if_pos hnil, wp_pure, inorder, toward_nil]
    exact ⟨rfl, rfl⟩
  · rw [if_neg hne]
    apply (wp_rbDescend h.stored h0 hne hfuel).mono
    rintro v m' ⟨rfl, hv⟩
    rw [List.headD_eq_head?_getD, hv]
    exact ⟨rfl, rfl⟩

/-- The loop `for (n = first; n; n = step(n))`: the nodes it meets. -/
def follow (step : ℕ → Op ℕ) : ℕ → ℕ → Op (List ℕ)
  | 0, _ => failure
  | fuel + 1, n =>
    if n = 0 then return []
    else do
      let next ← step n
      let rest ← follow step fuel next
      return n :: rest

theorem wp_follow {step : ℕ → Op ℕ} {us vs : List ℕ} (h0 : 0 ∉ us ++ vs)
    (hstep : ∀ us' b ws, us ++ vs = us' ++ b :: ws →
      wp (step b) (fun v m' => m' = m ∧ v = ws.headD 0) m) (hfuel : vs.length < fuel) :
    wp (follow step fuel (vs.headD 0)) (fun v m' => m' = m ∧ v = vs) m := by
  induction vs generalizing us fuel with
  | nil =>
    obtain ⟨fuel, rfl⟩ : ∃ n, fuel = n + 1 := Nat.exists_eq_succ_of_ne_zero (by omega)
    rw [follow, List.headD_nil, if_pos rfl, wp_pure]
    exact ⟨rfl, rfl⟩
  | cons a vs ih =>
    obtain ⟨fuel, rfl⟩ : ∃ n, fuel = n + 1 := Nat.exists_eq_succ_of_ne_zero (by omega)
    have ha : a ≠ 0 := by
      rintro rfl
      exact h0 (by simp)
    have hassoc : (us ++ [a]) ++ vs = us ++ a :: vs := by simp
    rw [follow, List.headD_cons, if_neg ha, wp_bind]
    apply (hstep us a vs rfl).mono
    rintro _ m' ⟨rfl, rfl⟩
    rw [wp_bind]
    rw [← hassoc] at h0 hstep
    apply (ih h0 hstep (Nat.lt_of_succ_lt_succ hfuel)).mono
    rintro _ m'' ⟨rfl, rfl⟩
    rw [wp_pure]
    exact ⟨rfl, rfl⟩

/-- The walks from `rb_first` by `rb_next` and from `rb_last` by `rb_prev`. -/
def rbWalk (d : Side) (fuel steps : ℕ) : Op (List ℕ) := do
  let n ← rbEnd d.other fuel
  follow (rbStep d fuel) steps n

/-- A walk meets every node once, in order or in reverse. -/
theorem wp_rbWalk {steps : ℕ} (h : At m [] t) (hn : Placed t.inorder) (hfuel : t.height ≤ fuel)
    (hsteps : t.inorder.length < steps) :
    wp (rbWalk d fuel steps) (fun v m' => m' = m ∧ v = toward d.other t.inorder) m := by
  rw [rbWalk, wp_bind]
  apply (wp_rbEnd h hn hfuel).mono
  rintro _ m' ⟨rfl, rfl⟩
  apply @wp_follow _ _ _ []
  · simpa using notMem_of_placed hn
  · intro us a vs hsplit
    exact wp_rbStep h hn hsplit hfuel
  · rwa [length_toward]

/-! ### After the children -/

theorem wp_rbLeftDeepestNode (h : Stored m p t) (h0 : 0 ∉ t.inorder) (ht : ptr t ≠ 0)
    (hfuel : t.height ≤ fuel) :
    wp (rbLeftDeepestNode fuel (ptr t)) (fun v m' => m' = m ∧ t.postorder.head? = some v) m := by
  induction fuel generalizing t p with
  | zero =>
    cases t with
    | nil => exact absurd rfl ht
    | node c l a r => simp [height] at hfuel
  | succ fuel ih =>
    cases t with
    | nil => exact absurd rfl ht
    | node c l a r =>
      rw [height] at hfuel
      have hmaxl := le_max_left l.height r.height
      have hmaxr := le_max_right l.height r.height
      obtain ⟨-, hleft, hright, hl, hr⟩ := h
      simp only [inorder, List.mem_append, List.mem_cons, not_or] at h0
      rw [ptr_node] at ht ⊢
      rw [rbLeftDeepestNode, wp_bind, wp_loadChild ht, hleft, postorder]
      rcases eq_or_ne (ptr l) 0 with hlnil | hlne
      · obtain rfl := ptr_eq_zero hlnil h0.1
        rw [if_neg (not_not.mpr hlnil), wp_bind, wp_loadChild ht, hright]
        rcases eq_or_ne (ptr r) 0 with hrnil | hrne
        · obtain rfl := ptr_eq_zero hrnil h0.2.2
          rw [if_neg (not_not.mpr hrnil), wp_pure]
          exact ⟨rfl, rfl⟩
        · rw [if_pos hrne]
          apply (ih hr h0.2.2 hrne (by omega)).mono
          rintro v m' ⟨rfl, hv⟩
          exact ⟨rfl, by rw [postorder, List.nil_append, List.head?_append, hv]; rfl⟩
      · rw [if_pos hlne]
        apply (ih hl h0.1 hlne (by omega)).mono
        rintro v m' ⟨rfl, hv⟩
        exact ⟨rfl, by rw [List.head?_append, hv]; rfl⟩

theorem wp_rbFirstPostorder (h : At m [] t) (hn : Placed t.inorder) (hfuel : t.height ≤ fuel) :
    wp (rbFirstPostorder fuel) (fun v m' => m' = m ∧ v = t.postorder.headD 0) m := by
  have h0 := notMem_of_placed hn
  have hroot : m.rbNode = ptr t := h.spine
  rw [rbFirstPostorder, wp_bind, wp_loadRoot, hroot]
  rcases eq_or_ne (ptr t) 0 with hnil | hne
  · obtain rfl := ptr_eq_zero hnil h0
    rw [if_pos hnil, wp_pure]
    exact ⟨rfl, rfl⟩
  · rw [if_neg hne]
    apply (wp_rbLeftDeepestNode h.stored h0 hne hfuel).mono
    rintro v m' ⟨rfl, hv⟩
    rw [List.headD_eq_head?_getD, hv]
    exact ⟨rfl, rfl⟩

/-- The words of these nodes are the same. -/
def Mem.Agrees (m m' : Mem) (l : List ℕ) : Prop :=
  ∀ a ∈ l, m'.parentColor a = m.parentColor a ∧ ∀ d, m'.child d a = m.child d a

/-- The step from a node to the next one after its children reads nothing of the nodes before
that node. -/
theorem wp_rbNextPostorder {m' : Mem} {us vs : List ℕ} (h : At m [] t) (hn : Placed t.inorder)
    (hsplit : t.postorder = us ++ a :: vs) (hagree : m.Agrees m' (a :: vs))
    (hfuel : t.height ≤ fuel) :
    wp (rbNextPostorder fuel a) (fun v m'' => m'' = m' ∧ v = vs.headD 0) m' := by
  have hmem : a ∈ t.inorder := by
    rw [← t.postorder_perm.mem_iff, hsplit]
    simp
  obtain ⟨c, l, r, spine, heq⟩ := exists_plug_of_mem hmem []
  rw [List.append_nil] at heq
  obtain rfl : t = plug (node c l a r) spine := heq
  rw [at_root_plug] at h
  have hpp := hn.ptr_aligned
  have ha := hn.ne_zero a hmem
  have hvs : vs = later spine := by
    have hsplit' := postorder_plug (node c l a r) spine
    have hnodup : (us ++ a :: vs).Nodup :=
      hsplit ▸ (postorder_perm _).nodup_iff.mpr hn.nodup
    rw [List.nodup_append', List.nodup_cons] at hnodup
    have hus : a ∉ us := fun hmem => hnodup.2.2 hmem List.mem_cons_self
    have hparts : us ++ a :: vs = (earlier spine ++ (l.postorder ++ r.postorder)) ++ a :: later spine := by
      rw [← hsplit, hsplit', postorder]
      simp
    exact ((List.append_cons_inj_of_notMem hus hnodup.2.1.1).mp hparts).2.2
  obtain ⟨hword, -⟩ := h.stored
  have hspine := h.spine
  rw [ptr_node] at hspine
  have hword' := (hagree a List.mem_cons_self).1.trans hword
  rw [rbNextPostorder, if_neg ha, wp_bind, wp_rbParent ha, hword', parentOf_add hpp]
  rw [hvs] at hagree ⊢
  cases spine with
  | nil =>
    rw [if_pos (show parentPtr [] = 0 from rfl), wp_pure]
    exact ⟨rfl, rfl⟩
  | cons f spine =>
    obtain ⟨d, cf, p, s⟩ := f
    have hp : p ≠ 0 := hn.ne_zero p (mem_plug.mpr (Or.inr List.mem_cons_self))
    obtain ⟨-, hchild, hother, hs, -⟩ := hspine
    have hpagree : ∀ e, m'.child e p = m.child e p := by
      apply (hagree p _).2
      cases d <;> simp [later]
    rw [parentPtr_cons, if_neg hp, wp_bind, wp_loadChild hp, wp_bind, wp_loadChild hp,
      hpagree, hpagree]
    have h0 := notMem_of_placed hn
    have hnd := hn.nodup
    simp only [mem_plug, around, List.mem_cons, List.mem_append, not_or, nodup_plug,
      List.disjoint_cons_right, List.disjoint_append_right] at h0 hnd
    obtain ⟨-, -, hs0, -⟩ := h0
    obtain ⟨-, -, -, has, -⟩ := hnd
    cases d with
    | left =>
      rw [show m.child .left p = a from hchild, show m.child .right p = ptr s from hother]
      rcases eq_or_ne (ptr s) 0 with hnil | hne
      · obtain rfl := ptr_eq_zero hnil hs0
        rw [if_neg (fun hc => hc.2 hnil), wp_pure]
        exact ⟨rfl, rfl⟩
      · have hheight := height_plug (join .left cf p (node c l a r) s) spine
        have hmax := le_max_right (node c l a r).height s.height
        rw [height_join] at hheight
        have hfuel' : (plug (join .left cf p (node c l a r) s) spine).height ≤ fuel := hfuel
        have hsh : s.height ≤ fuel := by omega
        have hs' : Stored m' p s := by
          apply hs.congr
          intro b hb
          apply hagree b
          rw [← s.postorder_perm.mem_iff] at hb
          simp [later, hb]
        rw [if_pos ⟨rfl, hne⟩]
        apply (wp_rbLeftDeepestNode hs' hs0 hne hsh).mono
        rintro v m'' ⟨rfl, hv⟩
        rw [later, List.headD_eq_head?_getD, List.head?_append, hv]
        exact ⟨rfl, rfl⟩
    | right =>
      have has' : a ∉ s.inorder := fun hmem => has (by simp [inorder]) hmem
      have hne : a ≠ m.child .left p := by
        rw [show m.child .left p = ptr s from hother]
        exact ne_ptr has' ha
      rw [if_neg (fun hc => hne hc.1), wp_pure]
      exact ⟨rfl, rfl⟩

/-- The body of a loop, which may do with the words of its node what it wants. -/
def runBody (body : ℕ → Mem → Mem) (n : ℕ) : Op Unit := fun m => some ((), body n m)

/-- The loop of `rbtree_postorder_for_each_entry_safe`: the nodes that its body is run for.
The next node is looked up before the body. -/
def postorderLoop (body : ℕ → Mem → Mem) (fuel : ℕ) : ℕ → ℕ → Op (List ℕ)
  | 0, _ => failure
  | steps + 1, pos => do
    if pos = 0 then return []
    else
      let n ← rbNextPostorder fuel pos
      runBody body pos
      let rest ← postorderLoop body fuel steps n
      return pos :: rest

def rbtreePostorderForEachEntrySafe (body : ℕ → Mem → Mem) (fuel steps : ℕ) : Op (List ℕ) := do
  let pos ← rbFirstPostorder fuel
  postorderLoop body fuel steps pos

/-- A body that keeps to the words of the node it is run for. -/
def Local (body : ℕ → Mem → Mem) : Prop :=
  ∀ n (m : Mem) l, n ∉ l → m.Agrees (body n m) l

theorem wp_runBody {body : ℕ → Mem → Mem} {post : Unit → Mem → Prop} :
    wp (runBody body a) post m ↔ post () (body a m) := wp_of_eq rfl

theorem wp_postorderLoop {body : ℕ → Mem → Mem} {m' : Mem} {us vs : List ℕ} {steps : ℕ}
    (h : At m [] t) (hn : Placed t.inorder) (hbody : Local body)
    (hsplit : t.postorder = us ++ vs) (hagree : m.Agrees m' vs) (hfuel : t.height ≤ fuel)
    (hsteps : vs.length < steps) :
    wp (postorderLoop body fuel steps (vs.headD 0)) (fun v _ => v = vs) m' := by
  induction vs generalizing us steps m' with
  | nil =>
    obtain ⟨steps, rfl⟩ : ∃ n, steps = n + 1 := Nat.exists_eq_succ_of_ne_zero (by omega)
    rw [postorderLoop, List.headD_nil, if_pos rfl, wp_pure]
  | cons a vs ih =>
    obtain ⟨steps, rfl⟩ : ∃ n, steps = n + 1 := Nat.exists_eq_succ_of_ne_zero (by omega)
    have hnodup : t.postorder.Nodup := t.postorder_perm.nodup_iff.mpr hn.nodup
    have ha : a ≠ 0 := by
      apply hn.ne_zero
      rw [← t.postorder_perm.mem_iff, hsplit]
      simp
    have hassoc : t.postorder = (us ++ [a]) ++ vs := by simp [hsplit]
    rw [hsplit, List.nodup_append', List.nodup_cons] at hnodup
    have hagree' : m.Agrees (body a m') vs := by
      intro b hb
      obtain ⟨hpc, hchild⟩ := hagree b (List.mem_cons_of_mem a hb)
      obtain ⟨hpc', hchild'⟩ := hbody a m' vs hnodup.2.1.1 b hb
      exact ⟨hpc'.trans hpc, fun d => (hchild' d).trans (hchild d)⟩
    rw [postorderLoop, List.headD_cons, if_neg ha, wp_bind]
    apply (wp_rbNextPostorder h hn hsplit hagree hfuel).mono
    rintro _ m'' ⟨rfl, rfl⟩
    rw [wp_bind, wp_runBody, wp_bind]
    apply (ih hassoc hagree' (Nat.lt_of_succ_lt_succ hsteps)).mono
    rintro _ _ rfl
    rw [wp_pure]

/-- The loop runs its body for every node once and after its children. -/
theorem wp_rbtreePostorderForEachEntrySafe {body : ℕ → Mem → Mem} {steps : ℕ} (h : At m [] t)
    (hn : Placed t.inorder) (hbody : Local body) (hfuel : t.height ≤ fuel)
    (hsteps : t.inorder.length < steps) :
    wp (rbtreePostorderForEachEntrySafe body fuel steps) (fun v _ => v = t.postorder) m := by
  rw [rbtreePostorderForEachEntrySafe, wp_bind]
  apply (wp_rbFirstPostorder h hn hfuel).mono
  rintro _ m' ⟨rfl, rfl⟩
  apply @wp_postorderLoop _ _ _ _ _ [] _ _ h hn hbody rfl (fun _ _ => ⟨rfl, fun _ => rfl⟩) hfuel
  rwa [t.postorder_perm.length_eq]

/-! ### Walks of a balanced tree -/

/-- The walks by `rb_next` and by `rb_prev` meet every node once, in order and in reverse,
and no loop of theirs has more than `2 * log (n + 1)` iterations. -/
theorem walks_in_order {nodes : List ℕ} {steps : ℕ} (h : Holds m nodes) (hn : Placed nodes)
    (hfuel : 2 * Nat.log 2 (nodes.length + 1) ≤ fuel) (hsteps : nodes.length < steps) :
    rbWalk .right fuel steps m = some (nodes, m) ∧
      rbWalk .left fuel steps m = some (nodes.reverse, m) := by
  obtain ⟨t, hat, rfl, k, hb⟩ := h
  have hheight := hb.height_le_log.trans hfuel
  obtain ⟨_, _, hright, rfl, rfl⟩ := wp_rbWalk (d := .right) hat hn hheight hsteps
  obtain ⟨_, _, hleft, rfl, rfl⟩ := wp_rbWalk (d := .left) hat hn hheight hsteps
  exact ⟨hright, hleft⟩

/-- A black node with two red children. -/
def redLeaves : Mem where
  parentColor a := if a = 16 then 1 else 16
  child d a := if a = 16 then (match d with | .left => 8 | .right => 24) else 0
  rbNode := 16

theorem redLeaves_holds : Holds redLeaves [8, 16, 24] := by
  refine ⟨.node .black (.node .red .nil 8 .nil) 16 (.node .red .nil 24 .nil), ?_, rfl, 1, ?_⟩
  · constructor
    · simp [redLeaves, Stored, parentPtr, above, colorBit]
    · rfl
  · exact .black (.red .nil .nil) (.red .nil .nil)

theorem redLeaves_placed : Placed [8, 16, 24] := by
  refine ⟨by decide, ?_⟩
  intro a ha
  simp only [List.mem_cons, List.not_mem_nil, or_false] at ha
  rcases ha with rfl | rfl | rfl
  all_goals exact ⟨by decide, by decide, by decide⟩

theorem redLeaves_walks :
    rbWalk .right 4 4 redLeaves = some ([8, 16, 24], redLeaves) ∧
      rbWalk .left 4 4 redLeaves = some ([24, 16, 8], redLeaves) :=
  walks_in_order redLeaves_holds redLeaves_placed (by decide) (by decide)

theorem child_before_parent (h : At m [] t) (hn : Placed t.inorder) (ha : a ∈ t.inorder)
    (hchild : m.child d a ≠ 0) : [m.child d a, a].Sublist t.postorder := by
  obtain ⟨c, l, r, spine, heq⟩ := exists_plug_of_mem ha []
  rw [List.append_nil] at heq
  obtain ⟨x, y, hj⟩ := exists_join d c l a r
  rw [hj] at heq
  obtain rfl : t = plug (join d c a x y) spine := heq
  rw [at_root_plug] at h
  obtain ⟨-, hx, -⟩ := stored_join.mp h.stored
  rw [hx] at hchild ⊢
  have hmem : ptr x ∈ x.postorder := x.postorder_perm.mem_iff.mpr (ptr_mem hchild)
  have hsub : ∀ l : List ℕ, ptr x ∈ l → [ptr x, a].Sublist (l ++ [a]) := by
    intro l hl
    exact (List.singleton_sublist.mpr hl).append (List.Sublist.refl [a])
  rw [postorder_plug]
  apply List.Sublist.trans _ (List.sublist_append_right _ _)
  apply List.Sublist.trans _ (List.sublist_append_left _ _)
  cases d with
  | left =>
    rw [join, postorder, ← List.append_assoc]
    exact hsub _ (List.mem_append_left _ hmem)
  | right =>
    rw [join, postorder, ← List.append_assoc]
    exact hsub _ (List.mem_append_right _ hmem)

/-- The body of the safe loop is run for every node once and after its children, whatever
it does with the node. -/
theorem postorder_loop_safe {nodes : List ℕ} {steps : ℕ} {body : ℕ → Mem → Mem}
    (h : Holds m nodes) (hn : Placed nodes) (hbody : Local body)
    (hfuel : 2 * Nat.log 2 (nodes.length + 1) ≤ fuel) (hsteps : nodes.length < steps) :
    ∃ v m', rbtreePostorderForEachEntrySafe body fuel steps m = some (v, m') ∧ v.Perm nodes ∧
      ∀ d, ∀ a ∈ nodes, m.child d a ≠ 0 → [m.child d a, a].Sublist v := by
  obtain ⟨t, hat, rfl, k, hb⟩ := h
  have hheight := hb.height_le_log.trans hfuel
  obtain ⟨_, m', hrun, rfl⟩ := wp_rbtreePostorderForEachEntrySafe hat hn hbody hheight hsteps
  refine ⟨_, m', hrun, t.postorder_perm, ?_⟩
  intro d a ha hchild
  exact child_before_parent hat hn ha hchild

/-- A body that clears the words of its node. -/
theorem redLeaves_cleared :
    ∃ v m', rbtreePostorderForEachEntrySafe
        (fun n m => ((m.setParentColor n 0).setChild .left n 0).setChild .right n 0) 4 4
        redLeaves = some (v, m') ∧ v.Perm [8, 16, 24] ∧
      ∀ d, ∀ a ∈ [8, 16, 24], redLeaves.child d a ≠ 0 →
        [redLeaves.child d a, a].Sublist v := by
  apply postorder_loop_safe redLeaves_holds redLeaves_placed _ (by decide) (by decide)
  intro n m l hn a ha
  have hne : a ≠ n := by
    rintro rfl
    exact hn ha
  simp [hne]

/-! ### Replacing a node -/

/-- The replacement takes the place of the victim, with its colour. -/
theorem wp_rbReplaceNode (h : At m spine (.node c l a r))
    (hn : Placed (plug (.node c l a r) spine).inorder) (hb0 : b ≠ 0)
    (hb : b ∉ (plug (.node c l a r) spine).inorder) :
    wp (rbReplaceNode a b) (fun _ m' => At m' spine (.node c l b r)) m := by
  have h0 := notMem_of_placed hn
  have hpp := hn.ptr_aligned
  have ha4 := hn.aligned a (by simp [mem_plug, inorder])
  have hnd := hn.nodup
  rw [← join_left] at h0 hnd hb
  simp only [mem_plug, mem_join, not_or, nodup_plug, nodup_join, disjoint_join_left] at h0 hnd hb
  obtain ⟨⟨ha0, hl0, hr0⟩, hS0⟩ := h0
  obtain ⟨⟨⟨hal, har⟩, hln, hrn, hlr⟩, hSn, haS, hlS, hrS⟩ := hnd
  obtain ⟨⟨hba, hbl, hbr⟩, hbS⟩ := hb
  obtain ⟨hword, hleft, hright, hl, hr⟩ := h.stored
  have hspine := h.spine
  rw [ptr_node] at hspine
  have ha : a ≠ 0 := Ne.symm ha0
  have hab : a ≠ b := Ne.symm hba
  have hlr' := ptr_notMem hlr hr0
  have hrl' := ptr_notMem (List.disjoint_symm hlr) hl0
  have hlS' := ptr_notMem hlS hS0
  have hrS' := ptr_notMem hrS hS0
  have hl₁ : Stored (((m.setParentColor b (parentPtr spine + colorBit c)).setChild .right b
      (ptr r)).setChild .left b (ptr l)) a l := by simp [hbl, hl]
  have hr₁ : Stored ((((m.setParentColor b (parentPtr spine + colorBit c)).setChild .right b
      (ptr r)).setChild .left b (ptr l)).adopt l b l.color) a r := by simp [hbr, hlr', hr]
  have hspine₁ : StoredSpine (((((m.setParentColor b (parentPtr spine + colorBit c)).setChild .right
      b (ptr r)).setChild .left b (ptr l)).adopt l b l.color).adopt r b r.color) a spine := by
    simp [hbS, hlS', hrS', hspine]
  simp only [rbReplaceNode, copyNode, wp_bind, wp_rbParent ha, hword, parentOf_add hpp,
    wp_loadParentColor ha, wp_loadChild ha, hright, hleft, wp_storeParentColor hb0,
    wp_storeChild hb0, Mem.setChild_of_ne hab, Mem.setParentColor_child, Mem.adopt_child,
    wp_adopt_keep hl₁ ha4, wp_adopt_keep hr₁ ha4, wp_rbChangeChild hspine₁ ha haS hS0]
  constructor
  · refine ⟨by simp [hbl, hbr], by simp [hbS], by simp [hbS], ?_, ?_⟩
    · rw [stored_reattach hlS, stored_adopt hrl']
      exact stored_adopt_self hl₁ hln hl0 rfl
    · rw [stored_reattach hrS]
      exact stored_adopt_self hr₁ hrn hr0 rfl
  · exact storedSpine_reattach hspine₁ hSn

end TomatOS.RbTree
