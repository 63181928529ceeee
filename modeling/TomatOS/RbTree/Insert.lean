import TomatOS.RbTree.Stored

/-! The insertion loop: a red node put below a red one is moved up by recolouring, or the
tree is rotated once or twice, until no red node has a red child. -/

namespace TomatOS.RbTree

open Foundation Foundation.RedBlack Foundation.RedBlack.ColoredTree

variable {m : Mem} {a b p g : ℕ} {s t u x y A B T : ColoredTree ℕ} {c k : Color} {d : Side}
  {spine : Spine ℕ}

/-- Case 3 on the words it reads; the parent of `T` is written here. -/
theorem wp_rbInsertOuter {q : ℕ} (hword : m.parentColor g = parentPtr spine + colorBit c)
    (hfar : m.child d.other g = ptr B) (houter : m.child d p = ptr A) (hA : Stored m p A)
    (hT : Stored m q T) (hTc : T.color = .black) (hB : Stored m g B) (hs : StoredSpine m g spine)
    (hn : Placed (plug (join d c p A (join d .red g T B)) spine).inorder) :
    wp (rbInsertOuter d p g (ptr T))
      (fun _ m' => At m' spine (join d c p A (join d .red g T B))) m := by
  have h0 := notMem_of_placed hn
  have hnd := hn.nodup
  simp only [mem_plug, mem_join, not_or, nodup_plug, nodup_join, disjoint_join_left,
    disjoint_join_right] at h0 hnd
  obtain ⟨⟨hp0, hA0, hg0, hT0, hB0⟩, hs0⟩ := h0
  obtain ⟨⟨⟨hpA, hpg, hpT, hpB⟩, -, ⟨⟨hgT, hgB⟩, hTn, -, hTB⟩, hgA, hAT, hAB⟩, hsn, hps, -, hgs,
    hTs, hBs⟩ := hnd
  have hg : g ≠ 0 := Ne.symm hg0
  have hp : p ≠ 0 := Ne.symm hp0
  have hgp : g ≠ p := Ne.symm hpg
  have hTA := ptr_notMem (List.disjoint_symm hAT) hA0
  have hTB' := ptr_notMem hTB hB0
  have hTs' := ptr_notMem hTs hs0
  simp only [rbInsertOuter, wp_bind, wp_storeChild hg, wp_storeChild hp, wp_adopt]
  apply Rotating.wp _ hn
  constructor
  case word => simp [hgT, hword]
  case near => simp [hgp]
  case far => simp [hgp, hfar]
  case outer => simp [hpg, houter]
  case inner => simp
  case storedOuter => simp [hTA, hpA, hgA, hA]
  case storedNear => exact stored_adopt_self (q := q) (by simp [hgT, hpT, hT]) hTn hT0 hTc
  case storedFar => simp [hTB', hpB, hgB, hB]
  case spine => simp [hTs', hps, hgs, hs]

theorem wp_rbInsertInner {c' : Color}
    (h : At m spine (join d c g (join d c' p s (join d .red a x y)) u)) (hx : x.color = .black)
    (hy : y.color = .black)
    (hn : Placed (plug (join d c g (join d c' p s (join d .red a x y)) u) spine).inorder) :
    wp (rbInsertInner d a p) (fun r m' => r = (a, ptr y) ∧
      wp (rbInsertOuter d a g (ptr y))
        (fun _ m'' => At m'' spine (join d c a (join d .red p s x) (join d .red g y u))) m') m := by
  have h0 := notMem_of_placed hn
  have hnd := hn.nodup
  simp only [mem_plug, mem_join, not_or, nodup_plug, nodup_join, disjoint_join_left,
    disjoint_join_right] at h0 hnd
  obtain ⟨⟨hg0, ⟨hp0, hs0, ha0, hx0, hy0⟩, hu0⟩, hS0⟩ := h0
  obtain ⟨⟨⟨⟨hgp, hgs, hga, hgx, hgy⟩, hgu⟩, ⟨⟨hps, hpa, hpx, hpy⟩, -, ⟨⟨hax, hay⟩, hxn, -, hxy⟩,
    has, hsx, hsy⟩, -, hpu, hsu, hau, hxu, hyu⟩, hsn, hgS, ⟨hpS, hsS, haS, hxS, hyS⟩, huS⟩ := hnd
  obtain ⟨hword, hnear, hfar, htree, hu⟩ := stored_join.mp h.stored
  obtain ⟨-, hpd, hpo, hstored, hnode⟩ := stored_join.mp htree
  obtain ⟨-, had, hao, hxs, hys⟩ := stored_join.mp hnode
  rw [ptr_join] at hnear hpo
  have hspine := h.spine
  rw [ptr_join] at hspine
  have hn' : Placed (plug (join d c a (join d .red p s x) (join d .red g y u)) spine).inorder := by
    rw [inorder_plug_congr (inorder_rotate_twice d c c' .red c .red .red g p a s x y u) spine]
    exact hn
  have hp : p ≠ 0 := Ne.symm hp0
  have ha : a ≠ 0 := Ne.symm ha0
  have hap : a ≠ p := Ne.symm hpa
  have hag : a ≠ g := Ne.symm hga
  have hxs' := ptr_notMem (List.disjoint_symm hsx) hs0
  have hxy' := ptr_notMem hxy hy0
  have hxu' := ptr_notMem hxu hu0
  have hxS' := ptr_notMem hxS hS0
  simp only [rbInsertInner, wp_bind, wp_loadChild ha, wp_storeChild hp, wp_storeChild ha, had,
    wp_adopt, wp_rbSetParentColor hp, wp_pure]
  constructor
  · simp [hap, hao]
  · apply wp_rbInsertOuter (q := a) _ _ _ _ _ hy _ _ hn'
    · simp [hgp, hgx, hword]
    · simp [hgp, hga, hfar]
    · simp
    · rw [stored_join]
      refine ⟨by simp, by simp [hpa, hpd], by simp [hpa], ?_, ?_⟩
      · simp [hps, has, hxs', hstored]
      · rw [stored_setParentColor hpx]
        exact stored_adopt_self (q := a) (by simp [hpx, hax, hxs]) hxn hx0 hx
    · simp [hpy, hay, hxy', hys]
    · simp [hpu, hau, hxu', hu]
    · simp [hpS, haS, hxS', hspine]

theorem wp_rbInsertStep_red {e : Side} {node' : ℕ}
    (h : At m spine (join d .black g (join e .red p t s) (node .red x b y)))
    (hn : Placed (plug (join d .black g (join e .red p t s) (node .red x b y)) spine).inorder) :
    wp (rbInsertStep d node' p g b) (fun r m' => r = some (g, parentPtr spine) ∧
      At m' spine (join d .red g (join e .black p t s) (node .black x b y))) m := by
  have h0 := notMem_of_placed hn
  have hpp := hn.ptr_aligned
  have hg4 := hn.aligned g (by simp [mem_plug])
  have hnd := hn.nodup
  rw [← join_left] at h hnd h0
  simp only [mem_plug, mem_join, not_or, nodup_plug, nodup_join, disjoint_join_left,
    disjoint_join_right] at h0 hnd
  obtain ⟨⟨hg0, ⟨hp0, ht0, hs0⟩, hb0, hx0, hy0⟩, hS0⟩ := h0
  obtain ⟨⟨⟨⟨hgp, hgt, hgs⟩, hgb, hgx, hgy⟩, ⟨⟨hpt, hps⟩, -⟩, ⟨⟨hbx, hby⟩, -⟩, ⟨hbp, hbt, hbs⟩, 
    ⟨hpx, htx, hsx⟩, hpy, hty, hsy⟩, hsn, hgS, ⟨hpS, htS, hsS⟩, hbS, hxS, hyS⟩ := hnd
  obtain ⟨hword, hnear, hfar, hp, hb⟩ := stored_join.mp h.stored
  obtain ⟨-, hpe, hpo, ht, hs⟩ := stored_join.mp hp
  obtain ⟨hbw, hbl, hbr, hx, hy⟩ := stored_join.mp hb
  rw [ptr_join] at hnear hfar
  have hg : g ≠ 0 := Ne.symm hg0
  have hp' : p ≠ 0 := Ne.symm hp0
  have hb' : b ≠ 0 := Ne.symm hb0
  have hgb' : b ≠ g := Ne.symm hgb
  have hgp' : p ≠ g := Ne.symm hgp
  have hspine := h.spine
  rw [ptr_join] at hspine
  have hred : ∀ post, wp (isRedNode b) post m ↔ post true m := by
    intro post
    apply wp_isRedNode (t := node .red x b y) hb hg4
    simp [inorder, hx0, hb0, hy0]
  rw [rbInsertStep, wp_bind, hred]
  simp only [if_true, wp_bind, wp_rbSetParentColor hb', wp_rbSetParentColor hp', wp_rbParent hg,
    wp_rbSetParentColor hg, wp_pure, Mem.setParentColor_of_ne hgp, Mem.setParentColor_of_ne hgb,
    hword, parentOf_add hpp, true_and]
  constructor
  · rw [← join_left, stored_join, stored_join, stored_join]
    simp [hnear, hfar, hpe, hpo, hbl, hbr, hgp', hgb', hbp, hpt, hbt, hgt, hps, hbs, hgs, hpx, hbx,
      hgx, hpy, hby, hgy, ht, hs, hx, hy]
  · simp [hgS, hpS, hbS, hspine]

/-- Cases 2 and 3: what they leave is balanced in the place of `g`'s tree. -/
theorem wp_rbInsertStep_black {n : ℕ} {e : Side}
    (h : At m spine (join d .black g (join e .red p (.node .red x a y) s) u))
    (hn : Placed (plug (join d .black g (join e .red p (.node .red x a y) s) u) spine).inorder)
    (hx : Balanced x .black n) (hy : Balanced y .black n) (hs : Balanced s .black n)
    (hu : Balanced u .black n) :
    wp (rbInsertStep d a p g (ptr u)) (fun r m' => r = none ∧ ∃ t', At m' spine t' ∧
      t'.inorder = (join d .black g (join e .red p (.node .red x a y) s) u).inorder ∧
      Balanced t' .black (n + 1)) m := by
  have h0 := notMem_of_placed hn
  have hg4 := hn.aligned g (by simp [mem_plug])
  have hnd := hn.nodup
  rw [← join_left] at hnd h0
  simp only [mem_plug, mem_join, not_or, nodup_plug, nodup_join, disjoint_join_left] at h0 hnd
  obtain ⟨⟨-, ⟨hp0, ⟨ha0, -⟩, -⟩, hu0⟩, -⟩ := h0
  obtain ⟨⟨-, ⟨-, -, -, has, -⟩, -⟩, -⟩ := hnd
  obtain ⟨hword, hnear, hfar, hp, hus⟩ := stored_join.mp h.stored
  obtain ⟨-, hpe, hpo, hnode, hss⟩ := stored_join.mp hp
  have hblack : ∀ post, wp (isRedNode (ptr u)) post m ↔ post false m := by
    intro post
    rw [wp_isRedNode hus hg4 hu0, hu.color_eq]
    rfl
  rw [rbInsertStep, wp_bind, hblack]
  simp only [Bool.false_eq_true, if_false, wp_bind, wp_loadChild (Ne.symm hp0)]
  rcases Side.eq_or_eq_other d e with rfl | rfl
  · have hne : a ≠ ptr s := ne_ptr has (Ne.symm ha0)
    rw [hpo, if_neg hne, wp_bind]
    have hspine := h.spine
    rw [ptr_join] at hspine
    have horder := inorder_rotate e .black .red .black .red g p (node .red x a y) s u
    have houter := wp_rbInsertOuter hword hfar hpe hnode hss hs.color_eq hus hspine
      (by rwa [inorder_plug_congr horder])
    apply houter.mono
    intro _ m' hat
    rw [wp_pure]
    exact ⟨rfl, _, hat, horder, (Balanced.red hx hy).join_black (hs.join_red hu)⟩
  · rw [hpe, ptr_node, if_pos rfl]
    obtain ⟨x', y', hj⟩ := exists_join d .red x a y
    rw [hj, join_other] at h hn ⊢
    have hb : Balanced (join d .red a x' y') .red n := hj ▸ Balanced.red hx hy
    obtain ⟨-, hx', hy'⟩ := balanced_join_red.mp hb
    rw [wp_bind]
    apply (wp_rbInsertInner h hx'.color_eq hy'.color_eq hn).mono
    rintro _ m' ⟨rfl, houter⟩
    simp only [wp_bind]
    apply houter.mono
    intro _ m'' hat
    rw [wp_pure]
    exact ⟨rfl, _, hat, inorder_rotate_twice .., (hs.join_red hx').join_black (hy'.join_red hu)⟩

/-! ### The loop -/

/-- The iteration at a red parent, up to the choice of the branch. -/
theorem wp_rbInsertBody_red {f f' : Frame ℕ} {post : Option (ℕ × ℕ) → Mem → Prop}
    (h : At m (f :: f' :: spine) t) (hf : f.color = .red)
    (hn : Placed (plug t (f :: f' :: spine)).inorder) :
    wp (rbInsertBody (ptr t) f.here) post m ↔
      wp (rbInsertStep f'.side (ptr t) f.here f'.here (ptr f'.sibling)) post m := by
  have hmem : ∀ z ∈ around (f :: f' :: spine), z ∈ (plug t (f :: f' :: spine)).inorder :=
    fun z hz => mem_plug.mpr (Or.inr hz)
  have hp := hn.ne_zero _ (hmem f.here (by simp [around]))
  have hg := hn.ne_zero _ (hmem f'.here (by simp [around]))
  have hg4 := hn.aligned _ (hmem f'.here (by simp [around]))
  have hps : f.here ∉ f'.sibling.inorder := by
    have hnd := (nodup_plug.mp hn.nodup).2.1
    simp only [around, List.nodup_cons, List.mem_append, List.mem_cons, not_or] at hnd
    exact hnd.1.2.2.1
  obtain ⟨hword, -, -, -, -, hchild, hother, -⟩ := h.spine
  rw [parentPtr_cons, hf, colorBit, Nat.add_zero] at hword
  have hred : (f'.here % 2 == 1) = false := by
    rw [beq_eq_false_iff_ne]
    omega
  rw [rbInsertBody, if_neg hp, wp_bind, wp_rbIsBlack hp, hword, hred]
  simp only [Bool.false_eq_true, if_false, wp_bind, wp_rbRedParent hp, hword, wp_loadChild hg]
  obtain ⟨side, c', g, u⟩ := f'
  cases side with
  | left =>
    have hne : f.here ≠ m.child .right g := by
      rw [show m.child .right g = ptr u from hother]
      exact ne_ptr hps hp
    rw [if_pos hne]
    rw [show m.child .right g = ptr u from hother]
  | right =>
    have heq : ¬f.here ≠ m.child .right g := not_not.mpr hchild.symm
    rw [if_neg heq, wp_bind, wp_loadChild hg]
    rw [show m.child .left g = ptr u from hother]

theorem wp_rbInsertBody_root (h : At m [] (.node c x a y)) (hn : Placed (node c x a y).inorder) :
    wp (rbInsertBody a 0) (fun r m' => r = none ∧ At m' [] (.node .black x a y)) m := by
  have ha := hn.ne_zero a (by simp [inorder])
  have hnd := hn.nodup
  rw [← join_left, nodup_join] at hnd
  obtain ⟨⟨-, hl, hr, hx, hy⟩, hroot⟩ := h
  rw [rbInsertBody, if_pos rfl, wp_bind, wp_rbSetParentColor ha, wp_pure]
  refine ⟨rfl, ⟨?_, hl, hr, ?_, ?_⟩, hroot⟩
  · exact Mem.setParentColor_self
  · exact (stored_setParentColor hnd.1.1).mpr hx
  · exact (stored_setParentColor hnd.1.2).mpr hy

theorem wp_rbInsertBody_black {f : Frame ℕ} {node' : ℕ} (h : At m (f :: spine) t)
    (hf : f.color = .black) (hn : Placed (plug t (f :: spine)).inorder) :
    wp (rbInsertBody node' f.here) (fun r m' => r = none ∧ m' = m) m := by
  have hp := hn.ne_zero f.here (mem_plug.mpr (Or.inr List.mem_cons_self))
  have hpp : parentPtr spine % 4 = 0 :=
    Placed.ptr_aligned (t := join f.side f.color f.here t f.sibling) hn
  obtain ⟨hword, -⟩ := h.spine
  have hblack : (m.parentColor f.here % 2 == 1) = true := by
    rw [hword, add_colorBit_mod hpp, hf]
    rfl
  rw [rbInsertBody, if_neg hp, wp_bind, wp_rbIsBlack hp, hblack, if_pos rfl, wp_pure]
  exact ⟨rfl, rfl⟩

/-- From a red node whose place in the tree is for a black one, the loop ends with a balanced
tree of the same nodes, at most one iteration for every two nodes of the spine. -/
theorem wp_rbInsert {n fuel : ℕ} (h : At m spine (.node .red x a y))
    (hn : Placed (plug (.node .red x a y) spine).inorder) (hx : Balanced x .black n)
    (hy : Balanced y .black n) (hf : Fits spine .black n) (hfuel : spine.length < 2 * fuel) :
    wp (rbInsert fuel a (parentPtr spine))
      (fun _ m' => Holds m' (plug (.node .red x a y) spine).inorder) m := by
  induction fuel generalizing m a x y n spine with
  | zero => omega
  | succ fuel ih =>
    rw [rbInsert, wp_bind]
    cases hf with
    | top =>
      apply (wp_rbInsertBody_root h hn).mono
      rintro _ m' ⟨rfl, hat⟩
      rw [wp_pure]
      exact ⟨_, hat, rfl, _, .black hx hy⟩
    | black hs hrest =>
      rw [parentPtr_cons]
      apply (wp_rbInsertBody_black h rfl hn).mono
      rintro _ m' ⟨rfl, rfl⟩
      rw [wp_pure]
      exact ⟨_, at_root_plug.mpr h, rfl, hrest.plug ((Balanced.red hx hy).join_black hs)⟩
    | @red d p s spine _ hs hrest =>
      cases hrest with
      | @black e g u spine _ cu _ hu hrest =>
        rw [parentPtr_cons]
        apply (wp_rbInsertBody_red h rfl hn).mpr
        have hat := at_cons.mp (at_cons.mp h)
        cases hc : cu with
        | black =>
          subst hc
          apply (wp_rbInsertStep_black hat hn hx hy hs hu).mono
          rintro _ m' ⟨rfl, t', hat', horder, hbal⟩
          rw [wp_pure]
          have hholds := holds_of_fits hat' hbal hrest horder
          exact hholds
        | red =>
          subst hc
          cases hu with
          | @red ul ur b _ hul hur =>
            apply (wp_rbInsertStep_red hat hn).mono
            rintro _ m' ⟨rfl, hat'⟩
            have horder : (join e .red g (join d .black p (.node .red x a y) s)
                (.node .black ul b ur)).inorder = (join e .black g
                  (join d .red p (.node .red x a y) s) (.node .red ul b ur)).inorder :=
              inorder_recolor e .black .red g (inorder_recolor d .red .black p rfl rfl) rfl
            have hbal : Balanced (join e .red g (join d .black p (.node .red x a y) s)
                (.node .black ul b ur)) .red (n + 1) :=
              ((Balanced.red hx hy).join_black hs).join_red (.black hul hur)
            obtain ⟨l, r, hj⟩ := exists_node e g (join d .black p (.node .red x a y) s)
              (.node .black ul b ur)
            rw [hj] at hat' horder hbal
            obtain ⟨-, hl, hr⟩ := balanced_join_red (d := .left).mp hbal
            have hsame := inorder_plug_congr horder spine
            have hrun := ih hat' (by rwa [hsame]) hl hr hrest (by
              simp only [List.length_cons] at hfuel
              omega)
            rwa [hsame] at hrun

end TomatOS.RbTree
