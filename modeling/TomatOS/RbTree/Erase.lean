import TomatOS.RbTree.Stored

/-! The loop behind an erasure: the subtree in the hole has one black node too few on its
ways down, and the loop passes the lack up or makes up for it. -/

namespace TomatOS.RbTree

open Foundation Foundation.RedBlack Foundation.RedBlack.ColoredTree

variable {m : Mem} {a b p s z q q' : ℕ} {t u w x y l r T B : ColoredTree ℕ} {c k : Color}
  {d : Side} {spine : Spine ℕ}

theorem wp_rbEraseRedSibling (h : At m spine (join d c p t (join d .red s x y)))
    (hx : x.color = .black) (hx0 : ptr x ≠ 0)
    (hn : Placed (plug (join d c p t (join d .red s x y)) spine).inorder) :
    wp (rbEraseRedSibling d p s)
      (fun r m' => r = ptr x ∧ At m' spine (join d c s (join d .red p t x) y)) m := by
  have h0 := notMem_of_placed hn
  have hp4 := hn.aligned p (by simp [mem_plug])
  have hnd := hn.nodup
  have hn' : Placed (plug (join d.other c s y (join d.other .red p x t)) spine).inorder := by
    rw [join_other, join_other,
      ← inorder_plug_congr (inorder_rotate d c .red c .red s p t x y) spine]
    exact hn
  simp only [mem_plug, mem_join, not_or, nodup_plug, nodup_join, disjoint_join_left,
    disjoint_join_right] at h0 hnd
  obtain ⟨⟨hp0, ht0, hs0, hx0', hy0⟩, hS0⟩ := h0
  obtain ⟨⟨⟨hpt, hps, hpx, hpy⟩, -, ⟨⟨hsx, hsy⟩, hxn, -, hxy⟩, hst, htx, hty⟩, hSn, hpS, htS, hsS,
    hxS, hyS⟩ := hnd
  obtain ⟨hword, hnear, hfar, ht, hsib⟩ := stored_join.mp h.stored
  obtain ⟨hsw, hsd, hso, hx', hy⟩ := stored_join.mp hsib
  have hspine := h.spine
  rw [ptr_join] at hspine hfar
  have hp : p ≠ 0 := Ne.symm hp0
  have hs : s ≠ 0 := Ne.symm hs0
  have hsp : s ≠ p := Ne.symm hps
  have hxt := ptr_notMem (List.disjoint_symm htx) ht0
  have hxy' := ptr_notMem hxy hy0
  have hxS' := ptr_notMem hxS hS0
  have hred : (m.parentColor s % 2 == 0) = true := by
    rw [hsw, add_colorBit_mod hp4]
    rfl
  rw [rbEraseRedSibling, wp_bind, wp_rbIsRed hs, hred, if_pos rfl]
  simp only [wp_bind, wp_loadChild hs, wp_storeChild hp, wp_storeChild hs, hsd,
    wp_rbSetParentColor_ptr hx0, wp_pure]
  have hrot : Rotating (((m.setChild d.other p (ptr x)).setChild d s p).adopt x p .black) d.other
      p s y x t spine c := by
    constructor
    case word => simp [hpx, hword]
    case near => simp [hps]
    case far => simp [hps, hnear]
    case outer => simp [hsp, hso]
    case inner => simp
    case storedOuter => simp [hxy', hsy, hpy, hy]
    case storedNear => exact stored_adopt_self (q := s) (by simp [hpx, hsx, hx']) hxn hx0' hx
    case storedFar => simp [hxt, hpt, hst, ht]
    case spine => simp [hxS', hpS, hsS, hspine]
  apply (hrot.wp hn').mono
  intro _ m' hat
  rw [join_other, join_other] at hat
  exact ⟨trivial, hat⟩

theorem wp_rbEraseFlip (h : At m spine (join d c p t (.node k x s y)))
    (hn : Placed (plug (join d c p t (.node k x s y)) spine).inorder) :
    wp (rbEraseFlip p s) (fun r m' => At m' spine (join d .black p t (.node .red x s y)) ∧
      r = if c = .red ∨ parentPtr spine = 0 then none else some (p, parentPtr spine)) m := by
  have h0 := notMem_of_placed hn
  have hpp := hn.ptr_aligned
  have hnd := hn.nodup
  rw [← join_left] at h hnd h0
  simp only [mem_plug, mem_join, not_or, nodup_plug, nodup_join, disjoint_join_left,
    disjoint_join_right] at h0 hnd
  obtain ⟨⟨hp0, -, hs0, -⟩, -⟩ := h0
  obtain ⟨⟨⟨hpt, hps, hpx, hpy⟩, -, ⟨⟨hsx, hsy⟩, -⟩, hst, htx, hty⟩, -, hpS, -, hsS, -⟩ := hnd
  obtain ⟨hword, hnear, hfar, ht, hsib⟩ := stored_join.mp h.stored
  obtain ⟨-, hsl, hsr, hx, hy⟩ := stored_join.mp hsib
  have hspine := h.spine
  rw [ptr_join] at hspine hfar
  have hp : p ≠ 0 := Ne.symm hp0
  have hs : s ≠ 0 := Ne.symm hs0
  have hsp : s ≠ p := Ne.symm hps
  rw [rbEraseFlip, wp_bind, wp_rbSetParentColor hs, wp_bind, wp_rbIsRed hp,
    Mem.setParentColor_of_ne hps, hword, add_colorBit_mod hpp, ← join_left]
  cases c with
  | red =>
    rw [if_pos (by decide), wp_bind, rbSetBlack, wp_bind, wp_loadParentColor hp, wp_storeParentColor hp,
      wp_pure, Mem.setParentColor_of_ne hps, hword]
    refine ⟨⟨?_, ?_⟩, by simp⟩
    · rw [stored_join, stored_join]
      simp [hsp, hpt, hst, hpx, hsx, hpy, hsy, hnear, hfar, hsl, hsr, ht, hx, hy, colorBit]
    · simp [hpS, hsS, hspine]
  | black =>
    rw [if_neg (by decide), wp_bind, wp_rbParent hp, Mem.setParentColor_of_ne hps, hword,
      parentOf_add hpp, wp_pure]
    refine ⟨⟨?_, ?_⟩, by simp⟩
    · rw [stored_join, stored_join]
      simp [hps, hst, hsx, hsy, hnear, hfar, hsl, hsr, ht, hx, hy, hword]
    · simp [hsS, hspine]

/-- Case 4 on the words it reads; the parents of `T` and of `z`'s tree are written here. -/
theorem wp_rbEraseOuter (hword : m.parentColor p = parentPtr spine + colorBit c)
    (hnear : m.child d p = ptr B) (hs1 : m.child d s = ptr T) (hs2 : m.child d.other s = z)
    (hB : Stored m p B) (hT : Stored m q T) (hq : q % 4 = 0) (hz : Stored m q' (.node k l z r))
    (hspine : StoredSpine m p spine)
    (hn : Placed (plug (join d c s (join d .black p B T) (.node .black l z r)) spine).inorder) :
    wp (rbEraseOuter d p s z) (fun _ m' =>
      At m' spine (join d c s (join d .black p B T) (.node .black l z r))) m := by
  have h0 := notMem_of_placed hn
  have hnd := hn.nodup
  have hn' : Placed (plug (join d.other c s (.node .black l z r) (join d.other .black p T B))
      spine).inorder := by rwa [join_other, join_other]
  rw [← join_left] at hnd h0
  simp only [mem_plug, mem_join, not_or, nodup_plug, nodup_join, disjoint_join_left,
    disjoint_join_right] at h0 hnd
  obtain ⟨⟨hs0, ⟨hp0, hB0, hT0⟩, hz0, hl0, hr0⟩, hS0⟩ := h0
  obtain ⟨⟨⟨⟨hsp, hsB, hsT⟩, hsz, hsl, hsr⟩, ⟨⟨hpB, hpT⟩, -, hTn, hBT⟩, ⟨⟨hzl, hzr⟩, hln, hrn,
    hlr⟩, ⟨hzp, hzB, hzT⟩, ⟨hpl, -, hTl⟩, hpr, -, hTr⟩, -, hsS, ⟨hpS, -, hTS⟩, hzS, -⟩ := hnd
  have hp : p ≠ 0 := Ne.symm hp0
  have hs : s ≠ 0 := Ne.symm hs0
  have hz' : z ≠ 0 := Ne.symm hz0
  have hps : p ≠ s := Ne.symm hsp
  have hpz : p ≠ z := Ne.symm hzp
  have hzs : z ≠ s := Ne.symm hsz
  have hTB := ptr_notMem (List.disjoint_symm hBT) hB0
  have hTl' := ptr_notMem hTl hl0
  have hTr' := ptr_notMem hTr hr0
  have hTS' := ptr_notMem hTS hS0
  have hzn : (node k l z r).inorder.Nodup :=
    (nodup_join (d := .left) (c := k)).mpr ⟨⟨hzl, hzr⟩, hln, hrn, hlr⟩
  have hTz : ptr T ≠ z := Ne.symm (ne_ptr hzT hz')
  have hpA : p ∉ (node k l z r).inorder := by simp [inorder, hpl, hpz, hpr]
  have hsA : s ∉ (node k l z r).inorder := by simp [inorder, hsl, hsz, hsr]
  simp only [rbEraseOuter, wp_bind, wp_loadChild hs, hs1, wp_storeChild hp, wp_storeChild hs,
    wp_rbSetParentColor hz']
  have hT' : Stored (((m.setChild d.other p (ptr T)).setChild d s p).setParentColor z
      (s + colorBit .black)) q T := by simp [hzT, hsT, hpT, hT]
  rw [wp_adopt_keep hT' hq]
  have hrot : Rotating ((((m.setChild d.other p (ptr T)).setChild d s p).setParentColor z
      (s + colorBit .black)).adopt T p T.color) d.other p s (.node .black l z r) T B spine c := by
    constructor
    case word => simp [hpT, hpz, hword]
    case near => simp [hps]
    case far => simp [hps, hnear]
    case outer => simp [hsp, hs2]
    case inner => simp
    case storedOuter =>
      rw [stored_adopt (by simp [inorder, hTl', hTr', hTz])]
      exact stored_recolor (q := q') (by simp [hpA, hsA, hz]) hzn
    case storedNear => exact stored_adopt_self hT' hTn hT0 rfl
    case storedFar => simp [hTB, hpB, hsB, hzB, hB]
    case spine => simp [hTS', hpS, hsS, hzS, hspine]
  apply (hrot.wp hn').mono
  intro _ m' hat
  rwa [join_other, join_other] at hat

theorem wp_rbEraseInner (h : At m spine (join d c p t (join d k s (join d .red z x y) w)))
    (hy : y.color = .black)
    (hn : Placed (plug (join d c p t (join d k s (join d .red z x y) w)) spine).inorder) :
    wp (rbEraseInner d p s z) (fun _ m' => wp (rbEraseOuter d p z s) (fun _ m'' =>
      At m'' spine (join d c z (join d .black p t x) (join d .black s y w))) m') m := by
  have h0 := notMem_of_placed hn
  have hz4 := hn.aligned z (by simp [mem_plug])
  have hnd := hn.nodup
  have hn' : Placed (plug (join d c z (join d .black p t x) (join d .black s y w)) spine).inorder := by
    have horder := inorder_rotate_twice d.other c k .red c .black .black p s z w y x t
    simp only [join_other] at horder
    rwa [inorder_plug_congr horder]
  simp only [mem_plug, mem_join, not_or, nodup_plug, nodup_join, disjoint_join_left,
    disjoint_join_right] at h0 hnd
  obtain ⟨⟨hp0, ht0, hs0, ⟨hz0, hx0, hy0⟩, hw0⟩, hS0⟩ := h0
  obtain ⟨⟨⟨hpt, hps, ⟨hpz, hpx, hpy⟩, hpw⟩, htn, ⟨⟨⟨hsz, hsx, hsy⟩, hsw⟩, ⟨⟨hzx, hzy⟩, hxn, hyn, hxy⟩,
    hwn, hzw, hxw, hyw⟩, hst, ⟨hzt, htx, hty⟩, htw⟩, -, hpS, htS, hsS, ⟨hzS, hxS, hyS⟩, hwS⟩ := hnd
  obtain ⟨hword, hnear, hfar, ht, hsib⟩ := stored_join.mp h.stored
  obtain ⟨hsword, hsd, hso, hztree, hw⟩ := stored_join.mp hsib
  obtain ⟨-, hzd, hzo, hx, hy'⟩ := stored_join.mp hztree
  have hspine := h.spine
  rw [ptr_join] at hspine hfar hsd
  have hp : p ≠ 0 := Ne.symm hp0
  have hs : s ≠ 0 := Ne.symm hs0
  have hz : z ≠ 0 := Ne.symm hz0
  have hzs : z ≠ s := Ne.symm hsz
  have hsp : s ≠ p := Ne.symm hps
  have hzp : z ≠ p := Ne.symm hpz
  have hyw' := ptr_notMem hyw hw0
  have hyx' := ptr_notMem (List.disjoint_symm hxy) hx0
  have hyt' := ptr_notMem (List.disjoint_symm hty) ht0
  have hyS' := ptr_notMem hyS hS0
  obtain ⟨l, r, hj⟩ := exists_node d s y w
  simp only [rbEraseInner, wp_bind, wp_loadChild hz, wp_storeChild hs, wp_storeChild hz,
    wp_storeChild hp, hzo, wp_adopt]
  rw [hj] at hn' ⊢
  have hlower : Stored ((((m.setChild d s (ptr y)).setChild d.other z s).setChild d.other p z).adopt
      y s .black) p (join d k s y w) := by
    rw [stored_join]
    refine ⟨by simp [hsy, hsword], by simp [hsz, hsp], by simp [hsz, hsp, hso], ?_, ?_⟩
    · exact stored_adopt_self (q := z) (by simp [hpy, hzy, hsy, hy']) hyn hy0 hy
    · simp [hyw', hpw, hzw, hsw, hw]
  apply wp_rbEraseOuter (q := z) _ _ _ _ _ _ _ (hj k ▸ hlower) _ hn'
  · simp [hpy, hword]
  · simp [hps, hpz, hnear]
  · simp [hzp, hzs, hzd]
  · simp [hzp]
  · simp [hyt', hpt, hzt, hst, ht]
  · simp [hyx', hpx, hzx, hsx, hx]
  · exact hz4
  · simp [hyS', hpS, hzS, hsS, hspine]

/-! ### The loop -/

/-- The subtree at `a` has one black node too few on its ways down. -/
structure Lacking (m : Mem) (spine : Spine ℕ) (t : ColoredTree ℕ) (n : ℕ) : Prop where
  tree : At m spine t
  balanced : Balanced t .black n
  fits : Fits spine .black (n + 1)
  below : spine ≠ []

/-- An iteration ends the loop with a balanced tree, or below a black node the lack is one
level higher. -/
def Mends (c : Color) (spine : Spine ℕ) (l : List ℕ) (n : ℕ) (r : Option (ℕ × ℕ)) (m : Mem) :
    Prop :=
  r = none ∧ Holds m l ∨ c = .black ∧ ∃ t, r = some (ptr t, parentPtr spine) ∧
    Lacking m spine t (n + 1) ∧ (plug t spine).inorder = l

theorem wp_rbEraseBlackSibling {n : ℕ} {cx cw : Color}
    (h : At m spine (join d c p t (join d .black s x w)))
    (hn : Placed (plug (join d c p t (join d .black s x w)) spine).inorder)
    (ht : Balanced t .black n) (hx : Balanced x cx n) (hw : Balanced w cw n)
    (hf : Fits spine c (n + if c = .red then 1 else 2)) :
    wp (rbEraseBlackSibling d p s)
      (Mends c spine (plug (join d c p t (join d .black s x w)) spine).inorder n) m := by
  have h0 := notMem_of_placed hn
  have hs4 := hn.aligned s (by simp [mem_plug])
  simp only [mem_plug, mem_join, not_or] at h0
  obtain ⟨⟨-, -, hs0, hx0, hw0⟩, -⟩ := h0
  obtain ⟨-, -, -, -, hsib⟩ := stored_join.mp h.stored
  obtain ⟨-, hsd, hso, hxs, hws⟩ := stored_join.mp hsib
  have hs : s ≠ 0 := Ne.symm hs0
  rw [rbEraseBlackSibling, wp_bind, wp_loadChild hs, hso, wp_bind, wp_isRedNode hws hs4 hw0,
    hw.color_eq]
  cases cw with
  | red =>
    cases hw with
    | @red l r z _ hl hr =>
      obtain ⟨hword, hnear, hfar, hts, -⟩ := stored_join.mp h.stored
      have hspine := h.spine
      rw [ptr_join] at hspine
      have horder : (join d c s (join d .black p t x) (node .black l z r)).inorder =
          (join d c p t (join d .black s x (node .red l z r))).inorder := by
        rw [inorder_rotate d c .black c .black s p t x]
        exact inorder_recolor d c c s rfl rfl
      rw [ptr_node] at hso ⊢
      rw [if_pos (by decide), wp_bind]
      apply (wp_rbEraseOuter hword hnear hsd hso hts hxs hs4 hws hspine
        (by rwa [inorder_plug_congr horder])).mono
      intro _ m' hat
      rw [wp_pure]
      exact Or.inl ⟨rfl, holds_of_fits hat ((ht.join_black hx).join (.black hl hr)) hf horder⟩
  | black =>
    rw [if_neg (by decide), wp_bind, wp_loadChild hs, hsd, wp_bind, wp_isRedNode hxs hs4 hx0,
      hx.color_eq]
    cases cx with
    | red =>
      cases hx with
      | @red l r z _ hl hr =>
        rw [if_pos (by decide), ptr_node, wp_bind]
        obtain ⟨x, y, hj⟩ := exists_join d .red l z r
        have hb := Balanced.red (a := z) hl hr
        rw [hj] at h hn hb ⊢
        obtain ⟨-, hx, hy⟩ := balanced_join_red.mp hb
        apply (wp_rbEraseInner h hy.color_eq hn).mono
        intro _ m' houter
        rw [wp_bind]
        apply houter.mono
        intro _ m'' hat
        rw [wp_pure]
        have horder := inorder_rotate_twice d.other c .black .red c .black .black p s z w y x t
        simp only [join_other] at horder
        exact Or.inl ⟨rfl, holds_of_fits hat ((ht.join_black hx).join (hy.join_black hw)) hf horder⟩
    | black =>
      rw [if_neg (by decide)]
      obtain ⟨l, r, hj⟩ := exists_node d s x w
      have hred := hj .red ▸ hx.join_red hw
      rw [hj .black] at h hn ⊢
      have horder : (join d .black p t (.node .red l s r)).inorder =
          (join d c p t (.node .black l s r)).inorder := inorder_recolor d c .black p rfl rfl
      apply (wp_rbEraseFlip h hn).mono
      rintro r' m' ⟨hat, rfl⟩
      cases c with
      | red =>
        refine Or.inl ⟨by simp, holds_of_fits hat (ht.join_black hred) hf.of_red horder⟩
      | black =>
        have hbal := ht.join_black (d := d) (a := p) hred
        cases spine with
        | nil => exact Or.inl ⟨rfl, holds_of_fits hat hbal .top horder⟩
        | cons f spine =>
          have hne : f.here ≠ 0 := hn.ne_zero _ (mem_plug.mpr (Or.inr List.mem_cons_self))
          refine Or.inr ⟨rfl, _, by simp [hne], ⟨hat, hbal, hf, List.cons_ne_nil _ _⟩, ?_⟩
          exact inorder_plug_congr horder _

theorem wp_rbEraseRedSibling_black {post : ℕ → Mem → Prop} (hu : Stored m p u) (hp : p % 4 = 0)
    (h0 : ptr u ≠ 0) (hc : u.color = .black) :
    wp (rbEraseRedSibling d p (ptr u)) post m ↔ post (ptr u) m := by
  cases u with
  | nil => exact absurd rfl h0
  | node c l s r =>
    obtain rfl : c = .black := hc
    have hblack : (m.parentColor s % 2 == 0) = false := by
      rw [hu.1, add_colorBit_mod hp]
      rfl
    rw [ptr_node] at h0 ⊢
    rw [rbEraseRedSibling, wp_bind, wp_rbIsRed h0, hblack, if_neg Bool.false_ne_true, wp_pure]

/-- The red sibling of case 1 goes up, and its child on the near side is the new sibling. -/
theorem wp_rbEraseStep {n : ℕ} (h : Lacking m (⟨d, c, p, u⟩ :: spine) t n)
    (hn : Placed (plug t (⟨d, c, p, u⟩ :: spine)).inorder) :
    wp (rbEraseStep d p (ptr u))
      (Mends c spine (plug t (⟨d, c, p, u⟩ :: spine)).inorder n) m := by
  obtain ⟨hat, ht, hf, -⟩ := h
  rw [at_cons] at hat
  rw [plug] at hn ⊢
  rw [rbEraseStep, wp_bind]
  obtain ⟨cu, hu, hfit⟩ : ∃ cu, Balanced u cu (n + 1) ∧ (c = .red → cu = .black) ∧
      Fits spine c (n + if c = .red then 1 else 2) := by
    cases hf with
    | red hu hrest => exact ⟨_, hu, fun _ => rfl, hrest⟩
    | black hu hrest => exact ⟨_, hu, fun hc => absurd hc (by decide), hrest⟩
  obtain ⟨s, x, y, rfl⟩ := hu.exists_join d
  have hp4 := hn.aligned p (by simp [mem_plug])
  cases cu with
  | black =>
    obtain ⟨-, k, hk, ⟨cx, hx⟩, cy, hy⟩ := balanced_join_black.mp hu
    obtain rfl : n = k := Nat.succ.inj hk
    have hs := hn.ne_zero s (by simp [mem_plug])
    obtain ⟨-, -, -, -, hsib⟩ := stored_join.mp hat.stored
    apply (wp_rbEraseRedSibling_black hsib hp4 (by rwa [ptr_join]) color_join).mpr
    rw [ptr_join]
    exact wp_rbEraseBlackSibling hat hn ht hx hy hfit.2
  | red =>
    obtain rfl : c = .black := by
      cases c with
      | red => exact absurd (hfit.1 rfl) (by decide)
      | black => rfl
    obtain ⟨-, hx, hy⟩ := balanced_join_red.mp hu
    obtain ⟨b, x₁, x₂, rfl⟩ := hx.exists_join d
    obtain ⟨-, k, hk, ⟨c₁, hx₁⟩, c₂, hx₂⟩ := balanced_join_black.mp hx
    obtain rfl : n = k := Nat.succ.inj hk
    have hb := hn.ne_zero b (by simp [mem_plug])
    rw [ptr_join]
    apply (wp_rbEraseRedSibling hat color_join (by rwa [ptr_join]) hn).mono
    rintro _ m' ⟨rfl, hat'⟩
    have horder : (join d .black s (join d .red p t (join d .black b x₁ x₂)) y).inorder =
        (join d .black p t (join d .red s (join d .black b x₁ x₂) y)).inorder :=
      (inorder_rotate ..).symm
    have hsame := inorder_plug_congr horder spine
    rw [ptr_join, ← hsame]
    have hfits : Fits (⟨d, .black, s, y⟩ :: spine) .red (n + 1) := .black hy hfit.2
    rw [← hsame] at hn
    have hmends := wp_rbEraseBlackSibling (at_cons.mpr hat') hn ht hx₁ hx₂ hfits
    apply hmends.mono
    rintro r m'' (hdone | ⟨hc, -⟩)
    · exact Or.inl hdone
    · exact absurd hc (by decide)

theorem wp_rbEraseBody {n : ℕ} {f : Frame ℕ} (h : Lacking m (f :: spine) t n)
    (hn : Placed (plug t (f :: spine)).inorder) :
    wp (rbEraseBody (ptr t) f.here) (Mends f.color spine (plug t (f :: spine)).inorder n) m := by
  obtain ⟨d, c, p, u⟩ := f
  have hp := hn.ne_zero p (mem_plug.mpr (Or.inr List.mem_cons_self))
  obtain ⟨-, hnear, hfar, -⟩ := h.tree.spine
  rw [rbEraseBody, wp_bind, wp_loadChild hp]
  have hstep := wp_rbEraseStep h hn
  cases d with
  | left =>
    obtain ⟨cu, hu⟩ := h.fits.sibling
    have hne : ptr t ≠ ptr u := by
      obtain ⟨s, x, y, rfl⟩ := hu.exists_join .left
      have hnd := hn.nodup
      rw [plug, nodup_plug, nodup_join, disjoint_join_right] at hnd
      rw [ptr_join]
      exact Ne.symm (ne_ptr hnd.1.2.2.2.1 (hn.ne_zero s (by simp [plug, mem_plug])))
    rw [show m.child .right p = ptr u from hfar, if_pos hne]
    exact hstep
  | right =>
    rw [show m.child .right p = ptr t from hnear, if_neg (not_not.mpr rfl), wp_bind,
      wp_loadChild hp, show m.child .left p = ptr u from hfar]
    exact hstep

/-- The loop ends with a balanced tree of the same nodes, at most one iteration for each node
of the spine. -/
theorem wp_rbEraseColor {n fuel : ℕ} (h : Lacking m spine t n)
    (hn : Placed (plug t spine).inorder) (hfuel : spine.length ≤ fuel) :
    wp (rbEraseColor fuel (ptr t) (parentPtr spine))
      (fun _ m' => Holds m' (plug t spine).inorder) m := by
  induction spine generalizing m t n fuel with
  | nil => exact absurd rfl h.below
  | cons f spine ih =>
    cases fuel with
    | zero => simp at hfuel
    | succ fuel =>
      rw [rbEraseColor, wp_bind, parentPtr_cons]
      apply (wp_rbEraseBody h hn).mono
      rintro _ m' (⟨rfl, hholds⟩ | ⟨-, t', rfl, hlack, hsame⟩)
      · rw [wp_pure]
        exact hholds
      · have hrun := ih hlack (by rwa [hsame]) (Nat.le_of_succ_le_succ hfuel)
        rwa [hsame] at hrun

/-! ### Taking a node out -/

/-- What is left to do after a removal: nothing, or to rebalance from the empty hole. -/
def Removes (fuel : ℕ) (l : List ℕ) (rebalance : ℕ) (m : Mem) : Prop :=
  rebalance = 0 ∧ Holds m l ∨ ∃ spine, rebalance = parentPtr spine ∧ Lacking m spine .nil 0 ∧
    spine.length ≤ fuel ∧ (plug .nil spine).inorder = l

theorem removes_black {fuel : ℕ} (h : At m spine .nil) (hf : Fits spine .black 1)
    (hfuel : spine.length ≤ fuel) :
    Removes fuel (plug .nil spine).inorder (parentPtr spine) m := by
  cases spine with
  | nil => exact Or.inl ⟨rfl, _, h, rfl, 0, .nil⟩
  | cons f spine =>
    exact Or.inr ⟨_, rfl, ⟨h, .nil, hf, List.cons_ne_nil f spine⟩, hfuel, rfl⟩

/-- Case 1: the node has one child at most, on the side `d`. -/
theorem wp_rbEraseAugmented_leaf {n fuel : ℕ} (h : At m spine (join .left c a .nil r))
    (hn : Placed (plug (join .left c a .nil r) spine).inorder)
    (hb : Balanced (join .left c a .nil r) k n) (hf : Fits spine k n)
    (hfuel : spine.length ≤ fuel) :
    wp (rbEraseAugmented fuel a) (Removes fuel (plug r spine).inorder) m := by
  have h0 := notMem_of_placed hn
  have hpp := hn.ptr_aligned
  have hnd := hn.nodup
  simp only [mem_plug, mem_join, not_or, nodup_plug, nodup_join, disjoint_join_left] at h0 hnd
  obtain ⟨⟨ha0, -, hr0⟩, hS0⟩ := h0
  obtain ⟨⟨⟨-, har⟩, -, hrn, -⟩, hSn, haS, -, hrS⟩ := hnd
  obtain ⟨hword, hleft, hright, -, hr⟩ := stored_join.mp h.stored
  rw [Side.other] at hright
  have hspine := h.spine
  rw [ptr_join] at hspine
  have ha : a ≠ 0 := Ne.symm ha0
  rw [rbEraseAugmented]
  simp only [wp_bind, wp_loadChild ha, hleft, hright, ptr_nil, if_true, wp_loadParentColor ha, hword,
    parentOf_add hpp, add_colorBit_mod hpp, wp_rbChangeChild hspine ha haS hS0]
  have hhole := storedSpine_reattach (v := ptr r) hspine hSn
  obtain ⟨rfl, ⟨rfl, ⟨rfl, rfl⟩ | ⟨rfl, rfl⟩⟩ | ⟨b, rfl, rfl, rfl⟩⟩ := hb.only_child
  · have hat : At (m.reattach 0 spine) spine .nil := ⟨stored_nil, hhole⟩
    rw [ptr_nil, if_neg (not_not.mpr rfl), wp_pure, if_neg (by decide)]
    exact Or.inl ⟨rfl, holds_of_fits hat .nil hf.of_red rfl⟩
  · have hat : At (m.reattach 0 spine) spine .nil := ⟨stored_nil, hhole⟩
    rw [ptr_nil, if_neg (not_not.mpr rfl), wp_pure, if_pos (by decide)]
    exact removes_black hat hf hfuel
  · have hb0 : b ≠ 0 := by
      rintro rfl
      exact hr0 (by simp [inorder])
    have hbS : b ∉ around spine := fun hmem => hrS (by simp [inorder]) hmem
    have hat : At ((m.reattach b spine).setParentColor b (parentPtr spine + colorBit .black)) spine
        (.node .black .nil b .nil) := by
      constructor
      · exact stored_recolor ((stored_reattach hrS).mpr hr) hrn
      · exact (storedSpine_setParentColor hbS).mpr hhole
    rw [ptr_node, if_pos hb0, wp_bind, wp_storeParentColor hb0, wp_pure]
    exact Or.inl ⟨rfl, holds_of_fits hat (.black .nil .nil) hf rfl⟩

theorem wp_rbEraseAugmented_left {n fuel : ℕ} (h : At m spine (.node c l a .nil))
    (hn : Placed (plug (.node c l a .nil) spine).inorder) (hl0 : ptr l ≠ 0)
    (hb : Balanced (.node c l a .nil) k n) (hf : Fits spine k n) :
    wp (rbEraseAugmented fuel a) (Removes fuel (plug l spine).inorder) m := by
  obtain ⟨rfl, ⟨rfl, -⟩ | ⟨b, rfl, rfl, rfl⟩⟩ := hb.only_child (d := .right)
  · exact absurd rfl hl0
  have h0 := notMem_of_placed hn
  have hpp := hn.ptr_aligned
  have hnd := hn.nodup
  rw [← join_left] at hnd h0
  simp only [mem_plug, mem_join, not_or, nodup_plug, nodup_join, disjoint_join_left] at h0 hnd
  obtain ⟨⟨ha0, -⟩, hS0⟩ := h0
  obtain ⟨⟨⟨hal, -⟩, hln, -⟩, hSn, haS, hlS, -⟩ := hnd
  obtain ⟨hword, hleft, hright, hl, -⟩ := h.stored
  have hspine := h.spine
  rw [ptr_node] at hspine hl0 hleft
  have ha : a ≠ 0 := Ne.symm ha0
  have hbS : b ∉ around spine := fun hmem => hlS (by simp [inorder]) hmem
  have hspine' : StoredSpine (m.setParentColor b (parentPtr spine + colorBit .black)) a spine :=
    (storedSpine_setParentColor hbS).mpr hspine
  rw [rbEraseAugmented]
  simp only [wp_bind, wp_loadChild ha, hleft, hright, ptr_nil, if_neg hl0, if_true,
    wp_loadParentColor ha, hword, parentOf_add hpp, wp_storeParentColor hl0,
    wp_rbChangeChild hspine' ha haS hS0, wp_pure]
  have hat : At ((m.setParentColor b (parentPtr spine + colorBit .black)).reattach b spine) spine
      (.node .black .nil b .nil) := by
    constructor
    · exact (stored_reattach hlS).mpr (stored_recolor hl hln)
    · exact storedSpine_reattach hspine' hSn
  exact Or.inl ⟨rfl, holds_of_fits hat (.black .nil .nil) hf rfl⟩

/-- The loop ends at the leftmost node of the subtree it starts with. -/
theorem wp_rbSuccessor {fuel : ℕ} (h : Stored m p (.node k l b r))
    (h0 : 0 ∉ (node k l b r).inorder) (hfuel : (node k l b r).height ≤ fuel) :
    ∃ stretch cs s rc, node k l b r = plug (.node cs .nil s rc) stretch ∧
      (∀ f ∈ stretch, f.side = .left) ∧ ∀ (f : Frame ℕ) post,
        wp (rbSuccessor fuel f.here b) post m ↔ post (above f.here stretch, s) m := by
  induction l generalizing p k b r fuel with
  | nil =>
    obtain ⟨fuel, rfl⟩ : ∃ n, fuel = n + 1 := Nat.exists_eq_succ_of_ne_zero (by
      rw [height] at hfuel
      omega)
    refine ⟨[], k, b, r, rfl, by simp, fun f post => ?_⟩
    have hb : b ≠ 0 := fun hb => h0 (by simp [inorder, hb])
    obtain ⟨-, hleft, -⟩ := h
    rw [rbSuccessor, wp_bind, wp_loadChild hb, hleft, ptr_nil, if_neg (not_not.mpr rfl), wp_pure]
    rfl
  | node k' l' b' r' ihl =>
    obtain ⟨fuel, rfl⟩ : ∃ n, fuel = n + 1 := Nat.exists_eq_succ_of_ne_zero (by
      rw [height] at hfuel
      omega)
    have hb : b ≠ 0 := fun hb => h0 (by simp [inorder, hb])
    have hb' : b' ≠ 0 := fun hb => h0 (by simp [inorder, hb])
    obtain ⟨-, hleft, -, hl, -⟩ := h
    have hheight : (node k' l' b' r').height ≤ fuel := by
      rw [height] at hfuel
      omega
    obtain ⟨stretch, cs, s, rc, heq, hall, hwp⟩ :=
      ihl hl (fun hmem => h0 (by rw [inorder]; exact List.mem_append_left _ hmem)) hheight
    refine ⟨stretch ++ [⟨.left, k, b, r⟩], cs, s, rc, ?_, ?_, fun f post => ?_⟩
    · rw [plug_append, ← heq]
      rfl
    · intro f hf
      rcases List.mem_append.mp hf with hf | hf
      · exact hall f hf
      · rw [List.mem_singleton.mp hf]
    · rw [rbSuccessor, wp_bind, wp_loadChild hb, hleft, ptr_node, if_pos hb']
      rw [hwp ⟨.left, k, b, r⟩ post]
      cases stretch <;> rfl

/-- The successor without its old parent: the stretch above its old place hangs below it. -/
structure Detached (m m' : Mem) (stretch : Spine ℕ) (s : ℕ) (rc : ColoredTree ℕ) : Prop where
  segment : Segment m' s (ptr rc) stretch
  right : m'.child .right s = top (ptr rc) stretch
  root : m'.rbNode = m.rbNode
  word : ∀ z ∉ around stretch, m'.parentColor z = m.parentColor z
  child : ∀ z ∉ around stretch, z ≠ s → ∀ e, m'.child e z = m.child e z

theorem detached_of_writes {stretch : Spine ℕ} {f : Frame ℕ} {rc : ColoredTree ℕ} {v : ℕ}
    (h : Segment m p s (stretch ++ [f])) (hall : ∀ g ∈ stretch ++ [f], g.side = .left)
    (hn : (around (stretch ++ [f])).Nodup) (hs : s ∉ around (stretch ++ [f]))
    (hv : v = s + colorBit f.color) :
    Detached m (((m.setChild .left (above f.here stretch) (ptr rc)).setChild .right s
      f.here).setParentColor f.here v) (stretch ++ [f]) s rc := by
  obtain ⟨g, rest, hcons⟩ := List.exists_cons_of_ne_nil (l := stretch ++ [f]) (by simp)
  have habove : above f.here stretch = g.here := by
    cases stretch with
    | nil => rw [(List.cons.inj hcons).1, above]
    | cons g' stretch => rw [above, ← (List.cons.inj hcons).1]
  have hf : f.here ∈ around (stretch ++ [f]) := by simp [around_append, around]
  have hg : g.here ∈ around (stretch ++ [f]) := by simp [hcons, around]
  have hfs : f.here ≠ s := fun he => hs (he ▸ hf)
  have hgs : s ≠ g.here := fun he => hs (he ▸ hg)
  have hleft : g.side = .left := hall g (by simp [hcons])
  have hhole : Segment (m.setChild .left g.here (ptr rc)) p (ptr rc) (stretch ++ [f]) := by
    rw [hcons] at h hn ⊢
    rw [← hleft]
    exact segment_setHole h hn
  have hright : Segment ((m.setChild .left g.here (ptr rc)).setChild .right s f.here) p (ptr rc)
      (stretch ++ [f]) := by
    apply hhole.congr
    intro z hz
    have hne : z ≠ s := fun he => hs (he ▸ hz)
    exact ⟨rfl, fun _ => Mem.setChild_of_ne hne⟩
  obtain ⟨hlower, -, hchild, hother, hsib, -⟩ := segment_append.mp hright
  rw [around_append] at hn
  have hdisj := (List.nodup_append.mp hn).2.2
  have hsn := (List.nodup_append.mp hn).2.1
  rw [habove]
  constructor
  case segment =>
    apply segment_append.mpr
    constructor
    · apply hlower.congr
      intro z hz
      have hne : z ≠ f.here := hdisj z hz f.here List.mem_cons_self
      exact ⟨Mem.setParentColor_of_ne hne, fun _ => rfl⟩
    · refine ⟨?_, hchild, hother, ?_, trivial⟩
      · rw [Mem.setParentColor_self, hv]
        rfl
      · apply (stored_setParentColor _).mpr hsib
        simp only [around, List.nodup_cons, List.mem_append, not_or] at hsn
        exact hsn.1.1
  case right => rw [Mem.setParentColor_child, Mem.setChild_self, top_append]
  case root => rfl
  case word =>
    intro z hz
    have hne : z ≠ f.here := fun he => hz (he ▸ hf)
    exact Mem.setParentColor_of_ne hne
  case child =>
    intro z hz hzs e
    have hne : z ≠ g.here := fun he => hz (he ▸ hg)
    rw [Mem.setParentColor_child, Mem.setChild_of_ne hzs, Mem.setChild_of_ne hne]

theorem wp_rbDetachSuccessor {fuel : ℕ} (h : Stored m p r) (hr : ptr r ≠ 0) (hn : Placed r.inorder)
    (hp : p % 4 = 0) (hfuel : r.height ≤ fuel) :
    ∃ stretch cs s rc, r = plug (.node cs .nil s rc) stretch ∧
      (∀ f ∈ stretch, f.side = .left) ∧
      wp (rbDetachSuccessor fuel (ptr r))
        (fun v m' => v = (above s stretch, s, ptr rc) ∧ Detached m m' stretch s rc) m := by
  cases r with
  | nil => exact absurd rfl hr
  | node k l b rr =>
    rw [ptr_node] at hr ⊢
    obtain ⟨hword, hleft, hright, hl, hrr⟩ := h
    cases l with
    | nil =>
      refine ⟨[], k, b, rr, rfl, by simp, ?_⟩
      rw [rbDetachSuccessor, wp_bind, wp_loadChild hr, hleft, ptr_nil, if_pos rfl, wp_bind,
        wp_loadChild hr, wp_pure, hright]
      exact ⟨rfl, trivial, hright, rfl, fun _ _ => rfl, fun _ _ _ _ => rfl⟩
    | node k' l' b' r' =>
      have h0 := notMem_of_placed hn
      have hb' : b' ≠ 0 := fun hb => h0 (by simp [inorder, hb])
      have hheight : (node k' l' b' r').height ≤ fuel := by
        rw [height] at hfuel
        omega
      obtain ⟨stretch, cs, s, rc, heq, hall, hwp⟩ :=
        wp_rbSuccessor hl (fun hmem => h0 (by rw [inorder]; exact List.mem_append_left _ hmem)) hheight
      have hplug : node k (node k' l' b' r') b rr =
          plug (node cs .nil s rc) (stretch ++ [⟨.left, k, b, rr⟩]) := by
        rw [plug_append, ← heq]
        rfl
      have hall' : ∀ f ∈ stretch ++ [⟨.left, k, b, rr⟩], f.side = .left := by
        intro f hf
        rcases List.mem_append.mp hf with hf | hf
        · exact hall f hf
        · rw [List.mem_singleton.mp hf]
      refine ⟨stretch ++ [⟨.left, k, b, rr⟩], cs, s, rc, hplug, hall', ?_⟩
      have hstored : Stored m p (node k (node k' l' b' r') b rr) := ⟨hword, hleft, hright, hl, hrr⟩
      rw [hplug] at hstored hn
      obtain ⟨hseg, hsuc⟩ := stored_plug.mp hstored
      have h0 := notMem_of_placed hn
      have hnd := hn.nodup
      rw [← join_left] at h0 hnd
      simp only [mem_plug, mem_join, not_or, nodup_plug, nodup_join, disjoint_join_left] at h0 hnd
      obtain ⟨⟨hs0, -⟩, hq0⟩ := h0
      obtain ⟨-, hqn, hsq, -⟩ := hnd
      obtain ⟨-, -, hsr, -⟩ := hsuc
      have hs : s ≠ 0 := Ne.symm hs0
      have hparent : above b stretch ≠ 0 := by
        intro he
        apply hq0
        cases stretch with
        | nil => exact absurd he hr
        | cons f stretch => simp [← he, above, around]
      have hbs : b ≠ s := by
        rintro rfl
        exact hsq (by simp [around_append, around])
      rw [rbDetachSuccessor, wp_bind, wp_loadChild hr, hleft, ptr_node, if_neg hb', wp_bind]
      apply (hwp ⟨.left, k, b, rr⟩ _).mpr
      simp only [wp_bind, wp_loadChild hs, hsr, wp_storeChild hparent, wp_storeChild hs, rbSetParent,
        wp_loadParentColor hr, wp_storeParentColor hr, wp_pure]
      have hv : m.parentColor b % 2 + s = s + colorBit k := by
        rw [hword, add_colorBit_mod hp, Nat.add_comm]
      refine ⟨?_, detached_of_writes hseg hall' hqn hsq hv⟩
      cases stretch <;> rfl

/-- Where the nodes of a tree with a successor below `a` are. -/
structure Apart (l : ColoredTree ℕ) (a s : ℕ) (rc : ColoredTree ℕ) (stretch spine : Spine ℕ) :
    Prop where
  nodup_left : l.inorder.Nodup
  nodup_spine : (around spine).Nodup
  node_left : a ∉ l.inorder
  node_spine : a ∉ around spine
  node_stretch : a ∉ around stretch
  node_succ : a ≠ s
  succ_left : s ∉ l.inorder
  succ_spine : s ∉ around spine
  succ_stretch : s ∉ around stretch
  succ_child : s ∉ rc.inorder
  left_spine : l.inorder.Disjoint (around spine)
  left_stretch : l.inorder.Disjoint (around stretch)
  left_child : l.inorder.Disjoint rc.inorder
  stretch_spine : (around stretch).Disjoint (around spine)
  child_stretch : rc.inorder.Disjoint (around stretch)
  child_spine : rc.inorder.Disjoint (around spine)

theorem apart_of_nodup {stretch : Spine ℕ} {rc : ColoredTree ℕ}
    (h : (plug (node c l a (plug (.node k .nil s rc) stretch)) spine).inorder.Nodup) :
    Apart l a s rc stretch spine := by
  rw [← join_left, ← join_left] at h
  simp only [mem_plug, mem_join, not_or, nodup_plug, nodup_join, disjoint_join_left,
    disjoint_join_right, disjoint_plug_left, disjoint_plug_right] at h
  obtain ⟨⟨⟨hal, ⟨has, -⟩, haq⟩, hln, ⟨⟨⟨-, hsrc⟩, -⟩, -, hsq, -, hrcq⟩, ⟨hsl, -, hlrc⟩, hlq⟩,
    hSn, haS, hlS, ⟨hsS, -, hrcS⟩, hqS⟩ := h
  exact ⟨hln, hSn, hal, haS, haq, has, hsl, hsS, hsq, hsrc, hlS, hlq, hlrc, hqS, hrcq, hrcS⟩

theorem Detached.unattached {m₁ : Mem} {stretch : Spine ℕ} {rc : ColoredTree ℕ}
    (hd : Detached m m₁ stretch s rc) (h : At m spine (.node c l a r))
    (ha : Apart l a s rc stretch spine) (hS0 : 0 ∉ around spine) :
    Stored (m₁.setChild .left s (ptr l)) a l ∧
      StoredSpine ((m₁.setChild .left s (ptr l)).adopt l s l.color) a spine := by
  obtain ⟨-, -, -, hl, -⟩ := h.stored
  constructor
  · rw [stored_setChild ha.succ_left]
    apply hl.congr
    intro z hz
    have hzq : z ∉ around stretch := fun hq => ha.left_stretch hz hq
    have hzs : z ≠ s := fun he => ha.succ_left (he ▸ hz)
    exact ⟨hd.word z hzq, hd.child z hzq hzs⟩
  · rw [storedSpine_adopt (ptr_notMem ha.left_spine hS0), storedSpine_setChild ha.succ_spine]
    apply h.spine.congr hd.root
    intro z hz
    have hzq : z ∉ around stretch := fun hq => ha.stretch_spine hq hz
    have hzs : z ≠ s := fun he => ha.succ_spine (he ▸ hz)
    exact ⟨hd.word z hzq, hd.child z hzq hzs⟩

/-- The words of the successor in the place of the removed node, and of what is around it. -/
theorem Detached.attached {m₁ : Mem} {stretch : Spine ℕ} {rc : ColoredTree ℕ}
    (hd : Detached m m₁ stretch s rc) (h : At m spine (.node c l a r))
    (ha : Apart l a s rc stretch spine) (hl0 : 0 ∉ l.inorder) (hS0 : 0 ∉ around spine) :
    StoredSpine ((((m₁.setChild .left s (ptr l)).adopt l s l.color).reattach s
      spine).setParentColor s (parentPtr spine + colorBit c)) (ptr rc)
      (stretch ++ ⟨.right, c, s, l⟩ :: spine) := by
  obtain ⟨hl₁, hspine₁⟩ := hd.unattached h ha hS0
  apply storedSpine_append.mpr
  constructor
  · apply hd.segment.congr
    intro z hz
    have hzs : z ≠ s := fun he => ha.succ_stretch (he ▸ hz)
    have hzl : z ∉ l.inorder := fun hl => ha.left_stretch hl hz
    have hzS : z ∉ around spine := fun hS => ha.stretch_spine hz hS
    simp [hzs, hzl, hzS]
  · refine ⟨by simp, ?_, ?_, ?_, ?_⟩
    · simpa [ha.succ_spine] using hd.right
    · simp [ha.succ_spine, Side.other]
    · rw [stored_setParentColor ha.succ_left, stored_reattach ha.left_spine]
      exact stored_adopt_self hl₁ ha.nodup_left hl0 rfl
    · rw [storedSpine_setParentColor ha.succ_spine]
      exact storedSpine_reattach hspine₁ ha.nodup_spine

/-- The last writes of cases 2 and 3, to the successor's old child and to the successor. -/
theorem wp_rbEraseAugmented_finish {n fuel v parent : ℕ} {cs : Color} {rc : ColoredTree ℕ}
    (hspine : StoredSpine (m.setParentColor s v) (ptr rc) spine) (hparent : parent = parentPtr spine)
    (hsuc : m.parentColor s % 2 = colorBit cs) (hrc : Stored m q rc) (hs : s ≠ 0)
    (hrc0 : 0 ∉ rc.inorder) (hsrc : s ∉ rc.inorder) (hd : rc.inorder.Disjoint (around spine))
    (hb : Balanced (join .left cs s .nil rc) k n) (hf : Fits spine k n)
    (hfuel : spine.length ≤ fuel) :
    wp (if ptr rc ≠ 0 then do
        rbSetParentColor (ptr rc) parent .black
        storeParentColor s v
        return 0
      else do
        let black ← rbIsBlack s
        storeParentColor s v
        return if black then parent else 0)
      (Removes fuel (plug rc spine).inorder) m := by
  subst hparent
  obtain ⟨rfl, ⟨rfl, hleaf⟩ | ⟨b, rfl, rfl, rfl⟩⟩ := hb.only_child
  · rw [ptr_nil, if_neg (not_not.mpr rfl), wp_bind, wp_rbIsBlack hs, hsuc, wp_bind,
      wp_storeParentColor hs, wp_pure]
    have hat : At (m.setParentColor s v) spine .nil := ⟨stored_nil, hspine⟩
    rcases hleaf with ⟨rfl, rfl⟩ | ⟨rfl, rfl⟩
    · rw [if_neg (by decide)]
      exact Or.inl ⟨rfl, holds_of_fits hat .nil hf.of_red rfl⟩
    · rw [if_pos (by decide)]
      exact removes_black hat hf hfuel
  · have hb0 : b ≠ 0 := by
      rintro rfl
      exact hrc0 (by simp [inorder])
    have hbs : b ≠ s := by
      rintro rfl
      exact hsrc (by simp [inorder])
    obtain ⟨-, hl, hr, -⟩ := hrc
    rw [ptr_node, if_pos hb0, wp_bind, wp_rbSetParentColor hb0, wp_bind, wp_storeParentColor hs,
      wp_pure]
    refine Or.inl ⟨rfl, holds_of_fits (t := .node .black .nil b .nil) ⟨?_, ?_⟩ (.black .nil .nil) hf rfl⟩
    · simp [Stored, hbs, hl, hr]
    · rw [ptr_node] at hspine ⊢
      apply StoredSpine.congr hspine
      · rfl
      intro z hz
      have hzb : z ≠ b := by
        rintro rfl
        exact hd (by simp [inorder]) hz
      refine ⟨?_, fun _ => rfl⟩
      rcases eq_or_ne z s with rfl | hzs
      · simp
      · simp [hzs, hzb]

theorem wp_rbEraseAugmented_two {n fuel : ℕ} (h : At m spine (.node c l a r))
    (hn : Placed (plug (.node c l a r) spine).inorder) (hl0 : ptr l ≠ 0) (hr0 : ptr r ≠ 0)
    (hb : Balanced (plug (.node c l a r) spine) .black n)
    (hfuel : (plug (.node c l a r) spine).height ≤ fuel) :
    ∃ stretch cs s rc, r = plug (.node cs .nil s rc) stretch ∧ (∀ f ∈ stretch, f.side = .left) ∧
      wp (rbEraseAugmented fuel a)
        (Removes fuel (plug rc (stretch ++ ⟨.right, c, s, l⟩ :: spine)).inorder) m := by
  have ha4 := hn.aligned a (by simp [mem_plug, inorder])
  have ha := hn.ne_zero a (by simp [mem_plug, inorder])
  have hpp := hn.ptr_aligned
  obtain ⟨hword, hleft, hright, hl, hr⟩ := h.stored
  have hright' : plug (.node c l a r) spine = plug r (⟨.right, c, a, l⟩ :: spine) := rfl
  have hrn : Placed r.inorder := Placed.subtree (hright' ▸ hn)
  have hrh : r.height ≤ fuel := by
    have hheight := height_plug r (⟨.right, c, a, l⟩ :: spine)
    rw [← hright'] at hheight
    omega
  obtain ⟨stretch, cs, s, rc, rfl, hall, hdetach⟩ := wp_rbDetachSuccessor hr hr0 hrn ha4 hrh
  refine ⟨stretch, cs, s, rc, rfl, hall, ?_⟩
  rw [rbEraseAugmented]
  simp only [wp_bind, wp_loadChild ha, hleft, hright, if_neg hl0, if_neg hr0]
  apply hdetach.mono
  rintro _ m₁ ⟨rfl, hd⟩
  have hap := apart_of_nodup hn.nodup
  have h0 := notMem_of_placed hn
  rw [← join_left, ← join_left] at h0
  simp only [mem_plug, mem_join, not_or] at h0
  obtain ⟨⟨-, hl0', ⟨hs0, -, hrc0⟩, -⟩, hS0⟩ := h0
  have hs : s ≠ 0 := Ne.symm hs0
  obtain ⟨hl₁, hspine₁⟩ := hd.unattached h hap hS0
  have hattached := hd.attached h hap hl0' hS0
  have hpc : ((m₁.setChild .left s (ptr l)).adopt l s l.color).parentColor a =
      parentPtr spine + colorBit c := by
    rw [Mem.adopt_parentColor hap.node_left, Mem.setChild_parentColor,
      hd.word a hap.node_stretch, hword]
  have hsuc : (((m₁.setChild .left s (ptr l)).adopt l s l.color).reattach s
      spine).parentColor s % 2 = colorBit cs := by
    obtain ⟨-, hsword, -⟩ := stored_plug.mp hr
    rw [Mem.reattach_parentColor, Mem.adopt_parentColor hap.succ_left, Mem.setChild_parentColor,
      hd.word s hap.succ_stretch, hsword, add_colorBit_mod]
    exact above_aligned (fun z hz => hrn.aligned z (mem_plug.mpr (Or.inr hz))) ha4
  have hrc : Stored (((m₁.setChild .left s (ptr l)).adopt l s l.color).reattach s spine) s rc := by
    obtain ⟨-, -, -, -, -, hrc⟩ := stored_plug.mp hr
    rw [stored_reattach hap.child_spine, stored_adopt (ptr_notMem hap.left_child hrc0),
      stored_setChild hap.succ_child]
    apply hrc.congr
    intro z hz
    have hzs : z ≠ s := fun he => hap.succ_child (he ▸ hz)
    exact ⟨hd.word z (hap.child_stretch hz), hd.child z (hap.child_stretch hz) hzs⟩
  simp only [hd.child a hap.node_stretch hap.node_succ, hleft, wp_storeChild hs,
    wp_rbSetParent_ptr hl₁ ha4 hl0, wp_loadParentColor ha, hpc, parentOf_add hpp,
    wp_rbChangeChild hspine₁ ha hap.node_spine hS0]
  have hplug : plug (.node c l a (plug (.node cs .nil s rc) stretch)) spine =
      plug (.node cs .nil s rc) (stretch ++ ⟨.right, c, a, l⟩ :: spine) := by
    rw [plug_append]
    rfl
  rw [hplug] at hb hfuel
  obtain ⟨k, n, hbal, hfits⟩ := fits_of_balanced_plug hb
  have hlength : (stretch ++ ⟨.right, c, s, l⟩ :: spine).length ≤ fuel := by
    have hheight := height_plug (.node cs .nil s rc) (stretch ++ ⟨.right, c, a, l⟩ :: spine)
    simp only [List.length_append, List.length_cons] at hheight ⊢
    omega
  have hdisj : rc.inorder.Disjoint (around (stretch ++ ⟨.right, c, s, l⟩ :: spine)) := by
    rw [around_append, List.disjoint_append_right]
    refine ⟨hap.child_stretch, ?_⟩
    rw [around, List.disjoint_cons_right, List.disjoint_append_right]
    exact ⟨hap.succ_child, List.disjoint_symm hap.left_child, hap.child_spine⟩
  exact wp_rbEraseAugmented_finish hattached (by rw [parentPtr_append]) hsuc hrc hs hrc0
    hap.succ_child hdisj hbal hfits.replace hlength

theorem inorder_plug_erase (h : (plug (node c l a r) spine).inorder.Nodup) :
    (plug (node c l a r) spine).inorder.erase a =
      before spine ++ ((l.inorder ++ r.inorder) ++ after spine) := by
  rw [inorder_plug, inorder] at h ⊢
  obtain ⟨-, hrest, hbefore⟩ := List.nodup_append'.mp h
  obtain ⟨hnode, -⟩ := List.nodup_append'.mp hrest
  obtain ⟨-, -, hleft⟩ := List.nodup_append'.mp hnode
  have hab : a ∉ before spine := fun hmem => hbefore hmem (by simp)
  have hal : a ∉ l.inorder := fun hmem => hleft hmem List.mem_cons_self
  rw [List.erase_append_right _ hab, List.erase_append_left _ (by simp),
    List.erase_append_right _ hal, List.erase_cons_head]

/-- Taking a node out leaves the others in their order, in a balanced tree, after loops of at
most as many iterations as the tree has levels. -/
theorem wp_rbErase {fuel : ℕ} {t : ColoredTree ℕ} {n : ℕ} (h : At m [] t)
    (hb : Balanced t .black n) (hn : Placed t.inorder) (ha : a ∈ t.inorder)
    (hfuel : t.height ≤ fuel) :
    wp (rbErase fuel a) (fun _ m' => Holds m' (t.inorder.erase a)) m := by
  obtain ⟨c, l, r, spine, heq⟩ := exists_plug_of_mem ha []
  rw [List.append_nil] at heq
  obtain rfl : t = plug (node c l a r) spine := heq
  rw [at_root_plug] at h
  have haug : wp (rbEraseAugmented fuel a)
      (Removes fuel ((plug (node c l a r) spine).inorder.erase a)) m := by
    rw [inorder_plug_erase hn.nodup]
    obtain ⟨k, n', hbal, hfits⟩ := fits_of_balanced_plug hb
    have hheight := height_plug (node c l a r) spine
    cases l with
    | nil =>
      rw [inorder, List.nil_append, ← inorder_plug]
      exact wp_rbEraseAugmented_leaf h hn hbal hfits (by omega)
    | node cl ll b lr =>
      have hb0 : b ≠ 0 := hn.ne_zero b (by simp [mem_plug, inorder])
      cases r with
      | nil =>
        rw [show inorder .nil = ([] : List ℕ) from rfl, List.append_nil, ← inorder_plug]
        exact wp_rbEraseAugmented_left h hn hb0 hbal hfits
      | node cr rl e rr =>
        have he0 : e ≠ 0 := hn.ne_zero e (by simp [mem_plug, inorder])
        obtain ⟨stretch, cs, s, rc, hr, hall, hwp⟩ := wp_rbEraseAugmented_two h hn hb0 he0 hb hfuel
        have hright : (node cr rl e rr).inorder = s :: (plug rc stretch).inorder := by
          rw [hr, inorder_plug, inorder_plug, before_eq_nil hall]
          rfl
        rw [plug_append, plug, inorder_plug] at hwp
        rw [hright]
        exact hwp
  rw [rbErase, wp_bind]
  apply haug.mono
  rintro v m' (⟨rfl, hholds⟩ | ⟨spine', rfl, hlack, hlength, hsame⟩)
  · rw [if_neg (not_not.mpr rfl), wp_pure]
    exact hholds
  · have hn' : Placed (plug .nil spine').inorder := by
      rw [hsame]
      exact hn.erase a
    have hne : parentPtr spine' ≠ 0 := by
      cases spine' with
      | nil => exact absurd rfl hlack.below
      | cons f rest => exact hn'.ne_zero _ (mem_plug.mpr (Or.inr List.mem_cons_self))
    rw [if_pos hne]
    rw [← hsame]
    exact wp_rbEraseColor hlack hn' hlength

end TomatOS.RbTree
