import Mathlib.Data.List.Chain
import Mathlib.Data.List.Infix
import Mathlib.Data.List.Nodup
import Mathlib.Data.Set.Basic
import Mathlib.Logic.Function.Basic

/-! Rings of cells linked both ways, any number of them in one memory. A ring starts at a
head and holds a sequence of cells. Joining two cells changes one link of each, so a ring
neither of them is on survives, and a cell is taken out through its own links alone. -/

namespace TomatOS.Foundation

structure Links (α : Type*) where
  next : α → α
  prev : α → α

namespace Links

variable {α : Type*}

/-- `b` follows `a`, by the links of both. -/
def Joined (k : Links α) (a b : α) : Prop := k.next a = b ∧ k.prev b = a

/-- The cells from `h` through `l` are joined in this order, the last one to `h`. -/
def IsRing (k : Links α) (h : α) (l : List α) : Prop := ((h :: l) ++ [h]).IsChain k.Joined

/-- The same cells read the other way. -/
def flip (k : Links α) : Links α := ⟨k.prev, k.next⟩

variable {k k' : Links α} {a b h n p x y : α} {l l₁ l₂ u v : List α}

theorem isRing_nil_iff : k.IsRing h [] ↔ k.next h = h ∧ k.prev h = h := by
  simp [IsRing, Joined]

theorem IsRing.flip (hr : k.IsRing h l) : k.flip.IsRing h l.reverse := by
  have hrev : ((h :: l.reverse) ++ [h]).reverse = (h :: l) ++ [h] := by simp
  unfold IsRing
  rw [← List.isChain_reverse, hrev]
  apply List.IsChain.imp _ hr
  intro x y hxy
  exact ⟨hxy.2, hxy.1⟩

/-- A chain is made of the next links of all its cells but the last and of the previous
links of all but the first. -/
theorem isChain_congr (hc : l.IsChain k.Joined) (hn : ∀ x ∈ l.dropLast, k'.next x = k.next x)
    (hp : ∀ y ∈ l.tail, k'.prev y = k.prev y) : l.IsChain k'.Joined := by
  induction l with
  | nil => exact List.isChain_nil
  | cons x l ih =>
    cases l with
    | nil => exact List.isChain_singleton x
    | cons y l =>
      rw [List.isChain_cons_cons] at hc ⊢
      constructor
      · constructor
        · rw [hn x (by simp)]
          exact hc.1.1
        · rw [hp y (by simp)]
          exact hc.1.2
      · apply ih hc.2
        · intro z hz
          exact hn z (by simp [hz])
        · intro z hz
          exact hp z (List.mem_of_mem_tail hz)

/-- A ring depends on nothing but the links of its own cells. -/
theorem IsRing.congr (hr : k.IsRing h l) (hn : ∀ x ∈ h :: l, k'.next x = k.next x)
    (hp : ∀ x ∈ h :: l, k'.prev x = k.prev x) : k'.IsRing h l := by
  apply isChain_congr hr
  · rwa [List.dropLast_concat]
  · intro y hy
    apply hp
    rw [List.cons_append, List.tail_cons] at hy
    simpa [or_comm] using hy

/-! ### Cutting a ring

Between `l₁` and `l₂`, where `p` is the last cell before the cut, the head included, and
`n` the first one after it. -/

/-- The parts on the two sides use neither the next link of `p` nor the previous one of `n`. -/
theorem not_mem_of_cut (hd : (h :: (l₁ ++ l₂)).Nodup) (hu : h :: l₁ = u ++ [p])
    (hv : l₂ ++ [h] = n :: v) : p ∉ u ∧ n ∉ l₁ ∧ p ∉ l₂ ∧ n ∉ v := by
  have happ : ((h :: l₁) ++ l₂).Nodup := hd
  have hleft : (u ++ [p]).Nodup := by
    rw [← hu]
    exact hd.sublist (by simp)
  have hright : (n :: v).Nodup := by
    rw [← hv]
    exact (List.perm_append_singleton h l₂).nodup_iff.mpr (hd.sublist (by simp))
  have hp : p ∈ h :: l₁ := by simp [hu]
  have hn : n ∈ l₂ ++ [h] := by simp [hv]
  refine ⟨?_, ?_, ?_, (List.nodup_cons.mp hright).1⟩
  · intro hmem
    exact (List.nodup_append.mp hleft).2.2 p hmem p (List.mem_singleton_self p) rfl
  · intro hmem
    rcases List.mem_append.mp hn with h₂ | hh
    · exact (List.nodup_append.mp happ).2.2 n (List.mem_cons_of_mem h hmem) n h₂ rfl
    · rw [List.mem_singleton.mp hh] at hmem
      exact (List.nodup_cons.mp hd).1 (List.mem_append_left l₂ hmem)
  · intro hmem
    exact (List.nodup_append.mp happ).2.2 p hp p hmem rfl

/-- A ring is its two parts, joined at the cut. -/
theorem isRing_append_iff (hu : h :: l₁ = u ++ [p]) (hv : l₂ ++ [h] = n :: v) :
    k.IsRing h (l₁ ++ l₂) ↔
      (u ++ [p]).IsChain k.Joined ∧ k.Joined p n ∧ (n :: v).IsChain k.Joined := by
  have hcut : (h :: (l₁ ++ l₂)) ++ [h] = u ++ p :: n :: v := by
    rw [← List.cons_append, hu, List.append_assoc, hv]
    simp
  unfold IsRing
  rw [hcut, List.isChain_append_cons_cons]

/-- A ring through `x` is its parts before and after `x`, both joined to it. -/
theorem isRing_append_cons_iff (hu : h :: l₁ = u ++ [p]) (hv : l₂ ++ [h] = n :: v) :
    k.IsRing h (l₁ ++ x :: l₂) ↔ (u ++ [p]).IsChain k.Joined ∧ k.Joined p x ∧
      k.Joined x n ∧ (n :: v).IsChain k.Joined := by
  have hx : (x :: l₂) ++ [h] = x :: n :: v := by rw [List.cons_append, hv]
  rw [isRing_append_iff hu hx, List.isChain_cons_cons]

theorem exists_last (h : α) (l : List α) : ∃ u p, h :: l = u ++ [p] :=
  ⟨(h :: l).dropLast, (h :: l).getLast (List.cons_ne_nil h l),
    (List.dropLast_append_getLast (List.cons_ne_nil h l)).symm⟩

theorem exists_first (l : List α) (h : α) : ∃ n v, l ++ [h] = n :: v := by
  cases l with
  | nil => exact ⟨h, [], rfl⟩
  | cons n l => exact ⟨n, l ++ [h], rfl⟩

/-! ### Reading a ring -/

/-- A ring cut right after its head. -/
theorem IsRing.joined_first (hr : k.IsRing h l) (hv : l ++ [h] = n :: v) : k.Joined h n := by
  have hu : h :: [] = [] ++ [h] := rfl
  exact ((isRing_append_iff hu hv).mp hr).2.1

theorem IsRing.joined_last (hr : k.IsRing h l) (hu : h :: l = u ++ [p]) : k.Joined p h := by
  have hv : [] ++ [h] = h :: [] := rfl
  rw [← List.append_nil l] at hr
  exact ((isRing_append_iff hu hv).mp hr).2.1

theorem IsRing.next_head (hr : k.IsRing h (x :: l)) : k.next h = x :=
  (hr.joined_first rfl).1

theorem IsRing.next_mem (hr : k.IsRing h l) (hx : x ∈ h :: l) : k.next x ∈ h :: l := by
  rcases List.mem_cons.mp hx with rfl | hx
  · obtain ⟨n, v, hv⟩ := exists_first l x
    have hn : n ∈ l ++ [x] := by simp [hv]
    rw [(hr.joined_first hv).1]
    simpa [or_comm] using hn
  · obtain ⟨l₁, l₂, rfl⟩ := List.append_of_mem hx
    obtain ⟨u, p, hu⟩ := exists_last h l₁
    obtain ⟨n, v, hv⟩ := exists_first l₂ h
    have hn : n ∈ l₂ ++ [h] := by simp [hv]
    rw [((isRing_append_cons_iff hu hv).mp hr).2.2.1.1]
    simp only [List.mem_append, List.mem_cons, List.not_mem_nil, or_false] at hn ⊢
    tauto

theorem IsRing.prev_mem (hr : k.IsRing h l) (hx : x ∈ h :: l) : k.prev x ∈ h :: l := by
  have hrev : k.prev x ∈ h :: l.reverse := hr.flip.next_mem (by simpa using hx)
  simpa using hrev

/-- Follow the links `f` from `a` until `h` comes round, for at most so many steps. -/
def trail [DecidableEq α] (f : α → α) (h : α) : ℕ → α → Option (List α)
  | 0, a => if a = h then some [] else none
  | fuel + 1, a => if a = h then some [] else (trail f h fuel (f a)).map (a :: ·)

theorem trail_head [DecidableEq α] (f : α → α) (h : α) (fuel : ℕ) :
    trail f h fuel h = some [] := by
  cases fuel <;> simp [trail]

theorem trail_of_isChain [DecidableEq α] {f : α → α} {fuel : ℕ}
    (hc : ((a :: l) ++ [h]).IsChain fun x y => f x = y) (hh : h ∉ l) (hfuel : l.length ≤ fuel) :
    trail f h fuel (f a) = some l := by
  induction l generalizing a fuel with
  | nil =>
    rw [List.cons_append, List.nil_append, List.isChain_cons_cons] at hc
    rw [hc.1, trail_head]
  | cons x l ih =>
    rw [List.cons_append, List.cons_append, List.isChain_cons_cons] at hc
    obtain ⟨fuel, rfl⟩ : ∃ m, fuel = m + 1 := Nat.exists_eq_add_one.mpr (by
      rw [List.length_cons] at hfuel
      omega)
    have hx : x ≠ h := (ne_of_mem_of_not_mem List.mem_cons_self hh)
    rw [hc.1, trail, if_neg hx, ih hc.2 (fun hmem => hh (List.mem_cons_of_mem x hmem))
      (Nat.le_of_succ_le_succ hfuel)]
    rfl

theorem IsRing.trail_next [DecidableEq α] {fuel : ℕ} (hr : k.IsRing h l) (hh : h ∉ l)
    (hfuel : l.length ≤ fuel) : trail k.next h fuel (k.next h) = some l :=
  trail_of_isChain (hr.imp fun _ _ hxy => hxy.1) hh hfuel

theorem IsRing.trail_prev [DecidableEq α] {fuel : ℕ} (hr : k.IsRing h l) (hh : h ∉ l)
    (hfuel : l.length ≤ fuel) : trail k.prev h fuel (k.prev h) = some l.reverse :=
  hr.flip.trail_next (by rwa [List.mem_reverse]) (by rwa [List.length_reverse])

/-! ### Joining -/

section Join

variable [DecidableEq α]

def setNext (a b : α) (k : Links α) : Links α := { k with next := Function.update k.next a b }

def setPrev (a b : α) (k : Links α) : Links α := { k with prev := Function.update k.prev a b }

/-- Make `b` follow `a`. -/
def join (a b : α) (k : Links α) : Links α := (k.setPrev b a).setNext a b

theorem joined_join : (k.join a b).Joined a b := by
  constructor
  · exact Function.update_self a b k.next
  · exact Function.update_self b a k.prev

theorem Joined.join (hxy : k.Joined x y) (hx : x ≠ a) (hy : y ≠ b) : (k.join a b).Joined x y := by
  constructor
  · rw [← hxy.1]
    exact Function.update_of_ne hx b k.next
  · rw [← hxy.2]
    exact Function.update_of_ne hy a k.prev

theorem isChain_join (hc : l.IsChain k.Joined) (ha : a ∉ l.dropLast) (hb : b ∉ l.tail) :
    l.IsChain (k.join a b).Joined := by
  apply isChain_congr hc
  · intro x hx
    exact Function.update_of_ne (ne_of_mem_of_not_mem hx ha) b k.next
  · intro x hx
    exact Function.update_of_ne (ne_of_mem_of_not_mem hx hb) a k.prev

/-- A ring survives whatever is joined away from it. -/
theorem IsRing.join (hr : k.IsRing h l) (ha : a ∉ h :: l) (hb : b ∉ h :: l) :
    (k.join a b).IsRing h l := by
  apply hr.congr
  · intro x hx
    exact Function.update_of_ne (ne_of_mem_of_not_mem hx ha) b k.next
  · intro x hx
    exact Function.update_of_ne (ne_of_mem_of_not_mem hx hb) a k.prev

theorem IsRing.setNext (hr : k.IsRing h l) (ha : a ∉ h :: l) : (k.setNext a b).IsRing h l := by
  apply hr.congr
  · intro x hx
    exact Function.update_of_ne (ne_of_mem_of_not_mem hx ha) b k.next
  · intro x _
    rfl

theorem IsRing.setPrev (hr : k.IsRing h l) (ha : a ∉ h :: l) : (k.setPrev a b).IsRing h l := by
  apply hr.congr
  · intro x _
    rfl
  · intro x hx
    exact Function.update_of_ne (ne_of_mem_of_not_mem hx ha) b k.prev

theorem isRing_join_self : (k.join h h).IsRing h [] := isRing_nil_iff.mpr joined_join

theorem IsRing.insert (hr : k.IsRing h (l₁ ++ l₂)) (hd : (h :: (l₁ ++ l₂)).Nodup)
    (hx : x ∉ h :: (l₁ ++ l₂)) (hu : h :: l₁ = u ++ [p]) (hv : l₂ ++ [h] = n :: v) :
    ((k.join x n).join p x).IsRing h (l₁ ++ x :: l₂) := by
  obtain ⟨hleft, -, hright⟩ := (isRing_append_iff hu hv).mp hr
  obtain ⟨hpu, hnl, hpl, hnv⟩ := not_mem_of_cut hd hu hv
  have hxleft : x ∉ u ++ [p] := by
    rw [← hu]
    exact fun hmem => hx (List.mem_append_left l₂ hmem)
  have hxright : x ∉ n :: v := by
    rw [← hv]
    intro hmem
    apply hx
    simp only [List.mem_append, List.mem_cons, List.not_mem_nil, or_false] at hmem ⊢
    tauto
  have hl₁ : (u ++ [p]).tail = l₁ := by rw [← hu, List.tail_cons]
  have hl₂ : (n :: v).dropLast = l₂ := by rw [← hv, List.dropLast_concat]
  rw [isRing_append_cons_iff hu hv]
  refine ⟨?_, joined_join, ?_, ?_⟩
  · apply isChain_join (isChain_join hleft _ _)
    · rwa [List.dropLast_concat]
    · exact fun hmem => hxleft (List.mem_of_mem_tail hmem)
    · exact fun hmem => hxleft (List.mem_of_mem_dropLast hmem)
    · rwa [hl₁]
  · apply joined_join.join
    · exact fun hxp => hxleft (by simp [hxp])
    · exact fun hnx => hxright (by simp [hnx])
  · apply isChain_join (isChain_join hright _ _)
    · rwa [hl₂]
    · exact fun hmem => hxright (List.mem_of_mem_tail hmem)
    · exact fun hmem => hxright (List.mem_of_mem_dropLast hmem)
    · rwa [List.tail_cons]

theorem IsRing.insert_front (hr : k.IsRing h l) (hd : (h :: l).Nodup) (hx : x ∉ h :: l) :
    ((k.join x (k.next h)).join h x).IsRing h (x :: l) := by
  obtain ⟨n, v, hv⟩ := exists_first l h
  have hu : h :: [] = [] ++ [h] := rfl
  have hcut : k.IsRing h ([] ++ l) := hr
  rw [(hr.joined_first hv).1]
  exact hcut.insert hd hx hu hv

theorem IsRing.insert_back (hr : k.IsRing h l) (hd : (h :: l).Nodup) (hx : x ∉ h :: l) :
    ((k.join x h).join (k.prev h) x).IsRing h (l ++ [x]) := by
  obtain ⟨u, p, hu⟩ := exists_last h l
  have hv : [] ++ [h] = h :: [] := rfl
  rw [(hr.joined_last hu).2]
  rw [← List.append_nil l] at hr hd hx
  exact hr.insert hd hx hu hv

/-- A cell is unlinked by joining its own neighbours. -/
theorem IsRing.unlink (hr : k.IsRing h (l₁ ++ x :: l₂)) (hd : (h :: (l₁ ++ x :: l₂)).Nodup) :
    (k.join (k.prev x) (k.next x)).IsRing h (l₁ ++ l₂) := by
  obtain ⟨u, p, hu⟩ := exists_last h l₁
  obtain ⟨n, v, hv⟩ := exists_first l₂ h
  obtain ⟨hleft, hpx, hxn, hright⟩ := (isRing_append_cons_iff hu hv).mp hr
  have hd' : (h :: (l₁ ++ l₂)).Nodup := hd.sublist (by simp)
  obtain ⟨hpu, hnl, hpl, hnv⟩ := not_mem_of_cut hd' hu hv
  have hl₁ : (u ++ [p]).tail = l₁ := by rw [← hu, List.tail_cons]
  have hl₂ : (n :: v).dropLast = l₂ := by rw [← hv, List.dropLast_concat]
  rw [hpx.2, hxn.1, isRing_append_iff hu hv]
  refine ⟨?_, joined_join, ?_⟩
  · apply isChain_join hleft
    · rwa [List.dropLast_concat]
    · rwa [hl₁]
  · apply isChain_join hright
    · rwa [hl₂]
    · rwa [List.tail_cons]

end Join

/-! ### Many rings in one memory

A family gives the sequence of every head, and none at a cell that is no head. -/

/-- The cell is no head and on no ring. -/
def Free (s : α → Option (List α)) (a : α) : Prop := ∀ h l, s h = some l → a ∉ h :: l

/-- The cell is on no ring but that of `h`. -/
def OnlyOn (s : α → Option (List α)) (h a : α) : Prop :=
  ∀ h' l, s h' = some l → h' ≠ h → a ∉ h' :: l

/-- Every cell is on one ring at most, and only once. -/
structure Separate (s : α → Option (List α)) : Prop where
  nodup : ∀ {h l}, s h = some l → (h :: l).Nodup
  onlyOn : ∀ {h l a}, s h = some l → a ∈ h :: l → OnlyOn s h a

/-- Every ring of the family but that of `h` is in the memory. -/
def RingsBut (k : Links α) (s : α → Option (List α)) (h : α) : Prop :=
  ∀ h' l, s h' = some l → h' ≠ h → k.IsRing h' l

structure Represents (k : Links α) (s : α → Option (List α)) : Prop extends Separate s where
  rings : ∀ {h l}, s h = some l → k.IsRing h l

variable {s : α → Option (List α)}

theorem Free.onlyOn (ha : Free s a) (h : α) : OnlyOn s h a := fun h' l hl _ => ha h' l hl

theorem Represents.ringsBut (hr : k.Represents s) (h : α) : k.RingsBut s h :=
  fun _ _ hl _ => hr.rings hl

/-- The cells of a ring with one more are on no other ring. -/
theorem Represents.onlyOn_cons (hr : k.Represents s) (hl : s h = some l) (hx : Free s x) :
    ∀ a ∈ x :: h :: l, OnlyOn s h a := by
  intro a ha
  rcases List.mem_cons.mp ha with rfl | ha
  · exact hx.onlyOn h
  · exact hr.onlyOn hl ha

section Changes

variable [DecidableEq α]

/-- A ring of the family is the one that was changed or another one as it was. -/
theorem cases_of_update {h' : α} {l' : List α}
    (hl : Function.update s h (some l) h' = some l') :
    h' = h ∧ l' = l ∨ h' ≠ h ∧ s h' = some l' := by
  by_cases hh : h' = h
  · subst hh
    rw [Function.update_self, Option.some.injEq] at hl
    exact .inl ⟨rfl, hl.symm⟩
  · rw [Function.update_of_ne hh] at hl
    exact .inr ⟨hh, hl⟩

theorem Free.update (ha : Free s a) (hl : a ∉ h :: l) : Free (Function.update s h (some l)) a := by
  intro h' l' hl'
  rcases cases_of_update hl' with ⟨rfl, rfl⟩ | ⟨-, hl'⟩
  · exact hl
  · exact ha h' l' hl'

theorem RingsBut.join (hk : k.RingsBut s h) (ha : OnlyOn s h a) (hb : OnlyOn s h b) :
    (k.join a b).RingsBut s h := by
  intro h' l hl hne
  exact (hk h' l hl hne).join (ha h' l hl hne) (hb h' l hl hne)

theorem Separate.update (hs : Separate s) (hd : (h :: l).Nodup)
    (hown : ∀ a ∈ h :: l, OnlyOn s h a) : Separate (Function.update s h (some l)) := by
  constructor
  case nodup =>
    intro h' l' hl'
    rcases cases_of_update hl' with ⟨rfl, rfl⟩ | ⟨-, hl'⟩
    · exact hd
    · exact hs.nodup hl'
  case onlyOn =>
    intro h₁ l₁ a hl₁ ha h₂ l₂ hl₂ hne
    rcases cases_of_update hl₁ with ⟨rfl, rfl⟩ | ⟨hother, hold₁⟩
    · rcases cases_of_update hl₂ with ⟨rfl, -⟩ | ⟨-, hold₂⟩
      · exact absurd rfl hne
      · exact hown a ha h₂ l₂ hold₂ hne
    · rcases cases_of_update hl₂ with ⟨rfl, rfl⟩ | ⟨-, hold₂⟩
      · exact fun ha₂ => hown a ha₂ h₁ l₁ hold₁ hother ha
      · exact hs.onlyOn hold₁ ha h₂ l₂ hold₂ hne

/-- A change to one ring: what is on it afterwards was on no other, and the others are
still there. -/
theorem Represents.update (hr : k.Represents s) (hring : k'.IsRing h l) (hd : (h :: l).Nodup)
    (hown : ∀ a ∈ h :: l, OnlyOn s h a) (hk : k'.RingsBut s h) :
    k'.Represents (Function.update s h (some l)) where
  toSeparate := hr.toSeparate.update hd hown
  rings := by
    intro h' l' hl'
    rcases cases_of_update hl' with ⟨rfl, rfl⟩ | ⟨hh, hl'⟩
    · exact hring
    · exact hk h' l' hl' hh

theorem Represents.init (hr : k.Represents s) (hh : Free s h) :
    (k.join h h).Represents (Function.update s h (some [])) := by
  apply hr.update isRing_join_self (List.nodup_singleton h)
  · intro a ha
    rw [List.mem_singleton.mp ha]
    exact hh.onlyOn h
  · exact (hr.ringsBut h).join (hh.onlyOn h) (hh.onlyOn h)

/-- Heads that are initialised one after the other have empty rings. -/
theorem Represents.init_all {hs : List α} (hr : k.Represents s) (hd : hs.Nodup)
    (hfree : ∀ a ∈ hs, Free s a) :
    (hs.foldl (fun k a => k.join a a) k).Represents fun a => if a ∈ hs then some [] else s a := by
  induction hs generalizing k s with
  | nil => simpa using hr
  | cons a hs ih =>
    obtain ⟨ha, hd⟩ := List.nodup_cons.mp hd
    have hfree' : ∀ b ∈ hs, Free (Function.update s a (some [])) b := by
      intro b hb
      apply (hfree b (List.mem_cons_of_mem a hb)).update
      rw [List.mem_singleton]
      rintro rfl
      exact ha hb
    have hall := ih (hr.init (hfree a List.mem_cons_self)) hd hfree'
    have hfun : (fun b => if b ∈ hs then some [] else Function.update s a (some []) b) =
        fun b => if b ∈ a :: hs then some [] else s b := by
      funext b
      rcases eq_or_ne b a with rfl | hne
      · simp
      · simp [hne]
    rwa [hfun] at hall

theorem Represents.insert_front (hr : k.Represents s) (hl : s h = some l) (hx : Free s x) :
    ((k.join x (k.next h)).join h x).Represents (Function.update s h (some (x :: l))) := by
  have hd := hr.nodup hl
  have hring := hr.rings hl
  have hown := hr.onlyOn_cons hl hx
  have hnext := hring.next_mem List.mem_cons_self
  apply hr.update (hring.insert_front hd (hx h l hl))
  · exact (List.Perm.swap x h l).nodup_iff.mpr (List.nodup_cons.mpr ⟨hx h l hl, hd⟩)
  · intro a ha
    exact hown a ((List.Perm.swap x h l).mem_iff.mp ha)
  · apply ((hr.ringsBut h).join (hx.onlyOn h) (hr.onlyOn hl hnext)).join _ (hx.onlyOn h)
    exact hr.onlyOn hl List.mem_cons_self

theorem Represents.insert_back (hr : k.Represents s) (hl : s h = some l) (hx : Free s x) :
    ((k.join x h).join (k.prev h) x).Represents (Function.update s h (some (l ++ [x]))) := by
  have hd := hr.nodup hl
  have hring := hr.rings hl
  have hown := hr.onlyOn_cons hl hx
  have hprev := hring.prev_mem List.mem_cons_self
  have hperm : ((h :: l) ++ [x]).Perm (x :: h :: l) := List.perm_append_singleton x (h :: l)
  apply hr.update (hring.insert_back hd (hx h l hl))
  · exact hperm.nodup_iff.mpr (List.nodup_cons.mpr ⟨hx h l hl, hd⟩)
  · intro a ha
    exact hown a (hperm.mem_iff.mp ha)
  · apply ((hr.ringsBut h).join (hx.onlyOn h) _).join (hr.onlyOn hl hprev) (hx.onlyOn h)
    exact hr.onlyOn hl List.mem_cons_self

theorem Represents.unlink (hr : k.Represents s) (hl : s h = some l) (hx : x ∈ l) :
    (k.join (k.prev x) (k.next x)).Represents (Function.update s h (some (l.erase x))) := by
  have hd := hr.nodup hl
  have hring := hr.rings hl
  have hmem : x ∈ h :: l := List.mem_cons_of_mem h hx
  have hsub : (h :: l.erase x).Sublist (h :: l) := (List.erase_sublist).cons_cons h
  apply hr.update _ (hd.sublist hsub)
  · intro a ha
    exact hr.onlyOn hl (hsub.subset ha)
  · apply (hr.ringsBut h).join
    · exact hr.onlyOn hl (hring.prev_mem hmem)
    · exact hr.onlyOn hl (hring.next_mem hmem)
  · obtain ⟨l₁, l₂, hx₁, rfl, herase⟩ := List.exists_erase_eq hx
    rw [herase]
    exact hring.unlink hd

theorem Separate.free_erase (hs : Separate s) (hl : s h = some l) (hx : x ∈ l) :
    Free (Function.update s h (some (l.erase x))) x := by
  have hd := List.nodup_cons.mp (hs.nodup hl)
  intro h' l' hl'
  rcases cases_of_update hl' with ⟨rfl, rfl⟩ | ⟨hh, hl'⟩
  · rw [List.mem_cons, not_or]
    constructor
    · exact ne_of_mem_of_not_mem hx hd.1
    · exact hd.2.not_mem_erase
  · exact hs.onlyOn hl (List.mem_cons_of_mem h hx) h' l' hl' hh

/-- Erasing a cell everywhere is erasing it from its own ring. -/
theorem Separate.map_erase (hs : Separate s) (hl : s h = some l) (hx : x ∈ l) :
    (fun h' => (s h').map (·.erase x)) = Function.update s h (some (l.erase x)) := by
  funext h'
  by_cases hh : h' = h
  · subst hh
    rw [hl, Function.update_self, Option.map_some]
  · rw [Function.update_of_ne hh]
    cases hl' : s h' with
    | none => rfl
    | some l' =>
      have hx' := hs.onlyOn hl (List.mem_cons_of_mem h hx) h' l' hl' hh
      rw [Option.map_some, List.erase_of_not_mem fun hmem => hx' (List.mem_cons_of_mem h' hmem)]

theorem Represents.setNext (hr : k.Represents s) (hx : Free s x) :
    (k.setNext x b).Represents s where
  toSeparate := hr.toSeparate
  rings hl := (hr.rings hl).setNext (hx _ _ hl)

theorem Represents.setPrev (hr : k.Represents s) (hx : Free s x) :
    (k.setPrev x b).Represents s where
  toSeparate := hr.toSeparate
  rings hl := (hr.rings hl).setPrev (hx _ _ hl)

end Changes

end Links

end TomatOS.Foundation
