import Mathlib.Data.List.SplitBy

/-! The maximal runs of a list: its longest segments of consecutive elements that
all satisfy a predicate and whose neighbours are linked. What reading one more
element does to them is what a single pass over the list has to keep track of. -/

namespace TomatOS.Foundation.Runs

variable {α : Type*} (p : α → Bool) (r : α → α → Bool)

/-- Both are in a run, and the same one. -/
def joins (a b : α) : Bool := p a && p b && r a b

def runs (l : List α) : List (List α) := (l.splitBy (joins p r)).filter (·.all p)

variable {p r} {l : List α} {x e : α}

@[simp] theorem runs_nil : runs p r [] = [] := rfl

theorem joins_eq_true : joins p r x e = true ↔ p x = true ∧ p e = true ∧ r x e = true := by
  simp [joins, and_assoc]

/-- In a chain of joined elements the predicate holds throughout once it holds of the
last one. -/
theorem all_of_isChain {g : List α} (h : g.IsChain fun a b => joins p r a b = true)
    (hl : ∀ x ∈ g.getLast?, p x = true) : g.all p = true := by
  induction g with
  | nil => rfl
  | cons a g ih =>
    cases g with
    | nil => simpa using hl
    | cons b g =>
      rw [List.isChain_cons_cons] at h
      rw [List.all_cons, (joins_eq_true.mp h.1).1, Bool.true_and]
      exact ih h.2 (by simpa using hl)

/-- An element that starts a segment of its own. -/
theorem splitBy_concat_new (h : ∀ x ∈ l.getLast?, joins p r x e = false) :
    (l ++ [e]).splitBy (joins p r) = l.splitBy (joins p r) ++ [[e]] :=
  List.splitBy_append_cons [] h

theorem runs_concat_of_not (he : p e = false) : runs p r (l ++ [e]) = runs p r l := by
  unfold runs
  rw [splitBy_concat_new fun x _ => by simp [joins, he]]
  simp [he]

theorem runs_concat_new (he : p e = true) (h : ∀ x ∈ l.getLast?, joins p r x e = false) :
    runs p r (l ++ [e]) = runs p r l ++ [[e]] := by
  unfold runs
  rw [splitBy_concat_new h]
  simp [he]

/-- An element that goes on with the last segment. -/
theorem splitBy_concat_extend (hx : l.getLast? = some x) (h : joins p r x e = true) :
    ∃ gs g, l.splitBy (joins p r) = gs ++ [g] ∧ g.getLast? = some x ∧
      (l ++ [e]).splitBy (joins p r) = gs ++ [g ++ [e]] := by
  have hl : l ≠ [] := by
    rintro rfl
    cases hx
  have hs := List.splitBy_ne_nil (r := joins p r).mpr hl
  set g := (l.splitBy (joins p r)).getLast hs with hg
  set gs := (l.splitBy (joins p r)).dropLast
  have hsplit : l.splitBy (joins p r) = gs ++ [g] := (List.dropLast_append_getLast hs).symm
  have hgne : g ≠ [] := List.ne_nil_of_mem_splitBy (List.getLast_mem hs)
  have hlast : g.getLast? = some x := by
    rw [List.getLast?_eq_some_getLast hgne, List.getLast_getLast_splitBy _ hl,
      ← List.getLast?_eq_some_getLast hl, hx]
  obtain ⟨hflat, hnil, hchain, hsep⟩ := List.splitBy_eq_iff.mp hsplit
  refine ⟨gs, g, hsplit, hlast, List.splitBy_eq_iff.mpr ⟨?_, ?_, ?_, ?_⟩⟩
  · rw [hflat]
    simp
  · simp only [List.mem_append, List.mem_singleton, not_or] at hnil ⊢
    exact ⟨hnil.1, by simp⟩
  · intro m hm
    rcases List.mem_append.mp hm with hm | hm
    · exact hchain m (List.mem_append_left _ hm)
    · rw [List.mem_singleton.mp hm, List.isChain_append]
      refine ⟨hchain g (by simp), List.isChain_singleton e, ?_⟩
      intro y hy z hz
      rw [hlast] at hy
      cases hy
      cases hz
      exact h
  · rw [List.isChain_append] at hsep ⊢
    refine ⟨hsep.1, List.isChain_singleton _, ?_⟩
    intro y hy z hz
    cases hz
    obtain ⟨ha, _, hr⟩ := hsep.2.2 y hy g rfl
    exact ⟨ha, by simp, by rwa [List.head_append_of_ne_nil hgne]⟩

theorem runs_concat_extend (hx : l.getLast? = some x) (h : joins p r x e = true) :
    ∃ gs g, runs p r l = gs ++ [g] ∧ g.getLast? = some x ∧ runs p r (l ++ [e]) = gs ++ [g ++ [e]] := by
  obtain ⟨gs, g, hs, hlast, hs'⟩ := splitBy_concat_extend hx h
  obtain ⟨hpx, hpe, _⟩ := joins_eq_true.mp h
  have hg : g.all p = true := by
    apply all_of_isChain (List.isChain_of_mem_splitBy (hs ▸ List.mem_append_right _ (by simp)))
    intro y hy
    rw [hlast] at hy
    cases hy
    exact hpx
  refine ⟨gs.filter (·.all p), g, ?_, hlast, ?_⟩
  · rw [runs, hs, List.filter_append]
    simp [hg]
  · have hge : (g ++ [e]).all p = true := by
      rw [List.all_append, hg]
      simp [hpe]
    rw [runs, hs', List.filter_append]
    simp only [List.filter_cons, hge, ↓reduceIte, List.filter_nil]

theorem flatten_runs : (runs p r l).flatten = l.filter p := by
  induction l using List.reverseRecOn with
  | nil => rfl
  | append_singleton l e ih =>
    rw [List.filter_append, ← ih]
    cases he : p e with
    | false =>
      rw [runs_concat_of_not he]
      simp [he]
    | true =>
      by_cases h : ∃ x, l.getLast? = some x ∧ joins p r x e = true
      · obtain ⟨x, hx, hj⟩ := h
        obtain ⟨gs, g, hl, _, hle⟩ := runs_concat_extend hx hj
        rw [hl, hle]
        simp [he]
      · rw [runs_concat_new he fun x hx => Bool.eq_false_iff.mpr fun hj => h ⟨x, hx, hj⟩]
        simp [he]

theorem mem_runs {g : List α} (h : g ∈ runs p r l) :
    g ≠ [] ∧ g.IsChain (fun a b => r a b = true) ∧ ∀ x ∈ g, p x = true := by
  obtain ⟨hmem, hall⟩ := List.mem_filter.mp h
  refine ⟨List.ne_nil_of_mem_splitBy hmem, ?_, List.all_eq_true.mp hall⟩
  exact (List.isChain_of_mem_splitBy hmem).imp fun a b hab => (joins_eq_true.mp hab).2.2

end TomatOS.Foundation.Runs
