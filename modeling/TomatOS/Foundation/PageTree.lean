import Mathlib.Data.List.Induction
import Mathlib.Logic.Function.Basic
import Mathlib.Order.Basic
import Mathlib.Data.Nat.Basic

/-! Trees of tables held in a memory. A table maps indices to entries and an entry
may link to another table; a path of indices is resolved from the root. Slots of the
root may be shared, in which case the tables form a graph and two paths that differ
only in a shared slot lead to the same table. Where tables are separate apart from
that, writing an entry of a bottom table changes that entry alone, and linking an
unused cleared table changes no entry that is there. -/

namespace TomatOS.Foundation.PageTree

variable {F I E : Type*}

/-- Follow a path of indices from a table. -/
def resolve (link : E → Option F) (mem : F → I → E) (root : F) (path : List I) : Option F :=
  path.foldlM (fun table index => link (mem table index)) root

variable {link : E → Option F} {mem mem' : F → I → E} {root : F}

@[simp] theorem resolve_nil : resolve link mem root [] = some root := rfl

theorem resolve_cons (i : I) (p : List I) :
    resolve link mem root (i :: p) =
      (link (mem root i)).bind fun table => resolve link mem table p := by
  rw [resolve, List.foldlM_cons]
  rfl

theorem resolve_snoc (p : List I) (i : I) :
    resolve link mem root (p ++ [i]) =
      (resolve link mem root p).bind fun table => link (mem table i) := by
  simp only [resolve, List.foldlM_append, List.foldlM_cons, List.foldlM_nil, bind_pure]
  rfl

/-- Two memories that agree on the links a path goes through. -/
theorem resolve_congr {p : List I}
    (h : ∀ q i, q ++ [i] <+: p → ∀ table, resolve link mem root q = some table →
      link (mem' table i) = link (mem table i)) :
    resolve link mem' root p = resolve link mem root p := by
  induction p using List.reverseRecOn with
  | nil => rfl
  | append_singleton p i ih =>
    have hp : resolve link mem' root p = resolve link mem root p :=
      ih fun q j hq => h q j (hq.trans (List.prefix_append p [i]))
    rw [resolve_snoc, resolve_snoc, hp]
    rcases hr : resolve link mem root p with _ | table
    · rfl
    · exact h p i (List.prefix_refl _) table hr

/-! ### Shared slots of the root -/

/-- The path with its first index replaced by the slot it is shared with. -/
def canon (share : I → I) : List I → List I
  | [] => []
  | i :: p => share i :: p

variable {share : I → I}

@[simp] theorem canon_length (p : List I) : (canon share p).length = p.length := by
  cases p <;> rfl

theorem canon_eq_nil {p : List I} (h : canon share p = []) : p = [] := by
  cases p with
  | nil => rfl
  | cons i p => cases h

theorem canon_snoc {p : List I} (hp : p ≠ []) (i : I) :
    canon share (p ++ [i]) = canon share p ++ [i] := by
  cases p with
  | nil => exact absurd rfl hp
  | cons j p => rfl

/-- Tables down to depth `n` are separate up to sharing, and in use. -/
structure Linked (n : ℕ) (link : E → Option F) (share : I → I) (used : F → Prop)
    (mem : F → I → E) (root : F) : Prop where
  idem : ∀ i, share (share i) = share i
  shared : ∀ i, link (mem root i) = link (mem root (share i))
  separate : ∀ p q table, p.length ≤ n → q.length ≤ n → resolve link mem root p = some table →
    resolve link mem root q = some table → canon share p = canon share q
  used : ∀ p table, p.length ≤ n → resolve link mem root p = some table → used table

variable {n : ℕ} {used : F → Prop}

namespace Linked

theorem resolve_canon (h : Linked n link share used mem root) (p : List I) :
    resolve link mem root (canon share p) = resolve link mem root p := by
  cases p with
  | nil => rfl
  | cons i p =>
    rw [canon, resolve_cons, resolve_cons, h.shared i]

theorem resolve_eq_of_canon (h : Linked n link share used mem root) {p q : List I}
    (hpq : canon share p = canon share q) :
    resolve link mem root p = resolve link mem root q := by
  rw [← h.resolve_canon p, hpq, h.resolve_canon q]

/-- Only the empty path leads to the root. -/
theorem eq_nil_of_root (h : Linked n link share used mem root) {p : List I} (hp : p.length ≤ n)
    (hr : resolve link mem root p = some root) : p = [] :=
  canon_eq_nil (h.separate p [] root hp (Nat.zero_le n) hr rfl)

end Linked

/-- A cleared root alone. -/
theorem linked_root {zero : E} (hz : link zero = none) (hmem : ∀ i, mem root i = zero)
    (hused : used root) : Linked n link id used mem root := by
  have hnone : ∀ i q, resolve link mem root (i :: q) = none := by
    intro i q
    rw [resolve_cons, hmem, hz]
    rfl
  refine ⟨fun _ => rfl, fun _ => rfl, fun p q t _ _ h1 h2 => ?_, fun q t _ ht => ?_⟩
  · cases p with
    | nil =>
      cases q with
      | nil => rfl
      | cons i q => rw [hnone] at h2; cases h2
    | cons i p => rw [hnone] at h1; cases h1
  · cases q with
    | nil => exact Option.some.inj ht ▸ hused
    | cons i q => rw [hnone] at ht; cases ht

/-- The entry at the end of a path, if its table exists and it is a link. -/
def leaf (link : E → Option F) (mem : F → I → E) (root : F) (path : List I) (i : I) : Option E :=
  (resolve link mem root path).bind fun table =>
    if (link (mem table i)).isSome then some (mem table i) else none

theorem leaf_of_resolve {p : List I} {table : F} (h : resolve link mem root p = some table)
    (i : I) : leaf link mem root p i =
      if (link (mem table i)).isSome then some (mem table i) else none := by
  rw [leaf, h]
  rfl

/-- The entries met along a path of links, the last one included. -/
def trail (link : E → Option F) (mem : F → I → E) : F → List I → Option (List E)
  | _, [] => some []
  | table, i :: p =>
    (link (mem table i)).bind fun next => (trail link mem next p).map (mem table i :: ·)

/-- The first entry is one of the root. -/
theorem mem_trail {i : I} {p : List I} {es : List E} (h : trail link mem root (i :: p) = some es) :
    mem root i ∈ es := by
  rw [trail] at h
  obtain ⟨table, -, h⟩ := Option.bind_eq_some_iff.mp h
  obtain ⟨rest, -, rfl⟩ := Option.map_eq_some_iff.mp h
  exact List.mem_cons_self

/-- Two memories that agree on the entries met. -/
theorem trail_congr {p : List I}
    (h : ∀ q i, q ++ [i] <+: p → ∀ table, resolve link mem root q = some table →
      mem' table i = mem table i) : trail link mem' root p = trail link mem root p := by
  induction p generalizing root with
  | nil => rfl
  | cons i p ih =>
    rw [trail, trail, h [] i ⟨p, rfl⟩ root rfl]
    rcases hl : link (mem root i) with _ | next
    · rfl
    · rw [Option.bind_some, Option.bind_some, ih fun q j hq table ht => ?_]
      refine h (i :: q) j ?_ table ?_
      · rw [List.cons_append]
        exact List.prefix_cons_inj i |>.mpr hq
      · rw [resolve_cons, hl]
        exact ht

/-- The entries met on the way to one that is there are links of tables on the way. -/
theorem trail_of_leaf {p : List I} {i : I} {e : E} (h : leaf link mem root p i = some e) :
    ∃ es, trail link mem root (p ++ [i]) = some (es ++ [e]) ∧
      ∀ e' ∈ es, ∃ q j table, q.length < p.length ∧ resolve link mem root q = some table ∧
        mem table j = e' ∧ (link e').isSome := by
  induction p generalizing root with
  | nil =>
    rw [leaf, resolve_nil, Option.bind_some] at h
    split_ifs at h with hsome
    obtain ⟨next, hnext⟩ := Option.isSome_iff_exists.mp hsome
    obtain rfl := Option.some.inj h
    exact ⟨[], by simp [trail, hnext], fun e' he' => by cases he'⟩
  | cons j p ih =>
    rw [leaf, resolve_cons] at h
    rcases hl : link (mem root j) with _ | next
    · rw [hl] at h
      cases h
    rw [hl] at h
    obtain ⟨es, htrail, hes⟩ := ih h
    refine ⟨mem root j :: es, ?_, fun e' he' => ?_⟩
    · rw [List.cons_append, trail, hl, Option.bind_some, htrail]
      rfl
    · rcases List.mem_cons.mp he' with rfl | he'
      · exact ⟨[], j, root, by simp, rfl, rfl, by rw [hl]; rfl⟩
      · obtain ⟨q, j', table, hlen, hr, hm, hsome⟩ := hes e' he'
        refine ⟨j :: q, j', table, by simpa using hlen, ?_, hm, hsome⟩
        rw [resolve_cons, hl]
        exact hr

/-- Memory outside the tables in use does not matter. -/
theorem Linked.resolve_unused (h : Linked n link share used mem root)
    (hmem : ∀ t, used t → mem' t = mem t) {q : List I} (hq : q.length ≤ n) :
    resolve link mem' root q = resolve link mem root q := by
  apply resolve_congr
  intro r j hrj t ht
  have hlen : r.length + 1 ≤ q.length := by simpa using hrj.length_le
  rw [hmem t (h.used r t (by omega) ht)]

theorem Linked.of_unused (h : Linked n link share used mem root)
    (hmem : ∀ t, used t → mem' t = mem t) : Linked n link share used mem' root := by
  have hroot : mem' root = mem root := hmem root (h.used [] root (Nat.zero_le n) rfl)
  refine ⟨h.idem, fun j => ?_, fun p q t hp hq h1 h2 => ?_, fun q t hq ht => ?_⟩
  · rw [hroot]
    exact h.shared j
  · rw [h.resolve_unused hmem hp] at h1
    rw [h.resolve_unused hmem hq] at h2
    exact h.separate p q t hp hq h1 h2
  · rw [h.resolve_unused hmem hq] at ht
    exact h.used q t hq ht

theorem Linked.leaf_unused (h : Linked n link share used mem root)
    (hmem : ∀ t, used t → mem' t = mem t) {q : List I} (hq : q.length ≤ n) (j : I) :
    leaf link mem' root q j = leaf link mem root q j := by
  have hres := h.resolve_unused hmem hq
  rcases hr : resolve link mem root q with _ | t
  · rw [hr] at hres
    rw [leaf, leaf, hres, hr]
    rfl
  · rw [hr] at hres
    rw [leaf_of_resolve hres, leaf_of_resolve hr, hmem t (h.used q t hq hr)]

/-! ### Writing an entry -/

variable [DecidableEq F] [DecidableEq I]

def write (mem : F → I → E) (table : F) (i : I) (e : E) : F → I → E :=
  Function.update mem table (Function.update (mem table) i e)

theorem write_apply (mem : F → I → E) (table : F) (i : I) (e : E) (t : F) (j : I) :
    write mem table i e t j = if t = table ∧ j = i then e else mem t j := by
  by_cases ht : t = table
  · subst ht
    by_cases hj : j = i
    · simp [write, hj]
    · simp [write, hj]
  · simp [write, ht]

theorem write_of_ne {t table : F} (h : t ≠ table) (i : I) (e : E) (j : I) :
    write mem table i e t j = mem t j := by
  rw [write_apply, if_neg fun hh => h hh.1]

/-- A write to a bottom table leaves every table where it was. -/
theorem Linked.resolve_write (h : Linked n link share used mem root) {p : List I}
    (hp : p.length = n) {table : F} (hr : resolve link mem root p = some table) (i : I) (e : E)
    {q : List I} (hq : q.length ≤ n) :
    resolve link (write mem table i e) root q = resolve link mem root q := by
  apply resolve_congr
  intro r j hrj t ht
  have hlen : r.length + 1 ≤ q.length := by simpa using hrj.length_le
  have hne : t ≠ table := by
    rintro rfl
    have hc := h.separate r p t (by omega) (by omega) ht hr
    have hc' := congrArg List.length hc
    simp only [canon_length] at hc'
    omega
  rw [write_of_ne hne]

theorem Linked.writeBottom (h : Linked n link share used mem root) {p : List I} (hp : p.length = n)
    (hn : 0 < n) {table : F} (hr : resolve link mem root p = some table) (i : I) (e : E) :
    Linked n link share used (write mem table i e) root := by
  have hroot : root ≠ table := by
    rintro rfl
    have := h.eq_nil_of_root (by omega) hr
    rw [this] at hp
    simp only [List.length_nil] at hp
    omega
  refine ⟨h.idem, fun j => ?_, fun p' q t hp' hq h1 h2 => ?_, fun q t hq hq' => ?_⟩
  · rw [write_of_ne hroot, write_of_ne hroot]
    exact h.shared j
  · rw [h.resolve_write hp hr i e hp'] at h1
    rw [h.resolve_write hp hr i e hq] at h2
    exact h.separate p' q t hp' hq h1 h2
  · rw [h.resolve_write hp hr i e hq] at hq'
    exact h.used q t hq hq'

/-- Among the entries of the bottom tables a write changes the one it writes, as
seen from every path that shares its table. -/
theorem Linked.leaf_write (h : Linked n link share used mem root) {p : List I}
    (hp : p.length = n) {table : F} (hr : resolve link mem root p = some table) (i : I) (e : E)
    {q : List I} (hq : q.length = n) (j : I) :
    leaf link (write mem table i e) root q j =
      if canon share q = canon share p ∧ j = i then (if (link e).isSome then some e else none)
      else leaf link mem root q j := by
  have hres := h.resolve_write hp hr i e (le_of_eq hq)
  by_cases hc : canon share q = canon share p
  · have hq' : resolve link mem root q = some table := by rw [h.resolve_eq_of_canon hc, hr]
    rw [hq'] at hres
    rw [leaf_of_resolve hres, leaf_of_resolve hq', write_apply]
    by_cases hj : j = i
    · simp [hc, hj]
    · simp [hj]
  · rw [if_neg fun hh => hc hh.1]
    rcases hq' : resolve link mem root q with _ | t
    · rw [hq'] at hres
      rw [leaf, leaf, hres, hq']
      rfl
    · have hne : t ≠ table := by
        rintro rfl
        exact hc (h.separate q p t (le_of_eq hq) (le_of_eq hp) hq' hr)
      rw [hq'] at hres
      rw [leaf_of_resolve hres, leaf_of_resolve hq', write_of_ne hne]

/-! ### Linking a new table -/

/-- Clear an unused table and link it. -/
def linkNew (mem : F → I → E) (zero : E) (fresh table : F) (i : I) (e : E) : F → I → E :=
  write (Function.update mem fresh fun _ => zero) table i e

variable {zero : E} {fresh table : F} {p : List I} {i : I} {e : E}

theorem linkNew_apply (hne : fresh ≠ table) (t : F) (j : I) :
    linkNew mem zero fresh table i e t j =
      if t = table ∧ j = i then e else if t = fresh then zero else mem t j := by
  rw [linkNew, write_apply]
  by_cases ht : t = fresh
  · simp [ht, hne]
  · simp [ht]

theorem linkNew_fresh (hne : fresh ≠ table) (j : I) :
    linkNew mem zero fresh table i e fresh j = zero := by
  rw [linkNew_apply hne, if_neg fun hh => hne hh.1, if_pos rfl]

theorem linkNew_of_ne (hne : fresh ≠ table) {t : F} (h1 : t ≠ table) (h2 : t ≠ fresh) (j : I) :
    linkNew mem zero fresh table i e t j = mem t j := by
  rw [linkNew_apply hne, if_neg fun hh => h1 hh.1, if_neg h2]

/-- The situation in which a table is linked: the slot is free, the new table is
not in use, and a slot of the root is linked only while it is not shared. -/
structure LinkAt (n : ℕ) (link : E → Option F) (share : I → I) (used : F → Prop)
    (mem : F → I → E) (root : F) (zero : E) (fresh table : F) (p : List I) (i : I) (e : E) :
    Prop where
  linked : Linked n link share used mem root
  depth : p.length < n
  found : resolve link mem root p = some table
  free : link (mem table i) = none
  unshared : p = [] → ∀ j, share j = share i → j = i
  unused : ¬ used fresh
  zero : link zero = none
  entry : link e = some fresh

namespace LinkAt

omit [DecidableEq F] [DecidableEq I] in
theorem fresh_ne (h : LinkAt n link share used mem root zero fresh table p i e) {q : List I}
    (hq : q.length ≤ n) {t : F} (ht : resolve link mem root q = some t) : t ≠ fresh := by
  rintro rfl
  exact h.unused (h.linked.used q t hq ht)

omit [DecidableEq F] [DecidableEq I] in
theorem fresh_ne_table (h : LinkAt n link share used mem root zero fresh table p i e) :
    fresh ≠ table := (h.fresh_ne (le_of_lt h.depth) h.found).symm

omit [DecidableEq F] [DecidableEq I] in
/-- Paths that name the slot being linked. -/
theorem canon_snoc_eq (h : LinkAt n link share used mem root zero fresh table p i e) {q : List I}
    {j : I} (hc : canon share (q ++ [j]) = canon share (p ++ [i])) :
    canon share q = canon share p ∧ j = i := by
  have hlen := congrArg List.length hc
  simp only [canon_length, List.length_append, List.length_singleton] at hlen
  by_cases hp : p = []
  · subst hp
    have hq : q = [] := List.eq_nil_of_length_eq_zero (by simpa using hlen)
    subst hq
    simp only [List.nil_append, canon, List.cons.injEq, and_true] at hc
    exact ⟨rfl, h.unshared rfl j hc⟩
  · have hq : q ≠ [] := by
      rintro rfl
      exact hp (List.eq_nil_of_length_eq_zero (by simpa using hlen.symm))
    rw [canon_snoc hp, canon_snoc hq] at hc
    obtain ⟨h1, h2⟩ := List.append_inj' hc rfl
    exact ⟨h1, by simpa using h2⟩

/-- Where paths lead after the link. -/
theorem resolve_linkNew (h : LinkAt n link share used mem root zero fresh table p i e)
    {q : List I} (hq : q.length ≤ n) :
    resolve link (linkNew mem zero fresh table i e) root q =
      if canon share q = canon share (p ++ [i]) then some fresh else resolve link mem root q := by
  induction q using List.reverseRecOn with
  | nil =>
    rw [if_neg]
    · rfl
    · intro hc
      have hlen := congrArg List.length hc
      simp at hlen
  | append_singleton q j ih =>
    have hlen : q.length + 1 ≤ n := by simpa using hq
    have hq' := ih (by omega)
    rw [resolve_snoc, resolve_snoc, hq']
    by_cases hc : canon share q = canon share (p ++ [i])
    · -- below the new table there is nothing, and there was nothing
      have hold : resolve link mem root q = none := by
        rw [h.linked.resolve_eq_of_canon hc, resolve_snoc, h.found]
        exact h.free
      have hne : canon share (q ++ [j]) ≠ canon share (p ++ [i]) := by
        intro hc'
        have h1 := congrArg List.length hc
        have h2 := congrArg List.length hc'
        simp only [canon_length, List.length_append, List.length_singleton] at h1 h2
        omega
      rw [if_pos hc, if_neg hne, hold]
      simp only [Option.bind_some, Option.bind_none]
      rw [linkNew_fresh h.fresh_ne_table, h.zero]
    · rw [if_neg hc]
      rcases hr : resolve link mem root q with _ | t
      · rw [if_neg]
        · rfl
        · intro hc'
          have := h.linked.resolve_eq_of_canon (h.canon_snoc_eq hc').1
          rw [hr, h.found] at this
          cases this
      · have hfresh : t ≠ fresh := h.fresh_ne (by omega) hr
        simp only [Option.bind_some]
        rw [linkNew_apply h.fresh_ne_table, if_neg hfresh]
        by_cases htj : t = table ∧ j = i
        · obtain ⟨rfl, rfl⟩ := htj
          have hqp := h.linked.separate q p t (by omega) (le_of_lt h.depth) hr h.found
          have hc' : canon share (q ++ [j]) = canon share (p ++ [j]) := by
            by_cases hp : p = []
            · subst hp
              rw [canon_eq_nil hqp]
            · have hqne : q ≠ [] := by
                rintro rfl
                exact hp (canon_eq_nil hqp.symm)
              rw [canon_snoc hp, canon_snoc hqne, hqp]
          rw [if_pos ⟨rfl, rfl⟩, if_pos hc', h.entry]
        · rw [if_neg htj, if_neg]
          intro hc'
          obtain ⟨hqp, rfl⟩ := h.canon_snoc_eq hc'
          have := h.linked.resolve_eq_of_canon hqp
          rw [hr, h.found] at this
          exact htj ⟨Option.some.inj this, rfl⟩

/-- The new table is where it was linked. -/
theorem resolve_new (h : LinkAt n link share used mem root zero fresh table p i e) :
    resolve link (linkNew mem zero fresh table i e) root (p ++ [i]) = some fresh := by
  have hlen : (p ++ [i]).length ≤ n := by
    have := h.depth
    simp only [List.length_append, List.length_singleton]
    omega
  rw [h.resolve_linkNew hlen, if_pos rfl]

/-- Tables stay where they are. -/
theorem resolve_mono (h : LinkAt n link share used mem root zero fresh table p i e) {q : List I}
    (hq : q.length ≤ n) {t : F} (ht : resolve link mem root q = some t) :
    resolve link (linkNew mem zero fresh table i e) root q = some t := by
  rw [h.resolve_linkNew hq, if_neg, ht]
  intro hc
  rw [h.linked.resolve_eq_of_canon hc, resolve_snoc, h.found] at ht
  rw [show (some table).bind _ = link (mem table i) from rfl, h.free] at ht
  cases ht

theorem linked_linkNew (h : LinkAt n link share used mem root zero fresh table p i e) :
    Linked n link share (fun t => t = fresh ∨ used t) (linkNew mem zero fresh table i e) root := by
  have hnil : ([] : List I).length ≤ n := Nat.zero_le n
  have hroot : root ≠ fresh := h.fresh_ne hnil rfl
  refine ⟨h.linked.idem, fun j => ?_, fun p' q t hp' hq h1 h2 => ?_, fun q t hq ht => ?_⟩
  · rw [linkNew_apply h.fresh_ne_table, linkNew_apply h.fresh_ne_table, if_neg hroot, if_neg hroot]
    by_cases ht : root = table
    · -- a slot of the root is linked, and it is the only one of its class
      have hp : p = [] := h.linked.eq_nil_of_root (le_of_lt h.depth) (ht ▸ h.found)
      have hself : share i = i := h.unshared hp (share i) (h.linked.idem i)
      by_cases hj : j = i
      · subst hj
        rw [hself]
      · have hsj : share j ≠ i := by
          intro hs
          exact hj (h.unshared hp j (by rw [hself, hs]))
        simp only [hj, hsj, and_false, if_false]
        exact h.linked.shared j
    · simp only [ht, false_and, if_false]
      exact h.linked.shared j
  · rw [h.resolve_linkNew hp'] at h1
    rw [h.resolve_linkNew hq] at h2
    split_ifs at h1 h2 with hc1 hc2 hc2
    · rw [hc1, hc2]
    · exact absurd (Option.some.inj h1).symm (h.fresh_ne hq h2)
    · exact absurd (Option.some.inj h2).symm (h.fresh_ne hp' h1)
    · exact h.linked.separate p' q t hp' hq h1 h2
  · rw [h.resolve_linkNew hq] at ht
    split_ifs at ht
    · exact Or.inl (Option.some.inj ht).symm
    · exact Or.inr (h.linked.used q t hq ht)

/-- No entry of a bottom table appears, disappears or changes. -/
theorem leaf_linkNew (h : LinkAt n link share used mem root zero fresh table p i e) {q : List I}
    (hq : q.length = n) (j : I) :
    leaf link (linkNew mem zero fresh table i e) root q j = leaf link mem root q j := by
  have hres := h.resolve_linkNew (le_of_eq hq)
  by_cases hc : canon share q = canon share (p ++ [i])
  · rw [if_pos hc] at hres
    have hold : resolve link mem root q = none := by
      rw [h.linked.resolve_eq_of_canon hc, resolve_snoc, h.found]
      exact h.free
    rw [leaf_of_resolve hres, leaf, hold, linkNew_fresh h.fresh_ne_table, h.zero]
    rfl
  · rw [if_neg hc] at hres
    rcases hr : resolve link mem root q with _ | t
    · rw [hr] at hres
      rw [leaf, leaf, hres, hr]
      rfl
    · have hne : t ≠ table := by
        rintro rfl
        have hlen := congrArg List.length
          (h.linked.separate q p t (le_of_eq hq) (le_of_lt h.depth) hr h.found)
        have := h.depth
        simp only [canon_length] at hlen
        omega
      rw [hr] at hres
      rw [leaf_of_resolve hres, leaf_of_resolve hr,
        linkNew_of_ne h.fresh_ne_table hne (h.fresh_ne (le_of_eq hq) hr)]

end LinkAt

/-! ### Sharing a slot -/

/-- Slot `b` of the root becomes a copy of slot `a`, both shared with no other. -/
structure ShareAt (n : ℕ) (link : E → Option F) (share : I → I) (used : F → Prop)
    (mem : F → I → E) (root : F) (a b : I) (e : E) : Prop where
  linked : Linked n link share used mem root
  ne : a ≠ b
  left : ∀ j, share j = a ↔ j = a
  right : ∀ j, share j = b ↔ j = b
  entry : link e = link (mem root a)

/-- The path read through the copied slot. -/
def through (a b : I) : List I → List I
  | [] => []
  | i :: p => (if i = b then a else i) :: p

omit [DecidableEq F] in
@[simp] theorem through_length (a b : I) (p : List I) : (through a b p).length = p.length := by
  cases p <;> rfl

namespace ShareAt

variable {a b : I}

theorem resolve_share (h : ShareAt n link share used mem root a b e) {q : List I}
    (hq : q.length ≤ n) :
    resolve link (write mem root b e) root q = resolve link mem root (through a b q) := by
  cases q with
  | nil => rfl
  | cons j q =>
    rw [through, resolve_cons, resolve_cons]
    have hfirst : link (write mem root b e root j) = link (mem root (if j = b then a else j)) := by
      rw [write_apply]
      by_cases hj : j = b
      · simp [hj, h.entry]
      · simp [hj]
    rw [hfirst]
    rcases hl : link (mem root (if j = b then a else j)) with _ | t
    · rfl
    · -- below the root no path comes back to it
      apply resolve_congr
      intro r k hrk u hu
      have hlen : r.length + 1 ≤ q.length := by simpa using hrk.length_le
      have hne : u ≠ root := by
        rintro rfl
        have hback : resolve link mem u ((if j = b then a else j) :: r) = some u := by
          rw [resolve_cons, hl]
          exact hu
        have hle : ((if j = b then a else j) :: r).length ≤ n := by
          simp only [List.length_cons] at hq ⊢
          omega
        cases h.linked.eq_nil_of_root hle hback
      rw [write_of_ne hne]

/-- Entries of the bottom tables are those that were there. -/
theorem leaf_share (h : ShareAt n link share used mem root a b e) (hn : 0 < n) {q : List I}
    (hq : q.length = n) (j : I) :
    leaf link (write mem root b e) root q j = leaf link mem root (through a b q) j := by
  have hres := h.resolve_share (le_of_eq hq)
  rcases hr : resolve link mem root (through a b q) with _ | t
  · rw [hr] at hres
    rw [leaf, leaf, hres, hr]
    rfl
  · have hne : t ≠ root := by
      rintro rfl
      have hnil := h.linked.eq_nil_of_root (by rw [through_length, hq]) hr
      have hlen := congrArg List.length hnil
      rw [through_length, hq, List.length_nil] at hlen
      omega
    rw [hr] at hres
    rw [leaf_of_resolve hres, leaf_of_resolve hr, write_of_ne hne]

omit [DecidableEq F] in
theorem canon_share (h : ShareAt n link share used mem root a b e) (q : List I) :
    canon (Function.update share b a) q = canon share (through a b q) := by
  cases q with
  | nil => rfl
  | cons j q =>
    by_cases hj : j = b
    · simp [canon, through, hj, (h.left a).mpr rfl]
    · simp [canon, through, hj]

theorem linked_share (h : ShareAt n link share used mem root a b e) :
    Linked n link (Function.update share b a) used (write mem root b e) root := by
  have hsa : share a = a := (h.left a).mpr rfl
  refine ⟨fun j => ?_, fun j => ?_, fun p q t hp hq h1 h2 => ?_, fun q t hq ht => ?_⟩
  · by_cases hj : j = b
    · rw [hj, Function.update_self, Function.update_of_ne h.ne, hsa]
    · have hsj : share j ≠ b := fun hs => hj ((h.right j).mp hs)
      rw [Function.update_of_ne hj, Function.update_of_ne hsj, h.linked.idem]
  · by_cases hj : j = b
    · rw [hj, Function.update_self, write_apply, write_apply, if_pos ⟨rfl, rfl⟩,
        if_neg fun hh => h.ne hh.2, h.entry]
    · have hsj : share j ≠ b := fun hs => hj ((h.right j).mp hs)
      rw [Function.update_of_ne hj, write_apply, write_apply, if_neg fun hh => hj hh.2,
        if_neg fun hh => hsj hh.2]
      exact h.linked.shared j
  · rw [h.resolve_share hp] at h1
    rw [h.resolve_share hq] at h2
    rw [h.canon_share, h.canon_share]
    exact h.linked.separate _ _ t (by simpa using hp) (by simpa using hq) h1 h2
  · rw [h.resolve_share hq] at ht
    exact h.linked.used _ t (by simpa using hq) ht

end ShareAt

end TomatOS.Foundation.PageTree
