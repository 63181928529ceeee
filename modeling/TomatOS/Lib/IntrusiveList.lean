import TomatOS.Foundation.Ring

/-! The intrusive lists of `kernel/lib/list.h`, over the links of all their heads and
entries at once. An entry is deleted through its own links, without naming its list, so
what makes a deletion right is that no cell is on two lists. Every run of operations that
adds entries of no list and deletes entries of some list does to every list what the same
operations do to sequences. -/

namespace TomatOS.Lib.IntrusiveList

open Foundation Foundation.Links

def NULL : ℕ := 0

def listInit (head : ℕ) (k : Links ℕ) : Links ℕ := (k.setNext head head).setPrev head head

/-- `__list_add`. -/
def listAddBetween (new prev next : ℕ) (k : Links ℕ) : Links ℕ :=
  (((k.setPrev next new).setNext new next).setPrev new prev).setNext prev new

def listAdd (head new : ℕ) (k : Links ℕ) : Links ℕ := listAddBetween new head (k.next head) k

def listAddTail (head new : ℕ) (k : Links ℕ) : Links ℕ := listAddBetween new (k.prev head) head k

/-- `__list_del`. -/
def listDelBetween (prev next : ℕ) (k : Links ℕ) : Links ℕ := (k.setPrev next prev).setNext prev next

def listDel (entry : ℕ) (k : Links ℕ) : Links ℕ :=
  ((listDelBetween (k.prev entry) (k.next entry) k).setNext entry 0xdead000000000000).setPrev entry
    0xdead000010000000

def listIsEmpty (head : ℕ) (k : Links ℕ) : Bool := k.next head == head

/-- The entry that is returned, and the links after it. -/
def listPop (head : ℕ) (k : Links ℕ) : ℕ × Links ℕ :=
  if listIsEmpty head k then (NULL, k)
  else
    let entry := k.next head
    (entry, listDel entry k)

/-- The entries met from the head on until it comes round again. -/
def forward (head fuel : ℕ) (k : Links ℕ) : Option (List ℕ) := trail k.next head fuel (k.next head)

def backward (head fuel : ℕ) (k : Links ℕ) : Option (List ℕ) := trail k.prev head fuel (k.prev head)

inductive Op where
  | init (head : ℕ)
  | add (head new : ℕ)
  | addTail (head new : ℕ)
  | del (entry : ℕ)
  | pop (head : ℕ)

namespace Op

def exec : Op → Links ℕ → Links ℕ
  | init head, k => listInit head k
  | add head new, k => listAdd head new k
  | addTail head new, k => listAddTail head new k
  | del entry, k => listDel entry k
  | pop head, k => (listPop head k).2

/-- What the operation does to the sequences of all heads. -/
def sequences : Op → (ℕ → Option (List ℕ)) → ℕ → Option (List ℕ)
  | init head, s => Function.update s head (some [])
  | add head new, s => Function.update s head ((s head).map (new :: ·))
  | addTail head new, s => Function.update s head ((s head).map (· ++ [new]))
  | del entry, s => fun head => (s head).map (·.erase entry)
  | pop head, s => Function.update s head ((s head).map List.tail)

/-- Only heads that were initialised are named, only what is neither a head nor on a list
is added or becomes a head, and only what is on some list is deleted. -/
def Legal (s : ℕ → Option (List ℕ)) : Op → Prop
  | init head => Free s head
  | add head new => (s head).isSome ∧ Free s new ∧ new ≠ NULL
  | addTail head new => (s head).isSome ∧ Free s new ∧ new ≠ NULL
  | del entry => ∃ head l, s head = some l ∧ entry ∈ l
  | pop head => (s head).isSome

/-- The list an operation is about. -/
def IsOn (s : ℕ → Option (List ℕ)) (head : ℕ) : Op → Prop
  | init head' => head' = head
  | add head' _ => head' = head
  | addTail head' _ => head' = head
  | del entry => ∃ l, s head = some l ∧ entry ∈ l
  | pop head' => head' = head

end Op

/-- The links after a run. -/
def run (ops : List Op) (k : Links ℕ) : Links ℕ := ops.foldl (fun k op => op.exec k) k

def sequences (ops : List Op) (s : ℕ → Option (List ℕ)) : ℕ → Option (List ℕ) :=
  ops.foldl (fun s op => op.sequences s) s

def LegalRun : (ℕ → Option (List ℕ)) → List Op → Prop
  | _, [] => True
  | s, op :: ops => op.Legal s ∧ LegalRun (op.sequences s) ops

/-- No head is initialised yet. -/
def noLists : ℕ → Option (List ℕ) := fun _ => none

/-! ### What the functions do to the links -/

variable {k : Links ℕ} {s : ℕ → Option (List ℕ)} {head new entry prev next : ℕ} {l : List ℕ}
  {op : Op} {ops : List Op}

theorem listInit_eq_join : listInit head k = k.join head head := rfl

theorem listAddBetween_eq_join :
    listAddBetween new prev next k = (k.join new next).join prev new := rfl

theorem listDelBetween_eq_join : listDelBetween prev next k = k.join prev next := rfl

theorem listIsEmpty_iff (hr : k.IsRing head l) (hh : head ∉ l) :
    listIsEmpty head k = true ↔ l = [] := by
  rw [listIsEmpty, beq_iff_eq]
  cases l with
  | nil => simp [(isRing_nil_iff.mp hr).1]
  | cons x l =>
    have hx : x ≠ head := ne_of_mem_of_not_mem List.mem_cons_self hh
    rw [hr.next_head]
    simp [hx]

theorem listPop_nil (hr : k.IsRing head []) : listPop head k = (NULL, k) :=
  if_pos ((listIsEmpty_iff hr List.not_mem_nil).mpr rfl)

theorem listPop_cons (hr : k.IsRing head (entry :: l)) (hh : head ∉ entry :: l) :
    listPop head k = (entry, listDel entry k) := by
  rw [listPop, if_neg fun he => List.cons_ne_nil entry l ((listIsEmpty_iff hr hh).mp he),
    hr.next_head]

/-! ### One operation -/

/-- The lists in memory are those of the sequences, and no entry is at `NULL`. -/
structure Refines (k : Links ℕ) (s : ℕ → Option (List ℕ)) : Prop extends Represents k s where
  notNull : ∀ {head l}, s head = some l → NULL ∉ l

theorem notNull_update (hs : ∀ {head l}, s head = some l → NULL ∉ l) (hl : NULL ∉ l) :
    ∀ {head' l'}, Function.update s head (some l) head' = some l' → NULL ∉ l' := by
  intro head' l' hl'
  rcases cases_of_update hl' with ⟨rfl, rfl⟩ | ⟨-, hl'⟩
  · exact hl
  · exact hs hl'

theorem Refines.init (hr : Refines k s) (hh : Free s head) :
    Refines (listInit head k) (Function.update s head (some [])) where
  toRepresents := by
    rw [listInit_eq_join]
    exact hr.toRepresents.init hh
  notNull := notNull_update hr.notNull List.not_mem_nil

theorem Refines.add (hr : Refines k s) (hl : s head = some l) (hnew : Free s new)
    (hnull : new ≠ NULL) :
    Refines (listAdd head new k) (Function.update s head (some (new :: l))) where
  toRepresents := by
    rw [listAdd, listAddBetween_eq_join]
    exact hr.toRepresents.insert_front hl hnew
  notNull := notNull_update hr.notNull (by simp [hnull.symm, hr.notNull hl])

theorem Refines.addTail (hr : Refines k s) (hl : s head = some l) (hnew : Free s new)
    (hnull : new ≠ NULL) :
    Refines (listAddTail head new k) (Function.update s head (some (l ++ [new]))) where
  toRepresents := by
    rw [listAddTail, listAddBetween_eq_join]
    exact hr.toRepresents.insert_back hl hnew
  notNull := notNull_update hr.notNull (by simp [hnull.symm, hr.notNull hl])

/-- The links that the deleted entry is left with are on no list. -/
theorem Refines.del (hr : Refines k s) (hl : s head = some l) (hmem : entry ∈ l) :
    Refines (listDel entry k) (Function.update s head (some (l.erase entry))) where
  toRepresents := by
    have hfree := hr.free_erase hl hmem
    rw [listDel, listDelBetween_eq_join]
    exact ((hr.toRepresents.unlink hl hmem).setNext hfree).setPrev hfree
  notNull := notNull_update hr.notNull fun hnull => hr.notNull hl (List.mem_of_mem_erase hnull)

theorem Refines.pop (hr : Refines k s) (hl : s head = some l) :
    Refines (listPop head k).2 (Function.update s head (some l.tail)) := by
  have hring := hr.rings hl
  cases l with
  | nil =>
    rw [listPop_nil hring, List.tail_nil, ← hl, Function.update_eq_self]
    exact hr
  | cons entry l =>
    have hh := (List.nodup_cons.mp (hr.nodup hl)).1
    rw [listPop_cons hring hh, List.tail_cons]
    have hdel := hr.del hl List.mem_cons_self
    rwa [List.erase_cons_head] at hdel

/-- Every allowed operation does to the lists what it does to the sequences. -/
theorem Refines.exec (hr : Refines k s) (hop : op.Legal s) :
    Refines (op.exec k) (op.sequences s) := by
  cases op with
  | init head => exact hr.init hop
  | add head new =>
    obtain ⟨l, hl⟩ := Option.isSome_iff_exists.mp hop.1
    rw [Op.sequences, hl]
    exact hr.add hl hop.2.1 hop.2.2
  | addTail head new =>
    obtain ⟨l, hl⟩ := Option.isSome_iff_exists.mp hop.1
    rw [Op.sequences, hl]
    exact hr.addTail hl hop.2.1 hop.2.2
  | del entry =>
    obtain ⟨head, l, hl, hmem⟩ := hop
    rw [Op.sequences, hr.map_erase hl hmem]
    exact hr.del hl hmem
  | pop head =>
    obtain ⟨l, hl⟩ := Option.isSome_iff_exists.mp hop
    rw [Op.sequences, hl]
    exact hr.pop hl

/-- The other sequences stay. -/
theorem Op.sequences_of_not_isOn (hl : s head = some l) (hop : ¬ op.IsOn s head) :
    op.sequences s head = some l := by
  cases op with
  | del entry =>
    have hmem : entry ∉ l := fun hmem => hop ⟨l, hl, hmem⟩
    show (s head).map (·.erase entry) = some l
    rw [hl, Option.map_some, List.erase_of_not_mem hmem]
  | _ =>
    rw [Op.sequences, Function.update_of_ne (fun hh => hop hh.symm)]
    exact hl

/-! ### Whole runs -/

theorem noLists_free (a : ℕ) : Free noLists a := fun _ _ hl => nomatch hl

theorem noLists_refines (k : Links ℕ) : Refines k noLists where
  nodup hl := nomatch hl
  onlyOn hl := nomatch hl
  rings hl := nomatch hl
  notNull hl := nomatch hl

theorem Refines.run (hr : Refines k s) (hops : LegalRun s ops) :
    Refines (run ops k) (sequences ops s) := by
  induction ops generalizing k s with
  | nil => exact hr
  | cons op ops ih => exact ih (hr.exec hops.1) hops.2

theorem Refines.forward_eq (hr : Refines k s) (hl : s head = some l) {fuel : ℕ}
    (hfuel : l.length ≤ fuel) : forward head fuel k = some l :=
  (hr.rings hl).trail_next (List.nodup_cons.mp (hr.nodup hl)).1 hfuel

theorem Refines.backward_eq (hr : Refines k s) (hl : s head = some l) {fuel : ℕ}
    (hfuel : l.length ≤ fuel) : backward head fuel k = some l.reverse :=
  (hr.rings hl).trail_prev (List.nodup_cons.mp (hr.nodup hl)).1 hfuel

theorem Refines.listPop_fst (hr : Refines k s) (hl : s head = some l) :
    (listPop head k).1 = l.headD NULL := by
  have hring := hr.rings hl
  cases l with
  | nil => rw [listPop_nil hring, List.headD_nil]
  | cons entry l =>
    rw [listPop_cons hring (List.nodup_cons.mp (hr.nodup hl)).1, List.headD_cons]

theorem Refines.listPop_eq_null_iff (hr : Refines k s) (hl : s head = some l) :
    (listPop head k).1 = NULL ↔ l = [] := by
  rw [hr.listPop_fst hl]
  have hnull := hr.notNull hl
  cases l with
  | nil => simp
  | cons entry l =>
    have hentry : entry ≠ NULL := ne_of_mem_of_not_mem List.mem_cons_self hnull
    simp [hentry]

/-- After every run from any links, each list is read forwards as its sequence and
backwards as the reverse of it, it is empty and `list_pop` gives `NULL` exactly when the
sequence is empty, and the next operation leaves every list as it is that it is not on. -/
theorem lists_refine_sequences (k : Links ℕ) (ops : List Op) (hops : LegalRun noLists ops) :
    (∀ head l, sequences ops noLists head = some l →
      (∀ fuel ≥ l.length, forward head fuel (run ops k) = some l ∧
        backward head fuel (run ops k) = some l.reverse) ∧
      (listIsEmpty head (run ops k) = true ↔ l = []) ∧
      (listPop head (run ops k)).1 = l.headD NULL ∧
      ((listPop head (run ops k)).1 = NULL ↔ l = [])) ∧
    ∀ op : Op, op.Legal (sequences ops noLists) → ∀ head l,
      sequences ops noLists head = some l → ¬ op.IsOn (sequences ops noLists) head →
      ∀ fuel ≥ l.length, forward head fuel (op.exec (run ops k)) = some l ∧
        backward head fuel (op.exec (run ops k)) = some l.reverse := by
  have hr := (noLists_refines k).run hops
  constructor
  · intro head l hl
    refine ⟨fun fuel hfuel => ⟨hr.forward_eq hl hfuel, hr.backward_eq hl hfuel⟩, ?_,
      hr.listPop_fst hl, hr.listPop_eq_null_iff hl⟩
    exact listIsEmpty_iff (hr.rings hl) (List.nodup_cons.mp (hr.nodup hl)).1
  · intro op hop head l hl hnot fuel hfuel
    have hr' := hr.exec hop
    have hl' := Op.sequences_of_not_isOn hl hnot
    exact ⟨hr'.forward_eq hl' hfuel, hr'.backward_eq hl' hfuel⟩

/-- Two lists, an entry added to each end of the first one, and the front one deleted. -/
theorem lists_refine_sequences_two :
    forward 16 1 (run [.init 16, .init 32, .add 16 48, .addTail 16 64, .del 48] ⟨id, id⟩) =
      some [64] := by
  have h48 : Free ((Op.init 32).sequences ((Op.init 16).sequences noLists)) 48 :=
    ((noLists_free 48).update (by decide)).update (by decide)
  have h64 : Free ((Op.init 32).sequences ((Op.init 16).sequences noLists)) 64 :=
    ((noLists_free 64).update (by decide)).update (by decide)
  have hlegal : LegalRun noLists [.init 16, .init 32, .add 16 48, .addTail 16 64, .del 48] := by
    refine ⟨noLists_free 16, (noLists_free 32).update (by decide), ⟨rfl, h48, by decide⟩,
      ⟨rfl, ?_, by decide⟩, ⟨16, [48, 64], rfl, List.mem_cons_self⟩, trivial⟩
    exact h64.update (by decide)
  exact (((lists_refine_sequences ⟨id, id⟩ _ hlegal).1 16 [64] rfl).1 1 (Nat.le_refl 1)).1

end TomatOS.Lib.IntrusiveList
