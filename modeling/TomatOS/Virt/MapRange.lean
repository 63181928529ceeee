import TomatOS.Foundation.Overwrite
import TomatOS.Virt.Mapping

/-! What `virt_map_range` leaves behind when it succeeds: the entries of its pages, one
after the other. -/

namespace TomatOS.Virt

open Foundation Foundation.PageTree Foundation.Transition

namespace PageTables

variable {k : ℕ} {s s' s'' : PageTables} {writes writes' : List (ℕ × Option Entry)}

/-- The page entries after writes to the entries of addresses. -/
structure Wrote (k : ℕ) (writes : List (ℕ × Option Entry)) (s s' : PageTables) : Prop where
  sound : s'.Sound k
  leaf : ∀ p i, p.length = 3 → s'.leaf p i =
    overwrite (fun virt (c : List ℕ × ℕ) => IsEntry k virt c.1 c.2) (p, i) writes (s.leaf p i)

theorem Extends.wrote (h : Extends k s s') : Wrote k [] s s' := ⟨h.sound, h.leaf⟩

theorem Writes.wrote {virt : ℕ} {e : Entry} (he : e.present = true) (h : Writes k virt e s s') :
    Wrote k [(virt, some e)] s s' := by
  refine ⟨h.sound, fun p i hp => ?_⟩
  rw [h.leaf p i hp, if_pos he]
  rfl

theorem Wrote.trans (h : Wrote k writes s s') (h' : Wrote k writes' s' s'') :
    Wrote k (writes ++ writes') s s'' := by
  refine ⟨h'.sound, fun p i hp => ?_⟩
  rw [h'.leaf p i hp, overwrite_append, h.leaf p i hp]

/-- The entries of the pages `i` to `i + n - 1` of a range. -/
def rangeWrites (phys virt : ℕ) (flags : MapFlags) (i n : ℕ) : List (ℕ × Option Entry) :=
  (List.range' i n).map fun j => (pageAt virt j, some (leafEntry (pageAt phys j) flags))

theorem mem_rangeWrites {phys virt : ℕ} {flags : MapFlags} {i n : ℕ} {x : ℕ × Option Entry} :
    x ∈ rangeWrites phys virt flags i n ↔ ∃ j, i ≤ j ∧ j < i + n ∧
      x = (pageAt virt j, some (leafEntry (pageAt phys j) flags)) := by
  simp only [rangeWrites, List.mem_map, List.mem_range'_1]
  constructor
  · rintro ⟨j, ⟨h1, h2⟩, rfl⟩
    exact ⟨j, h1, h2, rfl⟩
  · rintro ⟨j, h1, h2, rfl⟩
    exact ⟨j, ⟨h1, h2⟩, rfl⟩

theorem mapPages_wrote (h : s.Sound k) (hk : k ≤ 32) (phys virt : ℕ) (flags : MapFlags)
    (n i : ℕ) : Returns (mapPages phys virt flags n i s) fun err s' =>
      err = none → Wrote k (rangeWrites phys virt flags i n) s s' := by
  induction n generalizing i s with
  | zero => exact .ok fun _ => (Extends.refl h).wrote
  | succ n ih =>
    refine (virtMapPage_returns h hk (pageAt phys i) (pageAt virt i) flags).bind ?_
    rintro _ s₁ (⟨rfl, hw⟩ | ⟨rfl, -⟩)
    · exact (ih hw.sound (i + 1)).mono fun err s₂ h₂ hn => (hw.wrote rfl).trans (h₂ hn)
    · exact .ok fun hn => by cases hn

end PageTables

end TomatOS.Virt
