import TomatOS.Debug.Symbols

/-! Looking up the symbol of an address, from `kernel/debug/debug.c`. The binary search
keeps an upper end that is included, but starts with the number of symbols there, so it
looks at one index too many; and it decides where to go on by the address of the symbol in
the middle alone, which empty symbols and equal addresses mislead. -/

namespace TomatOS.Debug

/-- The test of the lookup; the end of the range is a 64-bit sum. -/
def lookupHit (symbol : Symbol) (addr : ℕ) : Prop :=
  symbol.address ≤ addr ∧ addr < (symbol.address + symbol.size) % 2 ^ 64

instance (symbol : Symbol) (addr : ℕ) : Decidable (lookupHit symbol addr) :=
  inferInstanceAs (Decidable (_ ∧ _))

/-- The loop of `debug_lookup_symbol`: the index of the symbol that is returned, if any,
and the indices that are read. -/
def lookupLoop (symbols : ℤ → Symbol) (addr : ℕ) (l r : ℤ) : Option ℤ × List ℤ :=
  if l ≤ r then
    let m := l + (r - l) / 2
    if lookupHit (symbols m) addr then (some m, [m])
    else if (symbols m).address < addr then
      let rest := lookupLoop symbols addr (m + 1) r
      (rest.1, m :: rest.2)
    else
      let rest := lookupLoop symbols addr l (m - 1)
      (rest.1, m :: rest.2)
  else (none, [])
termination_by (r + 1 - l).toNat

def debugLookupSymbol (symbols : ℤ → Symbol) (count : ℕ) (addr : ℕ) : Option ℤ × List ℤ :=
  if count = 0 then (none, []) else lookupLoop symbols addr 0 count

/-- The midpoints at which the halving of `l` to `r` turns towards `i`. -/
def probes (i l r : ℤ) : List ℤ :=
  if l ≤ r then
    let m := l + (r - l) / 2
    if m = i then []
    else if m < i then m :: probes i (m + 1) r
    else m :: probes i l (m - 1)
  else []
termination_by (r + 1 - l).toNat

/-- What a lookup is to do: to read inside the table only, and to find a symbol in whose
range the address is, unless there is none. -/
def LooksUp (symbols : ℤ → Symbol) (count : ℕ) (addr : ℕ) : Prop :=
  (∀ i ∈ (debugLookupSymbol symbols count addr).2, 0 ≤ i ∧ i < count) ∧
    match (debugLookupSymbol symbols count addr).1 with
    | some i => 0 ≤ i ∧ i < count ∧ (symbols i).Holds addr
    | none => ∀ i : ℤ, 0 ≤ i → i < count → ¬ (symbols i).Holds addr

section Loop

variable {symbols : ℤ → Symbol} {addr : ℕ} {l r i : ℤ}

theorem lookupHit_iff (symbol : Symbol) (addr : ℕ) :
    lookupHit symbol addr ↔ symbol.Holds addr ∧ symbol.address + symbol.size < 2 ^ 64 := by
  have := symbol.address_lt
  have := symbol.size_lt
  rw [lookupHit, Symbol.Holds]
  omega

theorem lookupLoop_inside (symbols : ℤ → Symbol) (addr : ℕ) (l r : ℤ) :
    ∀ j ∈ (lookupLoop symbols addr l r).2, l ≤ j ∧ j ≤ r := by
  fun_induction lookupLoop with
  | case1 l r h m hit =>
    intro j hj
    rw [List.mem_singleton] at hj
    omega
  | case2 l r h m hit hless rest ih =>
    intro j hj
    rcases List.mem_cons.mp hj with rfl | hj
    · omega
    · have := ih j hj
      omega
  | case3 l r h m hit hless rest ih =>
    intro j hj
    rcases List.mem_cons.mp hj with rfl | hj
    · omega
    · have := ih j hj
      omega
  | case4 l r h => simp

theorem lookupLoop_some (h : (lookupLoop symbols addr l r).1 = some i) :
    i ∈ (lookupLoop symbols addr l r).2 ∧ lookupHit (symbols i) addr := by
  fun_induction lookupLoop with
  | case1 l r hle m hit =>
    obtain rfl : m = i := Option.some.inj h
    exact ⟨List.mem_singleton.mpr rfl, hit⟩
  | case2 l r hle m hit hless rest ih =>
    obtain ⟨hmem, hhit⟩ := ih h
    exact ⟨List.mem_cons_of_mem m hmem, hhit⟩
  | case3 l r hle m hit hless rest ih =>
    obtain ⟨hmem, hhit⟩ := ih h
    exact ⟨List.mem_cons_of_mem m hmem, hhit⟩
  | case4 l r hle => simp at h

theorem probes_inside (hl : l ≤ i) (hr : i ≤ r) : ∀ j ∈ probes i l r, l ≤ j ∧ j < r ∧ j ≠ i := by
  fun_induction probes with
  | case1 l r h m => simp
  | case2 l r h m hne hlt ih =>
    intro j hj
    rcases List.mem_cons.mp hj with rfl | hj
    · omega
    · have := ih (by omega) hr j hj
      omega
  | case3 l r h m hne hge ih =>
    intro j hj
    rcases List.mem_cons.mp hj with rfl | hj
    · omega
    · have := ih hl (by omega) j hj
      omega
  | case4 l r h => simp

/-- When every midpoint on the way sends the search towards `i`, it gets there. -/
theorem lookupLoop_finds (hl : l ≤ i) (hr : i ≤ r) (hhit : lookupHit (symbols i) addr)
    (hmiss : ∀ j ∈ probes i l r, ¬ lookupHit (symbols j) addr)
    (hturn : ∀ j ∈ probes i l r, j < i ↔ (symbols j).address < addr) :
    lookupLoop symbols addr l r = (some i, probes i l r ++ [i]) := by
  fun_induction probes i l r with
  | case1 l r h m heq =>
    have hm : lookupHit (symbols m) addr := heq ▸ hhit
    rw [lookupLoop, if_pos h]
    change (if lookupHit (symbols m) addr then (some m, [m]) else _) = _
    rw [if_pos hm, ← heq]
    rfl
  | case2 l r h m hne hlt ih =>
    have hm := List.mem_cons_self (a := m) (l := probes i (m + 1) r)
    have hrest := ih (by omega) hr (fun j hj => hmiss j (List.mem_cons_of_mem m hj))
      (fun j hj => hturn j (List.mem_cons_of_mem m hj))
    rw [lookupLoop, if_pos h, if_neg (hmiss m hm), if_pos ((hturn m hm).mp hlt), hrest]
    rfl
  | case3 l r h m hne hge ih =>
    have hm := List.mem_cons_self (a := m) (l := probes i l (m - 1))
    have hrest := ih hl (by omega) (fun j hj => hmiss j (List.mem_cons_of_mem m hj))
      (fun j hj => hturn j (List.mem_cons_of_mem m hj))
    rw [lookupLoop, if_pos h, if_neg (hmiss m hm), if_neg (mt (hturn m hm).mpr hge), hrest]
    rfl
  | case4 l r h => omega

/-- A search that gets to `i` was sent there by every midpoint on the way. -/
theorem turns_of_lookupLoop (h : (lookupLoop symbols addr l r).1 = some i) :
    ∀ j ∈ probes i l r, j < i ↔ (symbols j).address < addr := by
  fun_induction lookupLoop with
  | case1 l r hle m hit =>
    obtain rfl : m = i := Option.some.inj h
    rw [probes, if_pos hle, if_pos rfl]
    simp
  | case2 l r hle m hit hless rest ih =>
    have hin := lookupLoop_inside symbols addr (m + 1) r i (lookupLoop_some h).1
    have hlt : m < i := by omega
    rw [probes, if_pos hle, if_neg hlt.ne, if_pos hlt]
    intro j hj
    rcases List.mem_cons.mp hj with rfl | hj
    · exact iff_of_true hlt hless
    · exact ih h j hj
  | case3 l r hle m hit hless rest ih =>
    have hin := lookupLoop_inside symbols addr l (m - 1) i (lookupLoop_some h).1
    have hlt : i < m := by omega
    rw [probes, if_pos hle, if_neg hlt.ne', if_neg hlt.not_gt]
    intro j hj
    rcases List.mem_cons.mp hj with rfl | hj
    · exact iff_of_false hlt.not_gt hless
    · exact ih h j hj
  | case4 l r hle => simp at h

/-- Without a hit, a search that starts with the index `n` behind the table as its upper
end reads there unless the last symbol stops it. -/
theorem lookupLoop_reads_end {n : ℤ} (hl : l ≤ n) (hsorted : SortedBetween symbols l (n - 1))
    (hmiss : ∀ j, l ≤ j → j < n → ¬ lookupHit (symbols j) addr) :
    n ∈ (lookupLoop symbols addr l n).2 ↔ l = n ∨ (symbols (n - 1)).address < addr := by
  fun_induction lookupLoop symbols addr l n with
  | case1 l n hle m hit =>
    have hm : m = n := by
      by_contra hne
      exact hmiss m (by omega) (by omega) hit
    have : n ∈ [m] := List.mem_singleton.mpr hm.symm
    exact iff_of_true this (.inl (by omega))
  | case2 l n hle m hit hless rest ih =>
    by_cases hmn : m = n
    · exact iff_of_true (hmn ▸ List.mem_cons_self) (.inl (by omega))
    · have hrest := ih (by omega) (fun i j hi => hsorted i j (by omega))
        (fun j hj => hmiss j (by omega))
      rw [List.mem_cons, or_iff_right (Ne.symm hmn), hrest]
      constructor
      · rintro (h | h)
        · exact .inr (by rwa [show n - 1 = m by omega])
        · exact .inr h
      · rintro (h | h)
        · omega
        · exact .inr h
  | case3 l n hle m hit hless rest ih =>
    by_cases hmn : m = n
    · exact iff_of_true (hmn ▸ List.mem_cons_self) (.inl (by omega))
    · have hnot : n ∉ m :: rest.2 := by
        intro hmem
        rcases List.mem_cons.mp hmem with h | h
        · exact hmn h.symm
        · have := lookupLoop_inside symbols addr l (m - 1) n h
          omega
      have hlast := hsorted m (n - 1) (by omega) (by omega) (le_refl _)
      refine iff_of_false hnot ?_
      omega
  | case4 l n hle => omega

end Loop

/-- The symbol of the address is the only one, its range ends in the address space, and
every midpoint on the way to it sends the search there. -/
def Reachable (symbols : ℤ → Symbol) (count : ℕ) (addr : ℕ) (i : ℤ) : Prop :=
  0 ≤ i ∧ i < count ∧ (symbols i).Holds addr ∧
    (symbols i).address + (symbols i).size < 2 ^ 64 ∧
    ∀ j ∈ probes i 0 count, j < i ↔ (symbols j).address < addr

/-- No symbol has the address, and there is none or the last one does not start below it. -/
def Unknown (symbols : ℤ → Symbol) (count : ℕ) (addr : ℕ) : Prop :=
  (∀ i : ℤ, 0 ≤ i → i < count → ¬ (symbols i).Holds addr) ∧
    (count = 0 ∨ addr ≤ (symbols (count - 1)).address)

section Table

variable {symbols : ℤ → Symbol} {count : ℕ} {addr : ℕ}

theorem Symbol.Holds.size_ne {symbol : Symbol} (h : symbol.Holds addr) : symbol.size ≠ 0 := by
  obtain ⟨hge, hlt⟩ := h
  omega

theorem DisjointRanges.unique (h : DisjointRanges symbols count) {i j : ℤ} (hi : 0 ≤ i)
    (hic : i < count) (hj : 0 ≤ j) (hjc : j < count) (hhi : (symbols i).Holds addr)
    (hhj : (symbols j).Holds addr) : j = i := by
  rcases lt_trichotomy i j with hij | heq | hji
  · exact absurd ⟨hhi, hhj⟩ (h i j hi hij hjc hhi.size_ne hhj.size_ne addr)
  · exact heq.symm
  · exact absurd ⟨hhj, hhi⟩ (h j i hj hji hic hhj.size_ne hhi.size_ne addr)

theorem Reachable.looksUp (hdisjoint : DisjointRanges symbols count) {i : ℤ}
    (h : Reachable symbols count addr i) : LooksUp symbols count addr := by
  obtain ⟨hi, hic, hholds, hend, hturn⟩ := h
  have hprobes := probes_inside hi (Int.le_of_lt hic)
  have hmiss : ∀ j ∈ probes i 0 count, ¬ lookupHit (symbols j) addr := by
    intro j hj hhit
    have hin := hprobes j hj
    exact hin.2.2 (hdisjoint.unique hi hic hin.1 hin.2.1 hholds ((lookupHit_iff _ _).mp hhit).1)
  have hfound := lookupLoop_finds hi (Int.le_of_lt hic)
    ((lookupHit_iff _ _).mpr ⟨hholds, hend⟩) hmiss hturn
  rw [LooksUp, debugLookupSymbol, if_neg (by omega), hfound]
  constructor
  · intro j hj
    rcases List.mem_append.mp hj with hj | hj
    · exact ⟨(hprobes j hj).1, (hprobes j hj).2.1⟩
    · rw [List.mem_singleton] at hj
      omega
  · exact ⟨hi, hic, hholds⟩

theorem Unknown.looksUp (hsorted : SortedBetween symbols 0 (count - 1))
    (h : Unknown symbols count addr) : LooksUp symbols count addr := by
  obtain ⟨hnone, hlast⟩ := h
  rw [LooksUp, debugLookupSymbol]
  split_ifs with hzero
  · exact ⟨by simp, hnone⟩
  · have hmiss : ∀ j, 0 ≤ j → j < (count : ℤ) → ¬ lookupHit (symbols j) addr :=
      fun j hj hjc hhit => hnone j hj hjc ((lookupHit_iff _ _).mp hhit).1
    have hend : ((count : ℤ)) ∉ (lookupLoop symbols addr 0 count).2 := by
      rw [lookupLoop_reads_end (by omega) hsorted hmiss]
      omega
    have hinside : ∀ j ∈ (lookupLoop symbols addr 0 count).2, 0 ≤ j ∧ j < (count : ℤ) := by
      intro j hj
      have := lookupLoop_inside symbols addr 0 count j hj
      have : j ≠ count := fun heq => hend (heq ▸ hj)
      omega
    refine ⟨hinside, ?_⟩
    cases hres : (lookupLoop symbols addr 0 count).1 with
    | none => exact hnone
    | some i =>
      obtain ⟨hmem, hhit⟩ := lookupLoop_some hres
      obtain ⟨hi, hic⟩ := hinside i hmem
      exact ⟨hi, hic, ((lookupHit_iff _ _).mp hhit).1⟩

end Table

/-- In a sorted table with disjoint ranges, a lookup does what it is to do if and only if
its address has a symbol that the search is led to, or has none and the last symbol keeps
the search inside the table. -/
theorem debugLookupSymbol_looks_up_iff (symbols : ℤ → Symbol) (count addr : ℕ)
    (hsorted : SortedBetween symbols 0 (count - 1)) (hdisjoint : DisjointRanges symbols count) :
    LooksUp symbols count addr ↔
      (∃ i, Reachable symbols count addr i) ∨ Unknown symbols count addr := by
  constructor
  · intro h
    rw [LooksUp, debugLookupSymbol] at h
    split_ifs at h with hzero
    · exact .inr ⟨h.2, .inl hzero⟩
    · obtain ⟨hinside, hresult⟩ := h
      cases hres : (lookupLoop symbols addr 0 count).1 with
      | none =>
        rw [hres] at hresult
        have hend : (count : ℤ) ∉ (lookupLoop symbols addr 0 count).2 := fun hmem =>
          absurd (hinside count hmem).2 (lt_irrefl _)
        have hmiss : ∀ j, 0 ≤ j → j < (count : ℤ) → ¬ lookupHit (symbols j) addr :=
          fun j hj hjc hhit => hresult j hj hjc ((lookupHit_iff _ _).mp hhit).1
        rw [lookupLoop_reads_end (by omega) hsorted hmiss] at hend
        exact .inr ⟨hresult, .inr (by omega)⟩
      | some i =>
        obtain ⟨hmem, hhit⟩ := lookupLoop_some hres
        obtain ⟨hi, hic⟩ := hinside i hmem
        obtain ⟨hholds, hrange⟩ := (lookupHit_iff _ _).mp hhit
        exact .inl ⟨i, hi, hic, hholds, hrange, turns_of_lookupLoop hres⟩
  · rintro (⟨i, hi⟩ | h)
    · exact hi.looksUp hdisjoint
    · exact h.looksUp hsorted

/-- In a table of one symbol, an address behind it makes the search read index 1; and a
search for the address of three symbols, of which the last alone is not empty, ends
without one. -/
theorem debugLookupSymbol_fails :
    let single : ℤ → Symbol := fun _ => ⟨100, 10, 0, by decide, by decide, by decide⟩
    let last : ℤ → Symbol := fun i =>
      if i = 2 then single i else ⟨100, 0, 0, by decide, by decide, by decide⟩
    (SortedBetween single 0 0 ∧ DisjointRanges single 1 ∧
        1 ∈ (debugLookupSymbol single 1 200).2 ∧ ¬ LooksUp single 1 200) ∧
      SortedBetween last 0 2 ∧ DisjointRanges last 3 ∧ (last 2).Holds 100 ∧
        (debugLookupSymbol last 3 100).1 = none ∧ ¬ LooksUp last 3 100 := by
  intro single last
  have hsingle : SortedBetween single 0 0 := fun i j _ _ _ => le_refl _
  have hread : 1 ∈ (debugLookupSymbol single 1 200).2 := by
    rw [debugLookupSymbol, if_neg Nat.one_ne_zero]
    refine (lookupLoop_reads_end Int.one_nonneg hsingle fun j _ _ => ?_).mpr (.inr ?_)
    · decide
    · decide
  have haddress : ∀ i, (last i).address = 100 := by
    intro i
    by_cases hi : i = 2 <;> simp [last, single, hi]
  have hempty : ∀ i : ℤ, i < 2 → (last i).size = 0 := by
    intro i hi
    simp [last, hi.ne]
  have hnone : (debugLookupSymbol last 3 100).1 = none := by
    simp [debugLookupSymbol, lookupLoop, lookupHit, last]
  have hholds : (last 2).Holds 100 := by decide
  refine ⟨⟨hsingle, ?_, hread, fun h => ?_⟩, fun i j _ _ _ => ?_, ?_, hholds, hnone, fun h => ?_⟩
  · intro i j hi hij hj
    omega
  · exact absurd (h.1 1 hread).2 (by decide)
  · rw [haddress, haddress]
  · intro i j hi hij hj hsize
    exact absurd (hempty i (by omega)) hsize
  · rw [LooksUp, hnone] at h
    exact h.2 2 (by decide) (by decide) hholds

/-- In a table of two symbols the search for an address in the second one is right. -/
theorem debugLookupSymbol_looks_up_second :
    let pair : ℤ → Symbol := fun i =>
      if i = 0 then ⟨100, 10, 0, by decide, by decide, by decide⟩
      else ⟨200, 10, 0, by decide, by decide, by decide⟩
    LooksUp pair 2 205 ↔ (∃ i, Reachable pair 2 205 i) ∨ Unknown pair 2 205 := by
  intro pair
  have hless : ∀ i j : ℤ, 0 ≤ i → i ≤ j → j ≤ 1 → (pair i).address ≤ (pair j).address := by
    intro i j hi hij hj
    by_cases hzero : i = 0 <;> by_cases hone : j = 0 <;> simp [pair, hzero, hone]
    omega
  refine debugLookupSymbol_looks_up_iff pair 2 205 hless fun i j hi hij hj _ _ addr h => ?_
  obtain rfl : i = 0 := by omega
  obtain rfl : j = 1 := by omega
  simp [pair, Symbol.Holds] at h
  omega

end TomatOS.Debug
