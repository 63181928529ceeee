import TomatOS.Debug.Symbols
import TomatOS.Heap.Realloc
import Mathlib.Data.List.Sort

/-! Inserting a symbol, from `kernel/debug/debug.c`. The table is the array of
`m_symbols_count` symbols at `m_symbols`, a block of the heap. A binary search looks for
the place, the block is reallocated for one symbol more, and the symbols behind the place
are moved up by one: by the length of a chunk of `memmove`, which divides what is moved. -/

namespace TomatOS.Debug

open Foundation.LinkedMemory

/-- `sizeof(symbol_t)`. -/
def symbolSize : ℕ := 24

/-- The address of an element of an array of symbols. -/
def element (ptr : ℕ) (i : ℤ) : ℕ := ((ptr + symbolSize * i) % 2 ^ 64).toNat

def loadSymbol (m : Memory) (a : ℕ) : Symbol where
  address := loadBytes m a 8
  size := loadBytes m (a + 8) 8
  name := loadBytes m (a + 16) 8
  address_lt := loadBytes_lt m a 8
  size_lt := loadBytes_lt m (a + 8) 8
  name_lt := loadBytes_lt m (a + 16) 8

def storeSymbol (m : Memory) (a : ℕ) (symbol : Symbol) : Memory :=
  storeBytes (storeBytes (storeBytes m a symbol.address 8) (a + 8) symbol.size 8) (a + 16)
    symbol.name 8

/-- `m_symbols`, with 0 for the null pointer, `m_symbols_count` and the heap. -/
structure DebugState where
  clients : Heap.Clients
  symbols : ℕ
  count : ℕ

inductive Fault where
  | heap (fault : Heap.Fault)
  | assertion

/-- `m_symbols[i]`. -/
def DebugState.symbolAt (s : DebugState) (i : ℤ) : Symbol :=
  loadSymbol s.clients.heap.memory (element s.symbols i)

/-- The loop of `find_symbol_insert_index`: its result and the indices it reads. -/
def findLoop (symbols : ℤ → Symbol) (address : ℕ) (start stop : ℤ) : ℤ × List ℤ :=
  if start ≤ stop then
    let mid := (start + stop) / 2
    if (symbols mid).address = address then (-1, [mid])
    else if (symbols mid).address < address then
      let rest := findLoop symbols address (mid + 1) stop
      (rest.1, mid :: rest.2)
    else
      let rest := findLoop symbols address start (mid - 1)
      (rest.1, mid :: rest.2)
  else (stop + 1, [])
termination_by (stop + 1 - start).toNat

def findSymbolInsertIndex (s : DebugState) (address : ℕ) : ℤ × List ℤ :=
  findLoop s.symbolAt address 0 (s.count - 1)

/-- The state afterwards, and the areas of memory that the copies of `memmove` and the
last store access, each with its first address and its length. -/
def doInsertSymbol (s : DebugState) (index : ℤ) (symbol : Symbol) :
    Except Fault (DebugState × List (ℕ × ℕ)) :=
  let count := s.count + 1
  match Heap.memRealloc s.clients.heap s.symbols (count * symbolSize) with
  | .error fault => .error (.heap fault)
  | .ok (ptr, heap) =>
    if ptr = 0 then .error .assertion
    else
      let dest := element ptr (index + 1)
      let src := element ptr index
      let length := ((count - index - 1) * symbolSize % 2 ^ 64).toNat
      let memory := (Lib.memmove heap.memory dest src length).2
      let memory := storeSymbol memory (element ptr index) symbol
      let live := Heap.relocated s.clients.live s.symbols (count * symbolSize) ptr
      .ok (⟨⟨{ heap with memory := memory }, live⟩, ptr, count⟩,
        (Lib.copies dest src length).flatMap Lib.Copy.areas ++ [(element ptr index, symbolSize)])

def insertSymbol (s : DebugState) (symbol : Symbol) : Except Fault (DebugState × List (ℕ × ℕ)) :=
  let idx := (findSymbolInsertIndex s symbol.address).1
  if idx ≠ -1 then
    if idx < s.count then doInsertSymbol s idx symbol
    else doInsertSymbol s s.count symbol
  else .ok (s, [])

/-! ### The abstract table -/

/-- The order of the table, in which equal addresses are equal. -/
def AddressLE (s t : Symbol) : Prop := s.address ≤ t.address
  deriving Decidable

instance : Std.Total AddressLE := ⟨fun s t => Nat.le_total s.address t.address⟩

instance : IsTrans Symbol AddressLE := ⟨fun _ _ _ h h' => Nat.le_trans h h'⟩

/-- What inserting does to a table as a list. -/
def insertByAddress (table : List Symbol) (symbol : Symbol) : List Symbol :=
  if ∃ t ∈ table, t.address = symbol.address then table
  else table.orderedInsert AddressLE symbol

/-- Sorted by address, equal ones allowed. -/
def Sorted (table : List Symbol) : Prop := table.Pairwise AddressLE

section Table

variable {table before after : List Symbol} {symbol : Symbol}

theorem orderedInsert_between (hbefore : ∀ t ∈ before, t.address < symbol.address)
    (hafter : ∀ t ∈ after, symbol.address < t.address) :
    (before ++ after).orderedInsert AddressLE symbol = before ++ symbol :: after := by
  induction before with
  | nil =>
    cases after with
    | nil => rfl
    | cons t after => exact List.orderedInsert_cons_of_le _ _ (hafter t List.mem_cons_self).le
  | cons t before ih =>
    have ht : ¬ AddressLE symbol t := Nat.not_le.mpr (hbefore t List.mem_cons_self)
    rw [List.cons_append, List.orderedInsert_cons, if_neg ht,
      ih fun u hu => hbefore u (List.mem_cons_of_mem t hu)]
    rfl

theorem sorted_between (h : Sorted (before ++ after))
    (hbefore : ∀ t ∈ before, t.address < symbol.address)
    (hafter : ∀ t ∈ after, symbol.address < t.address) : Sorted (before ++ symbol :: after) := by
  obtain ⟨hb, ha, hba⟩ := List.pairwise_append.mp h
  refine List.pairwise_append.mpr ⟨hb, List.pairwise_cons.mpr ⟨fun t ht => (hafter t ht).le, ha⟩, ?_⟩
  intro s hs t ht
  rcases List.mem_cons.mp ht with rfl | ht
  · exact (hbefore s hs).le
  · exact hba s hs t ht

end Table

/-! ### The place of a new symbol -/

theorem findLoop_inside (symbols : ℤ → Symbol) (address : ℕ) (start stop : ℤ) :
    ∀ i ∈ (findLoop symbols address start stop).2, start ≤ i ∧ i ≤ stop := by
  fun_induction findLoop with
  | case1 start stop h mid heq =>
    intro i hi
    rw [List.mem_singleton] at hi
    omega
  | case2 start stop h mid hne hless rest ih =>
    intro i hi
    rcases List.mem_cons.mp hi with rfl | hi
    · omega
    · have := ih i hi
      omega
  | case3 start stop h mid hne hless rest ih =>
    intro i hi
    rcases List.mem_cons.mp hi with rfl | hi
    · omega
    · have := ih i hi
      omega
  | case4 start stop h => simp

/-- The symbols before `start` are below the address and those after `stop` above it. The
search ends at the address, or where the two meet. -/
theorem findLoop_spec {symbols : ℤ → Symbol} (address : ℕ) (start stop : ℤ) {n : ℤ}
    (hsorted : SortedBetween symbols 0 (n - 1)) (hstart : 0 ≤ start) (hstop : stop < n)
    (hmeet : start ≤ stop + 1)
    (hbelow : ∀ i, 0 ≤ i → i < start → (symbols i).address < address)
    (habove : ∀ i, stop < i → i < n → address < (symbols i).address) :
    ((findLoop symbols address start stop).1 = -1 ∧
        ∃ i, 0 ≤ i ∧ i < n ∧ (symbols i).address = address) ∨
      ∃ k, (findLoop symbols address start stop).1 = k ∧ 0 ≤ k ∧ k ≤ n ∧
        (∀ i, 0 ≤ i → i < k → (symbols i).address < address) ∧
        ∀ i, k ≤ i → i < n → address < (symbols i).address := by
  fun_induction findLoop with
  | case1 start stop h mid heq => exact .inl ⟨rfl, mid, by omega, by omega, heq⟩
  | case2 start stop h mid hne hless rest ih =>
    apply ih (by omega) hstop (by omega)
    · intro i hi hlt
      have := hsorted i mid hi (by omega) (by omega)
      omega
    · exact habove
  | case3 start stop h mid hne hless rest ih =>
    apply ih hstart (by omega) (by omega) hbelow
    intro i hi hlt
    have := hsorted mid i (by omega) (by omega) (by omega)
    omega
  | case4 start stop h =>
    refine .inr ⟨stop + 1, rfl, by omega, by omega, fun i hi hlt => ?_, fun i hi hlt => ?_⟩
    · exact hbelow i hi (by omega)
    · exact habove i (by omega) hlt

/-! ### Symbols in memory -/

section Memory

variable {m m' : Memory} {a b ptr k n i : ℕ} {symbol : Symbol}

theorem element_natCast (h : ptr + symbolSize * i < 2 ^ 64) :
    element ptr i = ptr + symbolSize * i := by
  rw [element]
  omega

/-- The length that is moved does not wrap. -/
theorem moved_length (hk : k ≤ n) (hn : symbolSize * n ≤ 2 ^ 26) :
    (((n + 1 : ℕ) - k - 1 : ℤ) * symbolSize % 2 ^ 64).toNat = symbolSize * (n - k) := by
  obtain ⟨rest, rfl⟩ := Nat.exists_eq_add_of_le hk
  have hrest : ((k + rest + 1 : ℕ) - k - 1 : ℤ) * symbolSize = (symbolSize * rest : ℕ) := by
    rw [symbolSize]
    omega
  have hlt : symbolSize * rest < 2 ^ 64 := by
    rw [Nat.mul_add] at hn
    omega
  rw [hrest, Nat.add_sub_cancel_left]
  omega

theorem loadSymbol_shift (h : ∀ j < symbolSize, m' (b + j) = m (a + j)) :
    loadSymbol m' b = loadSymbol m a := by
  have hpart : ∀ offset, offset + 8 ≤ symbolSize →
      loadBytes m' (b + offset) 8 = loadBytes m (a + offset) 8 := by
    intro offset hle
    apply loadBytes_shift
    intro j hj
    rw [Nat.add_assoc, Nat.add_assoc]
    exact h (offset + j) (by omega)
  ext
  · exact hpart 0 (by decide)
  · exact hpart 8 (by decide)
  · exact hpart 16 (by decide)

theorem storeSymbol_outside (h : b < a ∨ a + symbolSize ≤ b) : storeSymbol m a symbol b = m b := by
  rw [symbolSize] at h
  rw [storeSymbol, storeBytes_apply_of_outside (by omega), storeBytes_apply_of_outside (by omega),
    storeBytes_apply_of_outside (by omega)]

theorem loadSymbol_storeSymbol : loadSymbol (storeSymbol m a symbol) a = symbol := by
  have hword : ∀ v < 2 ^ 64, v % 256 ^ 8 = v := fun v hv => Nat.mod_eq_of_lt hv
  ext
  · change loadBytes (storeSymbol m a symbol) a 8 = symbol.address
    rw [storeSymbol, loadBytes_storeBytes_apart (by omega), loadBytes_storeBytes_apart (by omega),
      loadBytes_storeBytes, hword _ symbol.address_lt]
  · change loadBytes (storeSymbol m a symbol) (a + 8) 8 = symbol.size
    rw [storeSymbol, loadBytes_storeBytes_apart (by omega), loadBytes_storeBytes,
      hword _ symbol.size_lt]
  · change loadBytes (storeSymbol m a symbol) (a + 16) 8 = symbol.name
    rw [storeSymbol, loadBytes_storeBytes, hword _ symbol.name_lt]

/-- One symbol is a chunk: it divides the length of what is moved. -/
theorem memmove_symbols (hend : ptr + symbolSize * (n + 1) < 2 ^ 64) (hk : k ≤ n) :
    Lib.Moved m (Lib.memmove m (ptr + symbolSize * (k + 1)) (ptr + symbolSize * k)
      (symbolSize * (n - k))).2 (ptr + symbolSize * (k + 1)) (ptr + symbolSize * k)
      (symbolSize * (n - k)) := by
  have hdist : ptr + symbolSize * (k + 1) - (ptr + symbolSize * k) = symbolSize := by
    rw [Nat.mul_add_one]
    omega
  rw [symbolSize] at hend hdist ⊢
  by_cases hover : Lib.OverlapsAbove (ptr + 24 * (k + 1)) (ptr + 24 * k) (24 * (n - k))
  · exact Lib.memmove_whole_chunks (by omega) hover (by rw [hdist]; exact Nat.dvd_mul_right _ _)
  · exact Lib.memmove_apart (by omega) (by omega) hover

/-- The array after the symbols from `k` on were moved up and one was stored at `k`. -/
def shifted (m : Memory) (ptr k n : ℕ) (symbol : Symbol) : Memory :=
  storeSymbol (Lib.memmove m (ptr + symbolSize * (k + 1)) (ptr + symbolSize * k)
    (symbolSize * (n - k))).2 (ptr + symbolSize * k) symbol

theorem shifted_outside (hend : ptr + symbolSize * (n + 1) < 2 ^ 64) (hk : k ≤ n)
    (ha : a < ptr ∨ ptr + symbolSize * (n + 1) ≤ a) : shifted m ptr k n symbol a = m a := by
  have hmoved := memmove_symbols (m := m) hend hk
  rw [symbolSize] at hend ha hmoved
  rw [shifted, storeSymbol_outside (by rw [symbolSize]; omega), symbolSize]
  exact hmoved.2 a (by omega)

theorem loadSymbol_shifted_lt (hend : ptr + symbolSize * (n + 1) < 2 ^ 64) (hk : k ≤ n)
    (hi : i < k) : loadSymbol (shifted m ptr k n symbol) (ptr + symbolSize * i) =
      loadSymbol m (ptr + symbolSize * i) := by
  have hmoved := memmove_symbols (m := m) hend hk
  apply loadSymbol_shift
  intro j hj
  rw [symbolSize] at hj hmoved
  rw [shifted, storeSymbol_outside (by rw [symbolSize]; omega), symbolSize]
  exact hmoved.2 _ (by omega)

theorem loadSymbol_shifted_self :
    loadSymbol (shifted m ptr k n symbol) (ptr + symbolSize * k) = symbol :=
  loadSymbol_storeSymbol

theorem loadSymbol_shifted_gt (hend : ptr + symbolSize * (n + 1) < 2 ^ 64) (hk : k ≤ i)
    (hi : i < n) : loadSymbol (shifted m ptr k n symbol) (ptr + symbolSize * (i + 1)) =
      loadSymbol m (ptr + symbolSize * i) := by
  have hmoved := (memmove_symbols (m := m) hend (hk.trans hi.le)).1
  apply loadSymbol_shift
  intro j hj
  rw [symbolSize] at hj hmoved
  rw [shifted, storeSymbol_outside (by rw [symbolSize]; omega), symbolSize]
  have hbyte := hmoved (24 * (i - k) + j) (by omega)
  rwa [show ptr + 24 * (k + 1) + (24 * (i - k) + j) = ptr + 24 * (i + 1) + j by omega,
    show ptr + 24 * k + (24 * (i - k) + j) = ptr + 24 * i + j by omega] at hbyte

end Memory

/-! ### The table in the heap -/

/-- The array holds the table, in a live block that was asked for as many symbols. -/
structure Holds (s : DebugState) (table : List Symbol) : Prop where
  heap : ∃ free, Heap.Invariant s.clients.heap s.clients.live free
  count : s.count = table.length
  array : s.symbols = 0 ∧ table = [] ∨
    ∃ b ∈ s.clients.live, b.ptr = s.symbols ∧ b.requested = symbolSize * table.length
  stored : ∀ i, ∀ h : i < table.length,
    loadSymbol s.clients.heap.memory (s.symbols + symbolSize * i) = table[i]

section Array

variable {s : DebugState} {table : List Symbol} {symbol : Symbol} {k : ℕ}

/-- The largest blocks have 64MB. -/
theorem Holds.size_le (h : Holds s table) : symbolSize * table.length ≤ 2 ^ 26 := by
  rcases h.array with ⟨-, rfl⟩ | ⟨b, hb, -, hreq⟩
  · decide
  · obtain ⟨free, hinv⟩ := h.heap
    have hsound := hinv.sound hb
    have horder : b.order < 24 := hsound.order_eq ▸ hinv.capacity_le hb
    rw [← hreq]
    exact hsound.large_enough.trans (Nat.pow_le_pow_right (by decide) (by omega))

theorem Holds.end_lt (h : Holds s table) :
    s.symbols + symbolSize * table.length < 2 ^ 64 := by
  rcases h.array with ⟨hnull, rfl⟩ | ⟨b, hb, hptr, hreq⟩
  · rw [hnull]
    decide
  · obtain ⟨free, hinv⟩ := h.heap
    have hend := (hinv.bounds hb).2
    have hlarge := (hinv.sound hb).large_enough
    have htop := Heap.allocRegionTop_lt (show 23 < 24 by decide)
    omega

theorem Holds.symbolAt (h : Holds s table) (i : ℕ) (hi : i < table.length) :
    s.symbolAt i = table[i] := by
  have hend := h.end_lt
  have hmul := Nat.mul_le_mul_left symbolSize hi.le
  rw [DebugState.symbolAt, element_natCast (by omega), h.stored i hi]

theorem Holds.sortedBetween (h : Holds s table) (hsorted : Sorted table) :
    SortedBetween s.symbolAt 0 (s.count - 1) := by
  intro i j hi hij hj
  rw [h.count] at hj
  obtain ⟨i, rfl⟩ := Int.eq_ofNat_of_zero_le hi
  obtain ⟨j, rfl⟩ := Int.eq_ofNat_of_zero_le (hi.trans hij)
  rw [h.symbolAt i (by omega), h.symbolAt j (by omega)]
  rcases Nat.lt_or_ge i j with hlt | hge
  · exact List.pairwise_iff_getElem.mp hsorted i j (by omega) (by omega) hlt
  · obtain rfl : i = j := by omega
    exact le_refl _

/-- The place that is found is the one between the lesser and the greater addresses. -/
theorem Holds.findSymbolInsertIndex (h : Holds s table) (hsorted : Sorted table) (address : ℕ) :
    ((findSymbolInsertIndex s address).1 = -1 ∧ ∃ t ∈ table, t.address = address) ∨
      ∃ k : ℕ, (findSymbolInsertIndex s address).1 = k ∧ k ≤ table.length ∧
        (∀ t ∈ table.take k, t.address < address) ∧
        ∀ t ∈ table.drop k, address < t.address := by
  have hcount := h.count
  have hspec := findLoop_spec address 0 (s.count - 1)
    (h.sortedBetween hsorted) (le_refl 0) (by omega) (by omega)
    (fun i hi hlt => absurd hlt (by omega)) (fun i hi hlt => absurd hlt (by omega))
  rcases hspec with ⟨hres, i, hi, hlt, haddr⟩ | ⟨k, hres, hk, hkn, hbelow, habove⟩
  · obtain ⟨i, rfl⟩ := Int.eq_ofNat_of_zero_le hi
    have hin : i < table.length := by omega
    rw [h.symbolAt i hin] at haddr
    exact .inl ⟨hres, table[i], List.getElem_mem hin, haddr⟩
  · obtain ⟨k, rfl⟩ := Int.eq_ofNat_of_zero_le hk
    refine .inr ⟨k, hres, by omega, fun t ht => ?_, fun t ht => ?_⟩
    · obtain ⟨i, hi, rfl⟩ := List.mem_iff_getElem.mp ht
      rw [List.length_take] at hi
      have := hbelow i (Int.natCast_nonneg i) (by omega)
      rwa [h.symbolAt i (by omega), ← List.getElem_take (h := by omega)] at this
    · obtain ⟨i, hi, rfl⟩ := List.mem_iff_getElem.mp ht
      rw [List.length_drop] at hi
      have := habove ((k + i : ℕ) : ℤ) (by omega) (by omega)
      rwa [h.symbolAt (k + i) (by omega), ← List.getElem_drop] at this

/-- What the bytes of the old array become in the new one. -/
theorem loadSymbol_reallocated {p size i : ℕ} {s' : Heap.Clients} (h : Holds s table)
    (hsize : symbolSize * table.length ≤ size)
    (hre : Heap.Reallocated s.clients s' s.symbols size p) (hi : i < table.length) :
    loadSymbol s'.heap.memory (p + symbolSize * i) = table[i] := by
  rw [← h.stored i hi]
  rcases h.array with ⟨-, rfl⟩ | ⟨b, hb, hptr, hreq⟩
  · exact absurd hi (Nat.not_lt_zero i)
  · obtain ⟨hlarge, hbytes⟩ := hre.bytes b hb hptr
    have hmul : symbolSize * (i + 1) ≤ symbolSize * table.length := Nat.mul_le_mul_left _ hi
    rw [Nat.mul_add_one] at hmul
    apply loadSymbol_shift
    intro j hj
    rw [Nat.add_assoc, Nat.add_assoc]
    exact hbytes _ (lt_min (by omega) (by omega))

/-- The symbols of the new array are those of the table with the new one between them. -/
theorem loadSymbol_inserted {m : Memory} {p : ℕ}
    (hend : p + symbolSize * (table.length + 1) < 2 ^ 64) (hk : k ≤ table.length)
    (hstored : ∀ i, ∀ h : i < table.length, loadSymbol m (p + symbolSize * i) = table[i])
    (i : ℕ) (hi : i < (table.take k ++ symbol :: table.drop k).length) :
    loadSymbol (shifted m p k table.length symbol) (p + symbolSize * i) =
      (table.take k ++ symbol :: table.drop k)[i] := by
  have hlen : (table.take k).length = k := List.length_take_of_le hk
  have hi' : i < table.length + 1 := by
    rw [List.length_append, List.length_cons, List.length_drop, hlen] at hi
    omega
  rcases Nat.lt_trichotomy i k with hlt | rfl | hgt
  · rw [loadSymbol_shifted_lt hend hk hlt, hstored i (by omega),
      List.getElem_append_left (by omega), List.getElem_take]
  · rw [loadSymbol_shifted_self, List.getElem_append_right (by omega)]
    simp only [hlen, Nat.sub_self, List.getElem_cons_zero]
  · obtain ⟨j, rfl⟩ : ∃ j, i = j + 1 := ⟨i - 1, by omega⟩
    rw [loadSymbol_shifted_gt hend (by omega) (by omega), hstored j (by omega),
      List.getElem_append_right (by omega)]
    simp only [hlen, show j + 1 - k = (j - k) + 1 by omega, List.getElem_cons_succ,
      List.getElem_drop, show k + (j - k) = j by omega]

/-- The state when `mem_realloc` has returned an array at `p`. -/
def inserted (s : DebugState) (k : ℕ) (symbol : Symbol) (p : ℕ) (heap : Heap.HeapState) :
    DebugState where
  clients :=
    { heap := { heap with memory := shifted heap.memory p k s.count symbol }
      live := Heap.relocated s.clients.live s.symbols ((s.count + 1) * symbolSize) p }
  symbols := p
  count := s.count + 1

/-- What is moved and what is written when a symbol gets the place `k` of `n`. -/
def insertAreas (ptr k n : ℕ) : List (ℕ × ℕ) :=
  (Lib.copies (ptr + symbolSize * (k + 1)) (ptr + symbolSize * k)
    (symbolSize * (n - k))).flatMap Lib.Copy.areas ++ [(ptr + symbolSize * k, symbolSize)]

theorem doInsertSymbol_eq {p : ℕ} {heap : Heap.HeapState}
    (hre : Heap.memRealloc s.clients.heap s.symbols ((s.count + 1) * symbolSize) = .ok (p, heap))
    (hp : p ≠ 0) (hk : k ≤ s.count) (hlimit : symbolSize * s.count ≤ 2 ^ 26)
    (hend : p + symbolSize * (s.count + 1) < 2 ^ 64) :
    doInsertSymbol s k symbol = .ok (inserted s k symbol p heap, insertAreas p k s.count) := by
  have hmul := Nat.mul_le_mul_left symbolSize (Nat.succ_le_succ hk)
  rw [Nat.succ_eq_add_one, Nat.succ_eq_add_one] at hmul
  have hplace : element p (k + 1 : ℤ) = p + symbolSize * (k + 1) := by
    rw [show (k + 1 : ℤ) = (k + 1 : ℕ) by omega]
    exact element_natCast (by omega)
  have hsource : element p k = p + symbolSize * k := by
    rw [Nat.mul_add_one] at hmul
    exact element_natCast (by omega)
  simp only [doInsertSymbol, hre, if_neg hp, hplace, hsource, moved_length hk hlimit, inserted,
    shifted, insertAreas]

theorem Holds.inserted {p : ℕ} {heap : Heap.HeapState} {free : Fin 24 → List ℕ}
    (h : Holds s table) (hk : k ≤ table.length)
    (hend : p + symbolSize * (table.length + 1) < 2 ^ 64)
    (hre : Heap.Reallocated s.clients
      ⟨heap, Heap.relocated s.clients.live s.symbols ((s.count + 1) * symbolSize) p⟩ s.symbols
      ((s.count + 1) * symbolSize) p)
    (hinv : Heap.Invariant heap
      (Heap.relocated s.clients.live s.symbols ((s.count + 1) * symbolSize) p) free) :
    Holds (inserted s k symbol p heap) (table.take k ++ symbol :: table.drop k) := by
  obtain ⟨c, hc, hcp, hreq, hroom, -⟩ := hre.result
  have hcount := h.count
  have hlength : (table.take k ++ symbol :: table.drop k).length = s.count + 1 := by
    rw [List.length_append, List.length_cons, List.length_take_of_le hk, List.length_drop]
    omega
  have hstored : ∀ i, ∀ hi : i < table.length,
      loadSymbol heap.memory (p + symbolSize * i) = table[i] := by
    intro i hi
    have hle : symbolSize * table.length ≤ (s.count + 1) * symbolSize := by
      rw [Nat.mul_comm (s.count + 1), hcount, Nat.mul_add_one]
      omega
    exact loadSymbol_reallocated h hle hre hi
  constructor
  case heap =>
    refine ⟨free, hinv.write fun a ha => ?_⟩
    rw [hcount]
    apply shifted_outside hend hk
    by_contra hnot
    refine ha c hc ⟨by omega, ?_⟩
    rw [← hcount, Nat.mul_comm] at hnot
    omega
  case count => exact hlength.symm
  case array =>
    refine .inr ⟨c, hc, hcp, ?_⟩
    rw [hlength, hreq, Nat.mul_comm]
  case stored =>
    intro i hi
    change loadSymbol (shifted heap.memory p k s.count symbol) (p + symbolSize * i) = _
    rw [hcount]
    exact loadSymbol_inserted hend hk hstored i hi

/-- The array has one symbol more than the `n` it had. -/
theorem insertAreas_inside {n : ℕ} (hend : ptr + symbolSize * (n + 1) < 2 ^ 64) (hk : k ≤ n) :
    ∀ area ∈ insertAreas ptr k n,
      ptr ≤ area.1 ∧ area.1 + area.2 ≤ ptr + symbolSize * (n + 1) := by
  have hin : symbolSize * (k + 1) + symbolSize * (n - k) = symbolSize * (n + 1) := by
    rw [← Nat.mul_add]
    congr 1
    omega
  have hnext : symbolSize * (k + 1) = symbolSize * k + symbolSize := Nat.mul_add_one _ _
  have hchunk : ptr + symbolSize * (k + 1) - (ptr + symbolSize * k) ∣ symbolSize * (n - k) := by
    rw [hnext, ← Nat.add_assoc, Nat.add_sub_cancel_left]
    exact Nat.dvd_mul_right _ _
  intro area harea
  rcases List.mem_append.mp harea with harea | harea
  · obtain ⟨c, hc, harea⟩ := List.mem_flatMap.mp harea
    obtain ⟨⟨hd1, hd2⟩, hs1, hs2⟩ := Lib.copies_inside (by omega) (fun _ => hchunk) c hc
    simp only [Lib.Copy.areas, List.mem_cons, List.not_mem_nil, or_false] at harea
    rcases harea with rfl | rfl
    · dsimp only
      omega
    · dsimp only
      omega
  · rw [List.mem_singleton] at harea
    subst harea
    have := Nat.zero_le (symbolSize * (n - k))
    dsimp only
    omega

/-- Either there is no memory, and the `ASSERT` fails, or the symbol is in its place. -/
theorem Holds.doInsertSymbol (h : Holds s table) (hk : k ≤ table.length) (symbol : Symbol) :
    (doInsertSymbol s k symbol = .error .assertion ∧
        ∃ heap, Heap.memRealloc s.clients.heap s.symbols ((s.count + 1) * symbolSize) =
          .ok (0, heap)) ∨
      ∃ s' areas, doInsertSymbol s k symbol = .ok (s', areas) ∧
        Holds s' (table.take k ++ symbol :: table.drop k) ∧
        ∀ area ∈ areas, s'.symbols ≤ area.1 ∧
          area.1 + area.2 ≤ s'.symbols + symbolSize * s'.count := by
  obtain ⟨free, hinv⟩ := h.heap
  have hcount := h.count
  have hlimit := h.size_le
  have hptr : s.symbols = 0 ∨ ∃ b ∈ s.clients.live, b.ptr = s.symbols := by
    rcases h.array with ⟨hnull, -⟩ | ⟨b, hb, hbp, -⟩
    · exact .inl hnull
    · exact .inr ⟨b, hb, hbp⟩
  rw [← hcount] at hlimit
  have hpos : (s.count + 1) * symbolSize ≠ 0 := Nat.mul_ne_zero (Nat.succ_ne_zero _) (by decide)
  have hsize : (s.count + 1) * symbolSize ≤ Heap.size1GB := by
    rw [symbolSize] at hlimit ⊢
    rw [Heap.size1GB]
    omega
  obtain ⟨p, heap, hre, hout⟩ := Heap.memRealloc_outcome hinv hptr hpos hsize
  obtain ⟨free', hinv'⟩ := hout.invariant hinv hpos
  rcases hout.reallocated hinv hpos with ⟨hp, -⟩ | ⟨hp, hrealloc⟩
  · refine .inl ⟨?_, heap, hp ▸ hre⟩
    simp only [Debug.doInsertSymbol, hre, hp, ↓reduceIte]
  · obtain ⟨c, hc, hcp, -, hroom, -⟩ := hrealloc.result
    have hcend := (hinv'.bounds hc).2
    have htop := Heap.allocRegionTop_lt (show 23 < 24 by decide)
    have hend : p + symbolSize * (s.count + 1) < 2 ^ 64 := by
      rw [Nat.mul_comm]
      omega
    exact .inr ⟨_, _, doInsertSymbol_eq hre hp (hcount ▸ hk) hlimit hend,
      h.inserted hk (hcount ▸ hend) hrealloc hinv',
      insertAreas_inside hend (hcount ▸ hk)⟩

/-- The accesses of a call lie inside the array it leaves. -/
def InsideArray (s : DebugState) (areas : List (ℕ × ℕ)) : Prop :=
  ∀ area ∈ areas, s.symbols ≤ area.1 ∧ area.1 + area.2 ≤ s.symbols + symbolSize * s.count

/-- What becomes of an insertion: the table stays, the kernel stops because there is no
memory, or the symbol gets between the lesser and the greater ones. -/
inductive InsertOutcome (s : DebugState) (table : List Symbol) (symbol : Symbol) :
    Except Fault (DebugState × List (ℕ × ℕ)) → Prop
  | present : (∃ t ∈ table, t.address = symbol.address) → InsertOutcome s table symbol (.ok (s, []))
  | noMemory {heap : Heap.HeapState} : (∀ t ∈ table, t.address ≠ symbol.address) →
      Heap.memRealloc s.clients.heap s.symbols ((s.count + 1) * symbolSize) = .ok (0, heap) →
      InsertOutcome s table symbol (.error .assertion)
  | inserted {s' : DebugState} {areas : List (ℕ × ℕ)} {before after : List Symbol} :
      table = before ++ after → (∀ t ∈ before, t.address < symbol.address) →
      (∀ t ∈ after, symbol.address < t.address) → Holds s' (before ++ symbol :: after) →
      InsideArray s' areas → InsertOutcome s table symbol (.ok (s', areas))

theorem Holds.insertSymbol (h : Holds s table) (hsorted : Sorted table) (symbol : Symbol) :
    InsertOutcome s table symbol (insertSymbol s symbol) := by
  rcases h.findSymbolInsertIndex hsorted symbol.address with
    ⟨hres, hpresent⟩ | ⟨k, hres, hk, hbefore, hafter⟩
  · have hrun : Debug.insertSymbol s symbol = .ok (s, []) := by
      simp only [Debug.insertSymbol, hres, ne_eq, not_true_eq_false, ↓reduceIte]
    rw [hrun]
    exact .present hpresent
  · have hrun : Debug.insertSymbol s symbol = Debug.doInsertSymbol s k symbol := by
      have hcount := h.count
      have hne : (k : ℤ) ≠ -1 := by omega
      simp only [Debug.insertSymbol, hres, if_pos hne]
      split_ifs with hlt
      · rfl
      · rw [show s.count = k by omega]
    rw [hrun]
    rcases h.doInsertSymbol hk symbol with ⟨hstop, heap, hre⟩ | ⟨s', areas, hok, hholds, hin⟩
    · rw [hstop]
      apply InsertOutcome.noMemory _ hre
      intro t ht
      rw [← List.take_append_drop k table] at ht
      rcases List.mem_append.mp ht with ht | ht
      · exact (hbefore t ht).ne
      · exact (hafter t ht).ne'
    · rw [hok]
      exact .inserted (List.take_append_drop k table).symm hbefore hafter hholds hin

theorem InsertOutcome.eq_of_present {result : Except Fault (DebugState × List (ℕ × ℕ))}
    (hout : InsertOutcome s table symbol result)
    (hpresent : ∃ t ∈ table, t.address = symbol.address) : result = .ok (s, []) := by
  obtain ⟨t, ht, heq⟩ := hpresent
  cases hout with
  | present _ => rfl
  | noMemory habsent _ => exact absurd heq (habsent t ht)
  | inserted htable hbefore hafter _ _ =>
    rw [htable] at ht
    rcases List.mem_append.mp ht with ht | ht
    · exact absurd heq (hbefore t ht).ne
    · exact absurd heq (hafter t ht).ne'

theorem InsertOutcome.cases_of_absent {result : Except Fault (DebugState × List (ℕ × ℕ))}
    (hout : InsertOutcome s table symbol result) (hsorted : Sorted table)
    (habsent : ∀ t ∈ table, t.address ≠ symbol.address) :
    (result = .error .assertion ∧ ∃ heap,
        Heap.memRealloc s.clients.heap s.symbols ((s.count + 1) * symbolSize) = .ok (0, heap)) ∨
      ∃ s' areas before after, result = .ok (s', areas) ∧ table = before ++ after ∧
        Holds s' (before ++ symbol :: after) ∧ Sorted (before ++ symbol :: after) ∧
        InsideArray s' areas := by
  cases hout with
  | present hpresent =>
    obtain ⟨t, ht, heq⟩ := hpresent
    exact absurd heq (habsent t ht)
  | noMemory _ hre => exact .inl ⟨rfl, _, hre⟩
  | inserted htable hbefore hafter hholds hin =>
    rw [htable] at hsorted
    exact .inr ⟨_, _, _, _, rfl, htable, hholds, sorted_between hsorted hbefore hafter, hin⟩

/-- The outcome is the abstract one. -/
theorem InsertOutcome.holds {areas : List (ℕ × ℕ)} {s' : DebugState} (h : Holds s table)
    (hout : InsertOutcome s table symbol (.ok (s', areas))) :
    Holds s' (insertByAddress table symbol) := by
  cases hout with
  | present hpresent =>
    rw [insertByAddress, if_pos hpresent]
    exact h
  | inserted htable hbefore hafter hholds _ =>
    have habsent : ¬ ∃ t ∈ table, t.address = symbol.address := by
      rintro ⟨t, ht, heq⟩
      rw [htable] at ht
      rcases List.mem_append.mp ht with ht | ht
      · exact (hbefore t ht).ne heq
      · exact (hafter t ht).ne' heq
    rw [insertByAddress, if_neg habsent, htable, orderedInsert_between hbefore hafter]
    exact hholds

end Array

section Abstract

variable {table : List Symbol}

theorem sorted_insertByAddress (h : Sorted table) (symbol : Symbol) :
    Sorted (insertByAddress table symbol) := by
  rw [insertByAddress]
  split_ifs
  · exact h
  · exact h.orderedInsert symbol table

theorem sublist_insertByAddress (table : List Symbol) (symbol : Symbol) :
    table.Sublist (insertByAddress table symbol) := by
  rw [insertByAddress]
  split_ifs
  · exact List.Sublist.refl table
  · exact List.sublist_orderedInsert symbol table

theorem address_mem_insertByAddress (table : List Symbol) (symbol : Symbol) :
    ∃ t ∈ insertByAddress table symbol, t.address = symbol.address := by
  rw [insertByAddress]
  split_ifs with h
  · exact h
  · exact ⟨symbol, (List.mem_orderedInsert AddressLE).mpr (.inl rfl), rfl⟩

end Abstract

/-! ### Runs -/

/-- An insertion, or a call of another client of the heap. -/
inductive Event where
  | insert (symbol : Symbol)
  | other (call : Heap.Call)

def DebugState.step (s : DebugState) : Event → Except Fault DebugState
  | .insert symbol => (insertSymbol s symbol).map (·.1)
  | .other call =>
    match s.clients.step call with
    | .ok clients => .ok { s with clients := clients }
    | .error fault => .error (.heap fault)

/-- The others use the heap as they may, and leave the array alone. -/
def Allowed (s : DebugState) : Event → Prop
  | .insert _ => True
  | .other call => Heap.Permitted s.clients call ∧ (s.symbols = 0 ∨ s.symbols ≠ call.target) ∧
      ∀ addr byte, call = .write addr byte →
        addr < s.symbols ∨ s.symbols + symbolSize * s.count ≤ addr

/-- The events of a run that does not stop. -/
inductive Run : DebugState → List Event → DebugState → Prop
  | nil (s : DebugState) : Run s [] s
  | cons {s t u : DebugState} {e : Event} {events : List Event} : Allowed s e →
      s.step e = .ok t → Run t events u → Run s (e :: events) u

/-- What an event does to the abstract table. -/
def tableAfter (table : List Symbol) : Event → List Symbol
  | .insert symbol => insertByAddress table symbol
  | .other _ => table

section Runs

variable {s s' : DebugState} {table : List Symbol}

theorem Holds.other (h : Holds s table) {call : Heap.Call} (hallowed : Allowed s (.other call))
    (hs : s.step (.other call) = .ok s') : Holds s' table := by
  obtain ⟨free, hinv⟩ := h.heap
  obtain ⟨hperm, htarget, hwrite⟩ := hallowed
  obtain ⟨clients, free', hclients, hinv'⟩ := Heap.step_invariant hinv hperm
  simp only [DebugState.step, hclients, Except.ok.injEq] at hs
  subst hs
  rcases h.array with ⟨hnull, rfl⟩ | ⟨b, hb, hptr, hreq⟩
  · exact ⟨⟨free', hinv'⟩, h.count, .inl ⟨hnull, rfl⟩, fun i hi => absurd hi (Nat.not_lt_zero i)⟩
  · obtain ⟨i, -, hbi, -⟩ := hinv.held b hb
    have hne : b.ptr ≠ call.target := by
      rw [hptr]
      exact htarget.resolve_left (hptr ▸ hbi.ne_zero)
    obtain ⟨hlive, hbytes⟩ := Heap.step_others hinv hperm hclients hb hne
    refine ⟨⟨free', hinv'⟩, h.count, .inr ⟨b, hlive, hptr, hreq⟩, fun i hi => ?_⟩
    rw [← h.stored i hi]
    have hlarge := (hinv.sound hb).large_enough
    have hcount := h.count
    have hmul : symbolSize * (i + 1) ≤ symbolSize * table.length := Nat.mul_le_mul_left _ hi
    rw [Nat.mul_add_one] at hmul
    apply loadSymbol_shift
    intro j hj
    change clients.heap.memory (s.symbols + symbolSize * i + j) = _
    apply hbytes
    · exact ⟨by omega, by omega⟩
    · intro byte heq
      have := hwrite _ byte heq
      rw [hcount] at this
      omega

theorem Holds.step (h : Holds s table) (hsorted : Sorted table) {e : Event} (hallowed : Allowed s e)
    (hs : s.step e = .ok s') : Holds s' (tableAfter table e) := by
  cases e with
  | insert symbol =>
    have hout := h.insertSymbol hsorted symbol
    rw [DebugState.step] at hs
    obtain ⟨⟨t, areas⟩, hins, rfl⟩ := Foundation.Transition.ok_of_map hs
    rw [hins] at hout
    exact hout.holds h
  | other call => exact h.other hallowed hs

theorem sorted_tableAfter (h : Sorted table) (e : Event) : Sorted (tableAfter table e) := by
  cases e with
  | insert symbol => exact sorted_insertByAddress h symbol
  | other call => exact h

theorem sublist_tableAfter (table : List Symbol) (e : Event) :
    table.Sublist (tableAfter table e) := by
  cases e with
  | insert symbol => exact sublist_insertByAddress table symbol
  | other call => exact List.Sublist.refl table

theorem sublist_tableAfter_foldl (table : List Symbol) (events : List Event) :
    table.Sublist (events.foldl tableAfter table) := by
  induction events generalizing table with
  | nil => exact List.Sublist.refl table
  | cons e events ih => exact (sublist_tableAfter table e).trans (ih _)

/-- A run keeps the table sorted and does to it what the list of its insertions does. -/
theorem Run.holds {events : List Event} (hrun : Run s events s') (h : Holds s table)
    (hsorted : Sorted table) :
    Holds s' (events.foldl tableAfter table) ∧ Sorted (events.foldl tableAfter table) := by
  induction hrun generalizing table with
  | nil s => exact ⟨h, hsorted⟩
  | cons hallowed hs hrest ih => exact ih (h.step hsorted hallowed hs) (sorted_tableAfter hsorted _)

/-- What was inserted is in the table from then on. -/
theorem inserted_mem_foldl {events : List Event} {symbol : Symbol} (h : .insert symbol ∈ events)
    (table : List Symbol) :
    ∃ t ∈ events.foldl tableAfter table, t.address = symbol.address := by
  induction events generalizing table with
  | nil => cases h
  | cons e events ih =>
    rcases List.mem_cons.mp h with rfl | h
    · obtain ⟨t, ht, haddr⟩ := address_mem_insertByAddress table symbol
      exact ⟨t, (sublist_tableAfter_foldl _ events).subset ht, haddr⟩
    · exact ih h _

end Runs

/-- In a sorted table a call leaves everything as it was when the address is there, and
else gets the symbol between the lesser and the greater addresses, all others in their
order, unless the reallocation fails and the `ASSERT` stops the kernel; it reads and
writes inside the array. So every run keeps the table sorted and all its symbols. -/
theorem insertSymbol_keeps_table (s : DebugState) (table : List Symbol) (h : Holds s table)
    (hsorted : Sorted table) :
    (∀ symbol,
      (∀ i ∈ (findSymbolInsertIndex s symbol.address).2, 0 ≤ i ∧ i < s.count) ∧
        ((∃ t ∈ table, t.address = symbol.address) → insertSymbol s symbol = .ok (s, [])) ∧
        ((∀ t ∈ table, t.address ≠ symbol.address) →
          (insertSymbol s symbol = .error .assertion ∧
              ∃ heap, Heap.memRealloc s.clients.heap s.symbols ((s.count + 1) * symbolSize) =
                .ok (0, heap)) ∨
            ∃ s' areas before after, insertSymbol s symbol = .ok (s', areas) ∧
              table = before ++ after ∧ Holds s' (before ++ symbol :: after) ∧
              Sorted (before ++ symbol :: after) ∧ InsideArray s' areas)) ∧
      ∀ events s', Run s events s' → ∃ table', Holds s' table' ∧ Sorted table' ∧
        table' = events.foldl tableAfter table ∧ table.Sublist table' ∧
        ∀ symbol, .insert symbol ∈ events → ∃ t ∈ table', t.address = symbol.address := by
  constructor
  · intro symbol
    have hout := h.insertSymbol hsorted symbol
    refine ⟨fun i hi => ?_, hout.eq_of_present, hout.cases_of_absent hsorted⟩
    have := findLoop_inside s.symbolAt symbol.address 0 (s.count - 1) i hi
    omega
  · intro events s' hrun
    obtain ⟨hholds, hsorted'⟩ := hrun.holds h hsorted
    exact ⟨_, hholds, hsorted', rfl, sublist_tableAfter_foldl table events,
      fun symbol hmem => inserted_mem_foldl hmem table⟩

/-- A symbol of ten bytes. -/
def tenBytesAt (address : ℕ) (h : address < 2 ^ 64) : Symbol :=
  ⟨address, 10, 56, h, by decide, by decide⟩

/-- Symbols at 100 and 300 in a block that was allocated for the two. -/
def twoSymbols : DebugState where
  clients :=
    { heap :=
        { (Heap.takeBlock (Heap.initAlloc fun _ => 0) ⟨3, by decide⟩ 64).2 with
          memory := storeSymbol
            (storeSymbol (fun _ => 0) 0xFFFFC18000000000 (tenBytesAt 100 (by decide)))
            0xFFFFC18000000018 (tenBytesAt 300 (by decide)) }
      live := [⟨0xFFFFC18000000000, 3, 2 * symbolSize⟩] }
  symbols := 0xFFFFC18000000000
  count := 2

theorem twoSymbols_holds :
    Holds twoSymbols [tenBytesAt 100 (by decide), tenBytesAt 300 (by decide)] where
  heap := by
    obtain ⟨s, free, hs, hinv⟩ := Heap.step_invariant (s := Heap.booted fun _ => 0)
      (Heap.initAlloc_invariant _) (c := .alloc (2 * symbolSize)) (by decide : _ ≤ Heap.size1GB)
    cases hs
    refine ⟨free, hinv.write fun a ha => ?_⟩
    have hout : ¬ (0xFFFFC18000000000 ≤ a ∧ a < 0xFFFFC18000000000 + 64) :=
      ha ⟨0xFFFFC18000000000, 3, 2 * symbolSize⟩ List.mem_cons_self
    rw [storeSymbol_outside (by rw [symbolSize]; omega),
      storeSymbol_outside (by rw [symbolSize]; omega)]
    rfl
  count := rfl
  array := .inr ⟨_, List.mem_cons_self, rfl, rfl⟩
  stored := by
    intro i hi
    have hi : i < 2 := hi
    obtain rfl | rfl : i = 0 ∨ i = 1 := by omega
    · change loadSymbol _ 0xFFFFC18000000000 = tenBytesAt 100 (by decide)
      rw [← @loadSymbol_storeSymbol (fun _ => 0) 0xFFFFC18000000000 (tenBytesAt 100 (by decide))]
      apply loadSymbol_shift
      intro j hj
      rw [symbolSize] at hj
      exact storeSymbol_outside (by omega)
    · exact loadSymbol_storeSymbol

theorem sorted_place {low middle high : Symbol} (hlow : low.address < middle.address)
    (hhigh : middle.address < high.address) {before after : List Symbol}
    (htable : [low, high] = before ++ after) (h : Sorted (before ++ middle :: after)) :
    before = [low] ∧ after = [high] := by
  rw [Sorted, List.pairwise_append, List.pairwise_cons] at h
  obtain ⟨-, ⟨habove, -⟩, hbelow⟩ := h
  rcases before with _ | ⟨x, before⟩
  · rw [List.nil_append] at htable
    subst htable
    have hle : middle.address ≤ low.address := habove low List.mem_cons_self
    omega
  · rw [List.cons_append, List.cons.injEq] at htable
    obtain ⟨rfl, htable⟩ := htable
    rcases before with _ | ⟨y, before⟩
    · exact ⟨rfl, htable.symm⟩
    · rw [List.cons_append, List.cons.injEq] at htable
      obtain ⟨rfl, -⟩ := htable
      have hle : high.address ≤ middle.address := hbelow high (by simp) middle List.mem_cons_self
      omega

/-- The symbol at 200 gets between the two, whose block is too small for three. -/
theorem insertSymbol_keeps_table_middle :
    let low := tenBytesAt 100 (by decide)
    let middle := tenBytesAt 200 (by decide)
    let high := tenBytesAt 300 (by decide)
    Holds twoSymbols [low, high] ∧ Sorted [low, high] ∧
      ∃ s' areas, insertSymbol twoSymbols middle = .ok (s', areas) ∧
        Holds s' [low, middle, high] ∧ Sorted [low, middle, high] ∧ InsideArray s' areas := by
  intro low middle high
  have hsorted : Sorted [low, high] := by
    unfold Sorted
    decide
  have hroom : (Heap.memRealloc twoSymbols.clients.heap twoSymbols.symbols
      ((twoSymbols.count + 1) * symbolSize)).map Prod.fst = .ok 0xFFFFC20000000000 := rfl
  refine ⟨twoSymbols_holds, hsorted, ?_⟩
  rcases ((insertSymbol_keeps_table twoSymbols _ twoSymbols_holds hsorted).1 middle).2.2
    (by decide) with ⟨-, heap, hnull⟩ | ⟨s', areas, before, after, hok, htable, hholds, hs, hin⟩
  · rw [hnull] at hroom
    cases hroom
  · obtain ⟨rfl, rfl⟩ := sorted_place (by decide : low.address < middle.address)
      (by decide : middle.address < high.address) htable hs
    exact ⟨s', areas, hok, hholds, hs, hin⟩

end TomatOS.Debug
