import TomatOS.Foundation.TracedArray
import Mathlib.Algebra.Order.Ring.Nat

/-! The symbol table of `kernel/debug/debug.c`: an array of symbols, its length, and what
it means that it is sorted and that an address lies in the range of a symbol. Indices are
`int` in the source; the heap hands out blocks of 64MB at most, so a table has far less
than `2^31` entries and no index expression of these functions wraps. -/

namespace TomatOS.Debug

/-- `symbol_t`, three words. -/
@[ext] structure Symbol where
  address : ℕ
  size : ℕ
  name : ℕ
  address_lt : address < 2 ^ 64
  size_lt : size < 2 ^ 64
  name_lt : name < 2 ^ 64
  deriving DecidableEq

/-- The range of a symbol, `[address, address + size)`. -/
def Symbol.Holds (symbol : Symbol) (addr : ℕ) : Prop :=
  symbol.address ≤ addr ∧ addr < symbol.address + symbol.size

instance (symbol : Symbol) (addr : ℕ) : Decidable (symbol.Holds addr) :=
  inferInstanceAs (Decidable (_ ∧ _))

/-- The symbols from `lo` to `hi` are in the order of their addresses, equal ones allowed. -/
def SortedBetween (symbols : ℤ → Symbol) (lo hi : ℤ) : Prop :=
  ∀ i j : ℤ, lo ≤ i → i ≤ j → j ≤ hi → (symbols i).address ≤ (symbols j).address

/-- The non-empty ranges of a table of `count` symbols are pairwise disjoint. -/
def DisjointRanges (symbols : ℤ → Symbol) (count : ℕ) : Prop :=
  ∀ i j : ℤ, 0 ≤ i → i < j → j < count → (symbols i).size ≠ 0 → (symbols j).size ≠ 0 →
    ∀ addr, ¬ ((symbols i).Holds addr ∧ (symbols j).Holds addr)

end TomatOS.Debug
