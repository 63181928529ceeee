import Mathlib.Logic.Function.Basic
import Mathlib.Data.List.Nodup
import Mathlib.Data.BitVec

/-! A register machine with a stack in byte-addressed memory, all of 64 bits and with
addresses that wrap around. Pushing a list of registers lays them out below the stack
pointer and touches nothing else; popping a list of distinct registers reads such a
layout back. -/

namespace TomatOS.Foundation.StackMachine

abbrev Word := BitVec 64
abbrev Memory := Word → UInt8

/-- The little-endian word at an address. -/
def loadWord (m : Memory) (a : Word) : Word :=
  BitVec.ofNat 64 ((List.range 8).foldr (fun i acc => (m (a + BitVec.ofNat 64 i)).toNat + 256 * acc) 0)

def storeWord (m : Memory) (a v : Word) : Memory := fun x =>
  if (x - a).toNat < 8 then UInt8.ofNat (v.toNat / 256 ^ (x - a).toNat) else m x

variable {ρ : Type} [DecidableEq ρ]

structure Machine (ρ : Type) where
  regs : ρ → Word
  rip : Word
  interrupts : Bool
  memory : Memory

/-- The instructions that move words between registers, the stack and memory; `store`
writes a register to the address in another. -/
inductive Instr (ρ : Type) where
  | push (r : ρ)
  | pop (r : ρ)
  | mov (src dst : ρ)
  | store (src base : ρ)
  | sti
  | jmp (r : ρ)
  | ret
  deriving DecidableEq, Repr

namespace Machine

variable (sp : ρ)

def set (m : Machine ρ) (r : ρ) (v : Word) : Machine ρ :=
  { m with regs := Function.update m.regs r v }

/-- One instruction, where `sp` is the stack pointer. -/
def exec (m : Machine ρ) : Instr ρ → Machine ρ
  | .push r =>
    { m.set sp (m.regs sp - 8) with memory := storeWord m.memory (m.regs sp - 8) (m.regs r) }
  | .pop r => (m.set sp (m.regs sp + 8)).set r (loadWord m.memory (m.regs sp))
  | .mov src dst => m.set dst (m.regs src)
  | .store src base => { m with memory := storeWord m.memory (m.regs base) (m.regs src) }
  | .sti => { m with interrupts := true }
  | .jmp r => { m with rip := m.regs r }
  | .ret => { m.set sp (m.regs sp + 8) with rip := loadWord m.memory (m.regs sp) }

def run (m : Machine ρ) (code : List (Instr ρ)) : Machine ρ := code.foldl (exec sp) m

theorem run_cons (m : Machine ρ) (i : Instr ρ) (code : List (Instr ρ)) :
    m.run sp (i :: code) = (m.exec sp i).run sp code := rfl

theorem run_append (m : Machine ρ) (code code' : List (Instr ρ)) :
    m.run sp (code ++ code') = (m.run sp code).run sp code' := List.foldl_append

end Machine

/-! ### Words in memory -/

variable {m m' : Memory} {a b v : Word}

/-- The two words share no byte. -/
def Apart (a b : Word) : Prop := 8 ≤ (b - a).toNat ∧ 8 ≤ (a - b).toNat

theorem loadWord_congr (h : ∀ i < 8, m' (a + BitVec.ofNat 64 i) = m (a + BitVec.ofNat 64 i)) :
    loadWord m' a = loadWord m a := by
  rw [loadWord, loadWord]
  apply congrArg (BitVec.ofNat 64)
  apply List.foldr_ext
  intro i hi acc
  rw [h i (List.mem_range.mp hi)]

theorem loadWord_storeWord : loadWord (storeWord m a v) a = v := by
  have hbyte : ∀ i < 8, (storeWord m a v (a + BitVec.ofNat 64 i)).toNat =
      v.toNat / 256 ^ i % 256 := by
    intro i hi
    have hoff : (a + BitVec.ofNat 64 i - a).toNat = i := by bv_omega
    rw [storeWord, hoff, if_pos hi]
    exact UInt8.toNat_ofNat'
  apply BitVec.eq_of_toNat_eq
  have hv := v.isLt
  simp only [loadWord, List.range_succ, List.range_zero, List.nil_append, List.cons_append,
    List.foldr_cons, List.foldr_nil, BitVec.toNat_ofNat, hbyte 0 (by omega), hbyte 1 (by omega),
    hbyte 2 (by omega), hbyte 3 (by omega), hbyte 4 (by omega), hbyte 5 (by omega),
    hbyte 6 (by omega), hbyte 7 (by omega)]
  omega

theorem loadWord_storeWord_apart (h : Apart a b) : loadWord (storeWord m b v) a = loadWord m a := by
  apply loadWord_congr
  intro i hi
  have hout : ¬ (a + BitVec.ofNat 64 i - b).toNat < 8 := by
    obtain ⟨h1, h2⟩ := h
    bv_omega
  rw [storeWord, if_neg hout]

/-! ### Pushing and popping lists of registers -/

/-- The words stored one below another, from an address down. -/
def pushWords (m : Memory) (a : Word) : List Word → Memory
  | [] => m
  | v :: vs => pushWords (storeWord m (a - 8) v) (a - 8) vs

/-- Only the bytes right below the address are written. -/
theorem pushWords_outside {vs : List Word} {x : Word} (h : 8 * vs.length ≤ (a - 1 - x).toNat) :
    pushWords m a vs x = m x := by
  induction vs generalizing m a with
  | nil => rfl
  | cons v vs ih =>
    rw [List.length_cons] at h
    rw [pushWords, ih (by bv_omega)]
    have hout : ¬ (x - (a - 8)).toNat < 8 := by bv_omega
    rw [storeWord, if_neg hout]

theorem loadWord_pushWords_outside {vs : List Word}
    (h : ∀ i < 8, 8 * vs.length ≤ (a - 1 - (b + BitVec.ofNat 64 i)).toNat) :
    loadWord (pushWords m a vs) b = loadWord m b :=
  loadWord_congr fun i hi => pushWords_outside (h i hi)

/-- The words stand in order, as long as they do not go once around memory. -/
theorem loadWord_pushWords {vs : List Word} (hlen : 8 * vs.length ≤ 2 ^ 64) {k : ℕ}
    (hk : k < vs.length) :
    loadWord (pushWords m a vs) (a - BitVec.ofNat 64 (8 * (k + 1))) = vs[k] := by
  induction vs generalizing m a k with
  | nil => cases hk
  | cons v vs ih =>
    rw [List.length_cons] at hlen hk
    rw [pushWords]
    cases k with
    | zero =>
      have hout : ∀ i < 8, 8 * vs.length ≤
          (a - 8 - 1 - (a - BitVec.ofNat 64 (8 * (0 + 1)) + BitVec.ofNat 64 i)).toNat := by
        intro i hi
        bv_omega
      rw [loadWord_pushWords_outside hout]
      exact loadWord_storeWord
    | succ k =>
      have hshift : a - BitVec.ofNat 64 (8 * (k + 1 + 1)) =
          a - 8 - BitVec.ofNat 64 (8 * (k + 1)) := by bv_omega
      rw [hshift, ih (by omega) (by omega), List.getElem_cons_succ]

theorem pushWords_append (vs ws : List Word) : pushWords m a (vs ++ ws) =
    pushWords (pushWords m a vs) (a - BitVec.ofNat 64 (8 * vs.length)) ws := by
  induction vs generalizing m a with
  | nil => simp [pushWords]
  | cons v vs ih =>
    have hsub : a - 8 - BitVec.ofNat 64 (8 * vs.length) =
        a - BitVec.ofNat 64 (8 * (vs.length + 1)) := by bv_omega
    rw [List.cons_append, pushWords, ih, hsub]
    rfl

namespace Machine

variable {sp : ρ} {rs : List ρ}

/-- Pushing registers other than the stack pointer. -/
theorem run_push (m : Machine ρ) (hsp : sp ∉ rs) :
    m.run sp (rs.map .push) = { m.set sp (m.regs sp - BitVec.ofNat 64 (8 * rs.length)) with
      memory := pushWords m.memory (m.regs sp) (rs.map m.regs) } := by
  induction rs generalizing m with
  | nil => simp [run, set, pushWords]
  | cons r rs ih =>
    obtain ⟨hr, hrest⟩ := not_or.mp (mt List.mem_cons.mpr hsp)
    have hregs : rs.map (m.exec sp (.push r)).regs = rs.map m.regs := by
      apply List.map_congr_left
      intro q hq
      have hne : q ≠ sp := by
        rintro rfl
        exact hrest hq
      exact Function.update_of_ne hne _ _
    have hsub : m.regs sp - 8 - BitVec.ofNat 64 (8 * rs.length) =
        m.regs sp - BitVec.ofNat 64 (8 * (rs.length + 1)) := by bv_omega
    rw [List.map_cons, run_cons, ih _ hrest, hregs]
    simp only [exec, set, pushWords, List.map_cons, List.length_cons, Function.update_self,
      Function.update_idem, hsub]

/-- Popping distinct registers other than the stack pointer. -/
theorem run_pop (m : Machine ρ) (hsp : sp ∉ rs) (hnodup : rs.Nodup) :
    (m.run sp (rs.map .pop)).memory = m.memory ∧
    (m.run sp (rs.map .pop)).interrupts = m.interrupts ∧
    (m.run sp (rs.map .pop)).regs sp = m.regs sp + BitVec.ofNat 64 (8 * rs.length) ∧
    (∀ r ∉ rs, r ≠ sp → (m.run sp (rs.map .pop)).regs r = m.regs r) ∧
    ∀ (k : ℕ) (hk : k < rs.length), (m.run sp (rs.map .pop)).regs rs[k] =
      loadWord m.memory (m.regs sp + BitVec.ofNat 64 (8 * k)) := by
  induction rs generalizing m with
  | nil => simp [run]
  | cons r rs ih =>
    obtain ⟨hr, hrest⟩ := not_or.mp (mt List.mem_cons.mpr hsp)
    obtain ⟨hnew, hnodup⟩ := List.nodup_cons.mp hnodup
    obtain ⟨hmem, hint, hstack, hother, hread⟩ := ih (m.exec sp (.pop r)) hrest hnodup
    have hsp' : (m.exec sp (.pop r)).regs sp = m.regs sp + 8 := by
      simp [exec, set, Function.update_of_ne hr]
    have hr' : (m.exec sp (.pop r)).regs r = loadWord m.memory (m.regs sp) := by
      simp [exec, set]
    rw [List.map_cons, run_cons]
    refine ⟨hmem, hint, ?_, fun q hq hne => ?_, fun k hk => ?_⟩
    · rw [hstack, hsp', List.length_cons]
      bv_omega
    · obtain ⟨hqr, hq⟩ := not_or.mp (mt List.mem_cons.mpr hq)
      rw [hother q hq hne]
      simp [exec, set, Function.update_of_ne hne, Function.update_of_ne hqr]
    · cases k with
      | zero =>
        rw [List.getElem_cons_zero, hother r hnew (Ne.symm hr), hr']
        simp
      | succ k =>
        have hshift : m.regs sp + 8 + BitVec.ofNat 64 (8 * k) =
            m.regs sp + BitVec.ofNat 64 (8 * (k + 1)) := by bv_omega
        rw [List.getElem_cons_succ, hread k (by simpa using hk), hsp', hshift]
        rfl

end Machine

end TomatOS.Foundation.StackMachine
