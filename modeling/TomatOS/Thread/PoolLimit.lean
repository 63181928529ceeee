import TomatOS.Thread.Pool
import TomatOS.Foundation.Transition

/-! `thread_create` when all the thread structures are live. The code tests for a null
thread after `thread_alloc`, but the tail of `thread_alloc` has already computed an id
from the pointer and written the stack bounds through it, so no history gets to see
the test fail. -/

namespace TomatOS.Thread

open Foundation.Transition

namespace Pool

/-- The tail of `thread_alloc`, where `none` is the null pointer: the id of the thread
is its distance from the array, and the stack bounds are written through the pointer. -/
def initStack (p : Pool) : Option ℕ → Result (Option ℕ × Pool)
  | some t => .ok (some t, p.setStack t)
  | none => .error .nullThread

/-- `thread_alloc` with the pointer it starts from. -/
def threadAllocPtr (p : Pool) : Result (Option ℕ × Pool) := do
  let (thread, p) : Option ℕ × Pool := match p.freelist with
    | t :: rest => (some t, ({ p with freelist := rest } : Pool).zero t)
    | [] => (none, p)
  let (thread, p) ← if thread = none ∧ p.top < uint16Max then do
      let t := p.top
      let p ← ({ p with top := p.top + 1 } : Pool).switchStatus t .idle .dead
      pure (some t, p)
    else pure (thread, p)
  p.initStack thread

/-- `thread_create` with its test of the pointer. -/
def threadCreatePtr (p : Pool) (name : String) : Result (Option ℕ × Pool) := do
  let (thread, p) ← p.threadAllocPtr
  match thread with
  | none => return (none, p)
  | some t =>
    if p.status t = .dead then
      let p := p.modify t fun info =>
        { info with name := name, cpuState := info.stackEnd - 8 - threadFrameSize }
      let p ← p.switchStatus t .dead .waiting
      return (some t, p)
    else .error .assertion

/-- What the caller of `thread_create` may rely on when there is no structure left. -/
def RefusesCreation (p : Pool) (name : String) : Prop :=
  p.threadCreatePtr name = .ok (none, p)

variable {p : Pool}

theorem threadAllocPtr_eq (p : Pool) :
    p.threadAllocPtr = p.threadAlloc.map fun r => (some r.1, r.2) := by
  rw [threadAllocPtr, threadAlloc]
  rcases hf : p.freelist with _ | ⟨t, rest⟩
  · by_cases htop : p.top < uint16Max
    · simp only [htop, hf, initStack, bind, Except.bind, pure, Except.pure, Except.map, and_self,
        ↓reduceIte]
      rcases Pool.switchStatus _ p.top .idle .dead with f | q <;> rfl
    · simp [htop, initStack, bind, Except.bind, pure, Except.pure, Except.map]
  · simp [initStack, bind, Except.bind, pure, Except.pure, Except.map]

theorem threadCreatePtr_eq (p : Pool) (name : String) :
    p.threadCreatePtr name = (p.threadCreate name).map fun r => (some r.1, r.2) := by
  rw [threadCreatePtr, threadCreate, threadAllocPtr_eq]
  rcases p.threadAlloc with f | ⟨t, q⟩
  · rfl
  · simp only [Except.map, bind, Except.bind]
    split_ifs
    · rcases q.modify t _ |>.switchStatus t .dead .waiting with f | q <;> rfl
    · rfl

theorem threadCreatePtr_full (hf : p.freelist = []) (htop : p.top = uint16Max) (name : String) :
    p.threadCreatePtr name = .error .nullThread := by
  rw [threadCreatePtr_eq, threadCreate_full hf (by omega) name]
  rfl

theorem not_refusesCreation (p : Pool) (name : String) : ¬ p.RefusesCreation name := by
  rw [RefusesCreation, threadCreatePtr_eq]
  rcases p.threadCreate name with f | r
  · intro h
    cases h
  · intro h
    cases h

end Pool

namespace History

/-- From the start, creations alone take one structure each. -/
theorem create_many (name : String) {n : ℕ} (hn : n ≤ uint16Max) :
    ∃ s, (List.replicate n (Call.create name)).foldlM step initial = .ok s ∧ s.Inv ∧
      s.pool.freelist = [] ∧ s.live.length = n := by
  induction n with
  | zero => exact ⟨initial, rfl, initial_inv, rfl, rfl⟩
  | succ n ih =>
    obtain ⟨s, hs, hinv, hf, hlen⟩ := ih (by omega)
    obtain ⟨s', hs', hinv', hf', t, hlive, -⟩ := create_fresh hinv hf (by omega) name
    refine ⟨s', ?_, hinv', hf', ?_⟩
    · rw [List.replicate_succ', foldlM_concat_of_ok hs]
      exact hs'
    · rw [hlive, List.length_cons, hlen]

theorem exhausted (name : String) :
    ∃ s, (List.replicate uint16Max (Call.create name)).foldlM step initial = .ok s ∧
      s.pool.top = uint16Max ∧ s.pool.freelist = [] := by
  obtain ⟨s, hs, hinv, hf, hlen⟩ := create_many name le_rfl
  refine ⟨s, hs, ?_, hf⟩
  have := hinv.accounted
  rw [hf, List.length_nil] at this
  omega

end History

/-- Whatever creations and exits have left the array used up and the freelist empty, a
further creation does not return the null pointer: it uses it as a thread. The history only
says which pools are meant. -/
theorem creation_when_full (calls : List Call) (s : History)
    (_hs : calls.foldlM History.step History.initial = .ok s) (htop : s.pool.top = uint16Max)
    (hf : s.pool.freelist = []) (name : String) :
    s.pool.threadCreatePtr name = .error .nullThread ∧ ¬ s.pool.RefusesCreation name :=
  ⟨Pool.threadCreatePtr_full hf htop name, Pool.not_refusesCreation s.pool name⟩

/-- 65535 creations use the array up. -/
theorem creation_after_65535 :
    ∃ s, (List.replicate uint16Max (Call.create "worker")).foldlM History.step History.initial =
        .ok s ∧
      s.pool.threadCreatePtr "next" = .error .nullThread ∧ ¬ s.pool.RefusesCreation "next" := by
  obtain ⟨s, hs, htop, hf⟩ := History.exhausted "worker"
  exact ⟨s, hs, creation_when_full _ s hs htop hf "next"⟩

theorem creation_not_refused :
    ¬ ∀ (calls : List Call) (s : History),
      calls.foldlM History.step History.initial = .ok s → s.pool.top = uint16Max →
        s.pool.freelist = [] → ∀ name, s.pool.RefusesCreation name := by
  intro hall
  obtain ⟨s, hs, htop, hf⟩ := History.exhausted "worker"
  exact Pool.not_refusesCreation s.pool "next" (hall _ s hs htop hf "next")

end TomatOS.Thread
