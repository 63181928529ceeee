import TomatOS.Foundation.Simulation
import TomatOS.RbTree.Runs
import TomatOS.Time.Backend

/-! The timers of one core over the red-black tree itself: the timers are addresses, the
node is the first field of a timer, and the three operations work on the words of the nodes.
Every run of them does what the run over sorted sequences does. -/

namespace TomatOS.Time

open Foundation
open RbTree (RbRootCached rbAddCached rbEraseCached loopBound NodeAddress Sound)

variable {κ : Type}

/-- The tree of a core and the fields of the timers, by address. -/
structure TreeTimers (κ : Type) where
  tree : RbRootCached
  timers : ℕ → Bool
  deadline : ℕ → ℕ
  callback : ℕ → κ
  backend : Backend

namespace TreeTimers

def timerLess (s : TreeTimers κ) (a b : ℕ) : Bool := s.deadline a < s.deadline b

def onTree (s : TreeTimers κ) (x : RbTree.CachedOp ℕ) : Result (ℕ × TreeTimers κ) :=
  match x s.tree with
  | some (v, tree) => .ok (v, { s with tree := tree })
  | none => .error .corruptTree

def setBackend (s : TreeTimers κ) (b : Backend) : TreeTimers κ := { s with backend := b }

/-- `timer->timers = NULL`. -/
def disarm (s : TreeTimers κ) (timer : ℕ) : TreeTimers κ :=
  { s with timers := Function.update s.timers timer false }

def cancelErase (s : TreeTimers κ) (timer : ℕ) : Result (TreeTimers κ) := do
  let oldLeftmost := s.tree.rbLeftmost
  let (newLeftmost, s) ← s.onTree (rbEraseCached loopBound timer)
  if oldLeftmost ≠ newLeftmost then
    if newLeftmost ≠ 0 then return s.setBackend (.setDeadline (s.deadline newLeftmost))
    else return s.setBackend .clear
  else return s

def timerCancel (s : TreeTimers κ) (timer : ℕ) : Result (TreeTimers κ) :=
  if s.timers timer then (s.disarm timer).cancelErase timer else .ok s

def setAdd (s : TreeTimers κ) (timer : ℕ) (callback : κ) (deadline : ℕ) :
    Result (TreeTimers κ) := do
  let s := { s with
    deadline := Function.update s.deadline timer deadline
    callback := Function.update s.callback timer callback
    timers := Function.update s.timers timer true }
  let (leftmost, s) ← s.onTree (rbAddCached s.timerLess loopBound timer)
  if leftmost ≠ 0 then return s.setBackend (.setDeadline deadline) else return s

def timerSet (s : TreeTimers κ) (timer : ℕ) (callback : κ) (deadline : ℕ) :
    Result (TreeTimers κ) := do
  let s ← s.timerCancel timer
  s.setAdd timer callback deadline

def call (s : TreeTimers κ) : Call ℕ κ → Result (TreeTimers κ)
  | .set timer callback deadline => s.timerSet timer callback deadline
  | .cancel timer => s.timerCancel timer

/-- `timer_dispatch`, with the timers whose callbacks ran and the readings at which they
did. -/
def timerDispatch (s : TreeTimers κ) :
    List (Iteration ℕ κ) → Result (TreeTimers κ × List (ℕ × ℕ))
  | [] =>
    if s.tree.rbLeftmost = 0 then .ok (s.setBackend .clear, []) else .error .unfinished
  | it :: script =>
    let timer := s.tree.rbLeftmost
    if timer = 0 then .ok (s.setBackend .clear, [])
    else if it.now < s.deadline timer then
      .ok (s.setBackend (.setDeadline (s.deadline timer)), [])
    else if s.timers timer then do
      let (_, s) ← s.onTree (rbEraseCached loopBound timer)
      let s ← it.calls.foldlM call (s.disarm timer)
      let (s, ran) ← timerDispatch s script
      return (s, (timer, it.now) :: ran)
    else .error .assertion

def run (s : TreeTimers κ) : Op ℕ κ → Result (TreeTimers κ)
  | .call c => s.call c
  | .dispatch script => do
    let (s, _) ← s.timerDispatch script
    return s

/-- `RB_ROOT_CACHED`, with no timer armed and the backend as at reset. -/
def initial (mem : RbTree.Mem) (deadline : ℕ → ℕ) (callback : ℕ → κ) : TreeTimers κ where
  tree := ⟨{ mem with rbNode := 0 }, 0⟩
  timers := fun _ => false
  deadline := deadline
  callback := callback
  backend := .clear

end TreeTimers

/-! ### What the tree stands for -/

/-- A pointer to a node, if it is not null. -/
def nodeAt (p : ℕ) : Option ℕ := if p = 0 then none else some p

theorem nodeAt_injective : Function.Injective nodeAt := by
  intro a b h
  unfold nodeAt at h
  split_ifs at h with ha hb
  · rw [ha, hb]
  · exact Option.some.inj h

/-- The tree holds the sequence of the timers, the fields are the same. -/
structure Represents (s : TreeTimers κ) (q : TimerState ℕ κ) : Prop where
  sound : Sound s.tree q.tree
  timers : s.timers = q.timers
  deadline : s.deadline = q.deadline
  callback : s.callback = q.callback
  backend : s.backend = q.backend

variable {s : TreeTimers κ} {q : TimerState ℕ κ} {timer : ℕ}

theorem nodeAt_getD {o : Option ℕ} (h : ∀ t ∈ o, t ≠ 0) : nodeAt (o.getD 0) = o := by
  cases o with
  | none => rfl
  | some t => exact if_neg (h t rfl)

theorem Represents.leftmost (h : Represents s q) :
    nodeAt s.tree.rbLeftmost = CachedTree.leftmost q.tree := by
  rw [h.sound.leftmost, List.headD_eq_head?_getD]
  apply nodeAt_getD
  intro t ht
  exact h.sound.placed.ne_zero t (List.mem_of_mem_head? ht)

theorem Represents.disarm (h : Represents s q) (timer : ℕ) :
    Represents (s.disarm timer) (q.disarm timer) :=
  ⟨h.sound, by rw [TreeTimers.disarm, h.timers]; rfl, h.deadline, h.callback, h.backend⟩

theorem Represents.setBackend (h : Represents s q) (b : Backend) :
    Represents (s.setBackend b) (q.setBackend b) :=
  ⟨h.sound, h.timers, h.deadline, h.callback, rfl⟩

theorem Represents.erase (h : Represents s q) (hmem : timer ∈ q.tree) :
    Matches (fun a b => nodeAt a.1 = b.1 ∧ Represents a.2 b.2)
      (s.onTree (rbEraseCached loopBound timer)) (q.erase timer) := by
  obtain ⟨v, tree, hrun, rfl, hsound⟩ :=
    RbTree.wp_rbEraseCached h.sound hmem h.sound.placed.enough
  rw [TreeTimers.onTree, hrun, TimerState.erase, if_pos hmem]
  apply Matches.ok
  constructor
  · apply nodeAt_getD
    intro t ht
    rw [CachedTree.eraseCached] at ht
    split_ifs at ht
    · exact hsound.placed.ne_zero t (List.mem_of_mem_head? ht)
    · cases ht
  · exact ⟨hsound, h.timers, h.deadline, h.callback, h.backend⟩

theorem Represents.add (h : Represents s q) (hq : CachedTree.Sorted q.deadline q.tree)
    (hnode : NodeAddress timer) (hn : timer ∉ q.tree) :
    Matches (fun a b => (a.1 ≠ 0 ↔ b.1 = true) ∧ Represents a.2 b.2)
      (s.onTree (rbAddCached s.timerLess loopBound timer)) (q.add timer) := by
  have hless : s.timerLess = q.timerLess := by
    funext a b
    rw [TreeTimers.timerLess, h.deadline]
    rfl
  have hmono := RbTree.mono_of_sorted hq timer
  obtain ⟨v, tree, hrun, rfl, hsound⟩ :=
    RbTree.wp_rbAddCached h.sound hnode hn hmono h.sound.placed.enough
  rw [TreeTimers.onTree, hless, show q.timerLess = RbTree.keyLess q.deadline from rfl, hrun,
    TimerState.add, if_neg hn]
  apply Matches.ok
  refine ⟨?_, hsound, h.timers, h.deadline, h.callback, h.backend⟩
  show (if CachedTree.becomesLeftmost q.timerLess timer q.tree = true then timer else 0) ≠ 0 ↔ _
  split_ifs with hfirst
  · exact iff_of_true hnode.ne_zero hfirst
  · exact iff_of_false (fun hc => hc rfl) hfirst

/-! ### The operations -/

theorem Represents.cancelErase (h : Represents s q) (hmem : timer ∈ q.tree) :
    Matches Represents (s.cancelErase timer) (q.cancelErase timer) := by
  unfold TreeTimers.cancelErase TimerState.cancelErase
  apply (h.erase hmem).bind
  rintro ⟨p, s'⟩ ⟨o, q'⟩ ⟨rfl, h'⟩
  have hleftmost : CachedTree.leftmost q.tree ≠ nodeAt p ↔ s.tree.rbLeftmost ≠ p := by
    rw [← h.leftmost, nodeAt_injective.ne_iff]
  simp only [hleftmost]
  split_ifs with hne hp
  · rw [nodeAt, if_neg hp, ← h'.deadline]
    exact .ok (h'.setBackend _)
  · rw [nodeAt, if_pos (not_not.mp hp)]
    exact .ok (h'.setBackend _)
  · exact .ok h'

theorem Represents.timerCancel (h : Represents s q) (hq : WellFormed q) (timer : ℕ) :
    Matches Represents (s.timerCancel timer) (q.timerCancel timer) := by
  rw [TreeTimers.timerCancel, TimerState.timerCancel, h.timers]
  cases hset : q.timers timer with
  | false => exact .ok h
  | true => exact (h.disarm timer).cancelErase ((hq.armed timer).mp hset)

theorem Represents.setAdd (h : Represents s q) (hq : WellFormed q) (hnode : NodeAddress timer)
    (hn : timer ∉ q.tree) (callback : κ) (deadline : ℕ) :
    Matches Represents (s.setAdd timer callback deadline) (q.setAdd timer callback deadline) := by
  have hsorted := RbTree.sorted_update hq.sorted hn deadline
  have harmed : Represents
      { s with
        deadline := Function.update s.deadline timer deadline
        callback := Function.update s.callback timer callback
        timers := Function.update s.timers timer true }
      { q with
        deadline := Function.update q.deadline timer deadline
        callback := Function.update q.callback timer callback
        timers := Function.update q.timers timer true } :=
    ⟨h.sound, by rw [h.timers], by rw [h.deadline], by rw [h.callback], h.backend⟩
  simp only [TreeTimers.setAdd, TimerState.setAdd]
  apply (harmed.add hsorted hnode hn).bind
  rintro ⟨p, s'⟩ ⟨b, q'⟩ ⟨hp, h'⟩
  simp only [hp]
  cases b with
  | true => exact .ok (h'.setBackend _)
  | false => exact .ok h'

/-- The timers that a call sets are places for nodes. -/
def Call.Placed : Call ℕ κ → Prop
  | .set timer _ _ => NodeAddress timer
  | .cancel _ => True

/-- A sequence without faults, and the tree that holds it. -/
def Simulates (s : TreeTimers κ) (q : TimerState ℕ κ) : Prop := Represents s q ∧ WellFormed q

/-- What keeps the invariant of the sequences. -/
theorem Matches.simulates {x : Result (TreeTimers κ)} {y : Result (TimerState ℕ κ)}
    (h : Matches Represents x y) (hy : ∀ q', y = .ok q' → WellFormed q') :
    Matches Simulates x y := by
  cases h with
  | ok hr => exact .ok ⟨hr, hy _ rfl⟩
  | error e => exact .error e

theorem Simulates.call (h : Simulates s q) {c : Call ℕ κ} (hc : c.Placed) :
    Matches Simulates (s.call c) (c.run q) := by
  obtain ⟨hr, hq⟩ := h
  obtain ⟨q', hq', hwf⟩ := c.run_spec hq
  apply Matches.simulates
  · cases c with
    | cancel timer => exact hr.timerCancel hq timer
    | set timer callback deadline =>
      obtain ⟨q₁, h₁, hwf₁, htree, -⟩ := timerCancel_spec hq timer
      have hcancel := hr.timerCancel hq timer
      have hn : timer ∉ q₁.tree := by
        rw [htree]
        exact hq.nodup.not_mem_erase
      rw [h₁] at hcancel
      obtain ⟨s₁, hs₁, hr₁⟩ := hcancel.of_ok
      rw [TreeTimers.call, TreeTimers.timerSet, Call.run, TimerState.timerSet, hs₁, h₁]
      exact hr₁.setAdd hwf₁ hc hn callback deadline
  · intro q'' hq''
    rw [hq'] at hq''
    exact Except.ok.inj hq'' ▸ hwf

theorem Simulates.calls (h : Simulates s q) {calls : List (Call ℕ κ)}
    (hc : ∀ c ∈ calls, c.Placed) :
    Matches Simulates (calls.foldlM TreeTimers.call s) (runCalls q calls) := by
  apply Matches.foldlM h
  intro c hmem s q h
  exact h.call (hc c hmem)

/-- The dispatch runs the same callbacks at the same readings. -/
theorem Simulates.dispatch (h : Simulates s q) {script : List (Iteration ℕ κ)}
    (hc : ∀ it ∈ script, ∀ c ∈ it.calls, c.Placed) :
    Matches (fun a b => Simulates a.1 b.1 ∧ a.2 = b.2) (s.timerDispatch script)
      (timerDispatch q script) := by
  induction script generalizing s q with
  | nil =>
    have hleftmost := h.1.leftmost
    rw [TreeTimers.timerDispatch, Time.timerDispatch]
    rw [nodeAt] at hleftmost
    split_ifs at hleftmost ⊢
    · rw [← hleftmost]
      exact .ok ⟨⟨h.1.setBackend _, h.2.setBackend _⟩, rfl⟩
    · rw [← hleftmost]
      exact .error _
  | cons it script ih =>
    have hleftmost := h.1.leftmost
    rw [TreeTimers.timerDispatch, Time.timerDispatch]
    rw [nodeAt] at hleftmost
    split_ifs at hleftmost with hnull
    · rw [← hleftmost, if_pos hnull]
      exact .ok ⟨⟨h.1.setBackend _, h.2.setBackend _⟩, rfl⟩
    · have hmem : s.tree.rbLeftmost ∈ q.tree := List.mem_of_mem_head? hleftmost.symm
      rw [← hleftmost, if_neg hnull]
      simp only [h.1.deadline, h.1.timers, (h.2.armed _).mpr hmem, if_true]
      split_ifs with hnow
      · exact .ok ⟨⟨h.1.setBackend _, h.2.setBackend _⟩, rfl⟩
      · have herase : Matches (fun a b => Simulates (a.2.disarm s.tree.rbLeftmost)
            (b.2.disarm s.tree.rbLeftmost))
            (s.onTree (rbEraseCached loopBound s.tree.rbLeftmost))
            (q.erase s.tree.rbLeftmost) := by
          have hrun := h.1.erase hmem
          have hq : q.erase s.tree.rbLeftmost = .ok ((CachedTree.eraseCached s.tree.rbLeftmost q.tree).1,
              { q with tree := q.tree.erase s.tree.rbLeftmost }) := by
            rw [TimerState.erase, if_pos hmem]
            rfl
          rw [hq] at hrun ⊢
          obtain ⟨a, hs, -, hr⟩ := hrun.of_ok
          rw [hs]
          exact .ok ⟨hr.disarm _, h.2.removed _⟩
        apply herase.bind
        rintro ⟨p, s₁⟩ ⟨o, q₁⟩ h₁
        apply (h₁.calls fun c hmem => hc it List.mem_cons_self c hmem).bind
        intro s₂ q₂ h₂
        apply (ih h₂ fun it' hmem => hc it' (List.mem_cons_of_mem it hmem)).bind
        rintro ⟨s₃, ran⟩ ⟨q₃, ran'⟩ ⟨h₃, hran⟩
        exact .ok ⟨h₃, congrArg ((s.tree.rbLeftmost, it.now) :: ·) hran⟩

/-- The timers that are set are places for nodes. -/
def Op.Placed : Op ℕ κ → Prop
  | .call c => c.Placed
  | .dispatch script => ∀ it ∈ script, ∀ c ∈ it.calls, c.Placed

theorem Simulates.run (h : Simulates s q) {op : Op ℕ κ} (hop : op.Placed) :
    Matches Simulates (s.run op) (op.run q) := by
  cases op with
  | call c => exact h.call hop
  | dispatch script =>
    rw [TreeTimers.run, Op.run]
    apply (h.dispatch hop).bind
    rintro ⟨s', ran⟩ ⟨q', ran'⟩ ⟨h', -⟩
    exact .ok h'

theorem initial_simulates (mem : RbTree.Mem) (deadline : ℕ → ℕ) (callback : ℕ → κ) :
    Simulates (TreeTimers.initial mem deadline callback)
      (TimerState.initial deadline callback) := by
  have hsound := (RbTree.refines_empty mem deadline).sound
  exact ⟨⟨hsound, rfl, rfl, rfl, rfl⟩, initial_wellFormed deadline callback⟩

theorem Simulates.runs (h : Simulates s q) {ops : List (Op ℕ κ)} (hops : ∀ op ∈ ops, op.Placed) :
    Matches Simulates (ops.foldlM TreeTimers.run s) (ops.foldlM Op.run q) := by
  apply Matches.foldlM h
  intro op hmem s q h
  exact h.run (hops op hmem)

/-- Any run of calls and dispatches over the tree itself ends like the run over sorted
sequences, with the timers of the sequence in the tree, the same fields and the same last
command to the backend, and a dispatch after it runs the same callbacks at the same
readings. -/
theorem timer_runs_refine (mem : RbTree.Mem) (deadline : ℕ → ℕ) (callback : ℕ → κ)
    (ops : List (Op ℕ κ)) (script : List (Iteration ℕ κ)) (hops : ∀ op ∈ ops, op.Placed)
    (hscript : ∀ it ∈ script, ∀ c ∈ it.calls, c.Placed) :
    Matches Simulates (ops.foldlM TreeTimers.run (TreeTimers.initial mem deadline callback))
        (ops.foldlM Op.run (TimerState.initial deadline callback)) ∧
      Matches (fun a b => Simulates a.1 b.1 ∧ a.2 = b.2)
        (ops.foldlM TreeTimers.run (TreeTimers.initial mem deadline callback) >>=
          fun s => s.timerDispatch script)
        (ops.foldlM Op.run (TimerState.initial deadline callback) >>=
          fun q => timerDispatch q script) := by
  have hruns := (initial_simulates mem deadline callback).runs hops
  constructor
  · exact hruns
  · apply hruns.bind
    intro s q h
    exact h.dispatch hscript

/-- Two timers are set, and a dispatch runs the one that was set last. -/
theorem timer_runs_refine_two :
    Matches Simulates
        ([Op.call (.set 8 () 20), .call (.set 16 () 10)].foldlM TreeTimers.run
          (TreeTimers.initial ⟨fun _ => 0, fun _ _ => 0, 0⟩ (fun _ => 0) fun _ => ()))
        ([Op.call (.set 8 () 20), .call (.set 16 () 10)].foldlM Op.run
          (TimerState.initial (fun _ => 0) fun _ => ())) ∧
      Matches (fun a b => Simulates a.1 b.1 ∧ a.2 = b.2)
        ([Op.call (.set 8 () 20), .call (.set 16 () 10)].foldlM TreeTimers.run
          (TreeTimers.initial ⟨fun _ => 0, fun _ _ => 0, 0⟩ (fun _ => 0) fun _ => ()) >>=
          fun s => s.timerDispatch [⟨15, [.cancel 16]⟩, ⟨18, []⟩])
        ([Op.call (.set 8 () 20), .call (.set 16 () 10)].foldlM Op.run
          (TimerState.initial (fun _ => 0) fun _ => ()) >>=
          fun q => timerDispatch q [⟨15, [.cancel 16]⟩, ⟨18, []⟩]) := by
  apply timer_runs_refine
  · intro op hop
    simp only [List.mem_cons, List.not_mem_nil, or_false] at hop
    rcases hop with rfl | rfl
    all_goals exact ⟨by decide, by decide, by decide⟩
  · intro it hit c hc
    simp only [List.mem_cons, List.not_mem_nil, or_false] at hit
    rcases hit with rfl | rfl
    · rw [List.mem_singleton] at hc
      rw [hc]
      trivial
    · cases hc

end TomatOS.Time
