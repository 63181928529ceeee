import TomatOS.Time.Backend

/-! Which callbacks a dispatch runs, and when. A timer is abstracted to its arming:
the callback and the deadline of the `timer_set` that has been neither cancelled nor
fired since. A dispatch fires a timer only at a reading that reaches the deadline of
its arming and ends the arming before the callback runs, so whatever timer calls the
callbacks make, an arming fires at most once and not after its cancel. When the loop
ends nothing due is left. If the callbacks leave the tree alone the timers fire in
the order of the tree, which is by deadline and then by the order of setting. -/

namespace TomatOS.Time

open Foundation Foundation.Transition

variable {ι κ : Type} [DecidableEq ι]

/-! ### Armings -/

/-- The callback and the deadline of an armed timer. -/
def TimerState.arming (s : TimerState ι κ) (t : ι) : Option (κ × ℕ) :=
  if t ∈ s.tree then some (s.callback t, s.deadline t) else none

/-- What happens to timers, in order: timer calls and firings. -/
inductive LogEntry (ι κ : Type) where
  | call (c : Call ι κ)
  | fire (timer : ι) (now : ℕ)

/-- A timer is armed by being set; cancelling and firing end the arming. -/
def LogEntry.arming (t : ι) (a : Option (κ × ℕ)) : LogEntry ι κ → Option (κ × ℕ)
  | .call (.set timer callback deadline) => if timer = t then some (callback, deadline) else a
  | .call (.cancel timer) => if timer = t then none else a
  | .fire timer _ => if timer = t then none else a

/-- The arming of a timer after what the log says has happened to it. -/
def armingAfter (s : TimerState ι κ) (log : List (LogEntry ι κ)) (t : ι) : Option (κ × ℕ) :=
  log.foldl (LogEntry.arming t) (s.arming t)

def Firing.log (f : Firing ι κ) : List (LogEntry ι κ) :=
  .fire f.timer f.now :: f.calls.map .call

variable {s s' : TimerState ι κ}

theorem arming_remove (h : WellFormed s) (timer : ι) (now : ℕ) (t : ι) :
    (s.remove timer).arming t = (LogEntry.fire timer now).arming t (s.arming t) := by
  simp only [TimerState.arming, TimerState.remove, TimerState.disarm, LogEntry.arming,
    h.nodup.mem_erase_iff]
  by_cases ht : timer = t
  · simp [ht]
  · simp [ht, Ne.symm ht]

theorem arming_cancel (h : WellFormed s) {timer : ι} (hc : s.timerCancel timer = .ok s') (t : ι) :
    s'.arming t = if timer = t then none else s.arming t := by
  have hremove := arming_remove h timer 0 t
  cases ha : s.timers timer with
  | false =>
    rw [timerCancel_unarmed ha] at hc
    cases hc
    split_ifs with ht
    · subst ht
      have hn : timer ∉ s.tree := fun hmem => by simp [(h.armed timer).mpr hmem] at ha
      rw [TimerState.arming, if_neg hn]
    · rfl
  | true =>
    rw [timerCancel_armed h ha] at hc
    cases hc
    exact hremove

theorem arming_setAdd (h : WellFormed s) {timer : ι} (hn : timer ∉ s.tree) {callback : κ}
    {deadline : ℕ} (hc : s.setAdd timer callback deadline = .ok s') (t : ι) :
    s'.arming t = if timer = t then some (callback, deadline) else s.arming t := by
  obtain ⟨s'', hs'', -, hd, htree, -⟩ := setAdd_spec h hn callback deadline
  obtain rfl := Except.ok.inj (hs''.symm.trans hc)
  have hcb : s''.callback = Function.update s.callback timer callback := by
    simp only [TimerState.setAdd, TimerState.add, hn, ↓reduceIte, bind, Except.bind, pure,
      Except.pure] at hc
    split_ifs at hc <;> cases hc <;> rfl
  simp only [TimerState.arming, htree, CachedTree.mem_insert, hd, hcb]
  by_cases ht : timer = t
  · simp [ht]
  · simp [ht, Ne.symm ht]

theorem arming_call (h : WellFormed s) {c : Call ι κ} (hc : c.run s = .ok s') (t : ι) :
    s'.arming t = (LogEntry.call c).arming t (s.arming t) := by
  cases c with
  | cancel timer => exact arming_cancel h hc t
  | set timer callback deadline =>
    obtain ⟨s₁, h₁, hwf₁, htree, -, -⟩ := timerCancel_spec h timer
    have hn : timer ∉ s₁.tree := by
      rw [htree]
      exact h.nodup.not_mem_erase
    simp only [Call.run, TimerState.timerSet, h₁, bind, Except.bind] at hc
    rw [arming_setAdd hwf₁ hn hc t, arming_cancel h h₁ t]
    simp only [LogEntry.arming]
    split_ifs <;> rfl

theorem arming_runCalls (h : WellFormed s) {calls : List (Call ι κ)}
    (hc : runCalls s calls = .ok s') (t : ι) :
    s'.arming t = armingAfter s (calls.map .call) t := by
  induction calls generalizing s with
  | nil =>
    cases hc
    rfl
  | cons c calls ih =>
    obtain ⟨s₁, h₁, hwf₁⟩ := c.run_spec h
    rw [runCalls, List.foldlM_cons, h₁] at hc
    rw [ih hwf₁ hc, armingAfter, armingAfter, arming_call h h₁]
    rfl

/-- A firing and the calls of its callback, as the log says. -/
theorem arming_fire (h : WellFormed s) {timer : ι} {callback : κ} {now : ℕ}
    {calls : List (Call ι κ)} (hc : runCalls (s.remove timer) calls = .ok s') (t : ι) :
    s'.arming t =
      armingAfter s (Firing.log ⟨timer, callback, now, s.remove timer, calls⟩) t := by
  rw [arming_runCalls (h.removed timer) hc, armingAfter, arming_remove h timer now]
  rfl

/-! ### What fires -/

section Trace

variable {script : List (Iteration ι κ)} {fs : List (Firing ι κ)} {exit : Option ℕ}

/-- Every firing ends an arming whose deadline the reading has reached, with the
callback of that arming, and the timer is out of the tree when the callback runs. -/
theorem Dispatches.fires_arming (hd : Dispatches s script s' fs exit) (h : WellFormed s) :
    ∀ pre f post, fs = pre ++ f :: post →
      (∃ d ≤ f.now, armingAfter s (pre.flatMap Firing.log) f.timer = some (f.callback, d)) ∧
      f.timer ∉ f.entry.tree ∧ f.entry.timers f.timer = false := by
  induction hd with
  | empty _ =>
    intro pre f post hfs
    simp at hfs
  | early _ _ =>
    intro pre f post hfs
    simp at hfs
  | @fire s s₁ s' it script timer fs exit hl hnow hcalls _ ih =>
    intro pre f post hfs
    cases pre with
    | nil =>
      obtain ⟨rfl, rfl⟩ := List.cons.inj hfs
      have hmem : timer ∈ s.tree := List.mem_of_mem_head? hl
      refine ⟨⟨s.deadline timer, hnow, ?_⟩, h.nodup.not_mem_erase, ?_⟩
      · simp only [List.flatMap_nil, armingAfter, List.foldl_nil, TimerState.arming, if_pos hmem]
      · exact Function.update_self _ _ _
    | cons g pre =>
      obtain ⟨rfl, rfl⟩ := List.cons.inj hfs
      have hwf := runCalls_wellFormed (h.removed timer) hcalls
      obtain ⟨⟨d, hd, harm⟩, hentry⟩ := ih hwf pre f post rfl
      refine ⟨⟨d, hd, ?_⟩, hentry⟩
      rw [List.flatMap_cons, armingAfter, List.foldl_append]
      rw [armingAfter, arming_fire h hcalls] at harm
      exact harm

/-- The readings a dispatch takes. -/
def readings (fs : List (Firing ι κ)) (exit : Option ℕ) : List ℕ :=
  fs.map Firing.now ++ exit.toList

/-- What is left when the loop ends is due later. -/
theorem Dispatches.left_later (hd : Dispatches s script s' fs exit) (h : WellFormed s) :
    (exit = none → s'.tree = []) ∧ ∀ r, exit = some r → ∀ t ∈ s'.tree, r < s'.deadline t := by
  induction hd with
  | empty hl => exact ⟨fun _ => List.head?_eq_none_iff.mp hl, fun r hr => (by cases hr)⟩
  | @early s it script timer hl hnow =>
    refine ⟨fun hr => (by cases hr), fun r hr t ht => ?_⟩
    cases hr
    exact hnow.trans_le (h.sorted.leftmost_le hl ht)
  | fire _ _ hcalls _ ih => exact ih (runCalls_wellFormed (h.removed _) hcalls)

theorem Dispatches.left_after_last (hd : Dispatches s script s' fs exit) (h : WellFormed s) :
    ∀ r, (readings fs exit).getLast? = some r → ∀ t ∈ s'.tree, r < s'.deadline t := by
  intro r hr t ht
  obtain ⟨hnone, hsome⟩ := hd.left_later h
  rcases exit with _ | r'
  · rw [hnone rfl] at ht
    exact absurd ht List.not_mem_nil
  · simp only [readings, Option.toList_some, List.getLast?_append, List.getLast?_singleton,
      Option.some_or, Option.some.injEq] at hr
    exact hr ▸ hsome r' rfl t ht

/-- With readings that do not go back, it is due after all of them. -/
theorem Dispatches.left_after_all (hd : Dispatches s script s' fs exit) (h : WellFormed s)
    (hmono : (readings fs exit).Pairwise (· ≤ ·)) :
    ∀ r ∈ readings fs exit, ∀ t ∈ s'.tree, r < s'.deadline t := by
  intro r hr t ht
  obtain ⟨hnone, hsome⟩ := hd.left_later h
  rcases exit with _ | r'
  · rw [hnone rfl] at ht
    exact absurd ht List.not_mem_nil
  · rw [readings, Option.toList_some, List.mem_append, List.mem_singleton] at hr
    rw [readings, Option.toList_some, List.pairwise_append] at hmono
    have hle : r ≤ r' := by
      rcases hr with hr | rfl
      · exact hmono.2.2 r hr r' (List.mem_singleton_self r')
      · exact le_rfl
    exact hle.trans_lt (hsome r' rfl t ht)

/-- Each round takes the next reading of the script. -/
theorem Dispatches.readings_prefix (hd : Dispatches s script s' fs exit) :
    readings fs exit <+: script.map Iteration.now := by
  induction hd with
  | empty _ => exact List.nil_prefix
  | early _ _ => exact List.prefix_append [_] _
  | fire _ _ _ _ ih => exact (List.prefix_cons_inj _).mpr ih

/-! ### Callbacks that leave the tree alone -/

/-- The callback leaves the tree and the deadlines in it as they are. -/
def Firing.Quiet (f : Firing ι κ) : Prop :=
  ∀ s, runCalls f.entry f.calls = .ok s →
    s.tree = f.entry.tree ∧ ∀ t ∈ s.tree, s.deadline t = f.entry.deadline t

/-- Then the timers that fire are the front of the tree. -/
theorem Dispatches.quiet (hd : Dispatches s script s' fs exit) (hq : ∀ f ∈ fs, f.Quiet) :
    s.tree = fs.map Firing.timer ++ s'.tree ∧ (∀ f ∈ fs, s.deadline f.timer ≤ f.now) ∧
      ∀ t ∈ s'.tree, s'.deadline t = s.deadline t := by
  induction hd with
  | empty _ => exact ⟨rfl, fun f hf => absurd hf List.not_mem_nil, fun _ _ => rfl⟩
  | early _ _ => exact ⟨rfl, fun f hf => absurd hf List.not_mem_nil, fun _ _ => rfl⟩
  | @fire s s₁ s' it script timer fs exit hl hnow hcalls _ ih =>
    obtain ⟨htree, hdead⟩ := hq _ List.mem_cons_self s₁ hcalls
    obtain ⟨hsplit, hdue, hleft⟩ := ih fun f hf => hq f (List.mem_cons_of_mem _ hf)
    obtain ⟨rest, hrest⟩ : ∃ rest, s.tree = timer :: rest := by
      rcases hs : s.tree with _ | ⟨e, es⟩
      · rw [hs] at hl
        cases hl
      · rw [hs] at hl
        cases hl
        exact ⟨es, rfl⟩
    have hremove : (s.remove timer).tree = rest := by
      show s.tree.erase timer = rest
      rw [hrest, List.erase_cons_head]
    have hsame : ∀ t ∈ s₁.tree, s₁.deadline t = s.deadline t := hdead
    refine ⟨?_, fun f hf => ?_, fun t ht => ?_⟩
    · rw [hrest, List.map_cons, List.cons_append, ← hsplit, htree, hremove]
    · rcases List.mem_cons.mp hf with rfl | hf
      · exact hnow
      · rw [← hsame f.timer (hsplit ▸ List.mem_append_left _ (List.mem_map_of_mem hf))]
        exact hdue f hf
    · rw [hleft t ht]
      exact hsame t (hsplit ▸ List.mem_append_right _ ht)

/-- What fires is what is due at a reading. -/
theorem Dispatches.quiet_due (hd : Dispatches s script s' fs exit) (h : WellFormed s)
    (hmono : (readings fs exit).Pairwise (· ≤ ·)) (hq : ∀ f ∈ fs, f.Quiet) (t : ι) :
    t ∈ fs.map Firing.timer ↔ t ∈ s.tree ∧ ∃ r ∈ readings fs exit, s.deadline t ≤ r := by
  obtain ⟨hsplit, hdue, hleft⟩ := hd.quiet hq
  constructor
  · intro ht
    obtain ⟨f, hf, rfl⟩ := List.mem_map.mp ht
    refine ⟨hsplit ▸ List.mem_append_left _ ht, f.now, ?_, hdue f hf⟩
    exact List.mem_append_left _ (List.mem_map_of_mem hf)
  · rintro ⟨ht, r, hr, hle⟩
    rw [hsplit] at ht
    rcases List.mem_append.mp ht with ht | ht
    · exact ht
    · have hlt := hd.left_after_all h hmono r hr t ht
      rw [hleft t ht] at hlt
      exact absurd hle (not_le.mpr hlt)

end Trace

/-! ### The order of setting -/

/-- When a timer was last set, as a position in the calls made so far, the newest
call first. -/
def lastSet (t : ι) : List (Call ι κ) → ℕ
  | [] => 0
  | .set timer _ _ :: calls => if timer = t then calls.length + 1 else lastSet t calls
  | .cancel _ :: calls => lastSet t calls

theorem lastSet_le (t : ι) (calls : List (Call ι κ)) : lastSet t calls ≤ calls.length := by
  induction calls with
  | nil => exact Nat.le_refl 0
  | cons c calls ih =>
    cases c with
    | set timer callback deadline =>
      rw [lastSet, List.length_cons]
      split_ifs
      · exact Nat.le_refl _
      · omega
    | cancel timer =>
      rw [lastSet, List.length_cons]
      omega

/-- An earlier deadline, or the same one and set earlier. -/
def Before (s : TimerState ι κ) (calls : List (Call ι κ)) (a b : ι) : Prop :=
  s.deadline a < s.deadline b ∨
    s.deadline a = s.deadline b ∧ lastSet a calls < lastSet b calls

theorem before_cancel (h : WellFormed s) {calls : List (Call ι κ)}
    (ho : s.tree.Pairwise (Before s calls)) {timer : ι} (hc : s.timerCancel timer = .ok s') :
    s'.tree.Pairwise (Before s' calls) := by
  obtain ⟨s₁, h₁, -, htree, hdead, -⟩ := timerCancel_spec h timer
  obtain rfl := Except.ok.inj (h₁.symm.trans hc)
  rw [htree]
  refine (ho.sublist List.erase_sublist).imp fun {a b} hab => ?_
  rw [Before, hdead]
  exact hab

/-- A new timer goes behind those with the same deadline, which were set before. -/
theorem before_setAdd (h : WellFormed s) {calls : List (Call ι κ)}
    (ho : s.tree.Pairwise (Before s calls)) {timer : ι} (hn : timer ∉ s.tree) {callback : κ}
    {deadline : ℕ} (hc : s.setAdd timer callback deadline = .ok s') :
    s'.tree.Pairwise (Before s' (.set timer callback deadline :: calls)) := by
  obtain ⟨s'', hs'', -, hd, htree, -⟩ := setAdd_spec h hn callback deadline
  obtain rfl := Except.ok.inj (hs''.symm.trans hc)
  have hne : ∀ {x}, x ∈ s.tree → timer ≠ x := by
    rintro x hx rfl
    exact hn hx
  have hdx : ∀ x ∈ s.tree, s''.deadline x = s.deadline x := by
    intro x hx
    rw [hd, Function.update_of_ne (hne hx).symm]
  have hset : ∀ {x}, x ∈ s.tree →
      lastSet x (Call.set timer callback deadline :: calls) = lastSet x calls := by
    intro x hx
    rw [lastSet, if_neg (hne hx)]
  have hself : lastSet timer (Call.set timer callback deadline :: calls) = calls.length + 1 := by
    rw [lastSet, if_pos rfl]
  rw [htree]
  apply (h.sorted.congr hdx).pairwise_insert
  · refine ho.imp_of_mem fun {a b} ha hb hab => ?_
    rw [Before, hset ha, hset hb, hdx a ha, hdx b hb]
    exact hab
  · intro x hx hle
    have := lastSet_le x calls
    rw [Before, hset hx, hself]
    rcases hle.lt_or_eq with hlt | heq
    · exact Or.inl hlt
    · exact Or.inr ⟨heq, by omega⟩
  · intro x _ hlt
    exact Or.inl hlt

theorem before_call (h : WellFormed s) {calls : List (Call ι κ)}
    (ho : s.tree.Pairwise (Before s calls)) {c : Call ι κ} (hc : c.run s = .ok s') :
    s'.tree.Pairwise (Before s' (c :: calls)) := by
  cases c with
  | cancel timer => exact before_cancel h ho hc
  | set timer callback deadline =>
    obtain ⟨s₁, h₁, hwf₁, htree, -, -⟩ := timerCancel_spec h timer
    have hn : timer ∉ s₁.tree := by
      rw [htree]
      exact h.nodup.not_mem_erase
    simp only [Call.run, TimerState.timerSet, h₁, bind, Except.bind] at hc
    exact before_setAdd hwf₁ (before_cancel h ho h₁) hn hc

theorem before_runCalls (h : WellFormed s) {calls made : List (Call ι κ)}
    (ho : s.tree.Pairwise (Before s calls)) (hc : runCalls s made = .ok s') :
    s'.tree.Pairwise (Before s' (made.reverse ++ calls)) := by
  induction made generalizing s calls with
  | nil =>
    cases hc
    exact ho
  | cons c made ih =>
    obtain ⟨s₁, h₁, hwf₁⟩ := c.run_spec h
    rw [runCalls, List.foldlM_cons, h₁] at hc
    have := ih hwf₁ (before_call h ho h₁) hc
    rwa [List.reverse_cons, List.append_assoc]

theorem before_dispatches (h : WellFormed s) {calls : List (Call ι κ)}
    (ho : s.tree.Pairwise (Before s calls)) {script : List (Iteration ι κ)}
    {fs : List (Firing ι κ)} {exit : Option ℕ} (hd : Dispatches s script s' fs exit) :
    s'.tree.Pairwise
      (Before s' (((script.take fs.length).flatMap Iteration.calls).reverse ++ calls)) := by
  induction hd generalizing calls with
  | empty _ =>
    rw [List.length_nil, List.take_zero]
    exact ho
  | early _ _ =>
    rw [List.length_nil, List.take_zero]
    exact ho
  | @fire s s₁ s' it script timer fs exit _ _ hcalls _ ih =>
    have hremove : (s.remove timer).tree.Pairwise (Before (s.remove timer) calls) :=
      ho.sublist List.erase_sublist
    have := ih (runCalls_wellFormed (h.removed timer) hcalls)
      (before_runCalls (h.removed timer) hremove hcalls)
    rwa [List.length_cons, List.take_succ_cons, List.flatMap_cons, List.reverse_append,
      List.append_assoc]

/-! ### Runs -/

/-- A core with the timer calls made on it so far, callbacks' included, the newest
first. -/
structure Logged (ι κ : Type) where
  core : TimerState ι κ
  calls : List (Call ι κ)

def Logged.step (m : Logged ι κ) : Op ι κ → Result (Logged ι κ)
  | .call c => do
    let core ← c.run m.core
    return ⟨core, c :: m.calls⟩
  | .dispatch script => do
    let (core, ran) ← timerDispatch m.core script
    return ⟨core, ((script.take ran.length).flatMap Iteration.calls).reverse ++ m.calls⟩

/-- After any calls and dispatches on a core that started without timers. -/
def Logged.Reachable (m : Logged ι κ) : Prop :=
  ∃ deadline callback,
    Reaches Logged.step (fun _ _ => True) ⟨TimerState.initial deadline callback, []⟩ m

theorem Logged.step_ordered {m m' : Logged ι κ} {op : Op ι κ} (h : WellFormed m.core)
    (ho : m.core.tree.Pairwise (Before m.core m.calls)) (hs : m.step op = .ok m') :
    WellFormed m'.core ∧ m'.core.tree.Pairwise (Before m'.core m'.calls) := by
  cases op with
  | call c =>
    obtain ⟨core, hcore, hwf⟩ := c.run_spec h
    simp only [Logged.step, hcore, bind, Except.bind] at hs
    cases hs
    exact ⟨hwf, before_call h ho hcore⟩
  | dispatch script =>
    rcases timerDispatch_cases h script with hu | ⟨core, fs, exit, hd, hcore⟩
    · simp only [Logged.step, hu, bind, Except.bind] at hs
      cases hs
    · simp only [Logged.step, hcore, bind, Except.bind] at hs
      cases hs
      refine ⟨hd.wellFormed h, ?_⟩
      have := before_dispatches h ho hd
      simpa only [List.length_map] using this

theorem Logged.Reachable.ordered {m : Logged ι κ} (h : m.Reachable) :
    WellFormed m.core ∧ m.core.tree.Pairwise (Before m.core m.calls) := by
  obtain ⟨deadline, callback, hrun⟩ := h
  apply hrun.invariant
    (motive := fun m => WellFormed m.core ∧ m.core.tree.Pairwise (Before m.core m.calls))
  · exact ⟨initial_wellFormed deadline callback, List.Pairwise.nil⟩
  · intro u op v hu _ hv
    exact Logged.step_ordered hu.1 hu.2 hv

/-- Every dispatch that returns, on any tree that can arise, with readings that do
not go back. Each firing ends an arming whose deadline the reading has reached and
runs its callback with the timer out of the tree; what is left is due after the last
reading; and if the callbacks leave the tree alone, exactly the timers due at a
reading fire, by deadline and then by the order of setting. -/
theorem timerDispatch_fires {m : Logged ι κ} (hm : m.Reachable) {script : List (Iteration ι κ)}
    (hmono : script.Pairwise fun a b => a.now ≤ b.now) {s' : TimerState ι κ} {ran : List (ι × ℕ)}
    (hc : timerDispatch m.core script = .ok (s', ran)) :
    ∃ fs exit, Dispatches m.core script s' fs exit ∧
      ran = fs.map (fun f => (f.timer, f.now)) ∧
      (∀ pre f post, fs = pre ++ f :: post →
        (∃ d ≤ f.now, armingAfter m.core (pre.flatMap Firing.log) f.timer = some (f.callback, d)) ∧
        f.timer ∉ f.entry.tree ∧ f.entry.timers f.timer = false) ∧
      (∀ r, (readings fs exit).getLast? = some r → ∀ t ∈ s'.tree, r < s'.deadline t) ∧
      ((∀ f ∈ fs, f.Quiet) →
        (∀ t, t ∈ fs.map Firing.timer ↔
          t ∈ m.core.tree ∧ ∃ r ∈ readings fs exit, m.core.deadline t ≤ r) ∧
        (fs.map Firing.timer).Pairwise (Before m.core m.calls)) := by
  obtain ⟨hwf, hordered⟩ := hm.ordered
  obtain ⟨fs, exit, hd, hran⟩ := timerDispatch_dispatches hwf hc
  have hreadings : (readings fs exit).Pairwise (· ≤ ·) :=
    (List.pairwise_map.mpr hmono).sublist hd.readings_prefix.sublist
  refine ⟨fs, exit, hd, hran, hd.fires_arming hwf, hd.left_after_last hwf, fun hq => ?_⟩
  refine ⟨hd.quiet_due hwf hreadings hq, ?_⟩
  rw [(hd.quiet hq).1, List.pairwise_append] at hordered
  exact hordered.1

/-- Two timers with one deadline and a later one, and a dispatch whose callbacks do
nothing. -/
def threeTimers : List (Op ℕ Unit) :=
  [.call (.set 0 () 10), .call (.set 1 () 30), .call (.set 2 () 10)]

theorem timerDispatch_fires_threeTimers :
    ∃ m : Logged ℕ Unit, m.Reachable ∧ ∃ s',
      timerDispatch m.core [⟨10, []⟩, ⟨11, []⟩, ⟨12, []⟩] = .ok (s', [(0, 10), (2, 11)]) ∧
      ∃ fs exit, Dispatches m.core [⟨10, []⟩, ⟨11, []⟩, ⟨12, []⟩] s' fs exit ∧
        ∀ r, (readings fs exit).getLast? = some r → ∀ t ∈ s'.tree, r < s'.deadline t := by
  have hrun : leadsTo Logged.step (fun _ _ => true) (fun m => decide (m.core.tree = [0, 2, 1] ∧
      (timerDispatch m.core [⟨10, []⟩, ⟨11, []⟩, ⟨12, []⟩]).map Prod.snd = .ok [(0, 10), (2, 11)]))
      ⟨TimerState.initial (fun _ => 0) fun _ => (), []⟩ threeTimers = true := by decide
  obtain ⟨m, hm, htest⟩ := reaches_of_leadsTo (fun _ _ => True) (by simp) hrun
  have hreach : m.Reachable := ⟨_, _, hm⟩
  rw [decide_eq_true_eq] at htest
  obtain ⟨⟨s', ran⟩, hdisp, rfl⟩ := ok_of_map htest.2
  obtain ⟨fs, exit, hd, -, -, hlast, -⟩ := timerDispatch_fires hreach (by decide) hdisp
  exact ⟨m, hreach, s', hdisp, fs, exit, hd, hlast⟩

end TomatOS.Time
