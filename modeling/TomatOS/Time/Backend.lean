import TomatOS.Foundation.Transition
import TomatOS.Time.Timer

/-! The hardware backend against the timer tree. After a call the backend should
hold the least deadline of the tree, or be cleared when the tree is empty. The
end of a dispatch always programs it so; a cancel keeps it so exactly when it
removes the leftmost timer or none, since erasing any other node reports no new
leftmost and the backend is cleared; a set repairs a wrong cancel only when the
new deadline is the earliest. -/

namespace TomatOS.Time

open Foundation Foundation.Transition

variable {ι κ : Type} [DecidableEq ι]

/-- A call on the core. The timer calls made by callbacks are part of the
dispatch that runs them. -/
inductive Op (ι κ : Type) where
  | call (c : Call ι κ)
  | dispatch (script : List (Iteration ι κ))

def Op.run (s : TimerState ι κ) : Op ι κ → Result (TimerState ι κ)
  | .call c => c.run s
  | .dispatch script => do
    let (s, _) ← timerDispatch s script
    return s

/-- No timer armed, the backend as at reset. -/
def TimerState.initial (deadline : ι → ℕ) (callback : ι → κ) : TimerState ι κ where
  tree := []
  timers := fun _ => false
  deadline := deadline
  callback := callback
  backend := .clear

/-- The backend holds the least deadline of the tree and is clear exactly when
the tree is empty. -/
def InSync (s : TimerState ι κ) : Prop :=
  (s.backend = .clear ↔ s.tree = []) ∧
  ∀ d, s.backend = .setDeadline d ↔
    (∃ t ∈ s.tree, s.deadline t = d) ∧ ∀ t ∈ s.tree, d ≤ s.deadline t

/-- What the cached leftmost node says the backend should hold. -/
def expected (s : TimerState ι κ) : Backend :=
  match CachedTree.leftmost s.tree with
  | none => .clear
  | some t => .setDeadline (s.deadline t)

omit [DecidableEq ι] in
theorem inSync_iff {s : TimerState ι κ} (h : CachedTree.Sorted s.deadline s.tree) :
    InSync s ↔ s.backend = expected s := by
  unfold InSync expected
  rcases hl : CachedTree.leftmost s.tree with _ | t
  · have hnil : s.tree = [] := List.head?_eq_none_iff.mp hl
    simp only [hnil, List.not_mem_nil, false_and, exists_false, iff_true, iff_false]
    constructor
    · exact And.left
    · intro hb
      exact ⟨hb, fun d hd => by rw [hb] at hd; cases hd⟩
  · have hmem : t ∈ s.tree := List.mem_of_mem_head? hl
    have hle : ∀ u ∈ s.tree, s.deadline t ≤ s.deadline u := fun u hu => h.leftmost_le hl hu
    constructor
    · intro hs
      exact (hs.2 _).mpr ⟨⟨t, hmem, rfl⟩, hle⟩
    · intro hb
      refine ⟨?_, fun d => ?_⟩
      · rw [hb]
        constructor
        · intro hc
          cases hc
        · intro hnil
          simp [hnil] at hmem
      · rw [hb, Backend.setDeadline.injEq]
        constructor
        · rintro rfl
          exact ⟨⟨t, hmem, rfl⟩, hle⟩
        · rintro ⟨⟨u, hu, rfl⟩, hall⟩
          exact le_antisymm (hle u hu) (hall t hmem)

/-- The condition on the state before a call under which the call leaves the
backend right: a cancelled or re-set timer is not armed or is the leftmost one,
or the new deadline is before all others. -/
def Programmed (s : TimerState ι κ) : Op ι κ → Prop
  | .call (.cancel t) => s.timers t = true → CachedTree.leftmost s.tree = some t
  | .call (.set t _ d) => (s.timers t = true → CachedTree.leftmost s.tree = some t) ∨
      ∀ u ∈ s.tree, u ≠ t → d < s.deadline u
  | .dispatch _ => True

variable {s s' : TimerState ι κ}

theorem cancel_inSync_iff (h : WellFormed s) (hs : InSync s) {t : ι}
    (hc : s.timerCancel t = .ok s') :
    InSync s' ↔ (s.timers t = true → CachedTree.leftmost s.tree = some t) := by
  cases ha : s.timers t with
  | false =>
    rw [timerCancel_unarmed ha] at hc
    obtain rfl := Except.ok.inj hc
    simpa using hs
  | true =>
    rw [timerCancel_armed h ha] at hc
    obtain rfl := Except.ok.inj hc
    have hsorted : CachedTree.Sorted s.deadline (s.tree.erase t) := h.sorted.erase t
    rw [inSync_iff hsorted]
    simp only [expected, forall_const]
    by_cases hl : CachedTree.leftmost s.tree = some t
    · simp only [hl, ↓reduceIte, iff_true]
      rcases CachedTree.leftmost (s.tree.erase t) with _ | u <;> rfl
    · -- another node stays leftmost, but the backend is cleared
      simp only [hl, ↓reduceIte, iff_false]
      rw [CachedTree.leftmost_erase_of_ne hl]
      rcases hl' : CachedTree.leftmost s.tree with _ | u
      · have hnil : s.tree = [] := List.head?_eq_none_iff.mp hl'
        have := (h.armed t).mp ha
        simp [hnil] at this
      · simp

/-- What a `timer_set` on a timer outside the tree does to the backend. -/
theorem setAdd_inSync_iff (h : WellFormed s) {t : ι} (hn : t ∉ s.tree) {callback : κ} {d : ℕ}
    (hc : s.setAdd t callback d = .ok s') :
    InSync s' ↔ InSync s ∨ ∀ u ∈ s.tree, d < s.deadline u := by
  obtain ⟨s'', hs'', hwf, hd, htree, hb⟩ := setAdd_spec h hn callback d
  obtain rfl : s'' = s' := Except.ok.inj (hs''.symm.trans hc)
  have hdt : s''.deadline t = d := by rw [hd, Function.update_self]
  have hdu : ∀ u ∈ s.tree, s''.deadline u = s.deadline u := by
    intro u hu
    rw [hd, Function.update_of_ne]
    rintro rfl
    exact hn hu
  have hleft : CachedTree.becomesLeftmost (fun a b => s''.deadline a < s''.deadline b) t s.tree =
      true ↔ ∀ u ∈ s.tree, d < s.deadline u := by
    rw [(h.sorted.congr hdu).becomesLeftmost_iff, hdt]
    exact forall₂_congr fun u hu => by rw [hdu u hu]
  rw [inSync_iff hwf.sorted, inSync_iff h.sorted]
  simp only [expected, htree, CachedTree.leftmost_insert, hleft, hb]
  split_ifs with hall
  · simp only [hdt, true_iff]
    exact Or.inr hall
  · rw [or_iff_left hall]
    rcases hl : CachedTree.leftmost s.tree with _ | u
    · rfl
    · simp only [hdu u (List.mem_of_mem_head? hl)]

theorem set_inSync_iff (h : WellFormed s) (hs : InSync s) {t : ι} {callback : κ} {d : ℕ}
    (hc : s.timerSet t callback d = .ok s') :
    InSync s' ↔ (s.timers t = true → CachedTree.leftmost s.tree = some t) ∨
      ∀ u ∈ s.tree, u ≠ t → d < s.deadline u := by
  obtain ⟨s₁, h₁, hwf₁, htree, hdead, -⟩ := timerCancel_spec h t
  have hn : t ∉ s₁.tree := by
    rw [htree]
    exact h.nodup.not_mem_erase
  simp only [TimerState.timerSet, h₁, bind, Except.bind] at hc
  rw [setAdd_inSync_iff hwf₁ hn hc, cancel_inSync_iff h hs h₁, htree, hdead]
  simp only [h.nodup.mem_erase_iff]
  constructor
  · exact Or.imp_right fun hall u hu hne => hall u ⟨hne, hu⟩
  · exact Or.imp_right fun hall u hu => hall u hu.2 hu.1

/-- Every dispatch that ends leaves the backend right, whatever the callbacks
did. -/
theorem dispatch_inSync (h : WellFormed s) {script : List (Iteration ι κ)} {ran : List (ι × ℕ)}
    (hc : timerDispatch s script = .ok (s', ran)) : InSync s' := by
  obtain ⟨fs, exit, hd, -⟩ := timerDispatch_dispatches h hc
  have hexit : s'.backend = expected s' := by
    clear hc h
    induction hd with
    | empty hl =>
      show Backend.clear = expected _
      rw [expected, TimerState.setBackend, hl]
    | early hl _ =>
      show Backend.setDeadline _ = expected _
      rw [expected, TimerState.setBackend, hl]
    | fire _ _ _ _ ih => exact ih
  exact (inSync_iff (hd.wellFormed h).sorted).mpr hexit

theorem op_wellFormed (h : WellFormed s) {op : Op ι κ} (hc : op.run s = .ok s') :
    WellFormed s' := by
  cases op with
  | call c =>
    obtain ⟨s'', hs'', hwf⟩ := c.run_spec h
    exact Except.ok.inj (hs''.symm.trans hc) ▸ hwf
  | dispatch script =>
    simp only [Op.run, bind, Except.bind] at hc
    rcases timerDispatch_spec h script with hu | ⟨s'', ran, hs'', hwf⟩
    · rw [hu] at hc
      cases hc
    · rw [hs''] at hc
      exact Except.ok.inj hc ▸ hwf

/-- From a state in sync one call leaves the backend right exactly when it meets
the condition. -/
theorem op_inSync_iff (h : WellFormed s) (hs : InSync s) {op : Op ι κ} (hc : op.run s = .ok s') :
    InSync s' ↔ Programmed s op := by
  cases op with
  | call c =>
    cases c with
    | set t callback d => exact set_inSync_iff h hs hc
    | cancel t => exact cancel_inSync_iff h hs hc
  | dispatch script =>
    simp only [Op.run, bind, Except.bind] at hc
    split at hc
    · cases hc
    · rename_i v hv
      obtain rfl := Except.ok.inj hc
      exact iff_of_true (dispatch_inSync h hv) trivial

omit [DecidableEq ι] in
theorem initial_wellFormed (deadline : ι → ℕ) (callback : ι → κ) :
    WellFormed (TimerState.initial deadline callback) :=
  ⟨List.nodup_nil, List.Pairwise.nil, fun t => by simp [TimerState.initial]⟩

omit [DecidableEq ι] in
theorem initial_inSync (deadline : ι → ℕ) (callback : ι → κ) :
    InSync (TimerState.initial deadline callback) :=
  (inSync_iff (initial_wellFormed deadline callback).sorted).mpr rfl

/-- In every run whose calls meet the condition the backend is right after every
call, and at each point of such a run the condition is exact for the next call. -/
theorem backend_right_iff (deadline : ι → ℕ) (callback : ι → κ) :
    ∀ s, Reaches Op.run Programmed (TimerState.initial deadline callback) s →
      InSync s ∧ ∀ op s', Op.run s op = .ok s' → (InSync s' ↔ Programmed s op) := by
  intro s hs
  have hinv : WellFormed s ∧ InSync s := by
    apply hs.invariant (motive := fun u => WellFormed u ∧ InSync u)
    · exact ⟨initial_wellFormed deadline callback, initial_inSync deadline callback⟩
    · intro u op v hu hop hv
      exact ⟨op_wellFormed hu.1 hv, (op_inSync_iff hu.1 hu.2 hv).mpr hop⟩
  exact ⟨hinv.2, fun op s' hop => op_inSync_iff hinv.1 hinv.2 hop⟩

theorem backend_right_after_set :
    ∃ s, Reaches Op.run Programmed (TimerState.initial (fun _ : ℕ => 0) fun _ => ()) s ∧
      s.tree = [0] ∧ InSync s := by
  have hset : Programmed (TimerState.initial (fun _ : ℕ => 0) fun _ => ())
      (.call (.set 0 () 10)) := Or.inl fun h => by simp [TimerState.initial] at h
  have hs : Reaches Op.run Programmed _ _ := (Reaches.refl _).snoc (.call (.set 0 () 10)) hset rfl
  exact ⟨_, hs, rfl, (backend_right_iff _ _ _ hs).1⟩

/-- Two timers are set and the later one is cancelled. -/
def cancelLater : List (Op ℕ Unit) :=
  [.call (.set 0 () 10), .call (.set 1 () 20), .call (.cancel 1)]

/-- The backend is not right after every call of every run. -/
theorem cancel_of_later_clears_backend :
    ¬ ∀ (ι κ : Type) [DecidableEq ι] (deadline : ι → ℕ) (callback : ι → κ) (s : TimerState ι κ),
      Reaches Op.run (fun _ _ => True) (TimerState.initial deadline callback) s → InSync s := by
  intro h
  have hrun : leadsTo Op.run (fun _ _ => true)
      (fun s => decide (s.backend = .clear ∧ s.tree ≠ []))
      (TimerState.initial (fun _ => 0) fun _ => ()) cancelLater = true := by decide
  obtain ⟨s, hs, hbad⟩ := reaches_of_leadsTo (fun _ _ => True) (by simp) hrun
  rw [decide_eq_true_eq] at hbad
  exact hbad.2 ((h ℕ Unit _ _ s hs).1.mp hbad.1)

end TomatOS.Time
