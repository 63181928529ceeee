import TomatOS.Foundation.MaskedLock
import TomatOS.Phys.Partition

/-! The allocator on all cores at once. Threads and interrupt handlers of any core call it at
any time; a call saves the interrupt flag, disables interrupts, spins on
`m_memory_region_lock`, runs its section step by step, and restores the flag. Whatever the
interleaving, what the calls return and what they leave is what the same calls do one after
another, in the order in which they release the lock; so what holds of the runs of single
calls holds of all cores together. -/

namespace TomatOS.Phys

open Foundation Foundation.Transition
open Foundation.Dyadic (Tiles)

variable {m cpus : ℕ} {map : MemoryMap}

/-- The calls that take the lock. An allocation takes page faults on its way, as in
`physAlloc`. -/
inductive Request where
  | alloc (size before after : ℕ)
  | free (ptr : ℕ)
  | initPerCpu
  deriving DecidableEq

/-- The pointer returned, and the pages that the page faults took. -/
abbrev Answer := Option ℕ × List ℕ

def Request.call (cpu : Fin cpus) : Request → Call cpus
  | .alloc size before after => .alloc cpu size before after
  | .free ptr => .free cpu ptr
  | .initPerCpu => .initPerCpu cpu

/-! ### The sections -/

/-- What `phys_alloc` does under the lock. -/
def lockedAlloc (cpu : Fin cpus) (size before after : ℕ) (s : PhysState cpus) :
    Result (Answer × PhysState cpus) := do
  let s := { s with lockCpu := some cpu }
  let (early, s) ← nestedFaults cpu before s
  let (ptr, s) ← internalPhysAlloc (getLevelBySize (size % 2 ^ 32)) s
  let s ← fillIrqAlloc cpu s
  let (late, s) ← nestedFaults cpu after s
  return ((ptr, early ++ late), { s with lockCpu := none })

/-- What the calls do under the lock. -/
def locked (cpu : Fin cpus) (s : PhysState cpus) : Request → Result (Answer × PhysState cpus)
  | .alloc size before after => lockedAlloc cpu size before after s
  | .free ptr => (physFree (some ptr) s).map ((none, []), ·)
  | .initPerCpu => (initPhysPerCpu cpu s).map ((none, []), ·)

/-- The sections cut into the assignments and calls of the source. -/
def sections : Fin cpus × Request → Body (PhysState cpus) Answer
  | (cpu, .alloc size before after) =>
    .step (fun s => { s with lockCpu := some cpu }) fun _ =>
    .stage (fun s => (nestedFaults cpu before s).toOption) fun early =>
    .stage (fun s => (internalPhysAlloc (getLevelBySize (size % 2 ^ 32)) s).toOption) fun ptr =>
    .stage (fun s => (fillIrqAlloc cpu s).toOption.map ((), ·)) fun _ =>
    .stage (fun s => (nestedFaults cpu after s).toOption) fun late =>
    .step (fun s => { s with lockCpu := none }) fun _ => .ret (ptr, early ++ late)
  | (_, .free ptr) =>
    .stage (fun s => (physFree (some ptr) s).toOption.map ((), ·)) fun _ => .ret (none, [])
  | (cpu, .initPerCpu) =>
    .stage (fun s => (initPhysPerCpu cpu s).toOption.map ((), ·)) fun _ => .ret (none, [])

/-- A way to cut the sections into steps: together they do what the section does, and
`m_lock_cpu` holds no other core on the way. -/
structure Implements (body : Fin cpus × Request → Body (PhysState cpus) Answer) : Prop where
  run : ∀ cpu request s, (body (cpu, request)).run s = (locked cpu s request).toOption
  through : ∀ cpu request s, s.lockCpu = none →
    (body (cpu, request)).Through (fun s => s.lockCpu = none ∨ s.lockCpu = some cpu) s

section LockCpu

variable {cpu : Fin cpus} {s t : PhysState cpus}

theorem irqAlloc_lockCpu {size : ℕ} {ptr : Option ℕ} (h : irqAlloc cpu size s = .ok (ptr, t)) :
    t.lockCpu = s.lockCpu := by
  unfold irqAlloc at h
  split at h
  · split at h
    · cases h
    · cases h
      rfl
  · cases h
    rfl

theorem nestedFaults_lockCpu {n : ℕ} {ptrs : List ℕ}
    (h : nestedFaults cpu n s = .ok (ptrs, t)) : t.lockCpu = s.lockCpu := by
  induction n generalizing s ptrs with
  | zero =>
    cases h
    rfl
  | succ n ih =>
    obtain ⟨⟨ptr, s₁⟩, hptr, h⟩ := ok_of_bind h
    obtain ⟨⟨rest, s₂⟩, hrest, h⟩ := ok_of_bind h
    cases h
    exact (ih hrest).trans (irqAlloc_lockCpu hptr)

theorem internalPhysAlloc_lockCpu {level ptr : Option ℕ}
    (h : internalPhysAlloc level s = .ok (ptr, t)) : t.lockCpu = s.lockCpu := by
  obtain ⟨r, -, hr⟩ := ok_of_bind h
  cases hr
  rfl

theorem fillIrqAlloc_lockCpu (h : fillIrqAlloc cpu s = .ok t) : t.lockCpu = s.lockCpu := by
  unfold fillIrqAlloc at h
  split at h
  · cases h
    rfl
  · obtain ⟨⟨page, u⟩, halloc, hr⟩ := ok_of_bind h
    have hsame := internalPhysAlloc_lockCpu halloc
    cases page with
    | none =>
      cases hr
      exact hsame
    | some page =>
      cases hr
      exact hsame

theorem physFree_lockCpu {ptr : ℕ} (h : physFree (some ptr) s = .ok t) :
    t.lockCpu = s.lockCpu := by
  rw [physFree] at h
  split at h
  · cases h
  · split at h
    · cases h
    · split at h
      · cases h
      · dsimp only at h
        split at h
        · obtain ⟨r, -, hr⟩ := ok_of_bind h
          cases hr
          rfl
        · cases h

/-- A section leaves no core in `m_lock_cpu`. -/
theorem locked_lockCpu {request : Request} (hs : s.lockCpu = none) :
    Returns (locked cpu s request) fun _ t => t.lockCpu = none := by
  intro a t h
  cases request with
  | alloc size before after =>
    obtain ⟨⟨early, s₁⟩, -, h⟩ := ok_of_bind h
    obtain ⟨⟨ptr, s₂⟩, -, h⟩ := ok_of_bind h
    obtain ⟨s₃, -, h⟩ := ok_of_bind h
    obtain ⟨⟨late, s₄⟩, -, h⟩ := ok_of_bind h
    cases h
    rfl
  | free ptr =>
    obtain ⟨u, hu, he⟩ := ok_of_map h
    cases he
    exact (physFree_lockCpu hu).trans hs
  | initPerCpu =>
    obtain ⟨u, hu, he⟩ := ok_of_map h
    cases he
    exact (fillIrqAlloc_lockCpu hu).trans hs

end LockCpu

theorem sections_implements : Implements (@sections cpus) := by
  constructor
  case run =>
    intro cpu request s
    cases request with
    | alloc size before after =>
      simp only [sections, Body.run, Body.run_stage, locked, lockedAlloc, toOption_bind,
        Option.bind_map]
      rfl
    | free ptr =>
      simp only [sections, Body.run, Body.run_stage, locked]
      cases physFree (some ptr) s <;> rfl
    | initPerCpu =>
      simp only [sections, Body.run, Body.run_stage, locked]
      cases initPhysPerCpu cpu s <;> rfl
  case through =>
    intro cpu request s hs
    cases request with
    | alloc size before after =>
      refine ⟨.inl hs, ?_⟩
      apply Body.through_stage (.inr rfl)
      intro early hearly
      have h₁ := nestedFaults_lockCpu (toOption_eq_some.mp hearly)
      apply Body.through_stage (.inr h₁)
      intro ptr hptr
      have h₂ := (internalPhysAlloc_lockCpu (toOption_eq_some.mp hptr)).trans h₁
      apply Body.through_stage (.inr h₂)
      intro filled hfilled
      obtain ⟨u, hu, rfl⟩ := Option.map_eq_some_iff.mp hfilled
      have h₃ := (fillIrqAlloc_lockCpu (toOption_eq_some.mp hu)).trans h₂
      apply Body.through_stage (.inr h₃)
      intro late hlate
      have h₄ := (nestedFaults_lockCpu (toOption_eq_some.mp hlate)).trans h₃
      exact ⟨.inr h₄, .inl rfl⟩
    | free ptr =>
      rw [sections]
      apply Body.through_stage (.inl hs)
      intro freed hfreed
      obtain ⟨u, hu, rfl⟩ := Option.map_eq_some_iff.mp hfreed
      exact .inl ((physFree_lockCpu (toOption_eq_some.mp hu)).trans hs)
    | initPerCpu =>
      rw [sections]
      apply Body.through_stage (.inl hs)
      intro filled hfilled
      obtain ⟨u, hu, rfl⟩ := Option.map_eq_some_iff.mp hfilled
      exact .inl ((fillIrqAlloc_lockCpu (toOption_eq_some.mp hu)).trans hs)

/-! ### One call after another -/

/-- Outside of its own section `phys_alloc` does what the section does. -/
theorem physAlloc_eq_locked {cpu : Fin cpus} {size before after level : ℕ} {s : PhysState cpus}
    (hcpu : s.lockCpu ≠ some cpu) (hlevel : getLevelBySize (size % 2 ^ 32) = some level) :
    physAlloc cpu size before after s =
      (locked cpu s (.alloc size before after)).map fun r => (r.1.1, r.1.2, r.2) := by
  have hirq : irqAlloc cpu size s = .ok (none, s) := by
    rw [irqAlloc, if_neg (fun h => hcpu h.1)]
  simp only [physAlloc, hirq, locked, lockedAlloc, hlevel, bind, Except.bind]
  cases nestedFaults cpu before { s with lockCpu := some cpu } with
  | error f => rfl
  | ok early =>
    dsimp only
    cases internalPhysAlloc (some level) early.2 with
    | error f => rfl
    | ok ptr =>
      dsimp only
      cases fillIrqAlloc cpu ptr.2 with
      | error f => rfl
      | ok filled =>
        dsimp only
        cases nestedFaults cpu after filled with
        | error f => rfl
        | ok late => rfl

/-- The calls that have released the lock, with the core each ran on. -/
abbrev Log (cpus : ℕ) := List ((Fin cpus × Request) × Answer)

/-- What a call that returns adds to the allocations of the clients, or takes from them. -/
def record (live : List (ℕ × ℕ)) (entry : (Fin cpus × Request) × Answer) : List (ℕ × ℕ) :=
  match entry.1.2 with
  | .alloc size _ _ => granted size entry.2.1 ++ (entry.2.2.map (·, pageLevel) ++ live)
  | .free ptr => live.eraseP (·.1 = ptr)
  | .initPerCpu => live

/-- What the clients hold. -/
def liveOf (log : Log cpus) : List (ℕ × ℕ) := log.foldl record []

theorem liveOf_concat (log : Log cpus) (entry : (Fin cpus × Request) × Answer) :
    liveOf (log ++ [entry]) = record (liveOf log) entry := by
  rw [liveOf, List.foldl_append]
  rfl

/-- Requests for whole pages, and releases of what the clients hold. -/
def Request.Fits (live : List (ℕ × ℕ)) : Request → Prop
  | .alloc size _ _ => ∃ level, getLevelBySize (size % 2 ^ 32) = some level ∧ pageLevel ≤ level
  | .free ptr => ∃ p ∈ live, p.1 = ptr
  | .initPerCpu => True

instance (live : List (ℕ × ℕ)) : (request : Request) → Decidable (request.Fits live)
  | .alloc size _ _ =>
    inferInstanceAs (Decidable (∃ level ∈ getLevelBySize (size % 2 ^ 32), pageLevel ≤ level))
  | .free ptr => inferInstanceAs (Decidable (∃ p ∈ live, p.1 = ptr))
  | .initPerCpu => inferInstanceAs (Decidable True)

def Request.isFree : Request → Bool
  | .free _ => true
  | _ => false

theorem Request.Fits.pageSized {request : Request} {r : Run cpus} (h : request.Fits r.live)
    (cpu : Fin cpus) : PageSized r (request.call cpu) := by
  cases request with
  | alloc size before after =>
    obtain ⟨level, hlevel, hle⟩ := h
    intro level' hlevel'
    rw [hlevel] at hlevel'
    exact Option.some.inj hlevel' ▸ hle
  | free ptr => exact h
  | initPerCpu => exact trivial

/-- A section and the single call. -/
theorem step_call {request : Request} {r : Run cpus} (hlock : r.phys.lockCpu = none)
    (h : request.Fits r.live) (cpu : Fin cpus) :
    r.step (request.call cpu) =
      (locked cpu r.phys request).map fun x => ⟨x.2, record r.live ((cpu, request), x.1)⟩ := by
  cases request with
  | alloc size before after =>
    obtain ⟨level, hlevel, -⟩ := h
    have hcpu : r.phys.lockCpu ≠ some cpu := by simp [hlock]
    rw [Request.call, Run.step, physAlloc_eq_locked hcpu hlevel]
    cases locked cpu r.phys (.alloc size before after) <;> rfl
  | free ptr =>
    rw [Request.call, Run.step, locked]
    cases physFree (some ptr) r.phys <;> rfl
  | initPerCpu =>
    rw [Request.call, Run.step, locked]
    cases initPhysPerCpu cpu r.phys <;> rfl

/-- Every call of a log fits what the calls before it have left. -/
def Fitted : List (ℕ × ℕ) → Log cpus → Prop
  | _, [] => True
  | live, entry :: log => entry.1.2.Fits live ∧ Fitted (record live entry) log

theorem fitted_concat {live : List (ℕ × ℕ)} {log : Log cpus}
    {entry : (Fin cpus × Request) × Answer} :
    Fitted live (log ++ [entry]) ↔ Fitted live log ∧ entry.1.2.Fits (log.foldl record live) := by
  induction log generalizing live with
  | nil => simp [Fitted]
  | cons first log ih =>
    rw [List.cons_append, Fitted, ih, Fitted, List.foldl_cons, and_assoc]

/-- Sections that run one after another are a run of single calls. -/
theorem serial_run {body : Fin cpus × Request → Body (PhysState cpus) Answer}
    (hbody : Implements body) {r₀ : Run cpus} (h₀ : RunOk 12 map r₀) (hlive : r₀.live = [])
    {log : Log cpus} {u : PhysState cpus}
    (h : CriticalSection.Serial body r₀.phys log u) (hfits : Fitted [] log) :
    ∃ r, Reaches Run.step PageSized r₀ r ∧ r.phys = u ∧ r.live = liveOf log := by
  induction h with
  | nil => exact ⟨r₀, Reaches.refl r₀, rfl, hlive⟩
  | @snoc log s t call a _ hrun ih =>
    obtain ⟨hlog, hcall⟩ := fitted_concat.mp hfits
    obtain ⟨r, hr, rfl, hl⟩ := ih hlog
    obtain ⟨cpu, request⟩ := call
    rw [hbody.run, toOption_eq_some] at hrun
    have hfit : request.Fits r.live := hl ▸ hcall
    have hstep : r.step (request.call cpu) = .ok ⟨t, record r.live ((cpu, request), a)⟩ := by
      rw [step_call (h₀.reaches hr).unlocked hfit, hrun]
      rfl
    refine ⟨_, hr.snoc _ (hfit.pageSized cpu) hstep, rfl, ?_⟩
    rw [liveOf_concat, hl]

/-! ### All cores -/

variable {ι : Type} [DecidableEq ι]

/-- The lock, the allocator, and how far threads and handlers are in their calls. -/
abbrev Callers (ι : Type) (cpus : ℕ) :=
  CriticalSection.State ι (Fin cpus) Request (PhysState cpus) Answer

/-- A call that may be made: nobody releases a block that another call is releasing. -/
def Allowed (s : Callers ι cpus) (_ : ι) (request : Request) : Prop :=
  request.Fits (liveOf s.log) ∧ (request.isFree → ∀ j, s.pending j ≠ some request)

instance [Fintype ι] (s : Callers ι cpus) (i : ι) (request : Request) :
    Decidable (Allowed s i request) :=
  inferInstanceAs (Decidable
    (request.Fits (liveOf s.log) ∧ (request.isFree → ∀ j, s.pending j ≠ some request)))

/-- Every call that is being made fits what the clients hold, every call of the log has, and
no two calls release one block. -/
structure Fair (s : Callers ι cpus) : Prop where
  past : Fitted [] s.log
  fits : ∀ i request, s.pending i = some request → request.Fits (liveOf s.log)
  once : ∀ i j ptr, s.pending i = some (.free ptr) → s.pending j = some (.free ptr) → i = j

omit [DecidableEq ι] in
theorem fair_initial (store : PhysState cpus) : Fair (.initial store : Callers ι cpus) where
  past := trivial
  fits := by
    intro i request h
    cases h
  once := by
    intro i j ptr h
    cases h

variable {body : Fin cpus × Request → Body (PhysState cpus) Answer} {r₀ r : Run cpus}
  {s t : Callers ι cpus} {e : CriticalSection.Event ι (Fin cpus) Request}

/-- The other requests still fit when one of them has been served. -/
theorem Request.Fits.record {request other : Request} {live : List (ℕ × ℕ)}
    (h : other.Fits live) (cpu : Fin cpus) (a : Answer)
    (hne : ∀ ptr, request = .free ptr → other ≠ .free ptr) :
    other.Fits (record live ((cpu, request), a)) := by
  cases other with
  | alloc size before after => exact h
  | initPerCpu => exact trivial
  | free ptr =>
    obtain ⟨p, hp, rfl⟩ := h
    refine ⟨p, ?_, rfl⟩
    cases request with
    | alloc size before after =>
      exact List.mem_append_right _ (List.mem_append_right _ hp)
    | initPerCpu => exact hp
    | free ptr =>
      have hp' : p.1 ≠ ptr := by
        rintro rfl
        exact hne p.1 rfl rfl
      exact (List.mem_eraseP_of_neg (by simpa using hp')).mpr hp

theorem Fair.call (h : Fair s) {i : ι} {request : Request} (ha : Allowed s i request)
    (hlog : t.log = s.log) (hpending : t.pending = Function.update s.pending i (some request)) :
    Fair t := by
  have hcases : ∀ {j : ι} {other : Request}, t.pending j = some other →
      j = i ∧ request = other ∨ j ≠ i ∧ s.pending j = some other := by
    intro j other hj
    rw [hpending] at hj
    rcases MaskedLock.update_cases hj with ⟨rfl, heq⟩ | ⟨hne, hj⟩
    · exact .inl ⟨rfl, Option.some.inj heq⟩
    · exact .inr ⟨hne, hj⟩
  constructor
  case past =>
    rw [hlog]
    exact h.past
  case fits =>
    intro j other hj
    rw [hlog]
    rcases hcases hj with ⟨-, rfl⟩ | ⟨-, hj⟩
    · exact ha.1
    · exact h.fits j other hj
  case once =>
    intro j k ptr hj hk
    rcases hcases hj with ⟨rfl, rfl⟩ | ⟨-, hj⟩
    · rcases hcases hk with ⟨rfl, -⟩ | ⟨-, hk⟩
      · rfl
      · exact absurd hk (ha.2 rfl k)
    · rcases hcases hk with ⟨rfl, rfl⟩ | ⟨-, hk⟩
      · exact absurd hj (ha.2 rfl j)
      · exact h.once j k ptr hj hk

theorem Fair.clear (h : Fair s) {i : ι} {cpu : Fin cpus} {request : Request} {a : Answer}
    (hi : s.pending i = some request) (hlog : t.log = s.log ++ [((cpu, request), a)])
    (hpending : t.pending = Function.update s.pending i none) : Fair t := by
  have hother : ∀ {j : ι} {other : Request}, t.pending j = some other →
      j ≠ i ∧ s.pending j = some other := by
    intro j other hj
    rw [hpending] at hj
    rcases MaskedLock.update_cases hj with ⟨-, heq⟩ | hj
    · cases heq
    · exact hj
  constructor
  case past =>
    rw [hlog]
    exact fitted_concat.mpr ⟨h.past, h.fits i request hi⟩
  case fits =>
    intro j other hj
    obtain ⟨hne, hj⟩ := hother hj
    rw [hlog, liveOf_concat]
    apply (h.fits j other hj).record cpu a
    rintro ptr rfl rfl
    exact hne (h.once j i ptr hj hi)
  case once =>
    intro j k ptr hj hk
    exact h.once j k ptr (hother hj).2 (hother hk).2

theorem Fair.step (h : Fair s) (ha : ∀ i request, e = .call i request → Allowed s i request)
    (hs : CriticalSection.step body s e = .ok t) : Fair t := by
  rcases (CriticalSection.moves_of_step hs).pending_cases with
    ⟨i, request, rfl, -, hpending, hlog⟩ | ⟨i, ⟨cpu, request⟩, a, rfl, hi, hpending, hlog⟩ |
    ⟨-, -, hpending, hlog⟩
  · exact h.call (ha i request rfl) hlog hpending
  · have hpi : s.pending i = some request := by
      rw [CriticalSection.State.pending, hi]
      rfl
    exact h.clear hpi hlog hpending
  · constructor
    · rw [hlog]
      exact h.past
    · rw [hpending, hlog]
      exact h.fits
    · rw [hpending]
      exact h.once

theorem fair_of_reaches {store : PhysState cpus}
    (h : Reaches (CriticalSection.step body)
      (fun s e => ∀ i request, e = .call i request → Allowed s i request) (.initial store) s) :
    Fair s := by
  apply h.invariant (motive := Fair) (fair_initial store)
  intro u e v hu ha hv
  exact hu.step ha hv

theorem boot_live (h : map.boot cpus = .ok r) : r.live = [] := by
  obtain ⟨regions, -, hr⟩ := ok_of_bind h
  cases hr
  rfl

/-- The cores, with what they run and their interrupt flags. -/
abbrev Kernel (ι : Type) (cpus : ℕ) :=
  MaskedLock.Machine ι (Fin cpus) Request (PhysState cpus) Answer

/-- What one sees at any moment; the single calls with the same results end in `r`. -/
structure Orderly (map : MemoryMap) (body : Fin cpus × Request → Body (PhysState cpus) Answer)
    (r₀ r : Run cpus) (s : Kernel ι cpus) : Prop where
  /-- The calls that have released the lock are a run of single calls. -/
  serial : Reaches Run.step PageSized r₀ r
  live : r.live = liveOf s.shared.log
  disjoint : r.LiveDisjoint
  tiles : Tiles r.blocks map.Given
  /-- The allocator is where the run ends, but for the section that is being run. -/
  store : s.shared.taken = false → s.shared.store = r.phys
  answered : ∀ i call a, s.shared.phase i = .left call a → (call, a) ∈ s.shared.log
  lockCpu : ∀ c i below, s.stack c = i :: below → s.place i = .outside →
    s.shared.store.lockCpu ≠ some c
  /-- Who spins waits for another core, which is in its section with interrupts off. -/
  waits : ∀ c i below request, s.stack c = i :: below → s.shared.phase i = .waiting request →
    s.shared.taken = true → ∃ d j below' other rest, d ≠ c ∧ s.stack d = j :: below' ∧
      s.flag d = false ∧ s.shared.phase j = .inside (d, other) rest
  /-- The section comes to its end by steps of its own core, unless the single call finds the
  reserve empty in a page fault. -/
  leaves : ∀ i c request rest, s.shared.phase i = .inside (c, request) rest →
    (∃ t, Reaches (MaskedLock.step body)
      (fun _ a => a = .locked c .work ∨ a = .locked c .clear) s t ∧ t.shared.taken = false) ∨
    r.step (request.call c) = .error (.assertion .irqAlloc)
  restores : ∀ c i below status t, s.stack c = i :: below → s.place i = .masked status →
    MaskedLock.step body s (.restore c) = .ok t → t.flag c = status

section Orderly

variable {s : Kernel ι cpus} {u : PhysState cpus}

omit [DecidableEq ι] in
/-- `m_lock_cpu` is the core of the section that is being run, or none. -/
theorem lockCpu_ne (hsound : MaskedLock.Sound s) (hlock : CriticalSection.Sound body r₀.phys s.shared u)
    (hkeeps : CriticalSection.Keeps (fun v => v.lockCpu = none)
      (fun call v => v.lockCpu = none ∨ v.lockCpu = some call.1) s.shared u)
    {c : Fin cpus} {i : ι} {below : List ι} (hs : s.stack c = i :: below)
    (hp : s.place i = .outside) : s.shared.store.lockCpu ≠ some c := by
  cases ht : s.shared.taken with
  | false =>
    rw [hlock.free ht, hkeeps.between]
    simp
  | true =>
    obtain ⟨j, ⟨d, request⟩, rest, hj⟩ := hlock.holder ht
    obtain ⟨below', hd⟩ := hsound.here j d request rest hj
    have hdc : d ≠ c := by
      rintro rfl
      rw [hs] at hd
      cases hd
      rw [hsound.outside i hp] at hj
      cases hj
    rcases (hkeeps.inside j _ rest hj).now with hnone | hsome
    · rw [hnone]
      simp
    · rw [hsome]
      simpa using hdc

/-- The section comes to its end if the single call does. -/
theorem section_leaves (hbody : Implements body) (hok : RunOk 12 map r) (hfair : Fair s.shared)
    (hlive : r.live = liveOf s.shared.log) (hsound : MaskedLock.Sound s)
    (hlock : CriticalSection.Sound body r₀.phys s.shared r.phys) {i : ι} {c : Fin cpus}
    {request : Request} {rest : Body (PhysState cpus) Answer}
    (hi : s.shared.phase i = .inside (c, request) rest) :
    (∃ t, Reaches (MaskedLock.step body)
      (fun _ a => a = .locked c .work ∨ a = .locked c .clear) s t ∧ t.shared.taken = false) ∨
    r.step (request.call c) = .error (.assertion .irqAlloc) := by
  have hpi : s.shared.pending i = some request := by
    rw [CriticalSection.State.pending, hi]
    rfl
  have hfits := hfair.fits i request hpi
  rw [← hlive] at hfits
  rcases pageSized_step hok (hfits.pageSized c) with ⟨_, _, _, _, _, _, hempty⟩ | ⟨r', hr', -⟩
  · exact .inr hempty
  · left
    rw [step_call hok.unlocked hfits] at hr'
    obtain ⟨x, hx, -⟩ := ok_of_map hr'
    have hrun : rest.run s.shared.store = some x := by
      rw [hlock.rest i _ rest hi, hbody.run, hx]
      rfl
    obtain ⟨t, ht, hfree, -⟩ := hsound.exists_release hi hrun
    exact ⟨t, ht, hfree⟩

end Orderly

/-- Two cores ask for the only page at once. The second spins while the first is in its
section, and gets nothing; a handler of the first core frees the page. -/
def twoCores : List (MaskedLock.Action (Fin 3) (Fin 2) Request) :=
  [.resume 0 0, .resume 1 1, .save 0 (.alloc 4096 0 0), .save 1 (.alloc 4096 0 0), .cli 1, .cli 0,
    .locked 0 .testAndSet, .locked 0 .work, .locked 1 .testAndSet, .locked 0 .work,
    .locked 0 .work, .locked 0 .work, .locked 1 .testAndSet, .locked 0 .work, .locked 0 .work,
    .locked 0 .clear, .locked 1 .testAndSet, .restore 0, .interrupt 0 2,
    .save 0 (.free 0xFFFF800000000000), .cli 0, .locked 0 .testAndSet, .locked 1 .work,
    .locked 1 .work, .locked 1 .work, .locked 1 .work, .locked 1 .work, .locked 1 .work,
    .locked 1 .clear, .locked 0 .testAndSet, .locked 0 .work, .locked 0 .clear, .restore 1,
    .restore 0, .iret 0, .suspend 0]

end TomatOS.Phys
