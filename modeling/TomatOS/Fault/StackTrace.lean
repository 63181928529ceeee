import TomatOS.Fault.StackFault
import TomatOS.Foundation.LinkedMemory
import TomatOS.Virt.IsMapped

/-! The stack trace of `default_exception_handler` in `kernel/arch/intr.c`. The loop follows
the frame pointers as long as they go up, so it makes finitely many rounds. In each it takes
`m_virt_lock` to ask whether the first byte of a frame is mapped, which may ask the allocator
for tables, and `m_debug_lock` for what it prints: it does not come back from a lock that the
interrupted code holds. The answer says nothing about a frame that goes over the end of a
page, nor about an address that is not canonical. Memory, page tables and locks may be others
in every round, other cores being at work and the frames lying anywhere. -/

namespace TomatOS.Fault.StackTrace

open Foundation.LinkedMemory
open Virt (PageTables Canonical SamePage path Grants)

/-! ### What the loop finds -/

/-- Who has a lock: nobody, a core that goes on, a core that has stopped, or the code that
the exception has interrupted. -/
inductive Holder where
  | nobody
  | otherCore
  | stoppedCore
  | interrupted

/-- Whether the loop gets the lock, at once or later. -/
def Holder.releases : Holder → Bool
  | .nobody => true
  | .otherCore => true
  | .stoppedCore => false
  | .interrupted => false

/-- What the loop finds in one round: memory, any page tables that the allocator does not
hand out, who has the locks, whether `m_lock_cpu` names this core, its `m_reserved_page`,
whether `fill_irq_alloc` leaves a page there, and the answers of the allocator itself, three
of which are enough. -/
structure Moment where
  memory : Memory
  tables : PageTables
  holder : Lock → Holder
  lockCpu : Bool
  reservedPage : Option ℕ
  refilled : Bool
  owned : tables.Owned
  answered : 3 ≤ tables.answers.length
  reservedPage_free : ∀ page, reservedPage = some page → Grants tables.inUse 1 [some page]

/-- Where the loop stays: it spins on a lock, or `phys_alloc` does not come back to it. -/
inductive Hang where
  | spins (lock : Lock)
  | allocator

def Moment.acquire (now : Moment) (lock : Lock) : Except Hang Unit :=
  if (now.holder lock).releases then .ok () else .error (.spins lock)

/-- What `phys_alloc(PAGE_SIZE)` answers as long as it comes back. Inside its own critical
section it has the reserved page and then an `ASSERT` that fails, whose exception spins on
`m_exception_lock`; else it takes its lock, and `m_debug_lock` to warn of an empty reserve. -/
def Moment.answers (now : Moment) : List (Option ℕ) :=
  if now.lockCpu then now.reservedPage.toList.map some
  else if (now.holder .memory).releases ∧ (now.refilled ∨ (now.holder .debug).releases) then
    now.tables.answers
  else []

/-- The page tables with these answers. -/
def Moment.found (now : Moment) : PageTables := { now.tables with answers := now.answers }

def Moment.virtIsMapped (now : Moment) (virt : ℕ) : Except Hang (Bool × PageTables) := do
  now.acquire .virt
  (now.found.virtIsMapped virt).mapError fun _ => .allocator

/-- A word at an address, which need not be aligned. -/
def readWord (m : Memory) (a : ℕ) : ℕ := loadBytes (fun b => m (b % wordSize)) a 8

theorem readWord_lt (m : Memory) (a : ℕ) : readWord m a < wordSize := loadBytes_lt _ a 8

/-- A word that is read, and the page tables at that time. -/
structure Read where
  addr : ℕ
  tables : PageTables

inductive Line where
  | unmapped (basePtr : ℕ)
  | repeating (times : ℕ)
  | entry (retAddr : ℕ)
  | goesBack (oldBp : ℕ)

/-- `depth`, `last_ret` and what is printed. -/
structure Log where
  depth : ℕ
  lastRet : ℕ
  lines : List Line

/-- `ERROR`, which takes `m_debug_lock`. -/
def Moment.print (now : Moment) (log : Log) (line : Line) : Except Hang Log := do
  now.acquire .debug
  return { log with lines := log.lines ++ [line] }

/-- A return address is printed unless it is the last one again. -/
def Moment.entry (now : Moment) (log : Log) (retAddr : ℕ) : Except Hang Log :=
  if log.lastRet = retAddr then .ok { log with depth := log.depth + 1 }
  else do
    let log ← if log.depth > 1 then now.print log (.repeating (log.depth - 1)) else .ok log
    now.print { log with lastRet := retAddr, depth := 1 } (.entry retAddr)

/-- The loop, from the given round on. -/
def stackTrace (world : ℕ → Moment) (round basePtr : ℕ) (log : Log) :
    Except Hang (List Read × Log) :=
  match (world round).virtIsMapped basePtr with
  | .error hang => .error hang
  | .ok (false, _) =>
    ((world round).print log (.unmapped basePtr)).map fun log => ([], log)
  | .ok (true, tables) =>
    let oldBp := readWord (world round).memory basePtr
    let retAddr := readWord (world round).memory ((basePtr + 8) % wordSize)
    let reads := [⟨basePtr, tables⟩, ⟨(basePtr + 8) % wordSize, tables⟩]
    if retAddr = 0 then .ok (reads, log)
    else
      match (world round).entry log retAddr with
      | .error hang => .error hang
      | .ok log =>
        if oldBp = 0 then .ok (reads, log)
        else if oldBp ≤ basePtr then
          ((world round).print log (.goesBack oldBp)).map fun log => (reads, log)
        else (stackTrace world (round + 1) oldBp log).map fun rest => (reads ++ rest.1, rest.2)
termination_by wordSize - basePtr
decreasing_by
  have := readWord_lt (world round).memory basePtr
  omega

/-- The stack trace from the frame pointer of the exception. -/
def defaultExceptionHandler (world : ℕ → Moment) (rbp : UInt64) :
    Except Hang (List Read × Log) := stackTrace world 0 rbp.toNat ⟨0, 0, []⟩

/-- A byte can be read: its address is canonical and its page mapped. -/
def ByteMapped (tables : PageTables) (b : ℕ) : Prop := Canonical b ∧ tables.walk b ≠ none

/-- Every byte of the word can be read. -/
def Read.Mapped (r : Read) : Prop := ∀ i < 8, ByteMapped r.tables ((r.addr + i) % wordSize)

/-- The loop ends and reads nothing that it cannot read. -/
def Safe (world : ℕ → Moment) (rbp : UInt64) : Prop :=
  ∃ reads log, defaultExceptionHandler world rbp = .ok (reads, log) ∧ ∀ r ∈ reads, r.Mapped

/-! ### The chain of frames -/

/-- A round, the frame it is at, and the return address of the frame before. -/
structure Frame where
  round : ℕ
  basePtr : ℕ
  lastRet : ℕ

section Chain

variable (world : ℕ → Moment) (f : Frame)

def Frame.tables : PageTables := (world f.round).tables

def Frame.oldBp : ℕ := readWord (world f.round).memory f.basePtr

def Frame.retAddr : ℕ := readWord (world f.round).memory ((f.basePtr + 8) % wordSize)

/-- The frame leads to the next one: its page is there, it has a return address, and the old
frame pointer is above it. -/
def Links (g : Frame) : Prop :=
  (f.tables world).walk f.basePtr ≠ none ∧ f.retAddr world ≠ 0 ∧ f.basePtr < f.oldBp world ∧
    g = ⟨f.round + 1, f.oldBp world, f.retAddr world⟩

/-- The frames of the chain that starts at the frame pointer. -/
def Frames (rbp : UInt64) : Frame → Prop :=
  Relation.ReflTransGen (Links world) ⟨0, rbp.toNat, 0⟩

/-- If the first byte of a frame is found to be mapped, it is canonical and so is the last
one, which is mapped as well. -/
def FrameMapped : Prop :=
  (f.tables world).walk f.basePtr ≠ none →
    Canonical f.basePtr ∧ ByteMapped (f.tables world) ((f.basePtr + 15) % wordSize)

/-- The round prints something. -/
def Prints : Prop :=
  (f.tables world).walk f.basePtr = none ∨ f.retAddr world ≠ 0 ∧
    (f.lastRet ≠ f.retAddr world ∨ f.oldBp world ≠ 0 ∧ f.oldBp world ≤ f.basePtr)

end Chain

/-- The allocator comes back as often as it is asked on the way to a page on which a table
is missing: inside its own critical section, only for the last table. -/
def Moment.Allocates (now : Moment) (virt : ℕ) : Prop :=
  if now.lockCpu then now.reservedPage ≠ none ∧ now.tables.resolve (path virt).dropLast ≠ none
  else (now.holder .memory).releases ∧ (now.refilled ∨ (now.holder .debug).releases)

/-- `virt_is_mapped` comes back. -/
def Moment.Answers (now : Moment) (virt : ℕ) : Prop :=
  (now.holder .virt).releases ∧ (now.tables.resolve (path virt) = none → now.Allocates virt)

/-- Nothing that a round does keeps it from coming to its end. -/
def Ends (world : ℕ → Moment) (f : Frame) : Prop :=
  (world f.round).Answers f.basePtr ∧ (Prints world f → ((world f.round).holder .debug).releases)

section Frame

variable {s : PageTables} {v w : ℕ}

theorem byteMapped_of_samePage (h : SamePage v w) (hv : v < wordSize) (hw : w < wordSize) :
    ByteMapped s v ↔ ByteMapped s w := by
  obtain ⟨hpath, hindex⟩ := Virt.indices_of_samePage h
  have hcanon : Canonical v ↔ Canonical w := by
    rw [SamePage, pageSize] at h
    rw [wordSize] at hv hw
    rw [Canonical, Canonical, wordSize]
    omega
  rw [ByteMapped, ByteMapped, PageTables.walk_eq, PageTables.walk_eq, hpath, hindex, hcanon]

/-- The two words of a frame lie in the pages of their first and their last byte. -/
theorem reads_mapped_iff (hv : v < wordSize) :
    (∀ r ∈ [(⟨v, s⟩ : Read), ⟨(v + 8) % wordSize, s⟩], r.Mapped) ↔
      ByteMapped s v ∧ ByteMapped s ((v + 15) % wordSize) := by
  have hbytes : (∀ r ∈ [(⟨v, s⟩ : Read), ⟨(v + 8) % wordSize, s⟩], r.Mapped) ↔
      ∀ i < 16, ByteMapped s ((v + i) % wordSize) := by
    simp only [List.mem_cons, List.not_mem_nil, or_false, forall_eq_or_imp, forall_eq, Read.Mapped]
    constructor
    · rintro ⟨hfirst, hsecond⟩ i hi
      by_cases hlow : i < 8
      · exact hfirst i hlow
      · have hbyte := hsecond (i - 8) (by omega)
        rwa [Nat.mod_add_mod, show v + 8 + (i - 8) = v + i by omega] at hbyte
    · intro hall
      refine ⟨fun i hi => hall i (by omega), fun i hi => ?_⟩
      rw [Nat.mod_add_mod, Nat.add_assoc]
      exact hall (8 + i) (by omega)
  rw [hbytes]
  constructor
  · intro hall
    refine ⟨?_, hall 15 (by decide)⟩
    have hfirst := hall 0 (by decide)
    rwa [Nat.add_zero, Nat.mod_eq_of_lt hv] at hfirst
  · rintro ⟨hfirst, hlast⟩ i hi
    have hlt : ∀ x, x % wordSize < wordSize := fun x => Nat.mod_lt x (by decide)
    by_cases hsame : SamePage ((v + i) % wordSize) v
    · exact (byteMapped_of_samePage hsame (hlt _) hv).mpr hfirst
    · refine (byteMapped_of_samePage ?_ (hlt _) (hlt _)).mpr hlast
      rw [SamePage, pageSize] at hsame ⊢
      rw [wordSize] at hv hsame ⊢
      omega

end Frame

section Chain

variable {world : ℕ → Moment} {f g : Frame} {P : Frame → Prop}

/-- Where the chain ends, its last frame is all that is left of it. -/
theorem forall_frames_last (h : ∀ g, ¬ Links world f g) :
    (∀ g, Relation.ReflTransGen (Links world) f g → P g) ↔ P f := by
  constructor
  · intro hall
    exact hall f .refl
  · intro hf g hg
    rcases hg.cases_head with rfl | ⟨next, hlink, -⟩
    · exact hf
    · exact absurd hlink (h next)

theorem forall_frames_next (h : Links world f g) :
    (∀ g, Relation.ReflTransGen (Links world) f g → P g) ↔
      P f ∧ ∀ u, Relation.ReflTransGen (Links world) g u → P u := by
  constructor
  · intro hall
    exact ⟨hall f .refl, fun u hu => hall u (.head h hu)⟩
  · rintro ⟨hf, hrest⟩ u hu
    rcases hu.cases_head with rfl | ⟨next, hlink, htail⟩
    · exact hf
    · rw [hlink.2.2.2, ← h.2.2.2] at htail
      exact hrest u htail

theorem frameMapped_of_unmapped (h : (f.tables world).walk f.basePtr = none) :
    FrameMapped world f := fun hsome => absurd h hsome

/-- The words of a frame that is found to be mapped. -/
theorem reads_mapped_iff_frame (hlt : f.basePtr < wordSize)
    (hmapped : (f.tables world).walk f.basePtr ≠ none) :
    (∀ r ∈ [(⟨f.basePtr, (world f.round).found⟩ : Read),
      ⟨(f.basePtr + 8) % wordSize, (world f.round).found⟩], r.Mapped) ↔ FrameMapped world f := by
  have hfound : (world f.round).found.walk f.basePtr ≠ none := hmapped
  rw [reads_mapped_iff hlt]
  constructor
  · rintro ⟨⟨hcanon, -⟩, hlast⟩ _
    exact ⟨hcanon, hlast⟩
  · intro hframe
    obtain ⟨hcanon, hlast⟩ := hframe hmapped
    exact ⟨⟨hcanon, hfound⟩, hlast⟩

end Chain

/-! ### Locks and the allocator -/

section Locks

variable {now : Moment} {log : Log} {line : Line} {virt retAddr : ℕ} {lock : Lock}

theorem acquire_ok (h : (now.holder lock).releases = true) : now.acquire lock = .ok () := if_pos h

theorem acquire_spins (h : ¬ (now.holder lock).releases = true) :
    now.acquire lock = .error (.spins lock) := if_neg h

theorem print_ok (h : (now.holder .debug).releases = true) :
    now.print log line = .ok { log with lines := log.lines ++ [line] } := by
  rw [Moment.print, acquire_ok h]
  rfl

theorem print_spins (h : ¬ (now.holder .debug).releases = true) :
    now.print log line = .error (.spins .debug) := by
  rw [Moment.print, acquire_spins h]
  rfl

theorem entry_ok (h : log.lastRet ≠ retAddr → (now.holder .debug).releases = true) :
    ∃ log', now.entry log retAddr = .ok log' ∧ log'.lastRet = retAddr := by
  rw [Moment.entry]
  split_ifs with hsame hdepth
  · exact ⟨_, rfl, hsame⟩
  · rw [print_ok (h hsame)]
    exact ⟨_, print_ok (h hsame), rfl⟩
  · exact ⟨_, print_ok (h hsame), rfl⟩

theorem entry_spins (hnew : log.lastRet ≠ retAddr)
    (h : ¬ (now.holder .debug).releases = true) :
    now.entry log retAddr = .error (.spins .debug) := by
  rw [Moment.entry, if_neg hnew]
  split_ifs with hdepth
  · rw [print_spins h]
    rfl
  · exact print_spins h

/-- The allocator has a page or three answers for a way on which a table is missing, or it
does not come back. -/
theorem found_virtIsMapped (hr : now.tables.resolve (path virt) = none) :
    (now.Allocates virt → ∃ tables, now.found.virtIsMapped virt = .ok (false, tables)) ∧
      (¬ now.Allocates virt → now.found.virtIsMapped virt = .error .unanswered) := by
  have hr' : now.found.resolve (path virt) = none := hr
  have hans : now.found.answers = now.answers := rfl
  rw [Moment.answers] at hans
  rw [Moment.Allocates]
  split_ifs at hans ⊢ with hcpu hfree
  · cases hp : now.reservedPage with
    | none =>
      rw [hp] at hans
      exact ⟨fun h => absurd rfl h.1, fun _ => PageTables.virtIsMapped_unanswered hr' hans⟩
    | some page =>
      rw [hp] at hans
      have hg : Grants now.found.inUse 1 now.found.answers := by
        rw [hans]
        exact now.reservedPage_free page hp
      obtain ⟨hstuck, hdone⟩ := PageTables.virtIsMapped_onePage (s := now.found) now.owned hr'
        hans hg
      refine ⟨fun h => hdone h.2, fun h => hstuck ?_⟩
      by_contra hthere
      exact h ⟨Option.some_ne_none page, hthere⟩
  · refine ⟨fun _ => ?_, fun h => absurd hfree h⟩
    obtain ⟨mapped, tables, hcall, hiff, -⟩ :=
      PageTables.virtIsMapped_walk (s := now.found) now.owned (hans ▸ now.answered) virt
    obtain rfl : mapped = false := by
      rw [← Bool.not_eq_true, hiff, not_not]
      exact PageTables.walk_eq_none_of_resolve hr'
    exact ⟨tables, hcall⟩
  · exact ⟨fun h => absurd h hfree, fun _ => PageTables.virtIsMapped_unanswered hr' hans⟩

/-- The answer is what a walk finds, and nothing has happened if there is a page. -/
theorem virtIsMapped_answers (h : now.Answers virt) :
    ∃ mapped tables, now.virtIsMapped virt = .ok (mapped, tables) ∧
      (mapped = true ↔ now.tables.walk virt ≠ none) ∧ (mapped = true → tables = now.found) := by
  rw [Moment.virtIsMapped, acquire_ok h.1]
  cases hr : now.tables.resolve (path virt) with
  | some t =>
    have hr' : now.found.resolve (path virt) = some t := hr
    have hcall := PageTables.virtIsMapped_of_resolve hr'
    refine ⟨_, now.found, ?_, (PageTables.walk_ne_none_of_resolve hr').symm, fun _ => rfl⟩
    rw [hcall]
    rfl
  | none =>
    have hwalk : now.tables.walk virt = none := PageTables.walk_eq_none_of_resolve hr
    obtain ⟨tables, hcall⟩ := (found_virtIsMapped hr).1 (h.2 hr)
    refine ⟨false, tables, ?_, ?_, fun hmapped => absurd hmapped Bool.false_ne_true⟩
    · rw [hcall]
      rfl
    · exact iff_of_false Bool.false_ne_true (not_not.mpr hwalk)

theorem virtIsMapped_hangs (h : ¬ now.Answers virt) :
    ∃ hang, now.virtIsMapped virt = .error hang := by
  rw [Moment.virtIsMapped]
  by_cases hlock : (now.holder .virt).releases = true
  · have hstuck : now.tables.resolve (path virt) = none ∧ ¬ now.Allocates virt := by
      rw [Moment.Answers] at h
      by_contra hnot
      exact h ⟨hlock, fun hr => by_contra fun hall => hnot ⟨hr, hall⟩⟩
    rw [acquire_ok hlock, (found_virtIsMapped hstuck.1).2 hstuck.2]
    exact ⟨_, rfl⟩
  · rw [acquire_spins hlock]
    exact ⟨_, rfl⟩

theorem virtIsMapped_true (h : now.Answers virt) (hmapped : now.tables.walk virt ≠ none) :
    now.virtIsMapped virt = .ok (true, now.found) := by
  obtain ⟨mapped, tables, hcall, hiff, hsame⟩ := virtIsMapped_answers h
  obtain rfl : mapped = true := hiff.mpr hmapped
  rw [hcall, hsame rfl]

theorem virtIsMapped_false (h : now.Answers virt) (hnone : now.tables.walk virt = none) :
    ∃ tables, now.virtIsMapped virt = .ok (false, tables) := by
  obtain ⟨mapped, tables, hcall, hiff, -⟩ := virtIsMapped_answers h
  obtain rfl : mapped = false := by
    rw [← Bool.not_eq_true, hiff, not_not]
    exact hnone
  exact ⟨tables, hcall⟩

end Locks

/-! ### The loop -/

section Loop

variable {world : ℕ → Moment} {round basePtr : ℕ} {log : Log} {g : Frame}

theorem stackTrace_unmapped (h : Ends world ⟨round, basePtr, log.lastRet⟩)
    (hnone : (world round).tables.walk basePtr = none) :
    ∃ log', stackTrace world round basePtr log = .ok ([], log') := by
  obtain ⟨tables, hcall⟩ := virtIsMapped_false h.1 hnone
  rw [stackTrace, hcall]
  dsimp only
  rw [print_ok (h.2 (.inl hnone))]
  exact ⟨_, rfl⟩

/-- At the last frame both words are read. -/
theorem stackTrace_last (h : Ends world ⟨round, basePtr, log.lastRet⟩)
    (hmapped : (world round).tables.walk basePtr ≠ none)
    (hlast : ∀ g, ¬ Links world ⟨round, basePtr, log.lastRet⟩ g) :
    ∃ log', stackTrace world round basePtr log = .ok
      ([⟨basePtr, (world round).found⟩, ⟨(basePtr + 8) % wordSize, (world round).found⟩],
        log') := by
  rw [stackTrace, virtIsMapped_true h.1 hmapped]
  dsimp only
  by_cases hret : readWord (world round).memory ((basePtr + 8) % wordSize) = 0
  · rw [if_pos hret]
    exact ⟨_, rfl⟩
  · have hprints : log.lastRet ≠ readWord (world round).memory ((basePtr + 8) % wordSize) →
        ((world round).holder .debug).releases = true := fun hnew => h.2 (.inr ⟨hret, .inl hnew⟩)
    obtain ⟨log', hentry, -⟩ := entry_ok hprints
    rw [if_neg hret, hentry]
    dsimp only
    split_ifs with hzero hback
    · exact ⟨_, rfl⟩
    · rw [print_ok (h.2 (.inr ⟨hret, .inr ⟨hzero, hback⟩⟩))]
      exact ⟨_, rfl⟩
    · exact absurd ⟨hmapped, hret, Nat.not_le.mp hback, rfl⟩ (hlast _)

theorem stackTrace_next (h : Ends world ⟨round, basePtr, log.lastRet⟩)
    (hlink : Links world ⟨round, basePtr, log.lastRet⟩ g) :
    ∃ log', log'.lastRet = g.lastRet ∧ stackTrace world round basePtr log =
      (stackTrace world g.round g.basePtr log').map fun rest =>
        ([⟨basePtr, (world round).found⟩, ⟨(basePtr + 8) % wordSize, (world round).found⟩] ++
          rest.1, rest.2) := by
  obtain ⟨hmapped, hret, hup, rfl⟩ := hlink
  simp only [Frame.tables, Frame.retAddr, Frame.oldBp] at hmapped hret hup ⊢
  have hprints : log.lastRet ≠ readWord (world round).memory ((basePtr + 8) % wordSize) →
      ((world round).holder .debug).releases = true := fun hnew => h.2 (.inr ⟨hret, .inl hnew⟩)
  obtain ⟨log', hentry, hlast⟩ := entry_ok hprints
  refine ⟨log', hlast, ?_⟩
  rw [stackTrace, virtIsMapped_true h.1 hmapped]
  dsimp only
  rw [if_neg hret, hentry]
  dsimp only
  rw [if_neg (Nat.ne_zero_of_lt hup), if_neg (Nat.not_le.mpr hup)]

/-- A round that does not come to its end. -/
theorem stackTrace_hangs (h : ¬ Ends world ⟨round, basePtr, log.lastRet⟩) :
    ∃ hang, stackTrace world round basePtr log = .error hang := by
  rw [stackTrace]
  by_cases hans : (world round).Answers basePtr
  · have hdebug : Prints world ⟨round, basePtr, log.lastRet⟩ ∧
        ¬ ((world round).holder .debug).releases = true := by
      by_contra hnot
      exact h ⟨hans, fun hp => by_contra fun hno => hnot ⟨hp, hno⟩⟩
    obtain ⟨hprints, hstuck⟩ := hdebug
    by_cases hmapped : (world round).tables.walk basePtr = none
    · obtain ⟨tables, hcall⟩ := virtIsMapped_false hans hmapped
      rw [hcall]
      dsimp only
      rw [print_spins hstuck]
      exact ⟨_, rfl⟩
    · obtain ⟨hret, hwhat⟩ := hprints.resolve_left hmapped
      simp only [Frame.retAddr, Frame.oldBp] at hret hwhat
      rw [virtIsMapped_true hans hmapped]
      dsimp only
      rw [if_neg hret]
      by_cases hnew : log.lastRet = readWord (world round).memory ((basePtr + 8) % wordSize)
      · obtain ⟨hzero, hback⟩ := hwhat.resolve_left (not_not.mpr hnew)
        rw [Moment.entry, if_pos hnew]
        dsimp only
        rw [if_neg hzero, if_pos hback, print_spins hstuck]
        exact ⟨_, rfl⟩
      · rw [entry_spins hnew hstuck]
        exact ⟨_, rfl⟩
  · obtain ⟨hang, hcall⟩ := virtIsMapped_hangs hans
    rw [hcall]
    exact ⟨hang, rfl⟩

end Loop

/-- From every round and frame on: the loop ends and all it reads can be read if and only if
every round comes to its end and every frame of the chain is mapped from the first byte to
the last. -/
theorem stackTrace_iff (world : ℕ → Moment) (round basePtr : ℕ) (log : Log)
    (hlt : basePtr < wordSize) :
    (∃ reads log', stackTrace world round basePtr log = .ok (reads, log') ∧
        ∀ r ∈ reads, r.Mapped) ↔
      ∀ g, Relation.ReflTransGen (Links world) ⟨round, basePtr, log.lastRet⟩ g →
        Ends world g ∧ FrameMapped world g := by
  -- every frame is above the one before
  induction hn : wordSize - basePtr using Nat.strong_induction_on
    generalizing round basePtr log with
  | _ n ih =>
    by_cases hends : Ends world ⟨round, basePtr, log.lastRet⟩
    · by_cases hmapped : (world round).tables.walk basePtr = none
      · obtain ⟨log', hrun⟩ := stackTrace_unmapped hends hmapped
        have hlast : ∀ g, ¬ Links world ⟨round, basePtr, log.lastRet⟩ g :=
          fun g hlink => hlink.1 hmapped
        rw [hrun, forall_frames_last hlast]
        exact iff_of_true ⟨[], log', rfl, by simp⟩ ⟨hends, frameMapped_of_unmapped hmapped⟩
      · have hreads := reads_mapped_iff_frame (f := ⟨round, basePtr, log.lastRet⟩) hlt hmapped
        dsimp only at hreads
        by_cases hlast : ∀ g, ¬ Links world ⟨round, basePtr, log.lastRet⟩ g
        · obtain ⟨log', hrun⟩ := stackTrace_last hends hmapped hlast
          rw [hrun, forall_frames_last hlast, ← hreads]
          constructor
          · rintro ⟨reads, log'', heq, hall⟩
            cases heq
            exact ⟨hends, hall⟩
          · intro hall
            exact ⟨_, log', rfl, hall.2⟩
        · obtain ⟨g, hlink⟩ := not_forall_not.mp hlast
          obtain ⟨log', hret, hrun⟩ := stackTrace_next hends hlink
          have hnext : g.basePtr < wordSize := by
            rw [hlink.2.2.2]
            exact readWord_lt _ _
          have hless : wordSize - g.basePtr < n := by
            rw [← hn, hlink.2.2.2]
            exact Nat.sub_lt_sub_left hlt hlink.2.2.1
          have hrest := ih _ hless g.round g.basePtr log' hnext rfl
          rw [hret] at hrest
          rw [hrun, forall_frames_next hlink, ← hrest, ← hreads]
          constructor
          · rintro ⟨reads, log'', heq, hall⟩
            obtain ⟨rest, hres, heq⟩ := Foundation.Transition.ok_of_map heq
            cases heq
            obtain ⟨hhere, hthere⟩ := List.forall_mem_append.mp hall
            exact ⟨⟨hends, hhere⟩, rest.1, rest.2, hres, hthere⟩
          · rintro ⟨⟨-, hhere⟩, reads, log'', hres, hthere⟩
            rw [hres]
            exact ⟨_, log'', rfl, List.forall_mem_append.mpr ⟨hhere, hthere⟩⟩
    · obtain ⟨hang, hrun⟩ := stackTrace_hangs hends
      rw [hrun]
      constructor
      · rintro ⟨reads, log', heq, -⟩
        cases heq
      · intro hall
        exact absurd (hall _ .refl).1 hends

theorem Safe.frame {world : ℕ → Moment} {rbp : UInt64} (h : Safe world rbp) {f : Frame}
    (hf : Frames world rbp f) : Ends world f ∧ FrameMapped world f :=
  (stackTrace_iff world 0 rbp.toNat ⟨0, 0, []⟩ rbp.toNat_lt).mp h f hf

/-- After initialisation, with one page of kernel code, memory full of zeros, a page in
reserve and the locks free but those that the interrupted code holds. -/
def bootedMoment (holder : Lock → Holder) : Moment where
  memory := fun _ => 0
  tables := { Virt.booted with answers := Virt.pagesFrom 0x200 3 }
  holder := holder
  lockCpu := false
  reservedPage := none
  refilled := true
  owned := (Virt.booted_reachable.sound.withAnswers _).sound.owned
  answered := by decide
  reservedPage_free := fun page hpage => by cases hpage

end TomatOS.Fault.StackTrace
