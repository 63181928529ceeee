import TomatOS.Foundation.StackMachine
import TomatOS.Thread.Pool

/-! The switches between threads and the scheduler in `kernel/thread/thread.S`. A
thread pushes its registers in the order of `thread_frame_t`, and resuming it pops
them again. The scheduler is meant to run on a stack of its own, but the address of
that stack goes to `rax` and not to `rsp`, so it runs below the frame of the thread it
has just saved. -/

namespace TomatOS.Thread

open Foundation.StackMachine

inductive Reg where
  | rax | rbx | rcx | rdx | rsi | rdi | rbp | rsp
  | r8 | r9 | r10 | r11 | r12 | r13 | r14 | r15
  deriving DecidableEq, Repr

abbrev Cpu := Machine Reg

/-- The fields of `thread_frame_t` in their order; `rip` comes after them. -/
def threadFrame : List Reg :=
  [.r15, .r14, .r13, .r12, .r11, .r10, .r9, .r8, .rdi, .rsi, .rdx, .rcx, .rbx, .rax, .rbp]

def fieldOffset (r : Reg) : ℕ := 8 * threadFrame.idxOf r

def ripOffset : ℕ := 8 * threadFrame.length

def threadResumeFinish : List (Instr Reg) :=
  [.mov .rdi .rsp,
    .pop .r15, .pop .r14, .pop .r13, .pop .r12, .pop .r11, .pop .r10, .pop .r9, .pop .r8,
    .pop .rdi, .pop .rsi, .pop .rdx, .pop .rcx, .pop .rbx, .pop .rax, .pop .rbp,
    .sti, .ret]

def switchToScheduler : List (Instr Reg) :=
  [.push .rbp, .push .rax, .push .rbx, .push .rcx, .push .rdx, .push .rsi, .push .rdi,
    .push .r8, .push .r9, .push .r10, .push .r11, .push .r12, .push .r13, .push .r14, .push .r15,
    .store .rsp .rdi,
    .mov .rdx .rax, .sti, .jmp .rsi]

def jumpToScheduler : List (Instr Reg) := [.mov .rsi .rax, .sti, .jmp .rdi]

/-- What `thread_create` writes to the stack of a new thread. -/
def createFrame (memory : Memory) (stackEnd callback arg threadExit : Word) : Memory :=
  let stack := stackEnd - 8
  let memory := storeWord memory stack threadExit
  let cpuState := stack - BitVec.ofNat 64 threadFrameSize
  let memory := storeWord memory (cpuState + BitVec.ofNat 64 ripOffset) callback
  storeWord memory (cpuState + BitVec.ofNat 64 (fieldOffset .rdi)) arg

namespace Cpu

variable (m n : Cpu)

def call (code : List (Instr Reg)) : Cpu := m.run .rsp code

/-- The frame in memory holds the registers and the return address of the caller. -/
structure SavedAt (memory : Memory) (frame : Word) : Prop where
  fields : ∀ r ∈ threadFrame, loadWord memory (frame + BitVec.ofNat 64 (fieldOffset r)) = m.regs r
  rip : loadWord memory (frame + BitVec.ofNat 64 ripOffset) = loadWord m.memory (m.regs .rsp)

/-- Back in the caller, with its registers and its stack. -/
structure ReturnedTo : Prop where
  rip : n.rip = loadWord m.memory (m.regs .rsp)
  rsp : n.regs .rsp = m.regs .rsp + 8
  regs : ∀ r ∈ threadFrame, n.regs r = m.regs r

/-- The slot for the frame, which is in the structure of the thread, is apart from what is
pushed and from the return address, which are on its stack. -/
def SlotApart : Prop :=
  ripOffset + 8 ≤ (m.regs .rdi - (m.regs .rsp - BitVec.ofNat 64 ripOffset)).toNat ∧
    8 ≤ (m.regs .rsp - BitVec.ofNat 64 ripOffset - m.regs .rdi).toNat

/-- The caller is saved in `*frame`, and resuming that frame later returns to it. -/
structure Saves : Prop where
  saved : m.SavedAt (m.call switchToScheduler).memory
    (loadWord (m.call switchToScheduler).memory (m.regs .rdi))
  resumed : ∀ n : Cpu, n.regs .rdi = loadWord (m.call switchToScheduler).memory (m.regs .rdi) →
    (∀ i < ripOffset + 8, n.memory (n.regs .rdi + BitVec.ofNat 64 i) =
      (m.call switchToScheduler).memory (n.regs .rdi + BitVec.ofNat 64 i)) →
    m.ReturnedTo (n.call threadResumeFinish)

/-- `switch_to_scheduler(frame, fn, stack)`. -/
structure SwitchRight : Prop where
  rip : (m.call switchToScheduler).rip = m.regs .rsi
  rsp : (m.call switchToScheduler).regs .rsp = m.regs .rdx
  saves : m.Saves

/-- `jump_to_scheduler(fn, stack)`. -/
structure JumpRight : Prop where
  rip : (m.call jumpToScheduler).rip = m.regs .rdi
  rsp : (m.call jumpToScheduler).regs .rsp = m.regs .rsi

/-- `thread_resume_finish` is about to resume the thread `t` fresh from `thread_create`. -/
structure Fresh (name : String) (t : ℕ) (callback arg threadExit : Word) : Prop where
  rdi : m.regs .rdi = BitVec.ofNat 64 (Pool.created name t).cpuState
  frame : ∃ memory, ∀ i < ripOffset + 16, m.memory (m.regs .rdi + BitVec.ofNat 64 i) =
    createFrame memory (BitVec.ofNat 64 (Pool.created name t).stackEnd) callback arg threadExit
      (m.regs .rdi + BitVec.ofNat 64 i)

/-- A new thread comes to `callback(arg)` as if `thread_exit` had called it. -/
structure StartedAt (callback arg threadExit : Word) : Prop where
  rip : m.rip = callback
  rdi : m.regs .rdi = arg
  returns : loadWord m.memory (m.regs .rsp) = threadExit
  aligned : (m.regs .rsp).toNat % 16 = 8

/-! ### Saving -/

theorem switchToScheduler_eq : switchToScheduler =
    threadFrame.reverse.map .push ++ [.store .rsp .rdi, .mov .rdx .rax, .sti, .jmp .rsi] := rfl

theorem threadResumeFinish_eq : threadResumeFinish =
    .mov .rdi .rsp :: (threadFrame.map .pop ++ [.sti, .ret]) := rfl

theorem call_switchToScheduler : m.call switchToScheduler =
    { regs := Function.update (Function.update m.regs .rsp (m.regs .rsp - 120)) .rax (m.regs .rdx)
      rip := m.regs .rsi
      interrupts := true
      memory := storeWord (pushWords m.memory (m.regs .rsp) (threadFrame.reverse.map m.regs))
        (m.regs .rdi) (m.regs .rsp - 120) } := by
  rw [call, switchToScheduler_eq, Machine.run_append, Machine.run_push m (by decide)]
  rfl

theorem frame_eq : loadWord (m.call switchToScheduler).memory (m.regs .rdi) =
    m.regs .rsp - BitVec.ofNat 64 ripOffset := by
  rw [call_switchToScheduler]
  exact loadWord_storeWord

theorem SlotApart.apart {m : Cpu} (h : m.SlotApart) {k : ℕ} (hk : k < 16) :
    Apart (m.regs .rsp - BitVec.ofNat 64 ripOffset + BitVec.ofNat 64 (8 * k)) (m.regs .rdi) := by
  obtain ⟨h1, h2⟩ := h
  have hrip : ripOffset = 120 := rfl
  rw [hrip] at h1 h2 ⊢
  constructor <;> bv_omega

/-- The last register of the frame is pushed first. -/
theorem loadWord_field {k : ℕ} (hk : k < threadFrame.length) :
    loadWord (pushWords m.memory (m.regs .rsp) (threadFrame.reverse.map m.regs))
      (m.regs .rsp - BitVec.ofNat 64 ripOffset + BitVec.ofNat 64 (8 * k)) =
      m.regs threadFrame[k] := by
  have hlen : threadFrame.length = 15 := rfl
  have hslot : m.regs .rsp - BitVec.ofNat 64 ripOffset + BitVec.ofNat 64 (8 * k) =
      m.regs .rsp - BitVec.ofNat 64 (8 * ((threadFrame.length - 1 - k) + 1)) := by
    have hrip : ripOffset = 120 := rfl
    rw [hrip, hlen]
    bv_omega
  have hlen' : (threadFrame.reverse.map m.regs).length = 15 := by simp [hlen]
  rw [hslot, loadWord_pushWords (by omega) (by omega), List.getElem_map, List.getElem_reverse]
  congr 2
  omega

theorem savedAt {m : Cpu} (h : m.SlotApart) : m.SavedAt (m.call switchToScheduler).memory
    (loadWord (m.call switchToScheduler).memory (m.regs .rdi)) := by
  rw [frame_eq, call_switchToScheduler]
  constructor
  · intro r hr
    have hk := List.idxOf_lt_length_iff.mpr hr
    rw [fieldOffset, loadWord_storeWord_apart (h.apart (Nat.lt_succ_of_lt hk)), loadWord_field m hk,
      List.getElem_idxOf]
  · have hslot := h.apart (k := threadFrame.length) (by decide)
    rw [show 8 * threadFrame.length = ripOffset from rfl] at hslot
    rw [loadWord_storeWord_apart hslot, BitVec.sub_add_cancel]
    apply loadWord_pushWords_outside
    intro i hi
    have hlen : (threadFrame.reverse.map m.regs).length = 15 := rfl
    rw [hlen]
    bv_omega

/-! ### Resuming -/

/-- Interrupts go on again and the return address is popped. -/
theorem run_sti_ret (p : Cpu) :
    (p.run .rsp [.sti, .ret]).rip = loadWord p.memory (p.regs .rsp) ∧
    (p.run .rsp [.sti, .ret]).regs .rsp = p.regs .rsp + 8 ∧
    (p.run .rsp [.sti, .ret]).memory = p.memory ∧
    ∀ r, r ≠ .rsp → (p.run .rsp [.sti, .ret]).regs r = p.regs r :=
  ⟨rfl, rfl, rfl, fun _ hr => Function.update_of_ne hr _ p.regs⟩

/-- Everything comes from the frame in `rdi`, and the stack is left above it. -/
theorem call_threadResumeFinish :
    (n.call threadResumeFinish).rip = loadWord n.memory (n.regs .rdi + BitVec.ofNat 64 ripOffset) ∧
    (n.call threadResumeFinish).regs .rsp = n.regs .rdi + BitVec.ofNat 64 ripOffset + 8 ∧
    (n.call threadResumeFinish).memory = n.memory ∧
    ∀ r ∈ threadFrame, (n.call threadResumeFinish).regs r =
      loadWord n.memory (n.regs .rdi + BitVec.ofNat 64 (fieldOffset r)) := by
  have hout : Reg.rsp ∉ threadFrame := by decide
  obtain ⟨hmem, -, hsp, -, hread⟩ :=
    Machine.run_pop (n.exec .rsp (.mov .rdi .rsp)) hout (by decide)
  have hrdi : (n.exec .rsp (.mov .rdi .rsp)).regs .rsp = n.regs .rdi := rfl
  rw [hrdi] at hsp hread
  have hmem' : (n.exec .rsp (.mov .rdi .rsp)).memory = n.memory := rfl
  rw [hmem'] at hmem hread
  obtain ⟨hrip, hrsp, hkept, hregs⟩ :=
    run_sti_ret ((n.exec .rsp (.mov .rdi .rsp)).run .rsp (threadFrame.map .pop))
  rw [call, threadResumeFinish_eq, Machine.run_cons, Machine.run_append]
  refine ⟨?_, ?_, hkept.trans hmem, fun r hr => ?_⟩
  · rw [hrip, hmem, hsp, ripOffset]
  · rw [hrsp, hsp, ripOffset]
  · have hk := List.idxOf_lt_length_iff.mpr hr
    have hne : r ≠ .rsp := by
      rintro rfl
      exact hout hr
    have hr' := hread (threadFrame.idxOf r) hk
    rw [List.getElem_idxOf] at hr'
    rw [hregs r hne, hr', fieldOffset]

theorem loadWord_frame {memory : Memory} {frame : Word} {k : ℕ} (hk : k ≤ ripOffset)
    (h : ∀ i < ripOffset + 8, n.memory (frame + BitVec.ofNat 64 i) =
      memory (frame + BitVec.ofNat 64 i)) :
    loadWord n.memory (frame + BitVec.ofNat 64 k) = loadWord memory (frame + BitVec.ofNat 64 k) := by
  apply loadWord_congr
  intro i hi
  rw [BitVec.add_assoc, ← BitVec.ofNat_add]
  exact h (k + i) (by omega)

theorem fieldOffset_lt {r : Reg} (hr : r ∈ threadFrame) : fieldOffset r ≤ ripOffset := by
  have := List.idxOf_lt_length_iff.mpr hr
  rw [fieldOffset, ripOffset]
  omega

theorem saves {m : Cpu} (h : m.SlotApart) : m.Saves := by
  refine ⟨savedAt h, fun n hn hmem => ?_⟩
  obtain ⟨hfields, hret⟩ := savedAt h
  obtain ⟨hrip, hrsp, -, hregs⟩ := call_threadResumeFinish n
  rw [← hn] at hfields hret
  constructor
  case rip => rw [hrip, loadWord_frame n le_rfl hmem, hret]
  case rsp => rw [hrsp, hn, frame_eq, BitVec.sub_add_cancel]
  case regs =>
    intro r hr
    rw [hregs r hr, loadWord_frame n (fieldOffset_lt hr) hmem, hfields r hr]

/-! ### Entering the scheduler -/

theorem switchRight_iff {m : Cpu} (h : m.SlotApart) :
    m.SwitchRight ↔ m.regs .rdx = m.regs .rsp - BitVec.ofNat 64 ripOffset := by
  have hrip : (m.call switchToScheduler).rip = m.regs .rsi := by rw [call_switchToScheduler]
  have hrsp : (m.call switchToScheduler).regs .rsp = m.regs .rsp - BitVec.ofNat 64 ripOffset := by
    rw [call_switchToScheduler]
    rfl
  constructor
  · intro hright
    rw [← hright.rsp, hrsp]
  · intro hstack
    exact ⟨hrip, hrsp.trans hstack.symm, saves h⟩

theorem jumpRight_iff : m.JumpRight ↔ m.regs .rsi = m.regs .rsp := by
  constructor
  · intro hright
    exact hright.rsp.symm
  · intro hstack
    exact ⟨rfl, hstack.symm⟩

/-! ### New threads -/

theorem createFrame_words (memory : Memory) {stackEnd frame : Word}
    (callback arg threadExit : Word)
    (hframe : frame = stackEnd - 8 - BitVec.ofNat 64 threadFrameSize) :
    loadWord (createFrame memory stackEnd callback arg threadExit)
      (frame + BitVec.ofNat 64 ripOffset) = callback ∧
    loadWord (createFrame memory stackEnd callback arg threadExit)
      (frame + BitVec.ofNat 64 (fieldOffset .rdi)) = arg ∧
    loadWord (createFrame memory stackEnd callback arg threadExit)
      (frame + BitVec.ofNat 64 (ripOffset + 8)) = threadExit := by
  have hrip : ripOffset = 120 := rfl
  have hrdi : fieldOffset .rdi = 64 := rfl
  have hsize : threadFrameSize = 128 := rfl
  subst hframe
  simp only [createFrame, hrip, hrdi, hsize]
  refine ⟨?_, loadWord_storeWord, ?_⟩
  · rw [loadWord_storeWord_apart (by constructor <;> bv_omega)]
    exact loadWord_storeWord
  · rw [BitVec.sub_add_cancel, loadWord_storeWord_apart (by constructor <;> bv_omega),
      loadWord_storeWord_apart (by constructor <;> bv_omega)]
    exact loadWord_storeWord

/-- The stack of a new thread ends at a multiple of 16. -/
theorem created_frame (name : String) (t : ℕ) :
    BitVec.ofNat 64 (Pool.created name t).cpuState =
      BitVec.ofNat 64 (Pool.created name t).stackEnd - 8 - BitVec.ofNat 64 threadFrameSize ∧
    (BitVec.ofNat 64 (Pool.created name t).stackEnd).toNat % 16 = 0 := by
  have hsize : threadFrameSize = 128 := rfl
  simp only [Pool.created, hsize, stacksAddr, size8MB]
  constructor
  · bv_omega
  · rw [BitVec.toNat_ofNat]
    omega

theorem startedAt {name : String} {t : ℕ} {callback arg threadExit : Word}
    (h : n.Fresh name t callback arg threadExit) :
    StartedAt (n.call threadResumeFinish) callback arg threadExit := by
  obtain ⟨hrdi, memory, hmem⟩ := h
  obtain ⟨hframe, halign⟩ := created_frame name t
  obtain ⟨hrip, harg, hexit⟩ := createFrame_words memory callback arg threadExit hframe
  rw [← hrdi] at hframe hrip harg hexit
  obtain ⟨hcall, hrsp, hsame, hregs⟩ := call_threadResumeFinish n
  have hread : ∀ k ≤ ripOffset + 8, loadWord n.memory (n.regs .rdi + BitVec.ofNat 64 k) =
      loadWord (createFrame memory (BitVec.ofNat 64 (Pool.created name t).stackEnd) callback arg
        threadExit) (n.regs .rdi + BitVec.ofNat 64 k) := by
    intro k hk
    apply loadWord_congr
    intro i hi
    rw [BitVec.add_assoc, ← BitVec.ofNat_add]
    exact hmem (k + i) (by omega)
  constructor
  case rip => rw [hcall, hread _ (by omega), hrip]
  case rdi => rw [hregs .rdi (by decide), hread _ (by decide), harg]
  case returns =>
    have htop : n.regs .rdi + BitVec.ofNat 64 ripOffset + 8 =
        n.regs .rdi + BitVec.ofNat 64 (ripOffset + 8) := by
      rw [BitVec.add_assoc]
      rfl
    rw [hsame, hrsp, htop, hread _ le_rfl, hexit]
  case aligned =>
    have hrip : ripOffset = 120 := rfl
    have hsize : threadFrameSize = 128 := rfl
    rw [hrsp, hframe, hrip, hsize]
    bv_omega

end Cpu

/-- A slot in the structure of a thread, for a thread on its stack. -/
theorem Cpu.slotApart_of_thread {m : Cpu} (hlow : 0xFFFFB00000000000 ≤ (m.regs .rdi).toNat)
    (hhigh : (m.regs .rdi).toNat + 8 ≤ 0xFFFFB08000000000)
    (hstack : stacksAddr + ripOffset ≤ (m.regs .rsp).toNat)
    (hstack' : (m.regs .rsp).toNat + 8 ≤ 0xFFFF8F8000000000) : m.SlotApart := by
  have hrip : ripOffset = 120 := rfl
  rw [stacksAddr, hrip] at hstack
  rw [SlotApart, hrip]
  constructor <;> bv_omega

/-- Wherever the slot for the frame is not on the stack that is saved, `switch_to_scheduler`
saves a caller that can be resumed, and does what it is for exactly if it is given the
address below the frame as the new stack. `jump_to_scheduler` does so exactly if it is
given the stack it is on. New threads are always started right. -/
theorem context_switch_iff (m : Cpu) (name : String) (t : ℕ) (callback arg threadExit : Word) :
    (m.SlotApart → m.Saves ∧
      (m.SwitchRight ↔ m.regs .rdx = m.regs .rsp - BitVec.ofNat 64 ripOffset)) ∧
    (m.JumpRight ↔ m.regs .rsi = m.regs .rsp) ∧
    (m.Fresh name t callback arg threadExit →
      (m.call threadResumeFinish).StartedAt callback arg threadExit) :=
  ⟨fun hslot => ⟨Cpu.saves hslot, Cpu.switchRight_iff hslot⟩, m.jumpRight_iff, m.startedAt⟩

/-- The first thread on its stack, with the scheduler's stack at an address. -/
def firstThread (schedulerStack : Word) : Cpu where
  regs := fun r => match r with
    | .rdi => 0xFFFFB00000000138
    | .rsi => 0xFFFFFFFF80001000
    | .rdx => schedulerStack
    | .rsp => 0xFFFF8F00007FFF00
    | _ => 0
  rip := 0xFFFFFFFF80002000
  interrupts := false
  memory := fun _ => 0

theorem firstThread_apart (schedulerStack : Word) : (firstThread schedulerStack).SlotApart := by
  have hrdi : ((firstThread schedulerStack).regs .rdi).toNat = 0xFFFFB00000000138 := rfl
  have hrsp : ((firstThread schedulerStack).regs .rsp).toNat = 0xFFFF8F00007FFF00 := rfl
  have hframe : stacksAddr + ripOffset = 0xFFFF8F0000000078 := rfl
  apply Cpu.slotApart_of_thread <;> omega

/-- The first thread when it is resumed for the first time. -/
def newThread : Cpu where
  regs := fun r => if r = .rdi then BitVec.ofNat 64 (Pool.created "init" 0).cpuState else 0
  rip := 0xFFFFFFFF80001000
  interrupts := false
  memory := createFrame (fun _ => 0) (BitVec.ofNat 64 (Pool.created "init" 0).stackEnd)
    0xFFFFFFFF80003000 1 0xFFFFFFFF80004000

theorem newThread_fresh : newThread.Fresh "init" 0 0xFFFFFFFF80003000 1 0xFFFFFFFF80004000 :=
  ⟨rfl, fun _ => 0, fun _ _ => rfl⟩

/-- The stack below the frame is the one the scheduler gets, and the first thread starts. -/
theorem context_switch_below_frame :
    (firstThread 0xFFFF8F00007FFE88).Saves ∧ (firstThread 0xFFFF8F00007FFE88).SwitchRight ∧
      (newThread.call threadResumeFinish).StartedAt 0xFFFFFFFF80003000 1 0xFFFFFFFF80004000 :=
  have hswitch :=
    (context_switch_iff (firstThread 0xFFFF8F00007FFE88) "init" 0 0 0 0).1 (firstThread_apart _)
  have hstart :=
    (context_switch_iff newThread "init" 0 0xFFFFFFFF80003000 1 0xFFFFFFFF80004000).2.2
      newThread_fresh
  ⟨hswitch.1, hswitch.2.mpr (by decide), hstart⟩

/-- With a stack of its own the scheduler is still entered on that of the thread. -/
theorem context_switch_wrong_stack :
    ¬ ∀ m : Cpu, m.SlotApart → m.SwitchRight := by
  intro hall
  have hright := hall (firstThread 0xFFFFC00000010000) (firstThread_apart _)
  exact absurd ((Cpu.switchRight_iff (firstThread_apart _)).mp hright) (by decide)

end TomatOS.Thread
