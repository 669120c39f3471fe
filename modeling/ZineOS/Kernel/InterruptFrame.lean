import ZineOS.Loader.Common
import ZineOS.Lib.Stack

/-!
# The stack frames of interrupts

When an interrupt arrives the processor pushes where it was, and for some exceptions an error code.
The stubs of `isr.asm` and `irq.asm` add the number of the vector, and a zero where the processor
pushes no code, so that the common code below them always finds the same frame: it pushes the general
registers and hands the stack pointer to the C handler, for which the stack is a `Regs` of `idt.h`.

* `Stack.Holds` follows what lies on the stack from one instruction to the next.
* **`frame_right_iff`** — the frame is the one the handler expects for every vector but 17: the
  processor pushes an error code for an alignment check, and `_isr17` pushes a zero as well.

The processor aligns the stack before it pushes, so that every access is to a whole quadword.
-/

namespace ZineOS
namespace Kernel
namespace Isr

open Lib Loader

/-- The general registers, but for the stack pointer. -/
inductive Reg
  | rax | rbx | rcx | rdx | rsi | rdi | rbp | r8 | r9 | r10 | r11 | r12 | r13 | r14 | r15
  deriving DecidableEq

structure Cpu where
  reg : Reg → Word64
  rsp : Word64
  rip : Word64
  cs : Word16
  rflags : Word64
  ss : Word16
  mem : Word64 → Word64

namespace Cpu

def push (c : Cpu) (v : Word64) : Cpu :=
  { c with rsp := c.rsp - 8, mem := Function.update c.mem (c.rsp - 8) v }

def setReg (c : Cpu) (r : Reg) (v : Word64) : Cpu := { c with reg := Function.update c.reg r v }

@[simp] theorem setReg_reg_self (c : Cpu) (r : Reg) (v : Word64) : (c.setReg r v).reg r = v :=
  Function.update_self _ _ _

@[simp] theorem setReg_reg_of_ne (c : Cpu) {r x : Reg} (v : Word64) (h : x ≠ r) :
    (c.setReg r v).reg x = c.reg x := Function.update_of_ne h _ _

@[simp] theorem setReg_rsp (c : Cpu) (r : Reg) (v : Word64) : (c.setReg r v).rsp = c.rsp := rfl

@[simp] theorem setReg_mem (c : Cpu) (r : Reg) (v : Word64) : (c.setReg r v).mem = c.mem := rfl

/-- The quadword at the stack pointer. -/
def top (c : Cpu) : Word64 := c.mem c.rsp

/-- The stack pointer moves up by `n` bytes. -/
def addRsp (c : Cpu) (n : Word64) : Cpu := { c with rsp := c.rsp + n }

@[simp] theorem addRsp_reg (c : Cpu) (n : Word64) : (c.addRsp n).reg = c.reg := rfl

@[simp] theorem addRsp_mem (c : Cpu) (n : Word64) : (c.addRsp n).mem = c.mem := rfl

@[simp] theorem addRsp_rsp (c : Cpu) (n : Word64) : (c.addRsp n).rsp = c.rsp + n := rfl

end Cpu

/-! ## The processor's part -/

/-- What the processor loads for the handler from the gate and the task state segment: its address,
its segments and flags, and the stack, which is the one in use or one of its own. -/
structure Gate where
  rip : Word64
  cs : Word16
  rflags : Word64
  ss : Word16
  stack : Word64

/-- The exceptions with an error code. -/
def pushesErrorCode (v : Nat) : Prop := v = 8 ∨ 10 ≤ v ∧ v ≤ 14 ∨ v = 17

instance (v : Nat) : Decidable (pushesErrorCode v) := inferInstanceAs (Decidable (_ ∨ _))

/-- Delivery of vector `v`. -/
def interrupt (gate : Gate) (errorCode : Word64) (v : Nat) (c : Cpu) : Cpu :=
  let s : Cpu := { c with
    rsp := gate.stack, rip := gate.rip, cs := gate.cs, rflags := gate.rflags, ss := gate.ss }
  let s := (((s.push (c.ss.setWidth 64)).push c.rsp).push c.rflags).push (c.cs.setWidth 64)
  let s := s.push c.rip
  if pushesErrorCode v then s.push errorCode else s

/-! ## The code -/

inductive Instr
  | cli
  | pushImm (v : Word64)
  | push (r : Reg)
  | movRdiRsp
  /-- The handler, from before the call to behind it. -/
  | call
  | pop (r : Reg)
  | addRsp (n : Word64)
  | iretq
  deriving DecidableEq

/-- `PUSH_REGS`. -/
def pushRegs : List Reg :=
  [.rax, .rbx, .rcx, .rdx, .rsi, .rdi, .rbp, .r8, .r9, .r10, .r11, .r12, .r13, .r14, .r15]

/-- `POP_REGS`. -/
def popRegs : List Reg :=
  [.r15, .r14, .r13, .r12, .r11, .r10, .r9, .r8, .rbp, .rdi, .rsi, .rdx, .rcx, .rbx, .rax]

/-- `DEFINE_ISR`. -/
def defineIsr (v : Word64) : List Instr := [.cli, .pushImm 0, .pushImm v]
/-- `DEFINE_ERR_ISR`. -/
def defineErrIsr (v : Word64) : List Instr := [.cli, .pushImm v]
/-- `DEFINE_IRQ`. -/
def defineIrq (v : Word64) : List Instr := [.cli, .pushImm 0, .pushImm v]

/-- `_isr0` to `_isr31`. -/
def isrStubs : List (List Instr) :=
  [defineIsr 0, defineIsr 1, defineIsr 2, defineIsr 3, defineIsr 4, defineIsr 5, defineIsr 6,
    defineIsr 7, defineErrIsr 8, defineIsr 9, defineErrIsr 10, defineErrIsr 11, defineErrIsr 12,
    defineErrIsr 13, defineErrIsr 14, defineIsr 15, defineIsr 16, defineIsr 17, defineIsr 18,
    defineIsr 19, defineIsr 20, defineIsr 21, defineIsr 22, defineIsr 23, defineIsr 24,
    defineIsr 25, defineIsr 26, defineIsr 27, defineIsr 28, defineIsr 29, defineIsr 30,
    defineIsr 31]

/-- `_irq0` to `_irq15`. -/
def irqStubs : List (List Instr) :=
  [defineIrq 32, defineIrq 33, defineIrq 34, defineIrq 35, defineIrq 36, defineIrq 37,
    defineIrq 38, defineIrq 39, defineIrq 40, defineIrq 41, defineIrq 42, defineIrq 43,
    defineIrq 44, defineIrq 45, defineIrq 46, defineIrq 47]

/-- `isr_common_stub` up to the call. -/
def isrCommonEntry : List Instr := pushRegs.map .push ++ [.movRdiRsp]
/-- `isr_common_stub` behind the call. -/
def isrCommonExit : List Instr := popRegs.map .pop ++ [.addRsp 16, .iretq]
/-- `irq_common_stub` up to the call. -/
def irqCommonEntry : List Instr := pushRegs.map .push ++ [.movRdiRsp]
/-- `irq_common_stub` behind the call. -/
def irqCommonExit : List Instr := popRegs.map .pop ++ [.addRsp 16, .iretq]

/-- What is executed for vector `v` before the handler is called: the stub that `Isr::install` or
`Irq::Install` has set for it, which jumps to the common code. -/
def entryCode (v : Nat) : List Instr :=
  if v < 32 then isrStubs.getD v [] ++ isrCommonEntry
  else irqStubs.getD (v - 32) [] ++ irqCommonEntry

/-- What is executed behind the call. -/
def exitCode (v : Nat) : List Instr := if v < 32 then isrCommonExit else irqCommonExit

/-- One instruction. -/
def exec (handler : Cpu → Cpu) (c : Cpu) : Instr → Cpu
  | .cli => { c with rflags := c.rflags &&& ~~~0x200 }
  | .pushImm v => c.push v
  | .push r => c.push (c.reg r)
  | .movRdiRsp => c.setReg .rdi c.rsp
  | .call => handler c
  | .pop r => (c.setReg r c.top).addRsp 8
  | .addRsp n => c.addRsp n
  | .iretq =>
      { c with
        rip := c.mem c.rsp
        cs := (c.mem (c.rsp + 8)).setWidth 16
        rflags := c.mem (c.rsp + 16)
        rsp := c.mem (c.rsp + 24)
        ss := (c.mem (c.rsp + 32)).setWidth 16 }

def run (handler : Cpu → Cpu) (code : List Instr) (c : Cpu) : Cpu := code.foldl (exec handler) c

/-! ## `Idt::Regs` -/

/-- `Idt::Regs`. -/
@[ext]
structure Regs where
  general : Reg → Word64
  interrupt : Word64
  error : Word64
  rip : Word64
  cs : Word64
  rflags : Word64
  rsp : Word64
  ss : Word64

/-- Its first 15 members, in their order. -/
def Regs.order : List Reg :=
  [.r15, .r14, .r13, .r12, .r11, .r10, .r9, .r8, .rbp, .rdi, .rsi, .rdx, .rcx, .rbx, .rax]

/-- `*regs`. -/
def Regs.load (mem : Word64 → Word64) (p : Word64) : Regs where
  general := fun r => mem (p + BitVec.ofNat 64 (8 * Regs.order.idxOf r))
  interrupt := mem (p + 120)
  error := mem (p + 128)
  rip := mem (p + 136)
  cs := mem (p + 144)
  rflags := mem (p + 152)
  rsp := mem (p + 160)
  ss := mem (p + 168)

/-- The handler finds the registers of the interrupted code. -/
structure Regs.Of (regs : Regs) (v : Nat) (c : Cpu) : Prop where
  general : regs.general = c.reg
  interrupt : regs.interrupt = BitVec.ofNat 64 v
  rip : regs.rip = c.rip
  cs : regs.cs = c.cs.setWidth 64
  rflags : regs.rflags = c.rflags
  rsp : regs.rsp = c.rsp
  ss : regs.ss = c.ss.setWidth 64

/-- The handler returns and has not changed the structure. -/
def Keeps (handler : Cpu → Cpu) : Prop :=
  ∀ c, (handler c).rsp = c.rsp ∧ ∀ k < 22,
    (handler c).mem (c.reg .rdi + BitVec.ofNat 64 (8 * k)) =
      c.mem (c.reg .rdi + BitVec.ofNat 64 (8 * k))

/-- The interrupted code goes on as if nothing had happened. -/
structure Resumes (c' c : Cpu) : Prop where
  reg : c'.reg = c.reg
  rip : c'.rip = c.rip
  cs : c'.cs = c.cs
  rflags : c'.rflags = c.rflags
  rsp : c'.rsp = c.rsp
  ss : c'.ss = c.ss

/-- For every state at the moment of the interrupt: the handler is called with the registers of the
interrupted code, and if it keeps them, that code is resumed. -/
structure FrameRight (v : Nat) : Prop where
  passed : ∀ (gate : Gate) (errorCode : Word64) (c : Cpu) (handler : Cpu → Cpu),
    let called := run handler (entryCode v) (interrupt gate errorCode v c)
    (Regs.load called.mem (called.reg .rdi)).Of v c
  resumed : ∀ (gate : Gate) (errorCode : Word64) (c : Cpu) (handler : Cpu → Cpu), Keeps handler →
    Resumes (run handler (entryCode v ++ [.call] ++ exitCode v) (interrupt gate errorCode v c)) c

/-! ## What lies on the stack -/

variable {handler : Cpu → Cpu} {c : Cpu} {gate : Gate} {errorCode : Word64} {v : Nat}
  {g : Reg → Word64} {ws : List Word64}

theorem run_append (code code' : List Instr) (c : Cpu) :
    run handler (code ++ code') c = run handler code' (run handler code c) := by
  simp [run]

/-- The registers end up on the stack in the opposite order. -/
theorem run_pushes (rs : List Reg) (h : Stack.Holds c.mem c.rsp ws)
    (hlength : rs.length + ws.length < 2 ^ 61) :
    (run handler (rs.map .push) c).reg = c.reg ∧
      Stack.Holds (run handler (rs.map .push) c).mem (run handler (rs.map .push) c).rsp
        ((rs.map c.reg).reverse ++ ws) := by
  induction rs generalizing c ws with
  | nil => exact ⟨rfl, h⟩
  | cons r rs ih =>
      rw [List.length_cons] at hlength
      have hpush : Stack.Holds (c.push (c.reg r)).mem (c.push (c.reg r)).rsp (c.reg r :: ws) :=
        Stack.holds_push h (by omega)
      obtain ⟨hreg, hholds⟩ := ih hpush (by rw [List.length_cons]; omega)
      refine ⟨hreg, ?_⟩
      have hwords : ((r :: rs).map c.reg).reverse ++ ws =
          (rs.map c.reg).reverse ++ c.reg r :: ws := by simp
      rw [hwords]
      exact hholds

/-- Popping gives the registers what lies on the stack. -/
theorem run_pops (rs : List Reg) (h : Stack.Holds c.mem c.rsp (rs.map g ++ ws)) :
    (∀ r, (run handler (rs.map .pop) c).reg r = if r ∈ rs then g r else c.reg r) ∧
      Stack.Holds (run handler (rs.map .pop) c).mem (run handler (rs.map .pop) c).rsp ws := by
  induction rs generalizing c with
  | nil => exact ⟨fun r => by simp [run], h⟩
  | cons r rs ih =>
      obtain ⟨htop, hrest⟩ := Stack.holds_cons.mp h
      have hafter : Stack.Holds ((c.setReg r c.top).addRsp 8).mem
          ((c.setReg r c.top).addRsp 8).rsp (rs.map g ++ ws) := hrest
      obtain ⟨hreg, hholds⟩ := ih hafter
      refine ⟨fun x => ?_, hholds⟩
      have hx : (run handler ((r :: rs).map .pop) c).reg x =
          if x ∈ rs then g x else ((c.setReg r c.top).addRsp 8).reg x := hreg x
      rw [hx]
      by_cases hsame : x = r
      · subst hsame
        simp [Cpu.top, htop]
      · simp [hsame]

/-- The frame of the interrupted code. -/
def iretWords (c : Cpu) : List Word64 :=
  [c.rip, c.cs.setWidth 64, c.rflags, c.rsp, c.ss.setWidth 64]

/-- The stub of vector `v` is a `DEFINE_ERR_ISR`. -/
def IsErrStub (v : Nat) : Prop := v = 8 ∨ 10 ≤ v ∧ v ≤ 14

instance (v : Nat) : Decidable (IsErrStub v) := inferInstanceAs (Decidable (_ ∨ _))

/-- The stub of vector `v`. -/
def stubOf (v : Nat) : List Instr :=
  if IsErrStub v then defineErrIsr (BitVec.ofNat 64 v) else defineIsr (BitVec.ofNat 64 v)

/-- What the processor and the stub of vector `v` push. -/
def frameWords (v : Nat) (errorCode : Word64) (c : Cpu) : List Word64 :=
  BitVec.ofNat 64 v :: ((if IsErrStub v then [] else [0]) ++
    ((if pushesErrorCode v then [errorCode] else []) ++ iretWords c))

theorem interrupt_holds : (interrupt gate errorCode v c).reg = c.reg ∧
    Stack.Holds (interrupt gate errorCode v c).mem (interrupt gate errorCode v c).rsp
      ((if pushesErrorCode v then [errorCode] else []) ++ iretWords c) := by
  have hss := Stack.holds_push (w := c.ss.setWidth 64)
    (@Stack.holds_nil _ c.mem gate.stack) (by simp)
  have hrsp := Stack.holds_push (w := c.rsp) hss (by simp)
  have hrflags := Stack.holds_push (w := c.rflags) hrsp (by simp)
  have hcs := Stack.holds_push (w := c.cs.setWidth 64) hrflags (by simp)
  have hrip := Stack.holds_push (w := c.rip) hcs (by simp)
  unfold interrupt
  by_cases herror : pushesErrorCode v
  · simp only [herror, if_true]
    exact ⟨rfl, Stack.holds_push hrip (by simp [iretWords])⟩
  · simp only [herror, if_false]
    exact ⟨rfl, hrip⟩

theorem entryCode_eq (hv : v ≤ 20 ∨ 32 ≤ v ∧ v ≤ 47) :
    entryCode v = stubOf v ++ (pushRegs.map .push ++ [.movRdiRsp]) := by
  have hall : ∀ v < 48, v ≤ 20 ∨ 32 ≤ v →
      entryCode v = stubOf v ++ (pushRegs.map .push ++ [.movRdiRsp]) := by
    decide
  exact hall v (by omega) (by omega)

theorem stub_holds : (run handler (stubOf v) (interrupt gate errorCode v c)).reg = c.reg ∧
    Stack.Holds (run handler (stubOf v) (interrupt gate errorCode v c)).mem
      (run handler (stubOf v) (interrupt gate errorCode v c)).rsp (frameWords v errorCode c) := by
  obtain ⟨hreg, hholds⟩ := @interrupt_holds c gate errorCode v
  have hlength : ((if pushesErrorCode v then [errorCode] else []) ++ iretWords c).length ≤ 6 := by
    by_cases herror : pushesErrorCode v <;> simp [herror, iretWords]
  unfold frameWords stubOf
  by_cases herr : IsErrStub v
  · have hnumber := Stack.holds_push (w := BitVec.ofNat 64 v) hholds (by omega)
    simp only [herr, if_true]
    exact ⟨hreg, hnumber⟩
  · have hzero := Stack.holds_push (w := 0) hholds (by omega)
    have hnumber := Stack.holds_push (w := BitVec.ofNat 64 v) hzero (by
      rw [List.length_cons]
      omega)
    simp only [herr, if_false]
    exact ⟨hreg, hnumber⟩

/-- **What the handler finds on the stack.** -/
theorem called_holds (hv : v ≤ 20 ∨ 32 ≤ v ∧ v ≤ 47) :
    let called := run handler (entryCode v) (interrupt gate errorCode v c)
    called.reg .rdi = called.rsp ∧ Stack.Holds called.mem called.rsp
      (Regs.order.map c.reg ++ frameWords v errorCode c) := by
  obtain ⟨hreg, hholds⟩ := @stub_holds handler c gate errorCode v
  have hlength : (frameWords v errorCode c).length ≤ 8 := by
    unfold frameWords
    split_ifs <;> simp [iretWords]
  obtain ⟨-, hpushed⟩ := @run_pushes handler _ _ pushRegs hholds (by
    have hregs : pushRegs.length = 15 := rfl
    omega)
  have horder : (pushRegs.map c.reg).reverse = Regs.order.map c.reg := rfl
  have hmov : ∀ s, run handler [.movRdiRsp] s = s.setReg .rdi s.rsp := fun _ => rfl
  rw [hreg, horder] at hpushed
  rw [entryCode_eq hv, run_append, run_append, hmov]
  generalize run handler (pushRegs.map .push)
    (run handler (stubOf v) (interrupt gate errorCode v c)) = s at hpushed ⊢
  simpa using hpushed

/-! ## The C structure -/

theorem mem_order (r : Reg) : r ∈ Regs.order := by
  cases r <;> decide

/-- A `Regs` that is read from where the frame lies. -/
theorem load_of_holds (ws : List Word64) {mem : Word64 → Word64}
    {p i e rip cs rflags rsp ss : Word64}
    (h : Stack.Holds mem p (Regs.order.map g ++ (i :: e :: rip :: cs :: rflags :: rsp :: ss :: ws))) :
    Regs.load mem p = ⟨g, i, e, rip, cs, rflags, rsp, ss⟩ := by
  have hgeneral : (Regs.load mem p).general = g := by
    funext r
    have hindex := List.idxOf_lt_length_of_mem (mem_order r)
    have hword := h (Regs.order.idxOf r) (by simp; omega)
    rw [List.getElem_append_left (by simpa using hindex), List.getElem_map,
      List.getElem_idxOf] at hword
    exact hword
  have hlength : (Regs.order.map g).length = 15 := rfl
  have hrest : ∀ k (hk : k < (i :: e :: rip :: cs :: rflags :: rsp :: ss :: ws).length),
      mem (p + BitVec.ofNat 64 (8 * (15 + k))) =
        (i :: e :: rip :: cs :: rflags :: rsp :: ss :: ws)[k] := by
    intro k hk
    rw [h (15 + k) (by rw [List.length_append]; omega),
      List.getElem_append_right (by omega)]
    simp [hlength]
  exact Regs.ext hgeneral (hrest 0 (by simp)) (hrest 1 (by simp)) (hrest 2 (by simp))
    (hrest 3 (by simp)) (hrest 4 (by simp)) (hrest 5 (by simp)) (hrest 6 (by simp))

/-! ## The way back -/

theorem exitCode_eq (v : Nat) : exitCode v = popRegs.map .pop ++ [.addRsp 16, .iretq] := by
  unfold exitCode
  split_ifs <;> rfl

theorem exit_resumes {s : Cpu} {i e : Word64}
    (h : Stack.Holds s.mem s.rsp (Regs.order.map c.reg ++ (i :: e :: iretWords c))) :
    Resumes (run handler (exitCode v) s) c := by
  obtain ⟨hreg, hholds⟩ := @run_pops handler s c.reg _ popRegs h
  rw [exitCode_eq, run_append]
  generalize run handler (popRegs.map .pop) s = s' at hreg hholds ⊢
  -- behind the number and the error code
  have hframe := (Stack.holds_cons.mp (Stack.holds_cons.mp hholds).2).2
  have hskip : s'.rsp + 8 + 8 = s'.rsp + 16 := BitVec.add_assoc _ _ _
  rw [hskip] at hframe
  obtain ⟨hrip, -⟩ := Stack.holds_cons.mp hframe
  have hcs := hframe 1 (by simp [iretWords])
  have hrflags := hframe 2 (by simp [iretWords])
  have hrsp := hframe 3 (by simp [iretWords])
  have hss := hframe 4 (by simp [iretWords])
  refine ⟨?_, hrip, ?_, hrflags, hrsp, ?_⟩
  · funext r
    exact (hreg r).trans (if_pos (mem_order r))
  · refine (congrArg (BitVec.setWidth 16) hcs).trans ?_
    exact BitVec.setWidth_setWidth_of_le c.cs (by decide)
  · refine (congrArg (BitVec.setWidth 16) hss).trans ?_
    exact BitVec.setWidth_setWidth_of_le c.ss (by decide)

/-! ## The vectors -/

/-- With one error code in the frame, from whichever of the two, everything is in its place. -/
theorem frameWords_of_ne (hne : v ≠ 17) :
    ∃ e, frameWords v errorCode c = BitVec.ofNat 64 v :: e :: iretWords c := by
  unfold frameWords
  by_cases herr : IsErrStub v
  · have hpushes : pushesErrorCode v := herr.imp id Or.inl
    exact ⟨errorCode, by simp [herr, hpushes]⟩
  · have hnone : ¬ pushesErrorCode v := by
      unfold pushesErrorCode
      unfold IsErrStub at herr
      omega
    exact ⟨0, by simp [herr, hnone]⟩

theorem frameRight_of_ne (hv : v ≤ 20 ∨ 32 ≤ v ∧ v ≤ 47) (hne : v ≠ 17) : FrameRight v := by
  constructor
  · intro gate errorCode c handler
    obtain ⟨e, hwords⟩ := @frameWords_of_ne c errorCode v hne
    obtain ⟨hrdi, hholds⟩ := @called_holds handler c gate errorCode v hv
    rw [hwords] at hholds
    dsimp only
    rw [hrdi, load_of_holds [] hholds]
    exact ⟨rfl, rfl, rfl, rfl, rfl, rfl, rfl⟩
  · intro gate errorCode c handler hkeeps
    obtain ⟨e, hwords⟩ := @frameWords_of_ne c errorCode v hne
    obtain ⟨hrdi, hholds⟩ := @called_holds handler c gate errorCode v hv
    rw [hwords] at hholds
    rw [run_append, run_append]
    generalize run handler (entryCode v) (interrupt gate errorCode v c) = called at hrdi hholds ⊢
    obtain ⟨hrsp, hsame⟩ := hkeeps called
    have hafter : Stack.Holds (handler called).mem (handler called).rsp
        (Regs.order.map c.reg ++ BitVec.ofNat 64 v :: e :: iretWords c) := by
      rw [hrsp]
      refine Stack.holds_congr hholds fun k hk => ?_
      rw [← hrdi]
      exact hsame k hk
    exact exit_resumes hafter

/-- The frame of an alignment check is one quadword too long: what the handler takes for the
interrupted `RIP` is the error code. -/
theorem frame_of_alignmentCheck : (Regs.load (run handler (entryCode 17)
    (interrupt gate errorCode 17 c)).mem ((run handler (entryCode 17)
      (interrupt gate errorCode 17 c)).reg .rdi)).rip = errorCode := by
  obtain ⟨hrdi, hholds⟩ := @called_holds handler c gate errorCode 17 (by decide)
  have hwords : frameWords 17 errorCode c = 17 :: 0 :: errorCode :: iretWords c := rfl
  rw [hwords] at hholds
  rw [hrdi, load_of_holds [c.ss.setWidth 64] hholds]

/-- **When the frame is what the handlers think it is.**  For the exceptions 0 to 20 and the vectors
of the 16 IRQs: for all of them but the alignment check. -/
theorem frame_right_iff (v : Nat) (hv : v ≤ 20 ∨ 32 ≤ v ∧ v ≤ 47) : FrameRight v ↔ v ≠ 17 := by
  refine ⟨?_, frameRight_of_ne hv⟩
  rintro hright rfl
  -- an error code that is not the interrupted address
  have hpassed := (hright.passed ⟨0, 0, 0, 0, 0⟩ 1 ⟨fun _ => 0, 0, 0, 0, 0, 0, fun _ => 0⟩ id).rip
  rw [frame_of_alignmentCheck] at hpassed
  exact absurd hpassed (by decide)

/-- A page fault. -/
theorem pageFault_frame_right : FrameRight 14 := (frame_right_iff 14 (by decide)).mpr (by decide)

/-- An alignment check at `0x100000` with the error code 0: the handler sees `RIP` 0. -/
theorem alignmentCheck_frame_wrong :
    let c : Cpu := ⟨fun _ => 0, 0x9000, 0x100000, 8, 2, 0x10, fun _ => 0⟩
    let called := run id (entryCode 17) (interrupt ⟨0, 8, 2, 0x10, 0x9000⟩ 0 17 c)
    (Regs.load called.mem (called.reg .rdi)).rip = 0 ∧ ¬ FrameRight 17 := by
  refine ⟨frame_of_alignmentCheck, fun hright => ?_⟩
  have hpassed := (hright.passed ⟨0, 8, 2, 0x10, 0x9000⟩ 0
    ⟨fun _ => 0, 0x9000, 0x100000, 8, 2, 0x10, fun _ => 0⟩ id).rip
  rw [frame_of_alignmentCheck] at hpassed
  exact absurd hpassed (by decide)

end Isr
end Kernel
end ZineOS
