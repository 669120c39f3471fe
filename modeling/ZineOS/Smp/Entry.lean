import ZineOS.Loader.Common
import ZineOS.Lib.Threads

/-!
# How the processors enter the kernel

The instructions of the loader's `boot.asm` from `start32` and `ApplicationProcessor` to the jump
into the kernel, and those of the kernel's `load.asm` from `start64` to the call of `kmain`.  One
step is one instruction that touches shared memory, together with the register instructions around
it; a processor is named by its local APIC id.

`Pc` is the label of the next such instruction.  What memory cannot tell is an `Input`: the answer
of CPUID and what the loader's `kmain` does next.  `trace` and `tickets` are histories: what the
processors did that matters here, newest first, and who executed the `lock xadd`, oldest first.
-/

namespace ZineOS
namespace Smp

open Lib Loader

/-- Processors are told apart by their local APIC ids. -/
abbrev Processor := Word32

inductive Pc
  /-- `start32`: the CPUID checks. -/
  | start32
  /-- Inside `call _kmain` of the loader. -/
  | kmain
  /-- `cmp eax, 0`. -/
  | testEntry
  /-- `mov [KernelAddress], eax`. -/
  | storeAddress
  /-- `inc byte [KernelReady]`. -/
  | incReady
  /-- `.again: cmp byte [KernelReady], 0`. -/
  | again
  /-- `.DoAPEntry: … mov eax, [_pml4_table]`. -/
  | doAPEntry
  /-- `mov cr3, eax`. -/
  | setCr3
  /-- `mov ebx, [KernelAddress]`. -/
  | loadAddress
  /-- `jmp ebx`. -/
  | jump
  /-- `start64: … lock xadd [rel _g_cpu_count], rax`. -/
  | start64
  /-- `inc rax`, `cmp rax, 1`. -/
  | compare
  /-- `.Ok: … call _kmain` of the kernel. -/
  | ok
  /-- Inside the kernel's `kmain`, or behind it in `jmp $`. -/
  | kernel
  /-- `hlt`. -/
  | halted
  deriving DecidableEq

/-- A processor: its program counter and the registers that carry something. -/
structure Cpu where
  pc : Pc
  eax : Word32
  ebx : Word32
  cr3 : Word32
  rax : Word64

inductive Action
  | returned (entry : Word32)
  | stored (entry : Word32)
  | readPml4 (table : Word32)
  | loadedCr3 (table : Word32)
  | jumped (target : Word32)
  | calledKmain
  deriving DecidableEq

structure Shared where
  kernelReady : Byte
  kernelAddress : Word32
  pml4Table : Word32
  cpuCount : Word64
  trace : List (Processor × Action)
  tickets : List Processor

/-- `longMode` is what CPUID says; in `kmain`, `pml4 = some v` stores `v` to `pml4_table` and
`none` returns `entry`. -/
structure Input where
  longMode : Bool
  pml4 : Option Word32
  entry : Word32

def Shared.log (s : Shared) (p : Processor) (a : Action) : Shared :=
  { s with trace := (p, a) :: s.trace }

/-- One step of processor `p`. -/
def exec (p : Processor) (s : Shared) (c : Cpu) (i : Input) : Shared × Cpu :=
  match c.pc with
  | .start32 => (s, { c with pc := if i.longMode then .kmain else .halted })
  | .kmain =>
      match i.pml4 with
      | some v => ({ s with pml4Table := v }, c)
      | none => (s.log p (.returned i.entry), { c with eax := i.entry, pc := .testEntry })
  | .testEntry => (s, { c with pc := if c.eax = 0 then .halted else .storeAddress })
  | .storeAddress =>
      (({ s with kernelAddress := c.eax }).log p (.stored c.eax), { c with pc := .incReady })
  | .incReady => ({ s with kernelReady := s.kernelReady + 1 }, { c with pc := .doAPEntry })
  | .again => (s, { c with pc := if s.kernelReady = 0 then .again else .doAPEntry })
  | .doAPEntry =>
      (s.log p (.readPml4 s.pml4Table), { c with eax := s.pml4Table, pc := .setCr3 })
  | .setCr3 => (s.log p (.loadedCr3 c.eax), { c with cr3 := c.eax, pc := .loadAddress })
  | .loadAddress => (s, { c with ebx := s.kernelAddress, pc := .jump })
  -- the code at the target is the kernel's `start64`
  | .jump => (s.log p (.jumped c.ebx), { c with pc := .start64 })
  | .start64 =>
      ({ s with cpuCount := s.cpuCount + 1, tickets := s.tickets ++ [p] },
        { c with rax := s.cpuCount, pc := .compare })
  | .compare => (s, { c with rax := c.rax + 1, pc := if c.rax + 1 = 1 then .ok else .halted })
  | .ok => (s.log p .calledKmain, { c with pc := .kernel })
  | .kernel => (s, c)
  | .halted => (s, c)

/-- The variables as the linkers leave them. -/
def Shared.init : Shared where
  kernelReady := 0
  kernelAddress := 0
  pml4Table := 0
  cpuCount := 0
  trace := []
  tickets := []

def Cpu.init (pc : Pc) : Cpu := ⟨pc, 0, 0, 0, 0⟩

/-- The boot processor starts at `start32`, every other one at `ApplicationProcessor`.  A processor
that is never started is one that never takes a step. -/
def start (boot : Processor) : Shared × (Processor → Cpu) :=
  (Shared.init, fun p => Cpu.init (if p = boot then .start32 else .again))

def processors : Threads Processor Shared Cpu Input := ⟨exec⟩

/-- All runs of all processors. -/
def smp (boot : Processor) : System (Shared × (Processor → Cpu)) (Processor × Input) :=
  processors.system (start boot)

end Smp
end ZineOS
