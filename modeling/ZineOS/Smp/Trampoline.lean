import ZineOS.Loader.Common
import ZineOS.Lib.Transition

/-!
# The trampoline page

The boot processor in the last part of `Acpi::ParseMadt`, and any set of application processors in
`trampoline.asm` and in the first instructions of `ApplicationProcessor`.  A processor executes one
instruction at a time, in any interleaving with the others; of the boot processor's C code a step is
what happens between two accesses that the others could notice.

The page counts as in use by the trampoline from its allocation to `Frame::Free`.  A later
`Frame::Alloc` may hand it out again, to code that writes it.
-/

namespace ZineOS
namespace Smp
namespace Trampoline

open Lib Loader

/-- What an instruction reads from the page, or writes to it. -/
inductive Access
  | instruction
  | counter
  | gdtPointer
  | farPointer
  | descriptor
  deriving DecidableEq

/-- The instructions of an application processor up to the loop at `.again`. -/
inductive Instr
  | jmpSkip | cli | cld | movEax | xadd | incEax | lgdt | readCr0 | orCr0 | writeCr0 | farJump
  | movAx | movDs | movEs | movFs | movGs
  deriving DecidableEq

/-- Everything up to the far jump lies in the page.  The GDT is there as well, and it is the one in
use while `ApplicationProcessor` loads its segment registers. -/
def Instr.accesses : Instr → List Access
  | .jmpSkip | .cli | .cld | .movEax | .incEax | .readCr0 | .orCr0 | .writeCr0 => [.instruction]
  | .xadd => [.instruction, .counter]
  | .lgdt => [.instruction, .gdtPointer]
  | .farJump => [.instruction, .farPointer, .descriptor]
  | .movAx => []
  | .movDs | .movEs | .movFs | .movGs => [.descriptor]

def code : List Instr :=
  [.jmpSkip, .cli, .cld, .movEax, .xadd, .incEax, .lgdt, .readCr0, .orCr0, .writeCr0, .farJump,
    .movAx, .movDs, .movEs, .movFs, .movGs]

/-- An application processor waits for the startup IPI or is about to execute instruction `pc` of
`code`; behind the last one it is in the loop at `.again`. -/
inductive Ap
  | waiting
  | running (pc : Nat)
  deriving DecidableEq

/-- Where the boot processor is. -/
inductive Boot
  | findFile
  | alloc
  | copy
  | sendInit
  | sendStartup
  | poll (counter : Word32)
  | free
  | returned
  deriving DecidableEq

inductive Page
  | unused
  | trampoline
  | free
  | reused
  deriving DecidableEq

/-- `cpuCount` is the number of local APIC entries of the MADT, `found` whether the initial RAM disk
has a `trampoline.bin`. -/
structure Config where
  cpuCount : Word32
  found : Bool

structure State (α : Type*) where
  boot : Boot
  page : Page
  /-- `trampoline->cpu_count`. -/
  count : Word32
  /-- The startup IPI has been sent. -/
  startup : Bool
  ap : α → Ap

/-- The next step of the boot processor, or of an application processor.  `reuse` says whether the
boot processor, once it has freed the page, allocates and writes it. -/
inductive Turn (α : Type*)
  | boot (reuse : Bool)
  | ap (i : α)

variable {α : Type*} [DecidableEq α]

def bootStep (cfg : Config) (s : State α) (reuse : Bool) : State α :=
  match s.boot with
  | .findFile => { s with boot := if 0 < cfg.cpuCount ∧ cfg.found then .alloc else .returned }
  | .alloc => { s with page := .trampoline, boot := .copy }
  | .copy => { s with count := 1, boot := .sendInit }
  | .sendInit => { s with boot := .sendStartup }
  | .sendStartup => { s with startup := true, boot := .poll 0xffffff }
  | .poll counter =>
      if s.count = cfg.cpuCount ∨ counter = 0 then { s with boot := .free }
      else { s with boot := .poll (counter - 1) }
  | .free => { s with page := .free, boot := .returned }
  | .returned => if reuse ∧ s.page = .free then { s with page := .reused } else s

def apStep (s : State α) (i : α) : State α :=
  match s.ap i with
  | .waiting => if s.startup then { s with ap := Function.update s.ap i (.running 0) } else s
  | .running pc =>
      match code[pc]? with
      | some instr =>
          { s with
            count := if instr = .xadd then s.count + 1 else s.count
            ap := Function.update s.ap i (.running (pc + 1)) }
      | none => s

def step (cfg : Config) (s : State α) : Turn α → State α
  | .boot reuse => bootStep cfg s reuse
  | .ap i => apStep s i

def start : State α := ⟨.findFile, .unused, 0, false, fun _ => .waiting⟩

/-- All interleavings. -/
def interleavings (α : Type*) [DecidableEq α] (cfg : Config) : System (State α) (Turn α) :=
  System.ofCalls start (step cfg) fun _ _ => True

/-- `ParseMadt` has given the page back. -/
def Page.Freed (p : Page) : Prop := p = .free ∨ p = .reused

instance (p : Page) : Decidable p.Freed := inferInstanceAs (Decidable (_ ∨ _))

/-- Some instruction that the processor has still to execute accesses the page. -/
def StillFetches (s : State α) (i : α) : Prop :=
  match s.ap i with
  | .waiting => s.startup = true
  | .running pc => ∃ instr ∈ code.drop pc, instr.accesses ≠ []

/-- No processor depends on a freed page. -/
def Safe (s : State α) : Prop := s.page.Freed → ∀ i, ¬ StillFetches s i

/-- The processor is in the loop at `.again`. -/
def Ap.Parked (a : Ap) : Prop := ∃ pc, a = .running pc ∧ code.length ≤ pc

/-- `Frame::Free` is called only when every application processor is in the loop. -/
def FreeWhenParked (s : State α) : Turn α → State α → Prop
  | .boot _, _ => s.boot = .free → ∀ i, (s.ap i).Parked
  | .ap _, _ => True

end Trampoline
end Smp
end ZineOS
