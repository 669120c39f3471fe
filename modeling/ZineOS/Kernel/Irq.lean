import ZineOS.Loader.Common
import ZineOS.Lib.Pic
import ZineOS.Lib.Transition

/-!
# The interrupt requests

`irq_remap` programs the two interrupt controllers, and `irq_dispatcher` calls the routine of a request
and sends the ends of interrupt.  A routine may let further interrupts in, so that handlers nest, and a
request may be gone when it is acknowledged; the number is then that of line 7 and no line is put in
service.  `system` has all these interleavings.

* `irqRemap_eq` — what `irq_remap` makes of the controllers.
* `next_interrupt` — the handler that an acknowledgement enters.
-/

namespace ZineOS
namespace Kernel
namespace Irq

open Lib Loader
open Lib.Pic (Pair Chip Ack Nested endFirst)

/-! ## The code -/

/-- The writes of `irq_remap`. -/
def irqRemap : List (Word16 × Byte) :=
  [(0x20, 0x11), (0xA0, 0x11), (0x21, 0x20), (0xA1, 0x28), (0x21, 0x04), (0xA1, 0x02),
    (0x21, 0x01), (0xA1, 0x01), (0x21, 0x0), (0xA1, 0x0)]

/-- What `irq_dispatcher` does, one after the other. -/
inductive Action (Fn : Type)
  /-- The routine, from before the call to behind it. -/
  | call (fn : Fn)
  | outportb (port : Word16) (data : Byte)
  deriving DecidableEq

variable {Fn : Type}

/-- `irq_dispatcher`; `none` when it reads behind `routines`. -/
def irqDispatcher (routines : Fin 16 → Option Fn) (interrupt : Word64) :
    Option (List (Action Fn)) :=
  if h : (interrupt - 32).toNat < 16 then
    let fn := routines ⟨(interrupt - 32).toNat, h⟩
    some ((fn.map Action.call).toList ++
      (if interrupt.toNat ≥ 40 then [.outportb 0xA0 0x20] else []) ++ [.outportb 0x20 0x20])
  else none

/-- `Irq::SetHandler`. -/
def setHandler (routines : Fin 16 → Option Fn) (irq : Fin 16) (fn : Option Fn) :
    Fin 16 → Option Fn := Function.update routines irq fn

/-! ## The interleavings -/

/-- A handler from the acknowledgement to its `iretq`. -/
structure Handler (Fn : Type) where
  /-- The lines that its acknowledgement has put in service. -/
  master : Option (Fin 8)
  slave : Option (Fin 8)
  todo : List (Action Fn)
  deriving DecidableEq

structure State (Fn : Type) where
  pics : Pair
  routines : Fin 16 → Option Fn
  /-- The interrupt flag. -/
  enabled : Bool
  /-- The handlers that have not returned, the running one in front. -/
  active : List (Handler Fn)

inductive Label (Fn : Type)
  /-- A line of one of the controllers is raised, or dropped before it is acknowledged.  So is the
  master's line 2, where the slave's output is, at any time. -/
  | raise (slave : Bool) (line : Fin 8)
  | withdraw (slave : Bool) (line : Fin 8)
  /-- The processor acknowledges and enters the handler through its gate, which clears the flag. -/
  | interrupt
  /-- The running handler's next action; a routine returns. -/
  | advance
  | iretq
  /-- `sti` or `cli`, in a routine or outside of the handlers. -/
  | setFlag (b : Bool)
  | setHandler (irq : Fin 16) (fn : Option Fn)

def setRequests (p : Pair) (slave : Bool) (f : Finset (Fin 8) → Finset (Fin 8)) : Pair :=
  if slave then { p with slave := { p.slave with requests := f p.slave.requests } }
  else { p with master := { p.master with requests := f p.master.requests } }

/-- A routine is running, or no handler at all. -/
def inRoutine : List (Handler Fn) → Bool
  | [] => true
  | f :: _ =>
      match f.todo with
      | .call _ :: _ => true
      | _ => false

def next (s : State Fn) : Label Fn → Option (State Fn)
  | .raise slave line => some { s with pics := setRequests s.pics slave (insert line) }
  | .withdraw slave line => some { s with pics := setRequests s.pics slave (·.erase line) }
  | .interrupt => do
      if s.enabled = false then none
      let ack ← s.pics.acknowledge
      let todo ← irqDispatcher s.routines (ack.vector.setWidth 64)
      pure { s with
        pics := ack.pair
        enabled := false
        active := ⟨ack.master, ack.slave, todo⟩ :: s.active }
  | .advance =>
      match s.active with
      | ⟨master, slave, .call _ :: todo⟩ :: rest =>
          some { s with active := ⟨master, slave, todo⟩ :: rest }
      | ⟨master, slave, .outportb port data :: todo⟩ :: rest =>
          (s.pics.out port data).map fun p =>
            { s with pics := p, active := ⟨master, slave, todo⟩ :: rest }
      | _ => none
  | .iretq =>
      match s.active with
      -- the interrupted code had the flag set
      | ⟨_, _, []⟩ :: rest => some { s with active := rest, enabled := true }
      | _ => none
  | .setFlag b => if inRoutine s.active then some { s with enabled := b } else none
  | .setHandler irq fn =>
      if inRoutine s.active then some { s with routines := setHandler s.routines irq fn } else none

/-- Behind `Irq::Install`, with the controllers in any state before it but nothing in service. -/
def system (Fn : Type) : System (State Fn) (Label Fn) where
  init := fun s => s.active = [] ∧ s.enabled = false ∧ (∀ irq, s.routines irq = none) ∧
    ∃ p : Pair, p.master.inService = ∅ ∧ p.slave.inService = ∅ ∧
      irqRemap.foldlM (fun p w => p.out w.1 w.2) p = some s.pics
  step := fun s a s' => next s a = some s'

/-! ## The controllers behind `irq_remap` -/

/-- The requests 0 to 15 have the numbers 32 to 47, and none is masked. -/
structure Remapped (p : Pair) : Prop where
  masterPlain : p.master.Plain
  slavePlain : p.slave.Plain
  masterBase : p.master.icw2 = 0x20
  slaveBase : p.slave.icw2 = 0x28
  masterCascade : p.master.icw3 = 0x04
  slaveId : p.slave.icw3 = 0x02
  masterMask : p.master.mask = 0
  slaveMask : p.slave.mask = 0

/-- From any state of the controllers, also from the middle of another initialization. -/
theorem irqRemap_eq (p : Pair) :
    ∃ p', irqRemap.foldlM (fun p w => Pair.out p w.1 w.2) p = some p' ∧ Remapped p' ∧
      p'.master.inService = p.master.inService ∧ p'.slave.inService = p.slave.inService ∧
      p'.master.requests = ∅ ∧ p'.slave.requests = ∅ :=
  ⟨_, rfl, ⟨⟨rfl, rfl, rfl⟩, ⟨rfl, rfl, rfl⟩, rfl, rfl, rfl, rfl, rfl, rfl⟩, rfl, rfl, rfl, rfl⟩

variable {p : Pair} {s : State Fn}

theorem accept_plain (c : Chip) : (c.accept.Plain ↔ c.Plain) ∧ c.accept.icw2 = c.icw2 ∧
    c.accept.icw3 = c.icw3 ∧ c.accept.mask = c.mask := by
  unfold Chip.accept
  split <;> exact ⟨.rfl, rfl, rfl, rfl⟩

theorem Remapped.acceptMaster (h : Remapped p) : Remapped { p with master := p.master.accept } := by
  obtain ⟨hplain, hbase, hcascade, hmask⟩ := accept_plain p.master
  exact ⟨hplain.mpr h.masterPlain, h.slavePlain, hbase.trans h.masterBase, h.slaveBase,
    hcascade.trans h.masterCascade, h.slaveId, hmask.trans h.masterMask, h.slaveMask⟩

theorem Remapped.acceptSlave (h : Remapped p) : Remapped { p with slave := p.slave.accept } := by
  obtain ⟨hplain, hbase, hcascade, hmask⟩ := accept_plain p.slave
  exact ⟨h.masterPlain, hplain.mpr h.slavePlain, h.masterBase, hbase.trans h.slaveBase,
    h.masterCascade, hcascade.trans h.slaveId, h.masterMask, hmask.trans h.slaveMask⟩

theorem number_eq (i : Fin 8) :
    ((0x20 : Byte) &&& 0xF8) ||| BitVec.ofNat 8 i.val = BitVec.ofNat 8 (32 + i.val) ∧
      ((0x28 : Byte) &&& 0xF8) ||| BitVec.ofNat 8 i.val = BitVec.ofNat 8 (40 + i.val) := by
  revert i
  decide

theorem cascade_eq (i : Fin 8) : (0x04 : Byte).getLsbD i = decide (i = 2) := by
  revert i
  decide

/-- The acknowledgement of a line of the slave. -/
theorem acknowledge_slave (h : Remapped p) (hline : p.master.acknowledged = some 2) :
    p.acknowledge = some ⟨BitVec.ofNat 8 (40 + (p.slave.acknowledged.getD 7).val), some 2,
      p.slave.acknowledged, ⟨p.master.accept, p.slave.accept⟩⟩ := by
  have hslave : p.master.hasSlave (some 2) = true := by
    unfold Chip.hasSlave
    rw [Option.any_some, h.masterCascade]
    decide
  have hid : (some (2 : Fin 8)).any (fun i => (p.slave.icw3 &&& 7).toNat = i.val) = true := by
    rw [h.slaveId]
    decide
  unfold Pair.acknowledge
  rw [if_pos ⟨h.masterPlain, h.slavePlain⟩, hline, if_pos hslave, if_pos hid, Chip.vector,
    h.slaveBase]
  exact congrArg (fun v => some (Ack.mk v _ _ _)) (number_eq _).2

/-- The acknowledgement of another line, or of a request that is gone. -/
theorem acknowledge_master (h : Remapped p) (hline : p.master.acknowledged ≠ some 2) :
    p.acknowledge = some ⟨BitVec.ofNat 8 (32 + (p.master.acknowledged.getD 7).val),
      p.master.acknowledged, none, { p with master := p.master.accept }⟩ := by
  have hnone : ¬ p.master.hasSlave p.master.acknowledged = true := by
    unfold Chip.hasSlave
    cases hi : p.master.acknowledged with
    | none => simp
    | some i =>
        rw [Option.any_some, h.masterCascade, cascade_eq, decide_eq_true_iff]
        rintro rfl
        exact hline hi
  unfold Pair.acknowledge
  rw [if_pos ⟨h.masterPlain, h.slavePlain⟩, if_neg hnone, Chip.vector, h.masterBase]
  exact congrArg (fun v => some (Ack.mk v _ _ _)) (number_eq _).1

/-! ## What a handler does -/

/-- What is to be done for a routine. -/
def callOf (fn : Option Fn) : List (Action Fn) := (fn.map Action.call).toList

theorem number_index (i : Fin 8) :
    ((BitVec.ofNat 8 (32 + i.val)).setWidth 64 : Word64).toNat = 32 + i.val ∧
      ((BitVec.ofNat 8 (32 + i.val)).setWidth 64 - 32 : Word64).toNat = i.val ∧
      ((BitVec.ofNat 8 (40 + i.val)).setWidth 64 : Word64).toNat = 40 + i.val ∧
      ((BitVec.ofNat 8 (40 + i.val)).setWidth 64 - 32 : Word64).toNat = 8 + i.val := by
  revert i
  decide

theorem dispatch_master (routines : Fin 16 → Option Fn) (i : Fin 8) :
    irqDispatcher routines ((BitVec.ofNat 8 (32 + i.val)).setWidth 64) =
      some (callOf (routines (Fin.castAdd 8 i)) ++ [.outportb 0x20 0x20]) := by
  obtain ⟨hnumber, hindex, -, -⟩ := number_index i
  unfold irqDispatcher
  rw [dif_pos (by omega), hnumber, if_neg (by omega)]
  simp only [hindex, List.append_nil]
  rfl

theorem dispatch_slave (routines : Fin 16 → Option Fn) (j : Fin 8) :
    irqDispatcher routines ((BitVec.ofNat 8 (40 + j.val)).setWidth 64) =
      some (callOf (routines (Fin.natAdd 8 j)) ++
        [.outportb 0xA0 0x20, .outportb 0x20 0x20]) := by
  obtain ⟨-, -, hnumber, hindex⟩ := number_index j
  unfold irqDispatcher
  rw [dif_pos (by omega), hnumber, if_pos (by omega)]
  simp only [hindex, List.append_assoc]
  rfl

/-- Behind the acknowledgement of a line of the master. -/
def enterMaster (s : State Fn) : State Fn :=
  { s with
    pics := { s.pics with master := s.pics.master.accept }
    enabled := false
    active := ⟨s.pics.master.acknowledged, none,
      callOf (s.routines (Fin.castAdd 8 (s.pics.master.acknowledged.getD (Fin.last 7)))) ++
        [.outportb 0x20 0x20]⟩ :: s.active }

/-- Behind the acknowledgement of a line of the slave. -/
def enterSlave (s : State Fn) : State Fn :=
  { s with
    pics := ⟨s.pics.master.accept, s.pics.slave.accept⟩
    enabled := false
    active := ⟨s.pics.master.acknowledged, s.pics.slave.acknowledged,
      callOf (s.routines (Fin.natAdd 8 (s.pics.slave.acknowledged.getD (Fin.last 7)))) ++
        [.outportb 0xA0 0x20, .outportb 0x20 0x20]⟩ :: s.active }

theorem active_enterSlave (hline : s.pics.master.acknowledged = some 2) :
    (enterSlave s).active = ⟨some 2, s.pics.slave.acknowledged,
      callOf (s.routines (Fin.natAdd 8 (s.pics.slave.acknowledged.getD (Fin.last 7)))) ++
        [.outportb 0xA0 0x20, .outportb 0x20 0x20]⟩ :: s.active := by
  unfold enterSlave
  rw [hline]

theorem next_interrupt (h : Remapped s.pics) : next s .interrupt =
    if s.enabled = true then
      some (if s.pics.master.acknowledged = some 2 then enterSlave s else enterMaster s)
    else none := by
  unfold next
  by_cases hon : s.enabled = true
  · rw [if_neg (by simp [hon]), if_pos hon]
    by_cases hline : s.pics.master.acknowledged = some 2
    · rw [acknowledge_slave h hline, if_pos hline]
      simp only [Option.bind_eq_bind, Option.bind_some, dispatch_slave]
      unfold enterSlave
      rw [hline]
      rfl
    · rw [acknowledge_master h hline, if_neg hline]
      simp only [Option.bind_eq_bind, Option.bind_some, dispatch_master]
      rfl
  · rw [if_pos (by simpa using hon), if_neg hon]
    rfl

end Irq
end Kernel
end ZineOS
