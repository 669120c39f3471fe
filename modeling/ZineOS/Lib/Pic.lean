import Mathlib

/-!
# The 8259A interrupt controller

In the fully nested mode a request is passed on when it has priority over everything in service, and
the command that ends an interrupt ends the one of highest priority in service.  So the lines in
service are a stack: `Nested` lists them innermost first, an acknowledgement pushes (`Nested.push`) and
an end of interrupt pops (`Nested.pop`).  This part is about any linear order of priorities.

`Chip` has the registers of one controller and its command words, `Pair` the two of a PC with the
second one behind a line of the first.  The commands and modes that these definitions leave out
(rotating priorities, polling, the special masks, automatic ends) give `none`.
-/

namespace ZineOS
namespace Lib
namespace Pic

/-! ## Nested priorities -/

section Nested

variable {ι : Type*} [LinearOrder ι] {requests s : Finset ι} {i : ι} {l : List ι}

/-- The highest priority is the least line. -/
def first (s : Finset ι) : Option ι := if h : s.Nonempty then some (s.min' h) else none

/-- The request that is passed on. -/
def pending (requests inService : Finset ι) : Option ι :=
  (first requests).filter fun i => ∀ j ∈ inService, i < j

/-- The non-specific end of interrupt. -/
def endFirst (s : Finset ι) : Finset ι :=
  match first s with
  | some i => s.erase i
  | none => s

theorem first_eq_some : first s = some i ↔ IsLeast (s : Set ι) i := by
  unfold first
  constructor
  · intro h
    split_ifs at h with hne
    obtain rfl := Option.some.inj h
    exact s.isLeast_min' hne
  · intro h
    have hne : s.Nonempty := ⟨i, h.1⟩
    rw [dif_pos hne, (s.isLeast_min' hne).unique h]

theorem first_empty : first (∅ : Finset ι) = none := dif_neg Finset.not_nonempty_empty

theorem endFirst_empty : endFirst (∅ : Finset ι) = ∅ := by
  unfold endFirst
  rw [first_empty]

theorem pending_eq_some : pending requests s = some i ↔
    IsLeast (requests : Set ι) i ∧ ∀ j ∈ s, i < j := by
  unfold pending
  rw [Option.filter_eq_some_iff, first_eq_some, decide_eq_true_iff]

/-- The lines in service, the one acknowledged last in front. -/
structure Nested (l : List ι) (s : Finset ι) : Prop where
  sorted : l.Pairwise (· < ·)
  mem_iff : ∀ i, i ∈ s ↔ i ∈ l

theorem nested_nil : Nested ([] : List ι) s ↔ s = ∅ := by
  constructor
  · intro h
    exact Finset.eq_empty_of_forall_notMem fun i hi => List.not_mem_nil ((h.mem_iff i).mp hi)
  · rintro rfl
    exact ⟨.nil, fun i => by simp⟩

/-- An acknowledged line has priority over those in service. -/
theorem Nested.push (h : Nested l s) (hpending : pending requests s = some i) :
    Nested (i :: l) (insert i s) where
  sorted := List.pairwise_cons.mpr
    ⟨fun j hj => (pending_eq_some.mp hpending).2 j ((h.mem_iff j).mpr hj), h.sorted⟩
  mem_iff := fun j => by rw [Finset.mem_insert, List.mem_cons, h.mem_iff]

theorem Nested.endFirst_eq (h : Nested (i :: l) s) : endFirst s = s.erase i := by
  have hleast : first s = some i := by
    refine first_eq_some.mpr ⟨(h.mem_iff i).mpr List.mem_cons_self, fun j hj => ?_⟩
    rcases List.mem_cons.mp ((h.mem_iff j).mp hj) with rfl | hmem
    · exact le_rfl
    · exact (List.rel_of_pairwise_cons h.sorted hmem).le
  unfold endFirst
  rw [hleast]

/-- An end of interrupt ends the line acknowledged last. -/
theorem Nested.pop (h : Nested (i :: l) s) : Nested l (endFirst s) where
  sorted := h.sorted.of_cons
  mem_iff := fun j => by
    have hfirst : ∀ j ∈ l, i < j := fun j hj => List.rel_of_pairwise_cons h.sorted hj
    rw [h.endFirst_eq, Finset.mem_erase, h.mem_iff, List.mem_cons]
    constructor
    · rintro ⟨hne, rfl | hj⟩
      · exact absurd rfl hne
      · exact hj
    · exact fun hj => ⟨(hfirst j hj).ne', .inr hj⟩

/-- An end of interrupt by whoever owes one, or by someone who has put no line in service when nobody
owes one. -/
theorem Nested.endFirst {line : Option ι} (h : Nested (line.toList ++ l) s)
    (hnone : line = none → l = []) :
    Nested l (endFirst s) ∧ line.toFinset ⊆ s ∧ Pic.endFirst s = s \ line.toFinset := by
  cases line with
  | none =>
      obtain rfl := hnone rfl
      obtain rfl := nested_nil.mp h
      rw [endFirst_empty]
      exact ⟨h, Finset.empty_subset _, rfl⟩
  | some i =>
      have hmem : i ∈ s := (h.mem_iff i).mpr List.mem_cons_self
      refine ⟨h.pop, Finset.singleton_subset_iff.mpr hmem, ?_⟩
      rw [h.endFirst_eq, Option.toFinset_some, Finset.sdiff_singleton_eq_erase]

end Nested

/-! ## One controller -/

/-- What a write to the second port is taken for. -/
inductive Expects
  | mask | icw2 | icw3 | icw4
  deriving DecidableEq

structure Chip where
  requests : Finset (Fin 8)
  inService : Finset (Fin 8)
  mask : BitVec 8
  expects : Expects
  /-- Two bits of the first initialization word: no cascade, and whether there is a fourth word. -/
  single : Bool
  needsIcw4 : Bool
  icw2 : BitVec 8
  icw3 : BitVec 8
  icw4 : BitVec 8

namespace Chip

/-- A write to the first port: the first initialization word or an end of interrupt. -/
def command (c : Chip) (v : BitVec 8) : Option Chip :=
  if v.getLsbD 4 then
    some { c with
      requests := ∅, mask := 0, expects := .icw2, single := v.getLsbD 1, needsIcw4 := v.getLsbD 0,
      icw4 := if v.getLsbD 0 then c.icw4 else 0 }
  else if v.getLsbD 3 then none
  else if v >>> 5 = 1 then some { c with inService := endFirst c.inService }
  else if v >>> 5 = 3 then
    some { c with inService := c.inService.filter fun i => i.val ≠ (v &&& 7).toNat }
  else none

/-- A write to the second port. -/
def data (c : Chip) (v : BitVec 8) : Chip :=
  match c.expects with
  | .mask => { c with mask := v }
  | .icw2 =>
      { c with
        icw2 := v
        expects := if c.single then (if c.needsIcw4 then .icw4 else .mask) else .icw3 }
  | .icw3 => { c with icw3 := v, expects := if c.needsIcw4 then .icw4 else .mask }
  | .icw4 => { c with icw4 := v, expects := .mask }

/-- Initialized for the fully nested mode, in a cascade, for an 8086, with ends of interrupt by
command. -/
def Plain (c : Chip) : Prop := c.expects = .mask ∧ c.single = false ∧ c.icw4 = 1

instance (c : Chip) : Decidable c.Plain := inferInstanceAs (Decidable (_ ∧ _))

def unmasked (c : Chip) : Finset (Fin 8) := c.requests.filter fun i => c.mask.getLsbD i.val = false

/-- The line that is put in service by an acknowledgement, if there still is a request. -/
def acknowledged (c : Chip) : Option (Fin 8) := pending c.unmasked c.inService

def accept (c : Chip) : Chip :=
  match c.acknowledged with
  | some i => { c with requests := c.requests.erase i, inService := insert i c.inService }
  | none => c

theorem nested_accept {c : Chip} {l : List (Fin 8)} (h : Nested l c.inService) :
    Nested (c.acknowledged.toList ++ l) c.accept.inService := by
  unfold accept
  cases hline : c.acknowledged with
  | none => exact h
  | some i => exact h.push hline

/-- The number on the bus; that of line 7 when there was no request. -/
def vector (c : Chip) : BitVec 8 :=
  (c.icw2 &&& 0xF8) ||| BitVec.ofNat 8 (c.acknowledged.getD 7)

/-- Whether another controller is behind a line. -/
def hasSlave (c : Chip) (line : Option (Fin 8)) : Bool := line.any fun i : Fin 8 => c.icw3.getLsbD i.val

end Chip

/-! ## Two controllers -/

structure Pair where
  master : Chip
  slave : Chip

/-- What an acknowledgement gives: the number for the processor, and the lines of the two controllers
that are in service from now on because of it. -/
structure Ack where
  vector : BitVec 8
  master : Option (Fin 8)
  slave : Option (Fin 8)
  pair : Pair

namespace Pair

/-- A byte for one of the four ports of a PC. -/
def out (p : Pair) (port : BitVec 16) (v : BitVec 8) : Option Pair :=
  if port = 0x20 then (p.master.command v).map fun c => { p with master := c }
  else if port = 0x21 then some { p with master := p.master.data v }
  else if port = 0xA0 then (p.slave.command v).map fun c => { p with slave := c }
  else if port = 0xA1 then some { p with slave := p.slave.data v }
  else none

/-- The acknowledgement cycle.  For a line with a slave behind it the master names the line and the
slave with that identity puts its own number on the bus. -/
def acknowledge (p : Pair) : Option Ack :=
  if p.master.Plain ∧ p.slave.Plain then
    if p.master.hasSlave p.master.acknowledged then
      if p.master.acknowledged.any fun i => (p.slave.icw3 &&& 7).toNat = i.val then
        some ⟨p.slave.vector, p.master.acknowledged, p.slave.acknowledged,
          ⟨p.master.accept, p.slave.accept⟩⟩
      else none
    else some ⟨p.master.vector, p.master.acknowledged, none, { p with master := p.master.accept }⟩
  else none

end Pair

end Pic
end Lib
end ZineOS
