import ZineOS.Kernel.Irq

/-!
# Nested interrupt requests

Whatever happens, the controllers stay as `irq_remap` has left them and every handler is somewhere in
`irq_dispatcher` (`Shaped`).  The lines in service and the handlers that have not returned are related
by the ends of interrupt that the handlers still owe: `Inv` says that on each controller these are the
lines in service, in the order of the handlers.

* **`ends_own_line`** — every end of interrupt ends the line of the handler that sends it, if no
  handler owes one to the master when a request that is gone is acknowledged there.
* **`idle_nothing_in_service`** — if no routine lets interrupts in, requests may come and go at any
  time: one handler runs at a time, and behind it no line is left in service.
* **`request_served`** — no request is lost, and the one of highest priority gets its own routine, in
  every reachable state.
-/

namespace ZineOS
namespace Kernel
namespace Irq

open Lib Loader
open Lib.Pic (Pair Chip Nested endFirst)

variable {Fn : Type} {s s' : State Fn} {f : Handler Fn} {rest : List (Handler Fn)}

/-! ## What the active handlers owe -/

/-- A non-specific end of interrupt at a port. -/
def Action.isEnd (port : Word16) : Action Fn → Bool
  | .call _ => false
  | .outportb p data => p = port && data = 0x20

/-- The line of the master that a handler still has to end. -/
def Handler.masterDue (f : Handler Fn) : List (Fin 8) :=
  if f.todo.any (Action.isEnd 0x20) then f.master.toList else []

/-- The line of the slave. -/
def Handler.slaveDue (f : Handler Fn) : List (Fin 8) :=
  if f.todo.any (Action.isEnd 0xA0) then f.slave.toList else []

/-- Where a handler is. -/
inductive Handler.Shape : Handler Fn → Prop
  | done (m s : Option (Fin 8)) : Shape ⟨m, s, []⟩
  | masterEnd (m s : Option (Fin 8)) : Shape ⟨m, s, [.outportb 0x20 0x20]⟩
  | slaveEnd (s : Option (Fin 8)) : Shape ⟨some 2, s, [.outportb 0xA0 0x20, .outportb 0x20 0x20]⟩
  | masterRoutine (fn : Fn) (m : Option (Fin 8)) :
      Shape ⟨m, none, [.call fn, .outportb 0x20 0x20]⟩
  | slaveRoutine (fn : Fn) (s : Option (Fin 8)) :
      Shape ⟨some 2, s, [.call fn, .outportb 0xA0 0x20, .outportb 0x20 0x20]⟩

/-- Below a handler for a request that was gone at the master nothing is owed to the master. -/
def GoneAlone : List (Handler Fn) → Prop
  | [] => True
  | f :: rest =>
      (f.master = none → f.todo ≠ [] → rest.flatMap Handler.masterDue = []) ∧ GoneAlone rest

structure Shaped (s : State Fn) : Prop where
  remapped : Remapped s.pics
  shape : ∀ f ∈ s.active, f.Shape

structure Inv (s : State Fn) : Prop extends Shaped s where
  master : Nested (s.active.flatMap Handler.masterDue) s.pics.master.inService
  slave : Nested (s.active.flatMap Handler.slaveDue) s.pics.slave.inService
  gone : GoneAlone s.active

theorem Handler.Shape.masterDue_eq (h : f.Shape) (hdue : f.slaveDue ≠ []) : f.masterDue = [2] := by
  cases h with
  | done => exact absurd rfl hdue
  | masterEnd => exact absurd rfl hdue
  | masterRoutine => exact absurd rfl hdue
  | slaveEnd => rfl
  | slaveRoutine => rfl

/-- Above a handler for the slave no other one owes an end to the slave. -/
theorem slaveDue_nil {service : Finset (Fin 8)} (hshape : ∀ f ∈ rest, f.Shape)
    (h : Nested (2 :: rest.flatMap Handler.masterDue) service) :
    rest.flatMap Handler.slaveDue = [] := by
  rw [List.flatMap_eq_nil_iff]
  intro f hf
  by_contra hdue
  have hmem : (2 : Fin 8) ∈ rest.flatMap Handler.masterDue :=
    List.mem_flatMap.mpr ⟨f, hf, by rw [(hshape f hf).masterDue_eq hdue]; exact List.mem_cons_self⟩
  exact lt_irrefl _ (List.rel_of_pairwise_cons h.sorted hmem)

/-! ## One step -/

theorem due_enter (m line : Option (Fin 8)) (fn : Option Fn) :
    Handler.masterDue ⟨m, line, callOf fn ++ [.outportb 0x20 0x20]⟩ = m.toList ∧
      Handler.slaveDue ⟨m, line, callOf fn ++ [.outportb 0x20 0x20]⟩ = [] ∧
      Handler.masterDue ⟨m, line, callOf fn ++ [.outportb 0xA0 0x20, .outportb 0x20 0x20]⟩ =
        m.toList ∧
      Handler.slaveDue ⟨m, line, callOf fn ++ [.outportb 0xA0 0x20, .outportb 0x20 0x20]⟩ =
        line.toList := by
  cases fn <;> exact ⟨rfl, rfl, rfl, rfl⟩

theorem Shaped.setRequests (h : Shaped s) (slave : Bool) (g : Finset (Fin 8) → Finset (Fin 8)) :
    Shaped { s with pics := setRequests s.pics slave g } := by
  obtain ⟨⟨h₁, h₂, h₃, h₄, h₅, h₆, h₇, h₈⟩, hshape⟩ := h
  cases slave <;> exact ⟨⟨h₁, h₂, h₃, h₄, h₅, h₆, h₇, h₈⟩, hshape⟩

theorem Inv.setRequests (h : Inv s) (slave : Bool) (g : Finset (Fin 8) → Finset (Fin 8)) :
    Inv { s with pics := setRequests s.pics slave g } := by
  have hshaped := h.toShaped.setRequests slave g
  cases slave <;> exact ⟨hshaped, h.master, h.slave, h.gone⟩

theorem Shaped.enterMaster (h : Shaped s) : Shaped (enterMaster s) := by
  refine ⟨h.remapped.acceptMaster, fun f hf => ?_⟩
  rcases List.mem_cons.mp hf with rfl | hf
  · cases s.routines (Fin.castAdd 8 (s.pics.master.acknowledged.getD (Fin.last 7))) with
    | none => exact .masterEnd _ _
    | some fn => exact .masterRoutine fn _
  · exact h.shape f hf

theorem Inv.enterMaster (h : Inv s)
    (hgone : s.pics.master.acknowledged = none → s.pics.master.inService = ∅) :
    Inv (enterMaster s) := by
  obtain ⟨hdue, hnoslave, -⟩ := due_enter s.pics.master.acknowledged none
    (s.routines (Fin.castAdd 8 (s.pics.master.acknowledged.getD (Fin.last 7))))
  refine ⟨h.toShaped.enterMaster, ?_, ?_, ?_, h.gone⟩
  · have hnested := Chip.nested_accept h.master
    rw [← hdue] at hnested
    exact hnested
  · have hslave := h.slave
    rw [← List.nil_append (s.active.flatMap _), ← hnoslave] at hslave
    exact hslave
  · intro hnone _
    have hmaster := h.master
    rw [hgone hnone] at hmaster
    exact List.eq_nil_iff_forall_not_mem.mpr fun i hi =>
      absurd ((hmaster.mem_iff i).mpr hi) (Finset.notMem_empty i)

theorem Shaped.enterSlave (h : Shaped s) (hline : s.pics.master.acknowledged = some 2) :
    Shaped (enterSlave s) := by
  refine ⟨h.remapped.acceptMaster.acceptSlave, fun f hf => ?_⟩
  rw [active_enterSlave hline] at hf
  rcases List.mem_cons.mp hf with rfl | hf
  · cases s.routines (Fin.natAdd 8 (s.pics.slave.acknowledged.getD (Fin.last 7))) with
    | none => exact .slaveEnd _
    | some fn => exact .slaveRoutine fn _
  · exact h.shape f hf

theorem Inv.enterSlave (h : Inv s) (hline : s.pics.master.acknowledged = some 2) :
    Inv (enterSlave s) := by
  obtain ⟨-, -, hmasterDue, hslaveDue⟩ := due_enter (some 2) s.pics.slave.acknowledged
    (s.routines (Fin.natAdd 8 (s.pics.slave.acknowledged.getD (Fin.last 7))))
  have hmaster := Chip.nested_accept h.master
  have hslave := Chip.nested_accept h.slave
  rw [hline, ← hmasterDue] at hmaster
  rw [← hslaveDue] at hslave
  have hactive := active_enterSlave hline
  refine ⟨h.toShaped.enterSlave hline, ?_, ?_, ?_⟩
  · rw [hactive]
    exact hmaster
  · rw [hactive]
    exact hslave
  · rw [hactive]
    exact ⟨nofun, h.gone⟩

/-- The handler that sends an end to the master. -/
theorem Inv.masterEnd {m line : Option (Fin 8)} (h : Inv s)
    (hactive : s.active = ⟨m, line, [.outportb 0x20 0x20]⟩ :: rest) :
    Nested (rest.flatMap Handler.masterDue) (endFirst s.pics.master.inService) ∧
      m.toFinset ⊆ s.pics.master.inService ∧
      endFirst s.pics.master.inService = s.pics.master.inService \ m.toFinset := by
  have hmaster := h.master
  have hgone := h.gone
  rw [hactive] at hmaster hgone
  exact hmaster.endFirst fun hnone => hgone.1 hnone (List.cons_ne_nil _ _)

/-- The handler that sends an end to the slave. -/
theorem Inv.slaveEnd {line : Option (Fin 8)} (h : Inv s)
    (hactive : s.active = ⟨some 2, line, [.outportb 0xA0 0x20, .outportb 0x20 0x20]⟩ :: rest) :
    Nested (rest.flatMap Handler.slaveDue) (endFirst s.pics.slave.inService) ∧
      line.toFinset ⊆ s.pics.slave.inService ∧
      endFirst s.pics.slave.inService = s.pics.slave.inService \ line.toFinset := by
  have hmaster := h.master
  have hslave := h.slave
  have hshape := h.shape
  rw [hactive] at hmaster hslave hshape
  exact hslave.endFirst fun _ =>
    slaveDue_nil (fun f hf => hshape f (List.mem_cons_of_mem _ hf)) hmaster

/-- The next action of a handler of one of the shapes leaves a handler of one of the shapes. -/
theorem Shaped.advance (h : Shaped s) (hnext : next s .advance = some s') : Shaped s' := by
  have hshape := h.shape
  unfold next at hnext
  cases hactive : s.active with
  | nil => simp [hactive] at hnext
  | cons f rest =>
      rw [hactive] at hshape
      have hkeep : ∀ f' : Handler Fn, f'.Shape → ∀ x ∈ f' :: rest, x.Shape := fun f' hf' x hx =>
        (List.mem_cons.mp hx).elim (fun heq => heq ▸ hf') fun hx =>
          hshape x (List.mem_cons_of_mem _ hx)
      obtain ⟨h₁, h₂, h₃, h₄, h₅, h₆, h₇, h₈⟩ := h.remapped
      cases hshape f List.mem_cons_self with
      | done => simp [hactive] at hnext
      | masterRoutine fn m =>
          rw [hactive] at hnext
          obtain rfl := Option.some.inj hnext
          exact ⟨h.remapped, hkeep _ (.masterEnd m none)⟩
      | slaveRoutine fn line =>
          rw [hactive] at hnext
          obtain rfl := Option.some.inj hnext
          exact ⟨h.remapped, hkeep _ (.slaveEnd line)⟩
      | masterEnd m line =>
          rw [hactive] at hnext
          obtain rfl := Option.some.inj hnext
          exact ⟨⟨h₁, h₂, h₃, h₄, h₅, h₆, h₇, h₈⟩, hkeep _ (.done m line)⟩
      | slaveEnd line =>
          rw [hactive] at hnext
          obtain rfl := Option.some.inj hnext
          exact ⟨⟨h₁, h₂, h₃, h₄, h₅, h₆, h₇, h₈⟩, hkeep _ (.masterEnd (some 2) line)⟩

theorem Inv.advance (h : Inv s) (hnext : next s .advance = some s') : Inv s' := by
  have hshaped := h.toShaped.advance hnext
  have hshape := h.shape
  have hmaster := h.master
  have hslave := h.slave
  have hgone := h.gone
  unfold next at hnext
  cases hactive : s.active with
  | nil => simp [hactive] at hnext
  | cons f rest =>
      rw [hactive] at hshape hmaster hslave hgone
      cases hshape f List.mem_cons_self with
      | done => simp [hactive] at hnext
      | masterRoutine fn m =>
          rw [hactive] at hnext
          obtain rfl := Option.some.inj hnext
          exact ⟨hshaped, hmaster, hslave, fun hnone _ => hgone.1 hnone (List.cons_ne_nil _ _),
            hgone.2⟩
      | slaveRoutine fn line =>
          rw [hactive] at hnext
          obtain rfl := Option.some.inj hnext
          exact ⟨hshaped, hmaster, hslave, fun hnone _ => hgone.1 hnone (List.cons_ne_nil _ _),
            hgone.2⟩
      | masterEnd m line =>
          rw [hactive] at hnext
          obtain rfl := Option.some.inj hnext
          exact ⟨hshaped, (h.masterEnd hactive).1, hslave, fun _ hne => absurd rfl hne, hgone.2⟩
      | slaveEnd line =>
          rw [hactive] at hnext
          obtain rfl := Option.some.inj hnext
          exact ⟨hshaped, hmaster, (h.slaveEnd hactive).1, nofun, hgone.2⟩

theorem Shaped.iretq (h : Shaped s) (hnext : next s .iretq = some s') : Shaped s' := by
  simp only [next] at hnext
  split at hnext
  · rename_i rest hactive
    obtain rfl := Option.some.inj hnext
    refine ⟨h.remapped, fun f hf => h.shape f ?_⟩
    rw [hactive]
    exact List.mem_cons_of_mem _ hf
  · cases hnext

theorem Inv.iretq (h : Inv s) (hnext : next s .iretq = some s') : Inv s' := by
  have hshaped := h.toShaped.iretq hnext
  simp only [next] at hnext
  split at hnext
  · rename_i rest hactive
    obtain rfl := Option.some.inj hnext
    have hmaster := h.master
    have hslave := h.slave
    have hgone := h.gone
    rw [hactive] at hmaster hslave hgone
    exact ⟨hshaped, hmaster, hslave, hgone.2⟩
  · cases hnext

/-- Every step of every run. -/
theorem Shaped.next {a : Label Fn} (h : Shaped s) (hnext : next s a = some s') : Shaped s' := by
  cases a with
  | raise slave line =>
      obtain rfl := Option.some.inj hnext
      exact h.setRequests slave _
  | withdraw slave line =>
      obtain rfl := Option.some.inj hnext
      exact h.setRequests slave _
  | interrupt =>
      rw [next_interrupt h.remapped] at hnext
      split_ifs at hnext with hon hline
      · obtain rfl := Option.some.inj hnext
        exact h.enterSlave hline
      · obtain rfl := Option.some.inj hnext
        exact h.enterMaster
  | advance => exact h.advance hnext
  | iretq => exact h.iretq hnext
  | setFlag b =>
      simp only [Irq.next] at hnext
      split_ifs at hnext
      obtain rfl := Option.some.inj hnext
      exact ⟨h.remapped, h.shape⟩
  | setHandler irq fn =>
      simp only [Irq.next] at hnext
      split_ifs at hnext
      obtain rfl := Option.some.inj hnext
      exact ⟨h.remapped, h.shape⟩

/-- When a request that is gone is acknowledged at the master, no handler owes an end there. -/
def GoneWhenIdle (s : State Fn) (a : Label Fn) (_ : State Fn) : Prop :=
  a = .interrupt → s.pics.master.acknowledged = none → s.pics.master.inService = ∅

theorem Inv.next {a : Label Fn} (h : Inv s) (hgone : GoneWhenIdle s a s')
    (hnext : next s a = some s') : Inv s' := by
  cases a with
  | raise slave line =>
      obtain rfl := Option.some.inj hnext
      exact h.setRequests slave _
  | withdraw slave line =>
      obtain rfl := Option.some.inj hnext
      exact h.setRequests slave _
  | interrupt =>
      rw [next_interrupt h.remapped] at hnext
      split_ifs at hnext with hon hline
      · obtain rfl := Option.some.inj hnext
        exact h.enterSlave hline
      · obtain rfl := Option.some.inj hnext
        exact h.enterMaster (hgone rfl)
  | advance => exact h.advance hnext
  | iretq => exact h.iretq hnext
  | setFlag b =>
      simp only [Irq.next] at hnext
      split_ifs at hnext
      obtain rfl := Option.some.inj hnext
      exact ⟨⟨h.remapped, h.shape⟩, h.master, h.slave, h.gone⟩
  | setHandler irq fn =>
      simp only [Irq.next] at hnext
      split_ifs at hnext
      obtain rfl := Option.some.inj hnext
      exact ⟨⟨h.remapped, h.shape⟩, h.master, h.slave, h.gone⟩

theorem Inv.init (h : (system Fn).init s) : Inv s := by
  obtain ⟨hactive, -, -, p, hmaster, hslave, hremap⟩ := h
  obtain ⟨p', hp', hremapped, hm, hs, -, -⟩ := irqRemap_eq p
  obtain rfl := Option.some.inj (hp'.symm.trans hremap)
  refine ⟨⟨hremapped, ?_⟩, ?_, ?_, ?_⟩ <;> rw [hactive]
  · exact fun f hf => absurd hf List.not_mem_nil
  · exact Pic.nested_nil.mpr (hm.trans hmaster)
  · exact Pic.nested_nil.mpr (hs.trans hslave)
  · trivial

theorem Shaped.of_reachable (h : (system Fn).Reachable s) : Shaped s :=
  h.invariant (fun _ hinit => (Inv.init hinit).toShaped) fun _ _ _ _ hshaped hnext =>
    hshaped.next hnext

theorem Inv.of_reachable (h : ((system Fn).restrict GoneWhenIdle).Reachable s) : Inv s := by
  refine h.invariant (I := Inv) ?_ ?_
  · exact fun s hinit => Inv.init hinit
  · rintro s a s' - hinv ⟨hnext, hgone⟩
    exact hinv.next hgone hnext

theorem Inv.idle (h : Inv s) (hactive : s.active = []) :
    s.pics.master.inService = ∅ ∧ s.pics.slave.inService = ∅ := by
  have hmaster := h.master
  have hslave := h.slave
  rw [hactive] at hmaster hslave
  exact ⟨Pic.nested_nil.mp hmaster, Pic.nested_nil.mp hslave⟩

/-- Behind `irq_remap`. -/
def fresh : State Unit where
  pics := ⟨⟨∅, ∅, 0, .mask, false, true, 0x20, 0x04, 1⟩, ⟨∅, ∅, 0, .mask, false, true, 0x28, 0x02, 1⟩⟩
  routines := fun _ => none
  enabled := false
  active := []

theorem fresh_init : (system Unit).init fresh :=
  ⟨rfl, rfl, fun _ => rfl, fresh.pics, rfl, rfl, rfl⟩

/-! ## The runs -/

/-- **Every end of interrupt ends the right line.**  However the handlers nest, the line that an end of
interrupt takes out of service is the one for which the handler that sends it was entered, on the
master and on the slave; a handler for a request that was gone changes nothing.  When no handler is
active nothing is in service. -/
theorem ends_own_line (h : ((system Fn).restrict GoneWhenIdle).Reachable s) :
    (s.active = [] → s.pics.master.inService = ∅ ∧ s.pics.slave.inService = ∅) ∧
    ∀ f rest s', s.active = f :: rest → next s .advance = some s' →
      (f.todo.head? = some (.outportb 0x20 0x20) →
        f.master.toFinset ⊆ s.pics.master.inService ∧
          s'.pics.master.inService = s.pics.master.inService \ f.master.toFinset ∧
          s'.pics.slave.inService = s.pics.slave.inService) ∧
      (f.todo.head? = some (.outportb 0xA0 0x20) →
        f.slave.toFinset ⊆ s.pics.slave.inService ∧
          s'.pics.slave.inService = s.pics.slave.inService \ f.slave.toFinset ∧
          s'.pics.master.inService = s.pics.master.inService) := by
  have hinv := Inv.of_reachable h
  refine ⟨hinv.idle, fun f rest s' hactive hnext => ?_⟩
  have hshape := hinv.shape
  rw [hactive] at hshape
  simp only [next, hactive] at hnext
  cases hshape f List.mem_cons_self with
  | done => cases hnext
  | masterRoutine => exact ⟨nofun, nofun⟩
  | slaveRoutine => exact ⟨nofun, nofun⟩
  | masterEnd m line =>
      obtain rfl := Option.some.inj hnext
      obtain ⟨-, hsubset, hends⟩ := hinv.masterEnd hactive
      exact ⟨fun _ => ⟨hsubset, hends, rfl⟩, fun hhead => absurd hhead (by simp)⟩
  | slaveEnd line =>
      obtain rfl := Option.some.inj hnext
      obtain ⟨-, hsubset, hends⟩ := hinv.slaveEnd hactive
      exact ⟨fun hhead => absurd hhead (by simp), fun _ => ⟨hsubset, hends, rfl⟩⟩

/-- A step in which no request is gone. -/
def nextServed (s : State Fn) (a : Label Fn) : Option (State Fn) :=
  match a with
  | .interrupt => if s.pics.master.acknowledged = none then none else next s .interrupt
  | a => next s a

theorem nextServed_step {a : Label Fn} (h : nextServed s a = some s') :
    ((system Fn).restrict GoneWhenIdle).step s a s' := by
  cases a with
  | interrupt =>
      obtain ⟨hline, hnext⟩ := Option.ite_none_left_eq_some.mp h
      exact ⟨hnext, fun _ hnone => absurd hnone hline⟩
  | raise | withdraw | advance | iretq | setFlag | setHandler => exact ⟨h, nofun⟩

/-- The routine of `line` lets interrupts in, and line `nested` of the slave is raised meanwhile. -/
def interruptedRoutine (irq : Fin 16) (line nested cascade : Fin 8) : List (Label Unit) :=
  [.setHandler irq (some ()), .setFlag true, .raise false line, .interrupt, .setFlag true,
    .raise true nested, .raise false cascade]

/-- The slave's handler above the one of line 5. -/
theorem nested_ends_own_lines : ∃ s s' : State Unit,
    (interruptedRoutine 5 5 3 2 ++ [Label.interrupt]).foldlM nextServed fresh = some s ∧
      next s .advance = some s' ∧ s.active.length = 2 ∧ s.pics.master.inService = {2, 5} ∧
      s'.pics.slave.inService = s.pics.slave.inService \ {3} ∧
      s'.pics.master.inService = s.pics.master.inService := by
  have hview : Option.map
      (fun s : State Unit => (s.active, s.pics.master.inService, (next s .advance).isSome))
      ((interruptedRoutine 5 5 3 2 ++ [Label.interrupt]).foldlM nextServed fresh) =
        some ([⟨some 2, some 3, [.outportb 0xA0 0x20, .outportb 0x20 0x20]⟩,
          ⟨some 5, none, [.call (), .outportb 0x20 0x20]⟩], {2, 5}, true) := by decide
  obtain ⟨s, hrun, hs⟩ := Option.map_eq_some_iff.mp hview
  simp only [Prod.mk.injEq] at hs
  obtain ⟨hactive, hmaster, hnext⟩ := hs
  obtain ⟨s', hnext⟩ := Option.isSome_iff_exists.mp hnext
  have hreach := System.Reachable.foldlM (fun _ _ _ => nextServed_step)
    (.init (S := (system Unit).restrict GoneWhenIdle) fresh_init) hrun
  obtain ⟨-, hends, hkept⟩ := ((ends_own_line hreach).2 _ _ s' hactive hnext).2 rfl
  exact ⟨s, s', hrun, hnext, by rw [hactive]; rfl, hmaster, hends, hkept⟩

/-- No routine lets interrupts in. -/
def RoutinesUninterrupted (s : State Fn) (a : Label Fn) (_ : State Fn) : Prop :=
  a = .setFlag true → s.active = []

/-- One handler at a time. -/
structure Alone (s : State Fn) : Prop extends Inv s where
  enabled : s.enabled = true → s.active = []
  length : s.active.length ≤ 1

theorem advance_frame (hnext : next s .advance = some s') :
    s'.active.length = s.active.length ∧ s'.enabled = s.enabled := by
  simp only [next] at hnext
  split at hnext
  · rename_i hactive
    obtain rfl := Option.some.inj hnext
    rw [hactive]
    exact ⟨rfl, rfl⟩
  · rename_i hactive
    obtain ⟨p, -, rfl⟩ := Option.map_eq_some_iff.mp hnext
    rw [hactive]
    exact ⟨rfl, rfl⟩
  · cases hnext

theorem Alone.next {a : Label Fn} (h : Alone s) (huninterrupted : RoutinesUninterrupted s a s')
    (hnext : next s a = some s') : Alone s' := by
  have henters : a = .interrupt → s.active = [] := by
    rintro rfl
    rw [next_interrupt h.remapped] at hnext
    split_ifs at hnext with hon
    · exact h.enabled hon
    · exact h.enabled hon
  have hinv : Inv s' := h.toInv.next (fun ha _ => (h.idle (henters ha)).1) hnext
  suffices hboth : (s'.enabled = true → s'.active = []) ∧ s'.active.length ≤ 1 from
    ⟨hinv, hboth.1, hboth.2⟩
  cases a with
  | raise slave line =>
      obtain rfl := Option.some.inj hnext
      exact ⟨h.enabled, h.length⟩
  | withdraw slave line =>
      obtain rfl := Option.some.inj hnext
      exact ⟨h.enabled, h.length⟩
  | interrupt =>
      have hlength : (enterSlave s).active.length = 1 ∧ (enterMaster s).active.length = 1 := by
        simp [enterSlave, enterMaster, henters rfl]
      rw [next_interrupt h.remapped] at hnext
      split_ifs at hnext
      · obtain rfl := Option.some.inj hnext
        exact ⟨nofun, hlength.1.le⟩
      · obtain rfl := Option.some.inj hnext
        exact ⟨nofun, hlength.2.le⟩
  | advance =>
      obtain ⟨hlength, henabled⟩ := advance_frame hnext
      refine ⟨fun hon => ?_, hlength ▸ h.length⟩
      have hnil := h.enabled (henabled ▸ hon)
      exact List.length_eq_zero_iff.mp (hlength.trans (List.length_eq_zero_iff.mpr hnil))
  | iretq =>
      simp only [Irq.next] at hnext
      split at hnext
      · rename_i rest hactive
        obtain rfl := Option.some.inj hnext
        have hlength := h.length
        rw [hactive, List.length_cons] at hlength
        have hrest : rest = [] := List.length_eq_zero_iff.mp (by omega)
        exact ⟨fun _ => hrest, by rw [hrest]; exact Nat.zero_le 1⟩
      · cases hnext
  | setFlag b =>
      simp only [Irq.next] at hnext
      split_ifs at hnext
      obtain rfl := Option.some.inj hnext
      refine ⟨fun hon => ?_, h.length⟩
      obtain rfl : b = true := hon
      exact huninterrupted rfl
  | setHandler irq fn =>
      simp only [Irq.next] at hnext
      split_ifs at hnext
      obtain rfl := Option.some.inj hnext
      exact ⟨h.enabled, h.length⟩

theorem Alone.of_reachable (h : ((system Fn).restrict RoutinesUninterrupted).Reachable s) :
    Alone s := by
  refine h.invariant (I := Alone) ?_ ?_
  · intro s hinit
    have hactive : s.active = [] := hinit.1
    exact ⟨Inv.init hinit, fun _ => hactive, by rw [hactive]; exact Nat.zero_le 1⟩
  · rintro s a s' - halone ⟨hnext, huninterrupted⟩
    exact halone.next huninterrupted hnext

/-- **Requests that are gone do no harm.**  When no routine lets interrupts in, lines may be raised and
dropped at any time: no handler is interrupted by another one, and when it has returned no line is in
service that would keep others back. -/
theorem idle_nothing_in_service (h : ((system Fn).restrict RoutinesUninterrupted).Reachable s) :
    s.active.length ≤ 1 ∧ (s.active ≠ [] → s.enabled = false) ∧
      (s.active = [] → s.pics.master.inService = ∅ ∧ s.pics.slave.inService = ∅) := by
  have halone := Alone.of_reachable h
  refine ⟨halone.length, fun hne => ?_, halone.idle⟩
  exact Bool.eq_false_iff.mpr fun hon => hne (halone.enabled hon)

/-- A step in which no routine lets interrupts in. -/
def nextUninterrupted (s : State Fn) (a : Label Fn) : Option (State Fn) :=
  match a with
  | .setFlag true => if s.active.isEmpty then next s (.setFlag true) else none
  | a => next s a

theorem nextUninterrupted_step {a : Label Fn} (h : nextUninterrupted s a = some s') :
    ((system Fn).restrict RoutinesUninterrupted).step s a s' := by
  cases a with
  | setFlag b =>
      cases b with
      | false => exact ⟨h, nofun⟩
      | true =>
          obtain ⟨hempty, hnext⟩ := Option.ite_none_right_eq_some.mp h
          exact ⟨hnext, fun _ => List.isEmpty_iff.mp hempty⟩
  | raise | withdraw | interrupt | advance | iretq | setHandler => exact ⟨h, nofun⟩

/-- Line `line` of the slave is dropped before it is acknowledged. -/
def goneRequest (line cascade : Fin 8) : List (Label Unit) :=
  [.setFlag true, .raise true line, .raise false cascade, .withdraw true line, .interrupt]

/-- The handler of the slave's line 7 is entered for it, and nothing stays in service. -/
theorem gone_alone : ∃ s s' : State Unit,
    (goneRequest 3 2).foldlM nextUninterrupted fresh = some s ∧
      [Label.advance, .advance, .iretq].foldlM nextUninterrupted s = some s' ∧
      s.active.length = 1 ∧ s.enabled = false ∧
      s'.pics.master.inService = ∅ ∧ s'.pics.slave.inService = ∅ := by
  have hview : Option.map (fun s : State Unit => (s.active,
      ([Label.advance, .advance, .iretq].foldlM nextUninterrupted s).map State.active))
      ((goneRequest 3 2).foldlM nextUninterrupted fresh) =
        some ([⟨some 2, none, [.outportb 0xA0 0x20, .outportb 0x20 0x20]⟩], some []) := by decide
  obtain ⟨s, hrun, hs⟩ := Option.map_eq_some_iff.mp hview
  obtain ⟨hactive, hrest⟩ := Prod.mk.inj hs
  obtain ⟨s', hrun', hidle⟩ := Option.map_eq_some_iff.mp hrest
  have hreach := System.Reachable.foldlM (fun _ _ _ => nextUninterrupted_step)
    (.init (S := (system Unit).restrict RoutinesUninterrupted) fresh_init) hrun
  have hreach' := hreach.foldlM (fun _ _ _ => nextUninterrupted_step) hrun'
  obtain ⟨-, hoff, -⟩ := idle_nothing_in_service hreach
  obtain ⟨-, -, hnone⟩ := idle_nothing_in_service hreach'
  exact ⟨s, s', hrun, hrun', by rw [hactive]; rfl, hoff (by rw [hactive]; exact nofun), hnone hidle⟩

theorem unmasked_eq (c : Chip) (h : c.mask = 0) : c.unmasked = c.requests := by
  unfold Chip.unmasked
  rw [h]
  exact Finset.filter_true_of_mem fun i _ => by simp

/-- What is kept from the requests of a controller by its acknowledgement. -/
theorem mem_accept {c : Chip} {i : Fin 8} (hi : i ∈ c.requests) :
    i ∈ c.accept.requests ∨ c.acknowledged = some i := by
  unfold Chip.accept
  cases hline : c.acknowledged with
  | none => exact .inl hi
  | some j =>
      by_cases hsame : j = i
      · exact .inr (congrArg some hsame)
      · exact .inl (Finset.mem_erase.mpr ⟨Ne.symm hsame, hi⟩)

/-- While the master's line 2 is not in service, nothing is in service on the slave. -/
theorem Inv.slave_idle (h : Inv s) (hline : (2 : Fin 8) ∉ s.pics.master.inService) :
    s.pics.slave.inService = ∅ := by
  have hnone : s.active.flatMap Handler.slaveDue = [] := by
    rw [List.flatMap_eq_nil_iff]
    intro f hf
    by_contra hdue
    refine hline ((h.master.mem_iff 2).mpr (List.mem_flatMap.mpr ⟨f, hf, ?_⟩))
    rw [(h.shape f hf).masterDue_eq hdue]
    exact List.mem_cons_self
  have hslave := h.slave
  rw [hnone] at hslave
  exact Pic.nested_nil.mp hslave

theorem accept_requests {c : Chip} {i : Fin 8} (h : c.acknowledged = some i) :
    i ∉ c.accept.requests := by
  unfold Chip.accept
  rw [h]
  exact Finset.notMem_erase i c.requests

/-- One of the two controllers, and a handler's line there. -/
def side (p : Pair) (slave : Bool) : Chip := if slave then p.slave else p.master

def Handler.line (f : Handler Fn) (slave : Bool) : Option (Fin 8) :=
  if slave then f.slave else f.master

theorem side_setRequests (p : Pair) (slave b : Bool) (g : Finset (Fin 8) → Finset (Fin 8)) :
    (side (setRequests p slave g) b).requests =
      if slave = b then g (side p b).requests else (side p b).requests := by
  cases slave <;> cases b <;> rfl

theorem advance_requests (h : Shaped s) (hnext : next s .advance = some s') (b : Bool) :
    (side s'.pics b).requests = (side s.pics b).requests := by
  cases hactive : s.active with
  | nil => simp [next, hactive] at hnext
  | cons f rest =>
      have hshape := h.shape f (by rw [hactive]; exact List.mem_cons_self)
      simp only [next, hactive] at hnext
      cases hshape with
      | done => cases hnext
      | masterRoutine | slaveRoutine =>
          obtain rfl := Option.some.inj hnext
          rfl
      | masterEnd | slaveEnd =>
          obtain rfl := Option.some.inj hnext
          cases b <;> rfl

/-- One step keeps a request, or it is dropped, or a handler is entered for it. -/
theorem request_kept {a : Label Fn} (h : Shaped s) (hnext : next s a = some s') (b : Bool) (i : Fin 8)
    (hi : i ∈ (side s.pics b).requests) :
    i ∈ (side s'.pics b).requests ∨ a = .withdraw b i ∨
      ∃ f, f.line b = some i ∧ s'.active = f :: s.active := by
  cases a with
  | raise slave line =>
      obtain rfl := Option.some.inj hnext
      left
      rw [side_setRequests]
      split_ifs
      · exact Finset.mem_insert_of_mem hi
      · exact hi
  | withdraw slave line =>
      obtain rfl := Option.some.inj hnext
      rw [side_setRequests]
      split_ifs with hside
      · obtain rfl := hside
        by_cases hline : i = line
        · exact .inr (.inl (by rw [hline]))
        · exact .inl (Finset.mem_erase.mpr ⟨hline, hi⟩)
      · exact .inl hi
  | interrupt =>
      rw [next_interrupt h.remapped] at hnext
      split_ifs at hnext with hon hline
      · obtain rfl := Option.some.inj hnext
        cases b with
        | false =>
            exact (mem_accept hi).imp id fun hack => .inr ⟨_, by exact hack, rfl⟩
        | true => exact (mem_accept hi).imp id fun hack => .inr ⟨_, hack, rfl⟩
      · obtain rfl := Option.some.inj hnext
        cases b with
        | false => exact (mem_accept hi).imp id fun hack => .inr ⟨_, hack, rfl⟩
        | true => exact .inl hi
  | advance => exact .inl (advance_requests h hnext b ▸ hi)
  | iretq =>
      simp only [next] at hnext
      split at hnext
      · obtain rfl := Option.some.inj hnext
        exact .inl hi
      · cases hnext
  | setFlag on =>
      simp only [next] at hnext
      split_ifs at hnext
      obtain rfl := Option.some.inj hnext
      exact .inl hi
  | setHandler irq fn =>
      simp only [next] at hnext
      split_ifs at hnext
      obtain rfl := Option.some.inj hnext
      exact .inl hi

/-- The line that has priority at a controller is acknowledged. -/
theorem acknowledged_of_least {c : Chip} (hmask : c.mask = 0) {i : Fin 8}
    (hleast : IsLeast (c.requests : Set (Fin 8)) i) (hfirst : ∀ j ∈ c.inService, i < j) :
    c.acknowledged = some i := by
  unfold Chip.acknowledged
  rw [unmasked_eq _ hmask]
  exact Pic.pending_eq_some.mpr ⟨hleast, hfirst⟩

/-- **A request is served.**  In every run, requests that are gone included, every step keeps a request
unless it is dropped or a handler is entered for it.  While interrupts are let in, the request of
highest priority is acknowledged as soon as it has priority over the lines in service, and the routine
for its number is called: 0 to 7 for the lines of the master, 8 to 15 for those of the slave, where
nothing is in service behind an idle line of the master unless a request was gone at a bad time. -/
theorem request_served (h : (system Fn).Reachable s) (hon : s.enabled = true) :
    (∀ a s', next s a = some s' → ∀ b i, i ∈ (side s.pics b).requests →
      i ∈ (side s'.pics b).requests ∨ a = .withdraw b i ∨
        ∃ f, f.line b = some i ∧ s'.active = f :: s.active) ∧
    (∀ i : Fin 8, IsLeast (s.pics.master.requests : Set (Fin 8)) i →
      (∀ j ∈ s.pics.master.inService, i < j) → i ≠ 2 →
      ∃ s', next s .interrupt = some s' ∧ i ∉ s'.pics.master.requests ∧
        s'.active = ⟨some i, none, callOf (s.routines (Fin.castAdd 8 i)) ++
          [.outportb 0x20 0x20]⟩ :: s.active) ∧
    (∀ j : Fin 8, IsLeast (s.pics.master.requests : Set (Fin 8)) 2 →
      (∀ i ∈ s.pics.master.inService, 2 < i) → IsLeast (s.pics.slave.requests : Set (Fin 8)) j →
      (∀ i ∈ s.pics.slave.inService, j < i) →
      ∃ s', next s .interrupt = some s' ∧ j ∉ s'.pics.slave.requests ∧
        s'.active = ⟨some 2, some j, callOf (s.routines (Fin.natAdd 8 j)) ++
          [.outportb 0xA0 0x20, .outportb 0x20 0x20]⟩ :: s.active) ∧
    (((system Fn).restrict GoneWhenIdle).Reachable s → 2 ∉ s.pics.master.inService →
      s.pics.slave.inService = ∅) := by
  have hshaped := Shaped.of_reachable h
  have hnext := next_interrupt hshaped.remapped
  rw [if_pos hon] at hnext
  refine ⟨fun a s' => request_kept hshaped, fun i hleast hfirst hne => ?_,
    fun j hleast hfirst hslave hfirstSlave => ?_, fun hrun => (Inv.of_reachable hrun).slave_idle⟩
  · have hline := acknowledged_of_least hshaped.remapped.masterMask hleast hfirst
    rw [if_neg (by rw [hline]; exact fun heq => hne (Option.some.inj heq))] at hnext
    refine ⟨_, hnext, accept_requests hline, ?_⟩
    unfold enterMaster
    simp only [hline, Option.getD_some]
  · have hline := acknowledged_of_least hshaped.remapped.masterMask hleast hfirst
    have hslaveLine := acknowledged_of_least hshaped.remapped.slaveMask hslave hfirstSlave
    rw [if_pos hline] at hnext
    refine ⟨_, hnext, accept_requests hslaveLine, ?_⟩
    rw [active_enterSlave hline]
    simp only [hslaveLine, Option.getD_some]

/-- The slave's request is served inside the routine of line 5, through the cascade. -/
theorem nested_served : ∃ s s' : State Unit,
    (interruptedRoutine 5 5 3 2).foldlM nextServed fresh = some s ∧
    next s .interrupt = some s' ∧ 3 ∉ s'.pics.slave.requests ∧
      s'.active = ⟨some 2, some 3, callOf (s.routines 11) ++
        [.outportb 0xA0 0x20, .outportb 0x20 0x20]⟩ :: s.active := by
  have hview : Option.map (fun s : State Unit => (s.enabled, s.pics.master.requests,
      s.pics.master.inService, s.pics.slave.requests, s.pics.slave.inService))
      ((interruptedRoutine 5 5 3 2).foldlM nextServed fresh) = some (true, {2}, {5}, {3}, ∅) := by decide
  obtain ⟨s, hrun, hs⟩ := Option.map_eq_some_iff.mp hview
  simp only [Prod.mk.injEq] at hs
  obtain ⟨hon, hrequests, hservice, hslave, hempty⟩ := hs
  have hreach := System.Reachable.foldlM
    (fun (s : State Unit) a s' (h : nextServed s a = some s') => (nextServed_step h).1)
    (.init (S := system Unit) fresh_init) hrun
  have hleast : ∀ i : Fin 8, IsLeast (({i} : Finset (Fin 8)) : Set (Fin 8)) i := by
    intro i
    simp
  obtain ⟨s', hnext, hserved, hactive⟩ := (request_served hreach hon).2.2.1 3
    (by rw [hrequests]; exact hleast 2) (by rw [hservice]; decide)
    (by rw [hslave]; exact hleast 3) (by rw [hempty]; decide)
  exact ⟨s, s', hrun, hnext, hserved, hactive⟩

end Irq
end Kernel
end ZineOS
