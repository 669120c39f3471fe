import ZineOS.Smp.Entry

/-!
# One processor boots the kernel

`Global` is the invariant of the shared variables and of the two histories, `Local` the assertion
at each label.  `exec_effect` says what a step does as seen by the other processors, which is all
that is needed for non-interference; `exec_own` follows the processor's own program.
-/

namespace ZineOS
namespace Smp

open Lib Loader

/-- The actions that rely on the loader's `kmain` being done. -/
def Action.NeedsEntry : Action → Prop
  | .readPml4 _ | .loadedCr3 _ | .jumped _ => True
  | .returned _ | .stored _ | .calledKmain => False

/-- `kmain` has returned `entry` on the boot processor, which has then stored it. -/
def Released (boot : Processor) (entry : Word32) (trace : List (Processor × Action)) : Prop :=
  entry ≠ 0 ∧ (boot, .returned entry) ∈ trace ∧ (boot, .stored entry) ∈ trace

/-- Whatever needs the entry comes after its release, and jumps go there. -/
def Ordered (boot : Processor) : List (Processor × Action) → Prop
  | [] => True
  | e :: earlier =>
      (e.2.NeedsEntry → ∃ entry, Released boot entry earlier ∧ ∀ t, e.2 = .jumped t → t = entry) ∧
        Ordered boot earlier

def calls (trace : List (Processor × Action)) : List (Processor × Action) :=
  trace.filter fun e => e.2 = .calledKmain

structure Global (boot : Processor) (s : Shared) : Prop where
  stores : ∀ p v, (p, .stored v) ∈ s.trace → v = s.kernelAddress ∧ Released boot v s.trace
  opened : s.kernelReady ≠ 0 → (boot, .stored s.kernelAddress) ∈ s.trace
  ordered : Ordered boot s.trace
  nodup : s.tickets.Nodup
  cpuCount : s.cpuCount = BitVec.ofNat 64 s.tickets.length
  calls_le : (calls s.trace).length ≤ 1
  calls_first : ∀ p, (p, .calledKmain) ∈ s.trace → s.tickets[0]? = some p

/-- The boot processor has not stored the entry yet. -/
def Fresh (s : Shared) : Prop := s.kernelReady = 0 ∧ ∀ p v, (p, .stored v) ∉ s.trace

/-- The assertion at the label that processor `p` is at. -/
def Local (boot p : Processor) (s : Shared) (c : Cpu) : Prop :=
  match c.pc with
  | .start32 | .kmain => p = boot ∧ Fresh s ∧ p ∉ s.tickets
  | .testEntry => p = boot ∧ Fresh s ∧ p ∉ s.tickets ∧ (boot, .returned c.eax) ∈ s.trace
  | .storeAddress =>
      p = boot ∧ Fresh s ∧ p ∉ s.tickets ∧ (boot, .returned c.eax) ∈ s.trace ∧ c.eax ≠ 0
  | .incReady =>
      p = boot ∧ s.kernelReady = 0 ∧ p ∉ s.tickets ∧ (boot, .stored s.kernelAddress) ∈ s.trace
  | .again => p ∉ s.tickets
  | .doAPEntry | .setCr3 | .loadAddress | .start64 => s.kernelReady ≠ 0 ∧ p ∉ s.tickets
  | .jump => s.kernelReady ≠ 0 ∧ p ∉ s.tickets ∧ c.ebx = s.kernelAddress
  | .compare =>
      (∃ k, s.tickets[k]? = some p ∧ c.rax = BitVec.ofNat 64 k) ∧ (p, .calledKmain) ∉ s.trace
  | .ok => s.tickets[0]? = some p ∧ (p, .calledKmain) ∉ s.trace
  | .kernel | .halted => True

variable {boot p : Processor} {s s' : Shared} {c : Cpu} {i : Input} {a : Action}

/-- What a step of `p` may do to the shared state. -/
structure Effect (boot p : Processor) (s s' : Shared) : Prop where
  trace : ∀ e ∈ s.trace, e ∈ s'.trace
  trace_other : ∀ q a, q ≠ p → (q, a) ∈ s'.trace → (q, a) ∈ s.trace
  tickets : s.tickets <+: s'.tickets
  tickets_other : ∀ q, q ≠ p → q ∈ s'.tickets → q ∈ s.tickets
  opened : s.kernelReady ≠ 0 → s'.kernelReady ≠ 0 ∧ s'.kernelAddress = s.kernelAddress
  boot_only : p ≠ boot → s'.kernelReady = s.kernelReady ∧ s'.kernelAddress = s.kernelAddress ∧
    ∀ q v, (q, .stored v) ∈ s'.trace → (q, .stored v) ∈ s.trace

theorem Effect.refl (boot p : Processor) (s : Shared) : Effect boot p s s where
  trace := fun _ h => h
  trace_other := fun _ _ _ h => h
  tickets := List.prefix_rfl
  tickets_other := fun _ _ h => h
  opened := fun h => ⟨h, rfl⟩
  boot_only := fun _ => ⟨rfl, rfl, fun _ _ h => h⟩

/-- Only the boot processor's store is seen by the others in the trace. -/
theorem Effect.log (ha : p ≠ boot → ∀ v, a ≠ .stored v) : Effect boot p s (s.log p a) where
  trace := fun _ h => List.mem_cons_of_mem _ h
  trace_other := by
    intro q b hq hmem
    cases List.mem_cons.mp hmem with
    | inl heq => exact absurd (Prod.ext_iff.mp heq).1 hq
    | inr hold => exact hold
  tickets := List.prefix_rfl
  tickets_other := fun _ _ h => h
  opened := fun h => ⟨h, rfl⟩
  boot_only := by
    intro hp
    refine ⟨rfl, rfl, fun q v hmem => ?_⟩
    cases List.mem_cons.mp hmem with
    | inl heq => exact absurd (Prod.ext_iff.mp heq).2.symm (ha hp v)
    | inr hold => exact hold

theorem exec_effect (hl : Local boot p s c) : Effect boot p s (exec p s c i).1 := by
  cases hpc : c.pc with
  | kmain =>
      simp only [exec, hpc]
      cases i.pml4 with
      | none => exact Effect.log fun _ v => nofun
      | some v =>
          exact ⟨fun _ h => h, fun _ _ _ h => h, List.prefix_rfl, fun _ _ h => h,
            fun h => ⟨h, rfl⟩, fun _ => ⟨rfl, rfl, fun _ _ h => h⟩⟩
  | storeAddress =>
      simp only [Local, hpc] at hl
      obtain ⟨rfl, hfresh, -⟩ := hl
      simp only [exec, hpc]
      -- the store comes before the entry opens
      have hlog : Effect p p s (s.log p (.stored c.eax)) := Effect.log fun h => absurd rfl h
      exact ⟨hlog.trace, hlog.trace_other, hlog.tickets, hlog.tickets_other,
        fun h => absurd hfresh.1 h, fun h => absurd rfl h⟩
  | incReady =>
      simp only [Local, hpc] at hl
      obtain ⟨rfl, hzero, -⟩ := hl
      simp only [exec, hpc]
      exact ⟨fun _ h => h, fun _ _ _ h => h, List.prefix_rfl, fun _ _ h => h,
        fun h => absurd hzero h, fun h => absurd rfl h⟩
  | start64 =>
      simp only [exec, hpc]
      refine ⟨fun _ h => h, fun _ _ _ h => h, List.prefix_append _ _, ?_, fun h => ⟨h, rfl⟩,
        fun _ => ⟨rfl, rfl, fun _ _ h => h⟩⟩
      intro q hq hmem
      cases List.mem_append.mp hmem with
      | inl hold => exact hold
      | inr hnew => exact absurd (List.mem_singleton.mp hnew) hq
  | doAPEntry | setCr3 | jump | ok =>
      simp only [exec, hpc]
      exact Effect.log fun _ v => nofun
  | start32 | testEntry | again | loadAddress | compare | kernel | halted =>
      simp only [exec, hpc]
      exact Effect.refl boot p s

/-! ## Non-interference -/

theorem Fresh.effect {q : Processor} (h : Fresh s) (hq : q = boot) (hne : q ≠ p)
    (he : Effect boot p s s') : Fresh s' := by
  obtain ⟨hready, -, hstores⟩ := he.boot_only (by rintro rfl; exact hne hq)
  exact ⟨hready.trans h.1, fun r v hmem => h.2 r v (hstores r v hmem)⟩

theorem ticket_kept {q : Processor} {k : Nat} (hp : s.tickets <+: s'.tickets)
    (h : s.tickets[k]? = some q) : s'.tickets[k]? = some q := by
  obtain ⟨l, hl⟩ := hp
  rw [← hl, List.getElem?_append_left (List.getElem?_eq_some_iff.mp h).1]
  exact h

/-- The assertion of a processor survives the steps of the others. -/
theorem Local.effect {q : Processor} {u : Cpu} (h : Local boot q s u) (hq : q ≠ p)
    (he : Effect boot p s s') : Local boot q s' u := by
  have hticket : q ∉ s.tickets → q ∉ s'.tickets := fun hn hmem => hn (he.tickets_other q hq hmem)
  have hcall : (q, Action.calledKmain) ∉ s.trace → (q, Action.calledKmain) ∉ s'.trace :=
    fun hn hmem => hn (he.trace_other q _ hq hmem)
  cases hpc : u.pc with
  | start32 | kmain =>
      simp only [Local, hpc] at h ⊢
      exact ⟨h.1, h.2.1.effect h.1 hq he, hticket h.2.2⟩
  | testEntry =>
      simp only [Local, hpc] at h ⊢
      exact ⟨h.1, h.2.1.effect h.1 hq he, hticket h.2.2.1, he.trace _ h.2.2.2⟩
  | storeAddress =>
      simp only [Local, hpc] at h ⊢
      exact ⟨h.1, h.2.1.effect h.1 hq he, hticket h.2.2.1, he.trace _ h.2.2.2.1, h.2.2.2.2⟩
  | incReady =>
      simp only [Local, hpc] at h ⊢
      obtain ⟨rfl, hzero, hno, hstored⟩ := h
      -- only the boot processor stores the address and opens the entry
      obtain ⟨hready, haddr, -⟩ := he.boot_only (Ne.symm hq)
      rw [hready, haddr]
      exact ⟨rfl, hzero, hticket hno, he.trace _ hstored⟩
  | again =>
      simp only [Local, hpc] at h ⊢
      exact hticket h
  | doAPEntry | setCr3 | loadAddress | start64 =>
      simp only [Local, hpc] at h ⊢
      exact ⟨(he.opened h.1).1, hticket h.2⟩
  | jump =>
      simp only [Local, hpc] at h ⊢
      exact ⟨(he.opened h.1).1, hticket h.2.1, h.2.2.trans (he.opened h.1).2.symm⟩
  | compare =>
      simp only [Local, hpc] at h ⊢
      obtain ⟨⟨k, hk, hrax⟩, hno⟩ := h
      exact ⟨⟨k, ticket_kept he.tickets hk, hrax⟩, hcall hno⟩
  | ok =>
      simp only [Local, hpc] at h ⊢
      exact ⟨ticket_kept he.tickets h.1, hcall h.2⟩
  | kernel | halted => simp only [Local, hpc]

/-! ## A processor's own program -/

theorem Released.mono {entry : Word32} {t t' : List (Processor × Action)}
    (h : Released boot entry t) (ht : ∀ e ∈ t, e ∈ t') : Released boot entry t' :=
  ⟨h.1, ht _ h.2.1, ht _ h.2.2⟩

/-- An action that stores nothing and calls nothing may be logged as soon as it may be taken. -/
theorem Global.log (h : Global boot s) (hs : ∀ v, a ≠ .stored v) (hc : a ≠ .calledKmain)
    (hn : a.NeedsEntry → s.kernelReady ≠ 0 ∧ ∀ t, a = .jumped t → t = s.kernelAddress) :
    Global boot (s.log p a) where
  stores := by
    intro q v hmem
    cases List.mem_cons.mp hmem with
    | inl heq => exact absurd (Prod.ext_iff.mp heq).2.symm (hs v)
    | inr hold =>
        obtain ⟨hv, hreleased⟩ := h.stores q v hold
        exact ⟨hv, hreleased.mono fun _ => List.mem_cons_of_mem _⟩
  opened := fun hready => List.mem_cons_of_mem _ (h.opened hready)
  ordered := by
    refine ⟨fun hneeds => ?_, h.ordered⟩
    obtain ⟨hready, htarget⟩ := hn hneeds
    exact ⟨s.kernelAddress, (h.stores _ _ (h.opened hready)).2, htarget⟩
  nodup := h.nodup
  cpuCount := h.cpuCount
  calls_le := by
    have hskip : calls (s.log p a).trace = calls s.trace := List.filter_cons_of_neg (by simpa)
    rw [hskip]
    exact h.calls_le
  calls_first := by
    intro q hmem
    cases List.mem_cons.mp hmem with
    | inl heq => exact absurd (Prod.ext_iff.mp heq).2.symm hc
    | inr hold => exact h.calls_first q hold

theorem Global.storeAddress {v : Word32} (h : Global boot s) (hfresh : Fresh s)
    (hret : (boot, .returned v) ∈ s.trace) (hv : v ≠ 0) :
    Global boot (({ s with kernelAddress := v }).log boot (.stored v)) where
  stores := by
    intro q w hmem
    cases List.mem_cons.mp hmem with
    | inl heq =>
        cases heq
        exact ⟨rfl, hv, List.mem_cons_of_mem _ hret, List.mem_cons_self⟩
    | inr hold => exact absurd hold (hfresh.2 q w)
  opened := fun _ => List.mem_cons_self
  ordered := ⟨False.elim, h.ordered⟩
  nodup := h.nodup
  cpuCount := h.cpuCount
  calls_le := h.calls_le
  calls_first := by
    intro q hmem
    cases List.mem_cons.mp hmem with
    | inl heq => cases heq
    | inr hold => exact h.calls_first q hold

theorem Global.ticket (h : Global boot s) (hp : p ∉ s.tickets) :
    Global boot { s with cpuCount := s.cpuCount + 1, tickets := s.tickets ++ [p] } where
  stores := h.stores
  opened := h.opened
  ordered := h.ordered
  nodup := by
    show (s.tickets ++ [p]).Nodup
    rw [List.nodup_append]
    refine ⟨h.nodup, List.nodup_singleton p, ?_⟩
    rintro q hq r hr rfl
    exact hp (List.mem_singleton.mp hr ▸ hq)
  cpuCount := by
    show s.cpuCount + 1 = BitVec.ofNat 64 (s.tickets ++ [p]).length
    rw [h.cpuCount, List.length_append]
    exact (BitVec.ofNat_add _ _).symm
  calls_le := h.calls_le
  calls_first := fun q hmem => ticket_kept (List.prefix_append _ _) (h.calls_first q hmem)

/-- Only the first ticket calls, and it has not called before. -/
theorem Global.call (h : Global boot s) (hfirst : s.tickets[0]? = some p)
    (hnot : (p, .calledKmain) ∉ s.trace) : Global boot (s.log p .calledKmain) where
  stores := by
    intro q v hmem
    cases List.mem_cons.mp hmem with
    | inl heq => cases heq
    | inr hold =>
        obtain ⟨hv, hreleased⟩ := h.stores q v hold
        exact ⟨hv, hreleased.mono fun _ => List.mem_cons_of_mem _⟩
  opened := fun hready => List.mem_cons_of_mem _ (h.opened hready)
  ordered := ⟨False.elim, h.ordered⟩
  nodup := h.nodup
  cpuCount := h.cpuCount
  calls_le := by
    -- an earlier call would be the same processor's
    have hnone : calls s.trace = [] := by
      rw [calls, List.filter_eq_nil_iff]
      rintro ⟨q, b⟩ hmem hcall
      obtain rfl : b = .calledKmain := by simpa using hcall
      have hq := h.calls_first q hmem
      rw [hfirst, Option.some.injEq] at hq
      exact hnot (hq ▸ hmem)
    show (calls ((p, .calledKmain) :: s.trace)).length ≤ 1
    rw [calls, List.filter_cons_of_pos (by simp)]
    show (calls s.trace).length + 1 ≤ 1
    rw [hnone]
    rfl
  calls_first := by
    intro q hmem
    cases List.mem_cons.mp hmem with
    | inl heq => cases heq; exact hfirst
    | inr hold => exact h.calls_first q hold

/-- There are fewer processors than the 64-bit counter can count. -/
theorem Global.tickets_lt (h : Global boot s) : s.tickets.length < 2 ^ 64 := by
  have hcard := h.nodup.length_le_card
  rw [← FinEnum.card_eq_fintypeCard, FinEnum.card_bitVec] at hcard
  omega

theorem exec_own (hg : Global boot s) (hl : Local boot p s c) :
    Global boot (exec p s c i).1 ∧ Local boot p (exec p s c i).1 (exec p s c i).2 := by
  cases hpc : c.pc with
  | start32 =>
      simp only [Local, hpc] at hl
      simp only [exec, hpc]
      refine ⟨hg, ?_⟩
      cases i.longMode with
      | true => exact hl
      | false => trivial
  | kmain =>
      simp only [Local, hpc] at hl
      obtain ⟨rfl, hfresh, hno⟩ := hl
      simp only [exec, hpc]
      cases i.pml4 with
      | some v =>
          refine ⟨⟨hg.stores, hg.opened, hg.ordered, hg.nodup, hg.cpuCount, hg.calls_le,
            hg.calls_first⟩, ?_⟩
          simp only [Local, hpc]
          exact ⟨trivial, hfresh, hno⟩
      | none =>
          -- the kernel was not loaded: the result is logged and nothing is stored
          refine ⟨hg.log nofun nofun False.elim, ?_⟩
          refine ⟨rfl, ⟨hfresh.1, fun q v hmem => ?_⟩, hno, List.mem_cons_self⟩
          cases List.mem_cons.mp hmem with
          | inl heq => cases heq
          | inr hold => exact hfresh.2 q v hold
  | testEntry =>
      simp only [Local, hpc] at hl
      simp only [exec, hpc]
      refine ⟨hg, ?_⟩
      by_cases hzero : c.eax = 0
      · simp only [if_pos hzero, Local]
      · simp only [if_neg hzero, Local]
        exact ⟨hl.1, hl.2.1, hl.2.2.1, hl.2.2.2, hzero⟩
  | storeAddress =>
      simp only [Local, hpc] at hl
      obtain ⟨rfl, hfresh, hno, hret, hnonzero⟩ := hl
      simp only [exec, hpc]
      exact ⟨hg.storeAddress hfresh hret hnonzero, rfl, hfresh.1, hno, List.mem_cons_self⟩
  | incReady =>
      simp only [Local, hpc] at hl
      obtain ⟨rfl, hzero, hno, hstored⟩ := hl
      simp only [exec, hpc, hzero]
      -- from here on the entry is open, and the address has been stored
      exact ⟨⟨hg.stores, fun _ => hstored, hg.ordered, hg.nodup, hg.cpuCount, hg.calls_le,
        hg.calls_first⟩, show (0 + 1 : Byte) ≠ 0 by decide, hno⟩
  | again =>
      simp only [Local, hpc] at hl
      simp only [exec, hpc]
      refine ⟨hg, ?_⟩
      by_cases hready : s.kernelReady = 0
      · simp only [if_pos hready, Local]
        exact hl
      · simp only [if_neg hready, Local]
        exact ⟨hready, hl⟩
  | doAPEntry =>
      simp only [Local, hpc] at hl
      simp only [exec, hpc]
      exact ⟨hg.log nofun nofun fun _ => ⟨hl.1, nofun⟩, hl⟩
  | setCr3 =>
      simp only [Local, hpc] at hl
      simp only [exec, hpc]
      exact ⟨hg.log nofun nofun fun _ => ⟨hl.1, nofun⟩, hl⟩
  | loadAddress =>
      simp only [Local, hpc] at hl
      simp only [exec, hpc]
      exact ⟨hg, hl.1, hl.2, rfl⟩
  | jump =>
      simp only [Local, hpc] at hl
      obtain ⟨hready, hno, hebx⟩ := hl
      simp only [exec, hpc]
      refine ⟨hg.log nofun nofun fun _ => ⟨hready, ?_⟩, hready, hno⟩
      intro t ht
      cases ht
      exact hebx
  | start64 =>
      simp only [Local, hpc] at hl
      simp only [exec, hpc]
      -- `lock xadd`: the old value of the counter is the processor's place in the queue
      refine ⟨hg.ticket hl.2, ⟨s.tickets.length, List.getElem?_concat_length, hg.cpuCount⟩, ?_⟩
      intro hcalled
      exact hl.2 (List.mem_of_getElem? (hg.calls_first p hcalled))
  | compare =>
      simp only [Local, hpc] at hl
      obtain ⟨⟨k, hk, hrax⟩, hnot⟩ := hl
      simp only [exec, hpc]
      refine ⟨hg, ?_⟩
      by_cases hone : c.rax + 1 = 1
      · -- the counter has not wrapped, so a ticket of zero is the first one
        have hlt := hg.tickets_lt
        have hle := (List.getElem?_eq_some_iff.mp hk).1
        have hzero : BitVec.ofNat 64 k = 0 := by
          rw [← hrax]
          exact add_eq_right.mp hone
        have hnat := congrArg BitVec.toNat hzero
        rw [BitVec.toNat_ofNat, Nat.mod_eq_of_lt (by omega)] at hnat
        simp only [if_pos hone, Local]
        exact ⟨by rw [← hk, hnat]; rfl, hnot⟩
      · simp only [if_neg hone, Local]
  | ok =>
      simp only [Local, hpc] at hl
      simp only [exec, hpc]
      exact ⟨hg.call hl.1 hl.2, trivial⟩
  | kernel =>
      simp only [exec, hpc]
      exact ⟨hg, hl⟩
  | halted =>
      simp only [exec, hpc]
      exact ⟨hg, hl⟩

/-! ## All runs -/

theorem global_init (boot : Processor) : Global boot Shared.init where
  stores := nofun
  opened := fun h => absurd rfl h
  ordered := trivial
  nodup := List.nodup_nil
  cpuCount := rfl
  calls_le := Nat.zero_le 1
  calls_first := nofun

theorem local_start (boot p : Processor) :
    Local boot p (start boot).1 ((start boot).2 p) := by
  by_cases hp : p = boot
  · simp only [start, if_pos hp, Cpu.init, Local]
    exact ⟨hp, ⟨rfl, nofun⟩, List.not_mem_nil⟩
  · simp only [start, if_neg hp, Cpu.init, Local]
    exact List.not_mem_nil

theorem reachable_global {s : Shared × (Processor → Cpu)} (h : (smp boot).Reachable s) :
    Global boot s.1 :=
  (Threads.reachable_threads (global_init boot) (local_start boot)
    (fun _ _ _ _ hg hl => exec_own hg hl)
    (fun _ _ _ _ _ _ hj _ hl hu => hu.effect hj (exec_effect hl)) h).1

/-- In an ordered trace, what an action needs lies before it. -/
theorem Ordered.released (later : List (Processor × Action)) {e : Processor × Action}
    {earlier : List (Processor × Action)} (h : Ordered boot (later ++ e :: earlier))
    (hneeds : e.2.NeedsEntry) :
    ∃ entry, Released boot entry earlier ∧ ∀ t, e.2 = .jumped t → t = entry := by
  induction later with
  | nil => exact h.1 hneeds
  | cons d later ih => exact ih h.2

/-- **One processor boots the kernel.**  In every state of every run at most one call of the
kernel's `kmain` has been made, and there is one address such that whoever has read `pml4_table`,
loaded CR3 or jumped did so after the boot processor had stored that address, nonzero and returned
by the loader's `kmain`; every jump went there. -/
theorem one_processor_boots (boot : Processor) (s : Shared × (Processor → Cpu))
    (h : (smp boot).Reachable s) :
    (calls s.1.trace).length ≤ 1 ∧
    ∃ entry, ∀ later p a earlier, s.1.trace = later ++ (p, a) :: earlier → a.NeedsEntry →
      Released boot entry earlier ∧ ∀ t, a = .jumped t → t = entry := by
  have hg := reachable_global h
  refine ⟨hg.calls_le, s.1.kernelAddress, fun later p a earlier htrace hneeds => ?_⟩
  have hordered := hg.ordered
  rw [htrace] at hordered
  obtain ⟨entry, hreleased, hjump⟩ := hordered.released later hneeds
  -- what was stored then is what `KernelAddress` holds now
  have hstored : (boot, Action.stored entry) ∈ s.1.trace := by
    rw [htrace]
    exact List.mem_append_right _ (List.mem_cons_of_mem _ hreleased.2.2)
  rw [← (hg.stores boot entry hstored).1]
  exact ⟨hreleased, hjump⟩

/-- Processor 1 spins while processor 0 boots, and then overtakes it. -/
def overtaking : List (Processor × Input) :=
  let turn (p : Processor) : Processor × Input := (p, ⟨true, none, 0x200000⟩)
  [turn 1, turn 0, (0, ⟨true, some 0x5000, 0⟩)] ++ List.replicate 4 (turn 0) ++
    List.replicate 8 (turn 1) ++ List.replicate 6 (turn 0)

theorem overtaking_boots :
    let s := overtaking.foldl processors.run (start 0)
    calls s.1.trace = [(1, .calledKmain)] ∧ (s.2 0).pc = .halted ∧
    (calls s.1.trace).length ≤ 1 ∧
    ∃ entry, ∀ later p a earlier, s.1.trace = later ++ (p, a) :: earlier → a.NeedsEntry →
      Released 0 entry earlier ∧ ∀ t, a = .jumped t → t = entry :=
  ⟨by decide +kernel, by decide +kernel,
    one_processor_boots 0 _ (System.Reachable.foldl overtaking (.init rfl))⟩

end Smp
end ZineOS
