import ZineOS.Smp.Trampoline

/-!
# When the trampoline page may be freed

The counter that the boot processor waits for is incremented by the fifth instruction of the
trampoline, and the wait gives up.  So the page can be freed under a processor on every machine
that has one; it is safe in exactly the runs in which all of them have left the page by then.
-/

namespace ZineOS
namespace Smp
namespace Trampoline

open Lib Loader

variable {α : Type*} {cfg : Config} {s : State α}

/-- The last instruction of `code` reads a descriptor, so there is an access ahead up to it. -/
theorem access_ahead_iff (pc : Nat) :
    (∃ instr ∈ code.drop pc, instr.accesses ≠ []) ↔ pc < code.length := by
  constructor
  · rintro ⟨instr, hmem, -⟩
    have hpos := List.length_pos_of_mem hmem
    rw [List.length_drop] at hpos
    omega
  · intro hlt
    have hlast : code[15] ∈ code.drop pc := by
      rw [List.mem_drop_iff_getElem]
      have hlen : code.length = 16 := rfl
      refine ⟨15 - pc, by omega, ?_⟩
      congr 1
      omega
    exact ⟨code[15], hlast, by decide⟩

theorem not_stillFetches_of_parked {i : α} (h : (s.ap i).Parked) : ¬ StillFetches s i := by
  obtain ⟨pc, hpc, hlen⟩ := h
  unfold StillFetches
  rw [hpc]
  exact fun hahead => absurd ((access_ahead_iff pc).mp hahead) (by omega)

/-! ## Runs that free the page in time -/

/-- The page is freed last, and with every processor parked. -/
def FreedParked (s : State α) : Prop :=
  s.page.Freed → s.boot = .returned ∧ ∀ i, (s.ap i).Parked

theorem freedParked_bootStep {reuse : Bool} (h : FreedParked s)
    (hfree : s.boot = .free → ∀ i, (s.ap i).Parked) : FreedParked (bootStep cfg s reuse) := by
  intro hfreed
  cases hboot : s.boot with
  | free =>
      simp only [bootStep, hboot]
      exact ⟨trivial, hfree hboot⟩
  | returned =>
      simp only [bootStep, hboot] at hfreed ⊢
      by_cases hreuse : reuse ∧ s.page = .free
      · rw [if_pos hreuse]
        exact ⟨rfl, (h (.inl hreuse.2)).2⟩
      · rw [if_neg hreuse] at hfreed ⊢
        exact h hfreed
  | alloc =>
      simp only [bootStep, hboot] at hfreed
      cases hfreed with
      | inl hp => cases hp
      | inr hp => cases hp
  | poll counter =>
      -- the page is freed only behind the loop
      have hpage : (bootStep cfg s reuse).page = s.page := by
        simp only [bootStep, hboot]
        split <;> rfl
      rw [hpage] at hfreed
      cases hboot.symm.trans (h hfreed).1
  | findFile | copy | sendInit | sendStartup =>
      simp only [bootStep, hboot] at hfreed
      cases hboot.symm.trans (h hfreed).1

theorem FreedParked.safe (h : FreedParked s) : Safe s :=
  fun hfreed i => not_stillFetches_of_parked ((h hfreed).2 i)

variable [DecidableEq α]

/-- A parked processor stays parked. -/
theorem apStep_parked {i j : α} (h : (s.ap j).Parked) : ((apStep s i).ap j).Parked := by
  by_cases hj : j = i
  · subst hj
    obtain ⟨pc, hpc, hlen⟩ := h
    have hnone : code[pc]? = none := List.getElem?_eq_none hlen
    have hstay : apStep s j = s := by
      unfold apStep
      simp only [hpc, hnone]
    rw [hstay]
    exact ⟨pc, hpc, hlen⟩
  · have hap : (apStep s i).ap j = s.ap j := by
      unfold apStep
      cases s.ap i with
      | waiting =>
          by_cases hs : s.startup = true
          · simp only [if_pos hs, Function.update_of_ne hj]
          · simp only [if_neg hs]
      | running pc =>
          cases hcode : code[pc]? with
          | some instr => simp only [hcode, Function.update_of_ne hj]
          | none => simp only [hcode]
    rw [hap]
    exact h

theorem apStep_boot (i : α) : (apStep s i).boot = s.boot ∧ (apStep s i).page = s.page := by
  unfold apStep
  cases s.ap i with
  | waiting =>
      by_cases hs : s.startup = true
      · simp only [if_pos hs, and_self]
      · simp only [if_neg hs, and_self]
  | running pc =>
      cases hcode : code[pc]? with
      | some instr => simp only [hcode, and_self]
      | none => simp only [hcode, and_self]

theorem restrict_freedParked
    (h : ((interleavings α cfg).restrict FreeWhenParked).Reachable s) : FreedParked s := by
  refine h.invariant ?_ ?_
  · rintro s rfl
    rintro (hp | hp) <;> cases hp
  · rintro s turn s' - hs ⟨⟨-, rfl⟩, hcond⟩
    cases turn with
    | boot reuse => exact freedParked_bootStep hs hcond
    | ap i =>
        intro hfreed
        obtain ⟨hboot, hpage⟩ := apStep_boot (s := s) i
        have hold := hs (hpage ▸ hfreed)
        exact ⟨hboot.trans hold.1, fun j => apStep_parked (hold.2 j)⟩

/-! ## Machines -/

/-- `ParseMadt` returns before it allocates a page. -/
def Skips (cfg : Config) : Prop := cfg.cpuCount = 0 ∨ cfg.found = false

theorem skips_page (hskip : Skips cfg) (h : (interleavings α cfg).Reachable s) :
    s.page = .unused ∧ (s.boot = .findFile ∨ s.boot = .returned) := by
  refine h.invariant (I := fun s => s.page = .unused ∧ (s.boot = .findFile ∨ s.boot = .returned))
    ?_ ?_
  · rintro s rfl
    exact ⟨rfl, .inl rfl⟩
  · rintro s turn s' - ⟨hpage, hboot⟩ ⟨-, rfl⟩
    cases turn with
    | ap i =>
        obtain ⟨hb, hp⟩ := apStep_boot (s := s) i
        show (apStep s i).page = _ ∧ ((apStep s i).boot = _ ∨ (apStep s i).boot = _)
        rw [hb, hp]
        exact ⟨hpage, hboot⟩
    | boot reuse =>
        have hno : ¬ (0 < cfg.cpuCount ∧ cfg.found = true) := by
          rintro ⟨hpos, hfound⟩
          cases hskip with
          | inl hzero => rw [hzero] at hpos; exact absurd hpos (by decide)
          | inr hmissing => rw [hmissing] at hfound; cases hfound
        cases hboot with
        | inl hfind =>
            simp only [step, bootStep, hfind, if_neg hno]
            exact ⟨hpage, .inr trivial⟩
        | inr hret =>
            have hfree : ¬ (reuse = true ∧ s.page = .free) := by
              rw [hpage]
              simp
            simp only [step, bootStep, hret, if_neg hfree]
            exact ⟨hpage, .inr trivial⟩

theorem reachable_boot (h : (interleavings α cfg).Reachable s) :
    (interleavings α cfg).Reachable (bootStep cfg s false) :=
  h.call (a := .boot false) trivial

/-- The poll ends however slow the others are: after at most `counter` rounds more. -/
theorem poll_gives_up (n : Nat) {counter : Word32} (hn : counter.toNat = n)
    (h : (interleavings α cfg).Reachable { s with boot := .poll counter }) :
    (interleavings α cfg).Reachable { s with boot := .free } := by
  induction n generalizing counter with
  | zero =>
      have hzero : counter = 0 := BitVec.eq_of_toNat_eq hn
      have hstep := reachable_boot h
      simp only [bootStep, hzero, or_true, if_true] at hstep
      exact hstep
  | succ n ih =>
      have hstep := reachable_boot h
      simp only [bootStep] at hstep
      by_cases hend : s.count = cfg.cpuCount ∨ counter = 0
      · rw [if_pos hend] at hstep
        exact hstep
      · rw [if_neg hend] at hstep
        refine ih ?_ hstep
        rw [BitVec.toNat_sub, hn]
        have hlt := counter.isLt
        show (2 ^ 32 - 1 + (n + 1)) % 2 ^ 32 = n
        omega

/-- With nobody else taking a step, the boot processor frees the page. -/
theorem reachable_freed (hskip : ¬ Skips cfg) :
    (interleavings α cfg).Reachable ⟨.returned, .free, 1, true, fun _ => .waiting⟩ := by
  have hgo : 0 < cfg.cpuCount ∧ cfg.found = true := by
    unfold Skips at hskip
    obtain ⟨hzero, hfound⟩ := not_or.mp hskip
    refine ⟨?_, by simpa using hfound⟩
    rw [BitVec.lt_def]
    exact Nat.pos_of_ne_zero fun h => hzero (BitVec.eq_of_toNat_eq h)
  have hstart : (interleavings α cfg).Reachable start := .init rfl
  have halloc := reachable_boot hstart
  simp only [bootStep, start, if_pos hgo] at halloc
  have hsent := reachable_boot (reachable_boot (reachable_boot (reachable_boot halloc)))
  simp only [bootStep] at hsent
  have hfree := poll_gives_up (s := ⟨.sendStartup, .trampoline, 1, true, fun _ => .waiting⟩) _ rfl
    hsent
  exact reachable_boot hfree

/-- **When no processor depends on the freed page.**  In every run that frees the page only once
all application processors are in their loop, no state has one that still needs it.  All runs of a
machine are like that only where the page is never freed or nobody is started in it. -/
theorem freed_page_safe_iff (α : Type*) [DecidableEq α] (cfg : Config) :
    (∀ s, ((interleavings α cfg).restrict FreeWhenParked).Reachable s → Safe s) ∧
    ((∀ s, (interleavings α cfg).Reachable s → Safe s) ↔ Skips cfg ∨ IsEmpty α) := by
  refine ⟨fun s h => (restrict_freedParked h).safe, ?_, ?_⟩
  · intro hsafe
    by_contra hnot
    obtain ⟨hskip, hsome⟩ := not_or.mp hnot
    obtain ⟨i⟩ := not_isEmpty_iff.mp hsome
    -- processor `i` has been sent the startup IPI and has not begun
    exact hsafe _ (reachable_freed hskip) (.inl rfl) i rfl
  · intro hcase s h hfreed i
    cases hcase with
    | inl hskip =>
        rw [(skips_page hskip h).1] at hfreed
        cases hfreed with
        | inl hp => cases hp
        | inr hp => cases hp
    | inr hempty => exact hempty.elim i

/-- Two processors, both in the MADT.  The second counts itself, the first sees the count, frees
the page and has it overwritten; the second has its `lgdt` and the far jump still to do. -/
def overtaken : List (Turn Unit) :=
  List.replicate 5 (.boot false) ++ List.replicate 6 (.ap ()) ++ List.replicate 2 (.boot false) ++
    [.boot true]

theorem freed_page_unsafe :
    ∃ s, (interleavings Unit ⟨2, true⟩).Reachable s ∧ s.page = .reused ∧ ¬ Safe s := by
  have hap : (overtaken.foldl (step ⟨2, true⟩) start).ap () = .running 5 := by decide +kernel
  have hpage : (overtaken.foldl (step ⟨2, true⟩) start).page = .reused := by decide +kernel
  refine ⟨_, System.Reachable.foldl overtaken (.init rfl), hpage, fun hsafe => ?_⟩
  apply hsafe (.inr hpage) ()
  unfold StillFetches
  rw [hap]
  exact ⟨.lgdt, by decide, by decide⟩

end Trampoline
end Smp
end ZineOS
