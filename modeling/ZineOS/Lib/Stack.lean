import Mathlib

/-!
# A stack of quadwords

Memory is a function from addresses to the quadwords stored there, which is enough for code that only
uses addresses a multiple of 8 apart.  The stack grows down, and `Holds` says what lies on it from the
stack pointer up, so that pushing is `List.cons` and popping takes the head.
-/

namespace ZineOS
namespace Lib
namespace Stack

variable {β : Type*} {mem mem' : BitVec 64 → β} {sp : BitVec 64} {w : β} {ws ws' : List β}

/-- These quadwords lie on the stack, the first one at the stack pointer. -/
def Holds (mem : BitVec 64 → β) (sp : BitVec 64) (ws : List β) : Prop :=
  ∀ k (hk : k < ws.length), mem (sp + BitVec.ofNat 64 (8 * k)) = ws[k]

/-- The address in front of a number of quadwords is none of theirs. -/
theorem below_ne {k : Nat} (hk : k + 1 < 2 ^ 61) : sp + BitVec.ofNat 64 (8 * k) ≠ sp - 8 := by
  intro hsame
  bv_omega

theorem holds_nil : Holds mem sp [] := fun k hk => absurd hk (Nat.not_lt_zero k)

theorem next_address (sp : BitVec 64) (k : Nat) :
    sp + 8 + BitVec.ofNat 64 (8 * k) = sp + BitVec.ofNat 64 (8 * (k + 1)) := by
  rw [Nat.mul_succ, Nat.add_comm, BitVec.ofNat_add, BitVec.add_assoc]
  rfl

theorem holds_cons : Holds mem sp (w :: ws) ↔ mem sp = w ∧ Holds mem (sp + 8) ws := by
  constructor
  · intro h
    refine ⟨?_, fun k hk => ?_⟩
    · simpa using h 0 (Nat.succ_pos _)
    · rw [next_address]
      exact h (k + 1) (Nat.succ_lt_succ hk)
  · rintro ⟨hfirst, hrest⟩ k hk
    cases k with
    | zero => simpa using hfirst
    | succ k =>
        rw [← next_address]
        exact hrest k (Nat.lt_of_succ_lt_succ hk)

theorem holds_congr (h : Holds mem sp ws)
    (hsame : ∀ k < ws.length, mem' (sp + BitVec.ofNat 64 (8 * k)) =
      mem (sp + BitVec.ofNat 64 (8 * k))) : Holds mem' sp ws :=
  fun k hk => (hsame k hk).trans (h k hk)

/-- A store below the stack pointer. -/
theorem holds_update_below (h : Holds mem sp ws) (hlength : ws.length < 2 ^ 61) :
    Holds (Function.update mem (sp - 8) w) sp ws :=
  holds_congr h fun k hk => Function.update_of_ne (below_ne (by omega)) _ _

/-- **Pushing.** -/
theorem holds_push (h : Holds mem sp ws) (hlength : ws.length < 2 ^ 61) :
    Holds (Function.update mem (sp - 8) w) (sp - 8) (w :: ws) := by
  refine holds_cons.mpr ⟨Function.update_self _ _ _, ?_⟩
  rw [BitVec.sub_add_cancel]
  exact holds_update_below h hlength

end Stack
end Lib
end ZineOS
