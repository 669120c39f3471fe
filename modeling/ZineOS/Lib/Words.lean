import Mathlib

/-!
# Masked machine words

Operating-system code keeps addresses aligned by masking: `x & ~(2^k - 1)` rounds a word down to a
multiple of `2^k`, `(x + (2^k - 1)) & ~(2^k - 1)` rounds it up, and small flags are stored in the
low bits that the alignment leaves free.  The lemmas of this module read those idioms as arithmetic
on `toNat`, so that goals about them end in `omega`.

They are stated for every width `w` and every alignment `2^k`; no program is mentioned.
-/

namespace ZineOS
namespace Lib
namespace Words

variable {w : Nat}

/-- Masking with the `k` low ones keeps the remainder modulo `2^k`. -/
theorem toNat_and_lowMask (x : BitVec w) {k : Nat} (hk : k ≤ w) :
    (x &&& BitVec.ofNat w (2 ^ k - 1)).toNat = x.toNat % 2 ^ k := by
  have hlt : 2 ^ k - 1 < 2 ^ w := by
    have hmono := Nat.pow_le_pow_right (show 0 < 2 by omega) hk
    have hpos := Nat.two_pow_pos k
    omega
  rw [BitVec.toNat_and, BitVec.toNat_ofNat, Nat.mod_eq_of_lt hlt, Nat.and_two_pow_sub_one_eq_mod]

/-- Clearing the `k` low bits rounds down to a multiple of `2^k`. -/
theorem toNat_and_not_lowMask (x : BitVec w) (k : Nat) :
    (x &&& ~~~BitVec.ofNat w (2 ^ k - 1)).toNat = x.toNat / 2 ^ k * 2 ^ k := by
  have hsplit : x &&& ~~~BitVec.ofNat w (2 ^ k - 1) = (x >>> k) <<< k := by
    apply BitVec.eq_of_getLsbD_eq
    intro i hi
    simp only [BitVec.getLsbD_and, BitVec.getLsbD_not, BitVec.getLsbD_ofNat,
      Nat.testBit_two_pow_sub_one, BitVec.getLsbD_shiftLeft, BitVec.getLsbD_ushiftRight]
    by_cases h : i < k
    · simp [h, hi]
    · have hback : k + (i - k) = i := by omega
      simp [h, hi, hback]
  rw [hsplit, BitVec.toNat_shiftLeft, BitVec.toNat_ushiftRight, Nat.shiftRight_eq_div_pow,
    Nat.shiftLeft_eq, Nat.mod_eq_of_lt]
  exact lt_of_le_of_lt (Nat.div_mul_le_self _ _) x.isLt

/-- Or-ing small flags into an aligned word adds them. -/
theorem toNat_or_of_aligned {x y : BitVec w} {k : Nat} (hx : x.toNat % 2 ^ k = 0)
    (hy : y.toNat < 2 ^ k) : (x ||| y).toNat = x.toNat + y.toNat := by
  obtain ⟨q, hq⟩ := Nat.dvd_of_mod_eq_zero hx
  rw [BitVec.toNat_or, hq, Nat.two_pow_add_eq_or_of_lt hy]

/-- A word with flags in its low bits gives the aligned part back once the flags are cleared. -/
theorem or_and_not_lowMask {x y : BitVec w} {k : Nat} (hx : x.toNat % 2 ^ k = 0)
    (hy : y.toNat < 2 ^ k) : (x ||| y) &&& ~~~BitVec.ofNat w (2 ^ k - 1) = x := by
  apply BitVec.eq_of_toNat_eq
  obtain ⟨q, hq⟩ := Nat.dvd_of_mod_eq_zero hx
  rw [toNat_and_not_lowMask, toNat_or_of_aligned hx hy, hq,
    Nat.mul_add_div (Nat.two_pow_pos k), Nat.div_eq_of_lt hy, Nat.add_zero, Nat.mul_comm]

/-- A word with flags in its low bits gives the flags back under the low mask. -/
theorem or_and_lowMask {x y : BitVec w} {k : Nat} (hk : k ≤ w) (hx : x.toNat % 2 ^ k = 0)
    (hy : y.toNat < 2 ^ k) : (x ||| y) &&& BitVec.ofNat w (2 ^ k - 1) = y := by
  apply BitVec.eq_of_toNat_eq
  rw [toNat_and_lowMask _ hk, toNat_or_of_aligned hx hy, Nat.add_mod, hx, Nat.zero_add,
    Nat.mod_mod, Nat.mod_eq_of_lt hy]

/-- A word with no bit outside a mask is unchanged by the mask. -/
theorem and_eq_self_of_and_not {x m : BitVec w} (h : x &&& ~~~m = 0) : x &&& m = x := by
  apply BitVec.eq_of_getLsbD_eq
  intro i hi
  have hbit := congrArg (fun y => BitVec.getLsbD y i) h
  rw [BitVec.getLsbD_and]
  cases hm : m.getLsbD i
  · simp only [BitVec.getLsbD_and, BitVec.getLsbD_not, hm, hi, decide_true, Bool.not_false,
      Bool.and_self, Bool.and_true] at hbit
    rw [hbit]
    simp
  · rw [Bool.and_true]

/-- Bits below the alignment of an aligned word are clear. -/
theorem getLsbD_of_aligned {x : BitVec w} {k i : Nat} (hx : x.toNat % 2 ^ k = 0) (hi : i < k) :
    x.getLsbD i = false := by
  have hbit := Nat.testBit_mod_two_pow x.toNat k i
  rw [hx, Nat.zero_testBit] at hbit
  simpa [hi, BitVec.getLsbD] using hbit.symm

/-- A mask keeps a word exactly when the word has no bit outside of it. -/
theorem and_eq_self_iff {x m : BitVec w} : x &&& m = x ↔ x &&& ~~~m = 0 := by
  refine ⟨fun h => ?_, and_eq_self_of_and_not⟩
  rw [← h, BitVec.and_assoc, BitVec.and_not_self]
  exact BitVec.and_zero

/-- Two masks together keep a word exactly when each of them does. -/
theorem and_and_eq_self_iff {x a b : BitVec w} :
    x &&& (a &&& b) = x ↔ x &&& a = x ∧ x &&& b = x := by
  constructor
  · intro h
    constructor
    · ext i hi
      have hbit := congrArg (fun y => BitVec.getLsbD y i) h
      simp only [BitVec.getLsbD_and, ← BitVec.getLsbD_eq_getElem] at hbit ⊢
      grind
    · ext i hi
      have hbit := congrArg (fun y => BitVec.getLsbD y i) h
      simp only [BitVec.getLsbD_and, ← BitVec.getLsbD_eq_getElem] at hbit ⊢
      grind
  · rintro ⟨ha, hb⟩
    rw [← BitVec.and_assoc, ha, hb]

end Words
end Lib
end ZineOS
