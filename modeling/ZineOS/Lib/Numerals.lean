import Mathlib

/-!
# Numerals

A number in a base is the row of its digits, the most significant one first.  The digits are taken
from an alphabet: a character for every digit, and the digit that a character stands for.

Reading goes from left to right and may start with what has been read before, so that a row of
digits may be read in parts: `readFrom_append`, `readFrom_zeros`, `readFrom_numeral`.
-/

namespace ZineOS
namespace Lib

/-- Characters for the digits below `bound`. -/
structure Digits (α : Type) (bound : Nat) where
  char : Nat → α
  value : α → Option Nat
  value_char : ∀ d < bound, value (char d) = some d

namespace Digits

variable {α : Type} {bound : Nat} (D : Digits α bound)

/-- The digits of a number, the least significant one first.  Zero has a digit. -/
def ofLeast (base n : Nat) : List α :=
  if n = 0 then [D.char 0] else (Nat.digits base n).map D.char

/-- The digits of a number, the most significant one first. -/
def numeral (base n : Nat) : List α := (D.ofLeast base n).reverse

/-- Read on behind a row of digits that stands for `v`. -/
def readFrom (value : α → Option Nat) (base : Nat) : Nat → List α → Option Nat
  | v, [] => some v
  | v, c :: rest =>
      match value c with
      | none => none
      | some d => if d < base then readFrom value base (v * base + d) rest else none

/-- The number that a row of digits stands for. -/
def read (value : α → Option Nat) (base : Nat) (text : List α) : Option Nat :=
  if text.isEmpty then none else readFrom value base 0 text

variable {D} {value : α → Option Nat} {base n v k : Nat} {text rest : List α}

theorem readFrom_append :
    readFrom value base v (text ++ rest) =
      (readFrom value base v text).bind (readFrom value base · rest) := by
  induction text generalizing v with
  | nil => rfl
  | cons c text ih =>
      rw [List.cons_append, readFrom, readFrom]
      cases value c with
      | none => rfl
      | some d =>
          dsimp only
          split_ifs
          · exact ih
          · rfl

/-- What has been read is read on from. -/
theorem read_append (h : read value base text = some n) :
    read value base (text ++ rest) = readFrom value base n rest := by
  cases text with
  | nil => cases h
  | cons c text =>
      change readFrom value base 0 (c :: text) = some n at h
      change readFrom value base 0 (c :: text ++ rest) = _
      rw [readFrom_append, h, Option.bind_some]

theorem readFrom_char {d : Nat} (hd : d < base) (hle : base ≤ bound) :
    readFrom D.value base v (D.char d :: rest) = readFrom D.value base (v * base + d) rest := by
  rw [readFrom, D.value_char d (by omega)]
  exact if_pos hd

theorem readFrom_zeros (hbase : 0 < base) (hle : base ≤ bound) (v : Nat) :
    readFrom D.value base v (List.replicate k (D.char 0) ++ rest) =
      readFrom D.value base (v * base ^ k) rest := by
  induction k generalizing v with
  | zero => simp
  | succ k ih =>
      rw [List.replicate_succ, List.cons_append, readFrom_char hbase hle, ih, Nat.add_zero, pow_succ,
        Nat.mul_assoc, Nat.mul_comm base]

theorem readFrom_digits (hbase : 1 < base) (hle : base ≤ bound) (n v : Nat) :
    readFrom D.value base v ((Nat.digits base n).map D.char).reverse =
      some (v * base ^ (Nat.digits base n).length + n) := by
  induction n using Nat.strong_induction_on generalizing v with
  | _ n ih =>
      rcases Nat.eq_zero_or_pos n with rfl | hpos
      · simp [readFrom]
      · have hless : n / base < n := Nat.div_lt_self hpos hbase
        have hdigit : n % base < base := Nat.mod_lt n (by omega)
        rw [Nat.digits_def' hbase hpos, List.map_cons, List.reverse_cons, readFrom_append,
          ih _ hless, Option.bind_some, readFrom_char hdigit hle, readFrom, List.length_cons,
          pow_succ]
        congr 1
        have hsplit := Nat.div_add_mod n base
        calc (v * base ^ (Nat.digits base (n / base)).length + n / base) * base + n % base
            = v * (base ^ (Nat.digits base (n / base)).length * base) +
                (base * (n / base) + n % base) := by ring
          _ = v * (base ^ (Nat.digits base (n / base)).length * base) + n := by rw [hsplit]

@[simp] theorem length_numeral : (D.numeral base n).length = (D.ofLeast base n).length :=
  List.length_reverse

theorem ofLeast_ne_nil : D.ofLeast base n ≠ [] := by
  unfold ofLeast
  split_ifs with hzero
  · simp
  · simp [Nat.digits_ne_nil_iff_ne_zero.mpr hzero]

theorem length_ofLeast_pos : 0 < (D.ofLeast base n).length :=
  List.length_pos_iff.mpr ofLeast_ne_nil

theorem readFrom_numeral (hbase : 1 < base) (hle : base ≤ bound) (n v : Nat) :
    readFrom D.value base v (D.numeral base n) = some (v * base ^ (D.numeral base n).length + n) := by
  rw [length_numeral]
  unfold numeral ofLeast
  split_ifs with hzero
  · subst hzero
    rw [List.reverse_singleton, readFrom_char (by omega) hle]
    simp [readFrom]
  · rw [readFrom_digits hbase hle, List.length_map]

theorem readFrom_padded (hbase : 1 < base) (hle : base ≤ bound) (k n v : Nat) :
    readFrom D.value base v (List.replicate k (D.char 0) ++ D.numeral base n) =
      some (v * base ^ (k + (D.numeral base n).length) + n) := by
  rw [readFrom_zeros (by omega) hle, readFrom_numeral hbase hle, pow_add, Nat.mul_assoc]

/-- **Reading back** a number behind any number of zeros. -/
theorem read_zeros_numeral (hbase : 1 < base) (hle : base ≤ bound) (k n : Nat) :
    read D.value base (List.replicate k (D.char 0) ++ D.numeral base n) = some n := by
  have hne : (List.replicate k (D.char 0) ++ D.numeral base n).isEmpty = false := by
    have hpos : 0 < (D.ofLeast base n).length := length_ofLeast_pos
    rw [List.isEmpty_eq_false_iff, ← List.length_pos_iff, List.length_append, length_numeral]
    omega
  rw [read, hne, if_neg Bool.false_ne_true, readFrom_padded hbase hle, zero_mul, zero_add]

/-- How long a numeral is. -/
theorem length_ofLeast_le_iff (hbase : 1 < base) (hk : 0 < k) :
    (D.ofLeast base n).length ≤ k ↔ n < base ^ k := by
  unfold ofLeast
  split_ifs with hzero
  · subst hzero
    simp only [List.length_singleton]
    exact iff_of_true hk (Nat.pow_pos (by omega))
  · rw [List.length_map]
    exact Nat.digits_length_le_iff hbase n

end Digits
end Lib
end ZineOS
