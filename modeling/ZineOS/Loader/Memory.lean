import ZineOS.Loader.Common
import ZineOS.Lib.ByteMemory

/-!
# Memory as the loader's C code uses it

Loads and stores through 32-bit pointers, and the loader's own `memset` and `memcpy` from
`string.h`.  Pointer arithmetic is done in 32 bits by the caller; a string instruction that starts
below 4 GB is not wrapped around at the top.
-/

namespace ZineOS
namespace Loader

open Lib

/-- `*(uint8_t *)p`. -/
def load8 (m : Mem) (p : Word32) : Byte := m p.toNat
/-- `*(uint16_t *)p`. -/
def load16 (m : Mem) (p : Word32) : Word16 := BitVec.ofNat 16 (m.load p.toNat 2)
/-- `*(uint32_t *)p`. -/
def load32 (m : Mem) (p : Word32) : Word32 := BitVec.ofNat 32 (m.load p.toNat 4)
/-- `*(uint64_t *)p`. -/
def load64 (m : Mem) (p : Word32) : Word64 := BitVec.ofNat 64 (m.load p.toNat 8)

/-- `*(uint64_t *)p = v`. -/
def store64 (m : Mem) (p : Word32) (v : Word64) : Mem := m.store p.toNat 8 v.toNat

/-- `*(uint32_t *)p = v`. -/
def store32 (m : Mem) (p : Word32) (v : Word32) : Mem := m.store p.toNat 4 v.toNat

/-- `memset(p, 0, n)`. -/
def memzero (m : Mem) (p : Word32) (n : Nat) : Mem := m.fill p.toNat n 0

/-- `__memcpy`: `rep movsl` for the whole words, then `rep movsb` for the rest. -/
def memcpy (m : Mem) (dst src : Word32) (n : Word32) : Mem :=
  let words := n.toNat / 4
  let m := Mem.repMovs 4 words m dst.toNat src.toNat
  Mem.repMovs 1 (n.toNat % 4) m (dst.toNat + 4 * words) (src.toNat + 4 * words)

/-- `memcmp` of a string literal with the bytes at `p`: the first difference, or 0. -/
def memcmp (m : Mem) : List Byte → Word32 → Word32
  | [], _ => 0
  | c :: literal, p =>
      let val := c.setWidth 32 - (load8 m p).setWidth 32
      if val ≠ 0 then val else memcmp m literal (p + 1)

theorem load32_congr {m m' : Mem} {p : Word32} (h : Mem.AgreeOn m m' p.toNat 4) :
    load32 m p = load32 m' p := by
  unfold load32
  rw [Mem.load_congr h]

theorem load16_congr {m m' : Mem} {p : Word32} (h : Mem.AgreeOn m m' p.toNat 2) :
    load16 m p = load16 m' p := by
  unfold load16
  rw [Mem.load_congr h]

theorem load64_congr {m m' : Mem} {p : Word32} (h : Mem.AgreeOn m m' p.toNat 8) :
    load64 m p = load64 m' p := by
  unfold load64
  rw [Mem.load_congr h]

/-- A copy writes nothing outside its destination. -/
theorem memcpy_of_not {m : Mem} {dst src n : Word32} {x : Nat}
    (h : ¬ (dst.toNat ≤ x ∧ x < dst.toNat + n.toNat)) : memcpy m dst src n x = m x := by
  unfold memcpy
  rw [Mem.repMovs_of_not _ (by omega), Mem.repMovs_of_not _ (by omega)]

/-- A copy moves every byte that is not overwritten before its turn. -/
theorem memcpy_apply {m : Mem} {dst src n : Word32} {j : Nat} (hj : j < n.toNat)
    (hsafe : src.toNat + j < dst.toNat ∨ dst.toNat + j ≤ src.toNat + j) :
    memcpy m dst src n (dst.toNat + j) = m (src.toNat + j) := by
  unfold memcpy
  rcases Nat.lt_or_ge j (4 * (n.toNat / 4)) with hword | htail
  · rw [Mem.repMovs_of_not _ (by omega), Mem.repMovs_apply _ hword hsafe]
  · -- one of the last `n % 4` bytes
    obtain ⟨i, rfl⟩ := Nat.exists_eq_add_of_le htail
    have hdst : dst.toNat + (4 * (n.toNat / 4) + i) = dst.toNat + 4 * (n.toNat / 4) + i := by omega
    have hsrc : src.toNat + (4 * (n.toNat / 4) + i) = src.toNat + 4 * (n.toNat / 4) + i := by omega
    simp only [hdst]
    rw [Mem.repMovs_apply _ (by omega) (by omega), ← hsrc, Mem.repMovs_of_not _ (by omega)]

end Loader
end ZineOS
