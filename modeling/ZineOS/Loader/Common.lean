import ZineOS.Lib.Words

/-!
# Machine types and the alignment macros of the loader

The loader is 32-bit code that computes addresses in `uint64_t`: pointers and `size_t` are 32 bits
wide, physical addresses and sizes mostly 64.  All of them are bit vectors here, so every wrap is
the machine's.  `align` and `alignFloor` are the macros `ALIGN` and `ALIGN_FLOOR` of
`kernel/common.h`; the loader only ever uses them with `0x1000`.
-/

namespace ZineOS
namespace Loader

open Lib

abbrev Byte := BitVec 8
abbrev Word16 := BitVec 16
abbrev Word32 := BitVec 32
abbrev Word64 := BitVec 64

/-- `ALIGN(size, align)`: round up.  The sum wraps at the top of the address space. -/
def align (size align : Word64) : Word64 := (size + (align - 1)) &&& ~~~(align - 1)

/-- `ALIGN_FLOOR(size, align)`: round down. -/
def alignFloor (size align : Word64) : Word64 := size &&& ~~~(align - 1)

/-- `PTR_TO_U64(p)`: through the unsigned `uintptr_t`, so with zeros on top. -/
def ptrToU64 (p : Word32) : Word64 := p.setWidth 64

/-- The exact rounding up that `align` computes when nothing wraps. -/
def pageUp (n : Nat) : Nat := (n + 0xfff) / 0x1000 * 0x1000

/-- The exact rounding down to a page boundary. -/
def pageDown (n : Nat) : Nat := n / 0x1000 * 0x1000

theorem pageUp_mod (n : Nat) : pageUp n % 0x1000 = 0 := by
  simp [pageUp]

theorem pageDown_mod (n : Nat) : pageDown n % 0x1000 = 0 := by
  simp [pageDown]

theorem le_pageUp (n : Nat) : n ≤ pageUp n := by
  unfold pageUp
  omega

theorem pageDown_le (n : Nat) : pageDown n ≤ n := by
  unfold pageDown
  omega

theorem pageDown_of_mod {n : Nat} (h : n % 0x1000 = 0) : pageDown n = n := by
  unfold pageDown
  omega

theorem pageUp_of_mod {n : Nat} (h : n % 0x1000 = 0) : pageUp n = n := by
  unfold pageUp
  omega

/-- A page starts at or behind the rounded-up address exactly when it starts behind the address. -/
theorem pageUp_le_iff {n p : Nat} : pageUp n ≤ p * 0x1000 ↔ n ≤ p * 0x1000 := by
  unfold pageUp
  omega

/-- A page starts before the rounded-down end exactly when it ends at or before the end. -/
theorem lt_pageDown_iff {n p : Nat} : p * 0x1000 < pageDown n ↔ p * 0x1000 + 0x1000 ≤ n := by
  unfold pageDown
  omega

theorem toNat_alignFloor (x : Word64) : (alignFloor x 0x1000).toNat = pageDown x.toNat :=
  Words.toNat_and_not_lowMask x 12

theorem toNat_alignFloor_mod (x : Word64) : (alignFloor x 0x1000).toNat % 0x1000 = 0 := by
  rw [toNat_alignFloor]
  exact pageDown_mod _

/-- `align` computes the exact rounding modulo `2^64`. -/
theorem toNat_align_eq_mod (x : Word64) : (align x 0x1000).toNat = pageUp x.toNat % 2 ^ 64 := by
  have hmask : (align x 0x1000).toNat = pageDown (x + (0x1000 - 1)).toNat :=
    Words.toNat_and_not_lowMask (x + (0x1000 - 1)) 12
  have hone : ((0x1000 : Word64) - 1).toNat = 0xfff := by decide
  have hlt := x.isLt
  rw [hmask, BitVec.toNat_add, hone]
  unfold pageDown pageUp
  omega

theorem toNat_align {x : Word64} (h : x.toNat + 0xfff < 2 ^ 64) :
    (align x 0x1000).toNat = pageUp x.toNat := by
  rw [toNat_align_eq_mod]
  unfold pageUp
  omega

/-- The end of a range, rounded up. -/
theorem toNat_align_add {addr length : Word64} (h : addr.toNat + length.toNat + 0xfff < 2 ^ 64) :
    (align (addr + length) 0x1000).toNat = pageUp (addr.toNat + length.toNat) := by
  have hsum : (addr + length).toNat = addr.toNat + length.toNat := by
    rw [BitVec.toNat_add, Nat.mod_eq_of_lt (by omega)]
  rw [toNat_align (by omega), hsum]

/-- Whatever wraps, the result of `align` is a multiple of the page size. -/
theorem toNat_align_mod (x : Word64) : (align x 0x1000).toNat % 0x1000 = 0 := by
  have hup := pageUp_mod x.toNat
  rw [toNat_align_eq_mod]
  omega

/-- A multiple of the page size is not rounded. -/
theorem toNat_align_of_mod {x : Word64} (h : x.toNat % 0x1000 = 0) :
    (align x 0x1000).toNat = x.toNat := by
  rw [toNat_align_eq_mod, pageUp_of_mod h, Nat.mod_eq_of_lt x.isLt]

end Loader
end ZineOS
