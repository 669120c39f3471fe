import ZineOS.Loader.Memory

/-!
# The functions of `string.h` on blocks

`memcpy` and `memset` are macros: what is called depends on which of the arguments are constants for the
compiler.  The kernel's `string.h` has the same functions, with an `unsigned long` of 64 bits, but no
`memmove`, and its `__memcpy` is another matter.  What they are to do is said by `Mem.moveUnit` and
`Mem.fill`.

* **`copies_move`** — `memmove` moves whatever the overlap; both ways of `memcpy` do the same where the
  destination is not inside the source.
* **`memset_fills`** — every way of `memset` fills, but for one constant length in the kernel.
-/

namespace ZineOS
namespace Loader

open Lib

variable {w : Nat}

/-! ## Copies -/

/-- The memory, `edi` and `esi`. -/
structure MoveState where
  mem : Mem
  edi : Nat
  esi : Nat

/-- `movsb`, `movsw` and `movsl`. -/
def movs (k : Nat) (s : MoveState) : MoveState :=
  ⟨s.mem.moveUnit s.edi s.esi k, s.edi + k, s.esi + k⟩

/-- The last `switch` of `__constant_memcpy`. -/
def copyTail (n : Nat) (s : MoveState) : Mem :=
  match n % 4 with
  | 0 => s.mem
  | 1 => (movs 1 s).mem
  | 2 => (movs 2 s).mem
  | _ => (movs 1 (movs 2 s)).mem

/-- `__constant_memcpy`. -/
def constantMemcpy (m : Mem) (dst src n : BitVec w) : Mem :=
  let n := n.toNat
  let dest := dst.toNat
  let start := src.toNat
  match n with
  | 0 => m
  | 1 => m.moveUnit dest start 1
  | 2 => m.moveUnit dest start 2
  | 4 => m.moveUnit dest start 4
  | 3 => (m.moveUnit dest start 2).moveUnit (dest + 2) (start + 2) 1
  | 5 => (m.moveUnit dest start 4).moveUnit (dest + 4) (start + 4) 1
  | 6 => (m.moveUnit dest start 4).moveUnit (dest + 4) (start + 4) 2
  | 8 => (m.moveUnit dest start 4).moveUnit (dest + 4) (start + 4) 4
  | n =>
      let s : MoveState := ⟨m, dest, start⟩
      -- large block: use rep prefix
      if 5 * 4 ≤ n then
        copyTail n ⟨Mem.repMovs 4 (n / 4) m dest start, dest + 4 * (n / 4), start + 4 * (n / 4)⟩
      else
        let s := if 4 * 4 ≤ n then movs 4 s else s
        let s := if 3 * 4 ≤ n then movs 4 s else s
        let s := if 2 * 4 ≤ n then movs 4 s else s
        let s := if 1 * 4 ≤ n then movs 4 s else s
        copyTail n s

/-- `for (…; length; --length) *--d = *--s;`. -/
def moveDown (m : Mem) (d s : BitVec w) : Nat → Mem
  | 0 => m
  | length + 1 => moveDown (m.moveUnit (d - 1).toNat (s - 1).toNat 1) (d - 1) (s - 1) length

/-- `for (; length; --length) *d++ = *s++;`. -/
def moveUp (m : Mem) (d s : BitVec w) : Nat → Mem
  | 0 => m
  | length + 1 => moveUp (m.moveUnit d.toNat s.toNat 1) (d + 1) (s + 1) length

/-- `memmove`. -/
def memmove (m : Mem) (dest source length : BitVec w) : Mem :=
  if source < dest then moveDown m (dest + length) (source + length) length.toNat
  else if source ≠ dest then moveUp m dest source length.toNat
  else m

section

variable {m : Mem} {dst src n d s : BitVec w} {k l : Nat} {t : MoveState}

theorem moveUnit_self (m : Mem) (a k : Nat) : m.moveUnit a a k = m := by
  funext x
  unfold Mem.moveUnit
  by_cases hin : a ≤ x ∧ x < a + k
  · have hback : a + (x - a) = x := by omega
    rw [if_pos hin, hback]
  · rw [if_neg hin]

/-- After the first `k` bytes. -/
def MovedBy (m : Mem) (dest start k : Nat) (t : MoveState) : Prop :=
  t = ⟨m.moveUnit dest start k, dest + k, start + k⟩

theorem MovedBy.movs {dest start : Nat} (h : MovedBy m dest start k t)
    (hsafe : dest ≤ start ∨ start + (k + l) ≤ dest) : MovedBy m dest start (k + l) (movs l t) := by
  subst h
  unfold MovedBy Loader.movs
  dsimp only
  rw [Mem.moveUnit_add hsafe, Nat.add_assoc, Nat.add_assoc]

theorem copyTail_eq {dest start : Nat} (hk : k = 4 * (l / 4)) (h : MovedBy m dest start k t)
    (hsafe : dest ≤ start ∨ start + l ≤ dest) : copyTail l t = m.moveUnit dest start l := by
  have hmod : l % 4 = 0 ∨ l % 4 = 1 ∨ l % 4 = 2 ∨ l % 4 = 3 := by omega
  have hmem : ∀ {j t}, MovedBy m dest start j t → j = l → t.mem = m.moveUnit dest start l := by
    rintro j t rfl rfl
    rfl
  unfold copyTail
  rcases hmod with hl | hl | hl | hl <;> rw [hl]
  · exact hmem h (by omega)
  · exact hmem (h.movs (l := 1) (by omega)) (by omega)
  · exact hmem (h.movs (l := 2) (by omega)) (by omega)
  · exact hmem ((h.movs (l := 2) (by omega)).movs (l := 1) (by omega)) (by omega)

theorem MovedBy.movsIf {dest start : Nat} (h : MovedBy m dest start k t) (c : Prop) [Decidable c]
    (hsafe : c → dest ≤ start ∨ start + (k + 4) ≤ dest) :
    MovedBy m dest start (k + if c then 4 else 0) (if c then Loader.movs 4 t else t) := by
  by_cases hc : c
  · rw [if_pos hc, if_pos hc]
    exact h.movs (hsafe hc)
  · rw [if_neg hc, if_neg hc]
    exact h

/-- The `movsl` of a small block. -/
theorem MovedBy.words {dest start : Nat} (hl : l < 20) (hsafe : dest ≤ start ∨ start + l ≤ dest) :
    let s : MoveState := ⟨m, dest, start⟩
    let s := if 4 * 4 ≤ l then Loader.movs 4 s else s
    let s := if 3 * 4 ≤ l then Loader.movs 4 s else s
    let s := if 2 * 4 ≤ l then Loader.movs 4 s else s
    let s := if 1 * 4 ≤ l then Loader.movs 4 s else s
    MovedBy m dest start (4 * (l / 4)) s := by
  have hstart : MovedBy m dest start 0 ⟨m, dest, start⟩ := by
    rw [MovedBy, Mem.moveUnit_zero, Nat.add_zero, Nat.add_zero]
  have hmoved := (((hstart.movsIf (4 * 4 ≤ l) (by omega)).movsIf (3 * 4 ≤ l) ?_).movsIf
    (2 * 4 ≤ l) ?_).movsIf (1 * 4 ≤ l) ?_
  · have hwords : 0 + (if 4 * 4 ≤ l then 4 else 0) + (if 3 * 4 ≤ l then 4 else 0) +
        (if 2 * 4 ≤ l then 4 else 0) + (if 1 * 4 ≤ l then 4 else 0) = 4 * (l / 4) := by
      split_ifs <;> omega
    rw [hwords] at hmoved
    exact hmoved
  all_goals
    intro hc
    split_ifs <;> omega

/-- With the destination below the source, or apart from it. -/
theorem constantMemcpy_eq (hsafe : dst.toNat ≤ src.toNat ∨ src.toNat + n.toNat ≤ dst.toNat) :
    constantMemcpy m dst src n = m.moveUnit dst.toNat src.toNat n.toNat := by
  unfold constantMemcpy
  generalize n.toNat = n at hsafe ⊢
  dsimp only
  split
  · exact (Mem.moveUnit_zero _ _ _).symm
  · rfl
  · rfl
  · rfl
  · exact Mem.moveUnit_add hsafe
  · exact Mem.moveUnit_add hsafe
  · exact Mem.moveUnit_add hsafe
  · exact Mem.moveUnit_add hsafe
  · by_cases hlarge : 5 * 4 ≤ n
    · rw [if_pos hlarge]
      refine copyTail_eq rfl ?_ hsafe
      rw [MovedBy, Mem.repMovs_eq_moveUnit _ (by omega)]
    · rw [if_neg hlarge]
      exact copyTail_eq rfl (.words (by omega) hsafe) hsafe

theorem memcpy_eq {dst src n : Word32}
    (hsafe : dst.toNat ≤ src.toNat ∨ src.toNat + n.toNat ≤ dst.toNat) :
    memcpy m dst src n = m.moveUnit dst.toNat src.toNat n.toNat := by
  have hn : 4 * (n.toNat / 4) + 1 * (n.toNat % 4) = n.toNat := by omega
  unfold memcpy
  dsimp only
  rw [Mem.repMovs_eq_moveUnit _ (by omega), Mem.repMovs_eq_moveUnit _ (by omega),
    Mem.moveUnit_add (by omega), hn]

/-! ### `memmove` -/

theorem toNat_add_one (h : d.toNat + 1 < 2 ^ w) : (d + 1).toNat = d.toNat + 1 := by
  have hone : (1 : BitVec w).toNat = 1 := Nat.mod_eq_of_lt (show 1 < 2 ^ w by omega)
  rw [BitVec.toNat_add, hone, Nat.mod_eq_of_lt h]

/-- The pointer behind the last byte may be 0. -/
theorem moveUp_eq (h : d.toNat ≤ s.toNat) (hs : s.toNat + l ≤ 2 ^ w) :
    moveUp m d s l = m.moveUnit d.toNat s.toNat l := by
  induction l generalizing m d s with
  | zero => exact (Mem.moveUnit_zero _ _ _).symm
  | succ l ih =>
      rw [moveUp, Nat.add_comm l 1, ← Mem.moveUnit_add (Or.inl h)]
      cases l with
      | zero => rw [moveUp, Mem.moveUnit_zero]
      | succ l =>
          have hd := toNat_add_one (d := d) (by omega)
          have hs' := toNat_add_one (d := s) (by omega)
          rw [ih (by omega) (by omega), hd, hs']

/-- The pointer `k` bytes behind `d`, which is 0 behind the last address. -/
theorem toNat_sub_one {p : BitVec w} {a : Nat} (hp : p = d + BitVec.ofNat w (a + 1))
    (hfits : d.toNat + (a + 1) ≤ 2 ^ w) :
    (p - 1).toNat = d.toNat + a ∧ p - 1 = d + BitVec.ofNat w a := by
  have hback : p - 1 = d + BitVec.ofNat w a := by
    rw [hp, BitVec.ofNat_add, ← BitVec.add_assoc]
    exact BitVec.add_sub_cancel _ _
  refine ⟨?_, hback⟩
  rw [hback, BitVec.toNat_add, BitVec.toNat_ofNat, Nat.mod_eq_of_lt (a := a) (by omega),
    Nat.mod_eq_of_lt (by omega)]

theorem moveDown_eq (h : src.toNat ≤ dst.toNat) (hd : d = dst + BitVec.ofNat w l)
    (hs : s = src + BitVec.ofNat w l) (hfits : dst.toNat + l ≤ 2 ^ w) :
    moveDown m d s l = m.moveUnit dst.toNat src.toNat l := by
  induction l generalizing m d s with
  | zero => exact (Mem.moveUnit_zero _ _ _).symm
  | succ l ih =>
      obtain ⟨hdn, hd'⟩ := toNat_sub_one hd hfits
      obtain ⟨hsn, hs'⟩ := toNat_sub_one hs (by omega)
      rw [moveDown, ih hd' hs' (by omega), hdn, hsn]
      exact Mem.moveUnit_add_down (Or.inl h)

/-- `memmove` moves, however the two blocks overlap. -/
theorem memmove_eq (hdst : dst.toNat + n.toNat ≤ 2 ^ w) (hsrc : src.toNat + n.toNat ≤ 2 ^ w) :
    memmove m dst src n = m.moveUnit dst.toNat src.toNat n.toNat := by
  have hlength : n = BitVec.ofNat w n.toNat := by rw [BitVec.ofNat_toNat, BitVec.setWidth_eq]
  unfold memmove
  by_cases hbelow : src < dst
  · rw [if_pos hbelow]
    exact moveDown_eq (Nat.le_of_lt hbelow) (congrArg _ hlength) (congrArg _ hlength) hdst
  · rw [if_neg hbelow]
    have hle : dst.toNat ≤ src.toNat := Nat.le_of_not_lt hbelow
    by_cases hne : src ≠ dst
    · rw [if_pos hne, moveUp_eq hle hsrc]
    · rw [if_neg hne, not_not.mp hne, moveUnit_self]

end

/-- **Copies.**  Blocks do not reach over the top of the address space.  `memmove` leaves behind what was
in the source, whatever the overlap.  With the destination below the source or apart from it `memcpy`
does the same for lengths that are constants and for others, and so does the kernel's for constants,
at any addresses of 64 bits. -/
theorem copies_move (m : Mem) (dst src n : Word32) (hdst : dst.toNat + n.toNat ≤ 2 ^ 32)
    (hsrc : src.toNat + n.toNat ≤ 2 ^ 32) :
    (∀ j < n.toNat, memmove m dst src n (dst.toNat + j) = m (src.toNat + j)) ∧
    (∀ x, ¬ (dst.toNat ≤ x ∧ x < dst.toNat + n.toNat) → memmove m dst src n x = m x) ∧
    (dst ≤ src ∨ src.toNat + n.toNat ≤ dst.toNat →
      memcpy m dst src n = memmove m dst src n ∧ constantMemcpy m dst src n = memmove m dst src n ∧
      constantMemcpy m (dst.setWidth 64) (src.setWidth 64) (n.setWidth 64) =
        memmove m dst src n) ∧
    ∀ dst src n : Word64, dst.toNat + n.toNat ≤ 2 ^ 64 → src.toNat + n.toNat ≤ 2 ^ 64 →
      (dst ≤ src ∨ src.toNat + n.toNat ≤ dst.toNat) →
      (∀ j < n.toNat, constantMemcpy m dst src n (dst.toNat + j) = m (src.toNat + j)) ∧
      ∀ x, ¬ (dst.toNat ≤ x ∧ x < dst.toNat + n.toNat) → constantMemcpy m dst src n x = m x := by
  have hmove := memmove_eq (m := m) hdst hsrc
  refine ⟨fun j hj => ?_, fun x hx => ?_, fun hsafe => ?_, fun dst src n _ _ hsafe => ?_⟩
  · rw [hmove, Mem.moveUnit_apply hj]
  · rw [hmove, Mem.moveUnit_of_not hx]
  · have hwide : ∀ p : Word32, (p.setWidth 64).toNat = p.toNat := fun p =>
      BitVec.toNat_setWidth_of_le (by decide)
    have hkernel := @constantMemcpy_eq 64 m (dst.setWidth 64) (src.setWidth 64) (n.setWidth 64)
    rw [hwide, hwide, hwide] at hkernel
    rw [hmove]
    exact ⟨memcpy_eq hsafe, constantMemcpy_eq hsafe, hkernel hsafe⟩
  · rw [constantMemcpy_eq hsafe]
    exact ⟨fun j hj => Mem.moveUnit_apply hj, fun x hx => Mem.moveUnit_of_not hx⟩

/-- Seven bytes that overlap, moved up by two: the last one. -/
theorem sevenBytes_moved :
    memmove (fun x => BitVec.ofNat 8 x) (0x1002 : Word32) 0x1000 7 0x1008 = 0x06 :=
  (copies_move (fun x => BitVec.ofNat 8 x) 0x1002 0x1000 7 (by decide) (by decide)).1 6 (by decide)

/-! ## Filling -/

/-- `__memset_generic`. -/
def memsetGeneric (m : Mem) (s : BitVec w) (c : Byte) (count : BitVec w) : Mem :=
  Mem.repStos 1 c.toNat count.toNat m s.toNat

/-- `__constant_c_memset`. -/
def constantCMemset (m : Mem) (s c count : BitVec w) : Mem :=
  let edi := s.toNat
  let m := Mem.repStos 4 c.toNat (count / 4).toNat m edi
  let edi := edi + 4 * (count / 4).toNat
  let (m, edi) := if count &&& 2 ≠ 0 then (m.store edi 2 c.toNat, edi + 2) else (m, edi)
  if count &&& 1 ≠ 0 then m.store edi 1 c.toNat else m

/-- `__constant_c_and_count_memset`; an `unsigned long` has `w` bits. -/
def constantCAndCountMemset (m : Mem) (s pattern count : BitVec w) : Mem :=
  let dest := s.toNat
  let pattern := pattern.toNat
  match count.toNat with
  | 0 => m
  | 1 => m.store dest 1 pattern
  | 2 => m.store dest 2 pattern
  | 3 => (m.store dest 2 pattern).store (dest + 2) 1 pattern
  | 4 => m.store dest (w / 8) pattern
  | count =>
      let m := Mem.repStos 4 pattern (count / 4) m dest
      let edi := dest + 4 * (count / 4)
      match count % 4 with
      | 0 => m
      | 1 => m.store edi 1 pattern
      | 2 => m.store edi 2 pattern
      | _ => (m.store edi 2 pattern).store (edi + 2) 1 pattern

/-- `memset`, with what `__builtin_constant_p` says of `c` and of `count`. -/
def memset (constantC constantCount : Bool) (m : Mem) (s : BitVec w) (c : Byte)
    (count : BitVec w) : Mem :=
  if constantC then
    if constantCount then constantCAndCountMemset m s (0x01010101 * c.setWidth w) count
    else constantCMemset m s (0x01010101 * c.setWidth w) count
  else memsetGeneric m s c count

section

variable {m : Mem} {s p count : BitVec w} {c : Byte} {v k a : Nat}

/-- The low four bytes of `v` are `c`. -/
def Repeats (v : Nat) (c : Byte) : Prop := ∀ i < 4, BitVec.ofNat 8 (v / 256 ^ i) = c

theorem Repeats.store (h : Repeats v c) (hk : k ≤ 4) : m.store a k v = m.fill a k c :=
  Mem.store_eq_fill fun i hi => h i (by omega)

theorem repeats_pattern (hw : 32 ≤ w) (c : Byte) :
    (0x01010101 * c.setWidth w : BitVec w).toNat = 0x01010101 * c.toNat ∧
      Repeats (0x01010101 * c.toNat) c := by
  have hc := c.isLt
  have hpow : 2 ^ 32 ≤ 2 ^ w := Nat.pow_le_pow_right (by decide) hw
  have hfactor : (0x01010101 : BitVec w).toNat = 0x01010101 :=
    Nat.mod_eq_of_lt (show 0x01010101 < 2 ^ w by omega)
  constructor
  · rw [BitVec.toNat_mul, hfactor, BitVec.toNat_setWidth, Nat.mod_eq_of_lt (a := c.toNat) (by omega),
      Nat.mod_eq_of_lt (by omega)]
  · intro i hi
    have hbytes : 0x01010101 * c.toNat / 256 ^ i % 256 = c.toNat := by
      have hone : 0x01010101 * c.toNat / 256 = 0x010101 * c.toNat := by omega
      have htwo : 0x010101 * c.toNat / 256 = 0x0101 * c.toNat := by omega
      have hthree : 0x0101 * c.toNat / 256 = c.toNat := by omega
      interval_cases i
      · omega
      · rw [pow_one, hone]
        omega
      · rw [pow_two, ← Nat.div_div_eq_div_mul, hone, htwo]
        omega
      · rw [pow_succ, pow_two, ← Nat.div_div_eq_div_mul, ← Nat.div_div_eq_div_mul, hone, htwo, hthree]
        omega
    apply BitVec.eq_of_toNat_eq
    rw [BitVec.toNat_ofNat, hbytes]

theorem memsetGeneric_eq : memsetGeneric m s c count = m.fill s.toNat count.toNat c := by
  have hbyte : ∀ i < 1, BitVec.ofNat 8 (c.toNat / 256 ^ i) = c := by
    intro i hi
    rw [Nat.lt_one_iff.mp hi, pow_zero, Nat.div_one, BitVec.ofNat_toNat, BitVec.setWidth_eq]
  rw [memsetGeneric, Mem.repStos_eq_fill hbyte, Nat.one_mul]

theorem toNat_and_literal (count : BitVec w) (hw : 3 ≤ w) :
    (count / 4).toNat = count.toNat / 4 ∧ (count &&& 2 ≠ 0 ↔ 2 ≤ count.toNat % 4) ∧
      (count &&& 1 ≠ 0 ↔ count.toNat % 2 = 1) := by
  have hpow : 2 ^ 3 ≤ 2 ^ w := Nat.pow_le_pow_right (by decide) hw
  have hfour : (4 : BitVec w).toNat = 4 := Nat.mod_eq_of_lt (show 4 < 2 ^ w by omega)
  have htwo : (2 : BitVec w).toNat = 2 := Nat.mod_eq_of_lt (show 2 < 2 ^ w by omega)
  have hone : (1 : BitVec w).toNat = 1 := Nat.mod_eq_of_lt (show 1 < 2 ^ w by omega)
  have hzero : (0 : BitVec w).toNat = 0 := Nat.zero_mod _
  have hbit : count.toNat &&& 2 = (count.toNat / 2 % 2) * 2 := by
    have hand := Nat.and_two_pow count.toNat 1
    rw [pow_one, Nat.testBit_eq_decide_div_mod_eq, pow_one] at hand
    rw [hand]
    rcases Nat.mod_two_eq_zero_or_one (count.toNat / 2) with h | h <;> rw [h] <;> rfl
  refine ⟨by rw [BitVec.toNat_udiv, hfour], ?_, ?_⟩
  · rw [ne_eq, ← BitVec.toNat_inj, BitVec.toNat_and, htwo, hzero, hbit]
    omega
  · rw [ne_eq, ← BitVec.toNat_inj, BitVec.toNat_and, hone, hzero, Nat.and_one_is_mod]
    omega

theorem constantCMemset_eq (hw : 3 ≤ w) (h : Repeats p.toNat c) :
    constantCMemset m s p count = m.fill s.toNat count.toNat c := by
  obtain ⟨hfour, htwo, hone⟩ := toNat_and_literal count hw
  unfold constantCMemset
  dsimp only
  rw [Mem.repStos_eq_fill h, hfour]
  by_cases hhalf : 2 ≤ count.toNat % 4
  · rw [if_pos (htwo.mpr hhalf)]
    dsimp only
    rw [h.store (k := 2) (by decide), Mem.fill_add]
    by_cases hbyte : count.toNat % 2 = 1
    · rw [if_pos (hone.mpr hbyte), h.store (by decide), Nat.add_assoc, Mem.fill_add]
      congr 1
      omega
    · rw [if_neg (hone.not.mpr hbyte)]
      congr 1
      omega
  · rw [if_neg (htwo.not.mpr hhalf)]
    dsimp only
    by_cases hbyte : count.toNat % 2 = 1
    · rw [if_pos (hone.mpr hbyte), h.store (by decide), Mem.fill_add]
      congr 1
      omega
    · rw [if_neg (hone.not.mpr hbyte)]
      congr 1
      omega

/-- All constant lengths but four, for which an `unsigned long` is stored. -/
theorem constantCAndCountMemset_eq (h : Repeats p.toNat c) (hfour : count.toNat ≠ 4) :
    constantCAndCountMemset m s p count = m.fill s.toNat count.toNat c := by
  unfold constantCAndCountMemset
  generalize count.toNat = n at hfour ⊢
  dsimp only
  split
  · exact Mem.fill_zero.symm
  · exact h.store (by decide)
  · exact h.store (by decide)
  · rw [h.store (by decide), h.store (by decide), Mem.fill_add]
  · exact absurd rfl hfour
  · rw [Mem.repStos_eq_fill h]
    have hmod : n % 4 = 0 ∨ n % 4 = 1 ∨ n % 4 = 2 ∨ n % 4 = 3 := by omega
    have hwords : ∀ k, n % 4 = k → 4 * (n / 4) + k = n := by omega
    rcases hmod with hn | hn | hn | hn <;> rw [hn]
    · change m.fill _ (4 * (n / 4)) c = _
      exact congrArg (m.fill s.toNat · c) (hwords 0 hn)
    · change (m.fill _ (4 * (n / 4)) c).store _ 1 _ = _
      rw [h.store (by decide), Mem.fill_add, hwords 1 hn]
    · change (m.fill _ (4 * (n / 4)) c).store _ 2 _ = _
      rw [h.store (by decide), Mem.fill_add, hwords 2 hn]
    · change ((m.fill _ (4 * (n / 4)) c).store _ 2 _).store _ 1 _ = _
      rw [h.store (by decide), h.store (by decide), Mem.fill_add, Mem.fill_add]
      exact congrArg (m.fill s.toNat · c) (hwords 3 hn)

/-- The eight bytes of an `unsigned long` of the kernel. -/
theorem store_pattern (m : Mem) (a : Nat) (c : Byte) :
    m.store a 8 (0x01010101 * c.toNat) = (m.fill a 4 c).fill (a + 4) 4 0 := by
  have hc := c.isLt
  funext x
  have hlow := (repeats_pattern (w := 32) le_rfl c).2
  unfold Mem.store Mem.fill
  by_cases hsecond : a + 4 ≤ x ∧ x < a + 4 + 4
  · have hzero : 0x01010101 * c.toNat / 256 ^ (x - a) = 0 := by
      refine Nat.div_eq_of_lt (lt_of_lt_of_le (by omega) (Nat.pow_le_pow_right (by decide)
        (show 4 ≤ x - a by omega)))
    rw [if_pos (by omega), if_pos hsecond, hzero]
    rfl
  · rw [if_neg hsecond]
    by_cases hfirst : a ≤ x ∧ x < a + 4
    · rw [if_pos (by omega), if_pos hfirst, hlow (x - a) (by omega)]
    · rw [if_neg (by omega), if_neg hfirst]

/-- A `memset` in the kernel whose `c` and `count` are constants, with the length of an `int`. -/
def Overruns (constantC constantCount : Bool) (count : Word64) : Prop :=
  constantC = true ∧ constantCount = true ∧ count = 4

theorem memset_eq (hw : 32 ≤ w) {constantC constantCount : Bool}
    (hfour : constantC = true → constantCount = true → count.toNat ≠ 4) :
    memset constantC constantCount m s c count = m.fill s.toNat count.toNat c := by
  obtain ⟨hpattern, hrepeats⟩ := repeats_pattern hw c
  rw [← hpattern] at hrepeats
  unfold memset
  cases constantC with
  | false => exact memsetGeneric_eq
  | true =>
      cases constantCount with
      | false => exact constantCMemset_eq (by omega) hrepeats
      | true => exact constantCAndCountMemset_eq hrepeats (hfour rfl rfl)

end

/-- **Filling.**  Whichever of the arguments are constants, `memset` fills the block with `c`.  In the
kernel there is one exception: four bytes, with both constants, are filled by an `unsigned long` whose
upper half is zero, which clears the four bytes behind the block. -/
theorem memset_fills (constantC constantCount : Bool) (m : Mem) (c : Byte) :
    (∀ s count : Word32, memset constantC constantCount m s c count =
      m.fill s.toNat count.toNat c) ∧
    ∀ s count : Word64,
      (¬ Overruns constantC constantCount count →
        memset constantC constantCount m s c count = m.fill s.toNat count.toNat c) ∧
      (Overruns constantC constantCount count → memset constantC constantCount m s c count =
        (m.fill s.toNat 4 c).fill (s.toNat + 4) 4 0) := by
  refine ⟨fun s count => ?_, fun s count => ⟨fun hfits => ?_, ?_⟩⟩
  · by_cases hfour : constantC = true ∧ constantCount = true ∧ count.toNat = 4
    · -- the `unsigned long` has the length of the block
      obtain ⟨rfl, rfl, hcount⟩ := hfour
      obtain ⟨hpattern, hrepeats⟩ := repeats_pattern (w := 32) le_rfl c
      change constantCAndCountMemset m s (0x01010101 * c.setWidth 32) count = _
      unfold constantCAndCountMemset
      rw [hcount, hpattern]
      exact hrepeats.store le_rfl
    · exact memset_eq le_rfl fun hc hcount hn => hfour ⟨hc, hcount, hn⟩
  · refine memset_eq (by decide) fun hc hcount hn => hfits ⟨hc, hcount, ?_⟩
    exact BitVec.eq_of_toNat_eq hn
  · rintro ⟨rfl, rfl, rfl⟩
    have hpattern := (repeats_pattern (w := 64) (by decide) c).1
    change constantCAndCountMemset m s (0x01010101 * c.setWidth 64) 4 = _
    unfold constantCAndCountMemset
    rw [hpattern]
    exact store_pattern m s.toNat c

end Loader
end ZineOS
