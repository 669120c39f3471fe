import ZineOS.Loader.RsdtWalk

/-!
# The search for the RSDP

`FindRsdp` looks at every 16th byte of the BIOS area and then of the first kilobyte of the EBDA.  The
first loop counts in the pointer itself; the second one counts in `addr` and moves the pointer along.

* `biosLoop` and `ebdaLoop` are the two loops, and `findRsdp_eq_loops` says that `findRsdp` searches
  as they do.
* **`findRsdp_least`** — it returns the least valid address of the first area, or else of the second
  one, or else the null pointer.
-/

namespace ZineOS
namespace Loader
namespace Acpi

open Lib

variable {m : Mem}

/-- The loop over the BIOS area, from `offset` on. -/
def biosLoop (m : Mem) (offset : Word32) : Option Word32 :=
  if _h : offset < 0xfffff then
    if isRsdp m offset then some offset else biosLoop m (offset + 16)
  else none
termination_by 0xfffff - offset.toNat
decreasing_by
  have hlt : offset.toNat < 0xfffff := BitVec.lt_def.mp _h
  have hstep : (16 : Word32).toNat = 16 := rfl
  rw [BitVec.toNat_add, Nat.mod_eq_of_lt (by omega)]
  omega

/-- The loop over the EBDA. -/
def ebdaLoop (m : Mem) (addr offset : Word32) : Option Word32 :=
  if _h : addr < 0x400 then
    if isRsdp m offset then some offset else ebdaLoop m (addr + 16) (offset + 16)
  else none
termination_by 0x400 - addr.toNat
decreasing_by
  have hlt : addr.toNat < 0x400 := BitVec.lt_def.mp _h
  have hstep : (16 : Word32).toNat = 16 := rfl
  rw [BitVec.toNat_add, Nat.mod_eq_of_lt (by omega)]
  omega

/-- The EBDA: the 16-bit word at `0x40E`, as a segment. -/
def ebda (m : Mem) : Word32 := (load16 m 0x040E).setWidth 32 <<< 4

/-- `FindRsdp` with its two loops. -/
def findRsdpLoops (m : Mem) : Word32 :=
  match biosLoop m 0xe0000 with
  | some offset => offset
  | none => (ebdaLoop m 0 (ebda m)).getD 0

/-- Every 16th byte from number `i` on, in front of number `n`. -/
def slots (base : Word32) (i n : Nat) : List Word32 :=
  (List.range' i (n - i)).map fun i => base + BitVec.ofNat 32 (16 * i)

theorem slots_cons {base : Word32} {i n : Nat} (h : i < n) :
    slots base i n = (base + BitVec.ofNat 32 (16 * i)) :: slots base (i + 1) n := by
  unfold slots
  have hcount : n - i = n - (i + 1) + 1 := by omega
  rw [hcount, List.range'_succ, List.map_cons]

theorem next_slot (base : Word32) (i : Nat) :
    base + BitVec.ofNat 32 (16 * i) + 16 = base + BitVec.ofNat 32 (16 * (i + 1)) := by
  rw [Nat.mul_succ, BitVec.ofNat_add, ← BitVec.add_assoc]
  rfl

theorem biosLoop_eq (k : Nat) : ∀ i, i + k = 8192 →
    biosLoop m (0xe0000 + BitVec.ofNat 32 (16 * i)) =
      (slots 0xe0000 i 8192).find? (isRsdp m) := by
  induction k with
  | zero =>
      rintro i rfl
      rw [biosLoop, dif_neg (by decide)]
      rfl
  | succ k ih =>
      intro i hi
      have hlt : (0xe0000 + BitVec.ofNat 32 (16 * i) : Word32) < 0xfffff := by
        rw [BitVec.lt_def, BitVec.toNat_add, BitVec.toNat_ofNat]
        show (0xe0000 + 16 * i % 2 ^ 32) % 2 ^ 32 < 0xfffff
        omega
      rw [biosLoop, dif_pos hlt, slots_cons (by omega), List.find?_cons, next_slot,
        ih (i + 1) (by omega)]
      cases isRsdp m (0xe0000 + BitVec.ofNat 32 (16 * i)) <;> rfl

theorem ebdaLoop_eq (base : Word32) (k : Nat) : ∀ i, i + k = 64 →
    ebdaLoop m (BitVec.ofNat 32 (16 * i)) (base + BitVec.ofNat 32 (16 * i)) =
      (slots base i 64).find? (isRsdp m) := by
  induction k with
  | zero =>
      rintro i rfl
      rw [ebdaLoop, dif_neg (by decide)]
      rfl
  | succ k ih =>
      intro i hi
      have hlt : BitVec.ofNat 32 (16 * i) < (0x400 : Word32) := by
        rw [BitVec.lt_def, BitVec.toNat_ofNat]
        show 16 * i % 2 ^ 32 < 0x400
        omega
      have hcount : BitVec.ofNat 32 (16 * i) + (16 : Word32) = BitVec.ofNat 32 (16 * (i + 1)) := by
        rw [Nat.mul_succ, BitVec.ofNat_add]
        rfl
      rw [ebdaLoop, dif_pos hlt, slots_cons (by omega), List.find?_cons, next_slot, hcount,
        ih (i + 1) (by omega)]
      cases isRsdp m (base + BitVec.ofNat 32 (16 * i)) <;> rfl

theorem slots_zero (base : Word32) (n : Nat) :
    slots base 0 n = (List.range n).map fun i => base + BitVec.ofNat 32 (16 * i) := by
  rw [slots, Nat.sub_zero, List.range_eq_range']

/-- **The search is that of the two loops.** -/
theorem findRsdp_eq_loops (m : Mem) : findRsdp m = findRsdpLoops m := by
  have hbios := biosLoop_eq (m := m) 8192 0 rfl
  have hebda := ebdaLoop_eq (m := m) (ebda m) 64 0 rfl
  rw [Nat.mul_zero, BitVec.add_zero, slots_zero] at hbios hebda
  have hzero : BitVec.ofNat 32 0 = (0 : Word32) := rfl
  rw [hzero] at hebda
  have hloops : findRsdpLoops m =
      (biosLoop m 0xe0000).getD ((ebdaLoop m 0 (ebda m)).getD 0) := by
    unfold findRsdpLoops
    cases biosLoop m 0xe0000 <;> rfl
  rw [hloops, hbios, hebda]
  unfold findRsdp
  dsimp only [ebda]
  cases ((List.range 8192).map fun i => (0xe0000 : Word32) + BitVec.ofNat 32 (16 * i)).find?
    (isRsdp m) with
  | none => rfl
  | some offset => rfl

/-! ## Valid addresses -/

/-- `a` begins with the signature, and its first 20 bytes add up to 0. -/
structure Valid (m : Mem) (a : Nat) : Prop where
  signature : m.Holds a rsdpSignature
  checkSum : (∑ i ∈ Finset.range 20, (m (a + i)).toNat) % 256 = 0

/-- The valid addresses of the BIOS area. -/
def biosValid (m : Mem) : Set Nat := {a | 0xE0000 ≤ a ∧ a ≤ 0xFFFF0 ∧ 16 ∣ a ∧ Valid m a}

/-- The valid addresses among those of the EBDA that are looked at. -/
def ebdaValid (m : Mem) : Set Nat :=
  {a | (∃ i < 64, a = 16 * (load16 m 0x40E).toNat + 16 * i) ∧ Valid m a}

theorem load8_add {p : Word32} {i : Nat} (h : p.toNat + i < 2 ^ 32) :
    load8 m (p + BitVec.ofNat 32 i) = m (p.toNat + i) := by
  unfold load8
  rw [BitVec.toNat_add, BitVec.toNat_ofNat, Nat.mod_eq_of_lt (show i < 2 ^ 32 by omega),
    Nat.mod_eq_of_lt h]

theorem startsWith_iff {p : Word32} {l : List Byte} (h : p.toNat + l.length ≤ 2 ^ 32) :
    StartsWith m p l ↔ m.Holds p.toNat l := by
  unfold StartsWith Mem.Holds
  constructor
  · exact fun hstarts i hi => (load8_add (by omega)).symm.trans (hstarts i hi)
  · exact fun hholds i hi => (load8_add (by omega)).trans (hholds i hi)

/-- The bytes of a checksum add up modulo 256. -/
theorem toNat_checkSumLoop {p : Word32} {n : Nat} (h : p.toNat + n ≤ 2 ^ 32) (val : Byte) :
    (checkSumLoop m n val p).toNat =
      (val.toNat + ∑ i ∈ Finset.range n, (m (p.toNat + i)).toNat) % 256 := by
  induction n generalizing p val with
  | zero =>
      have hlt := val.isLt
      rw [Finset.sum_range_zero, Nat.add_zero, Nat.mod_eq_of_lt hlt]
      rfl
  | succ n ih =>
      rw [checkSumLoop, Finset.sum_range_succ']
      rcases Nat.lt_or_ge (p.toNat + 1) (2 ^ 32) with hlt | hge
      · have hone : (1 : Word32).toNat = 1 := rfl
        have hnext : (p + 1).toNat = p.toNat + 1 := by
          rw [BitVec.toNat_add, hone, Nat.mod_eq_of_lt hlt]
        have hshift : ∀ i, m (p.toNat + (i + 1)) = m (p.toNat + 1 + i) := fun i => by
          rw [Nat.add_comm i 1, Nat.add_assoc]
        have hsum := Finset.sum_congr (Eq.refl (Finset.range n)) fun i _ =>
          congrArg BitVec.toNat (hshift i)
        rw [ih (by omega), hnext, hsum, BitVec.toNat_add, Nat.add_zero p.toNat, load8]
        omega
      · -- the last byte of the address space
        obtain rfl : n = 0 := by omega
        rw [Finset.sum_range_zero, checkSumLoop, BitVec.toNat_add, Nat.zero_add, Nat.add_zero]
        rfl

theorem isRsdp_iff {p : Word32} (h : p.toNat + 20 ≤ 2 ^ 32) :
    isRsdp m p = true ↔ Valid m p.toNat := by
  have hlength : rsdpSignature.length = 8 := rfl
  have hsum : checkSum m p 20 = 0 ↔
      (∑ i ∈ Finset.range 20, (m (p.toNat + i)).toNat) % 256 = 0 := by
    rw [← BitVec.toNat_inj]
    show (checkSumLoop m 20 0 p).toNat = 0 ↔ _
    rw [toNat_checkSumLoop h]
    simp
  unfold isRsdp
  rw [Bool.and_eq_true, beq_iff_eq, beq_iff_eq, memcmp_eq_zero_iff, hsum,
    startsWith_iff (by omega)]
  exact ⟨fun h => ⟨h.1, h.2⟩, fun h => ⟨h.signature, h.checkSum⟩⟩

/-! ## What the search finds -/

/-- The address of number `i`. -/
theorem toNat_slot {base : Word32} {i n : Nat} (hfits : base.toNat + 16 * n ≤ 2 ^ 32 - 16)
    (hi : i < n) : (base + BitVec.ofNat 32 (16 * i)).toNat = base.toNat + 16 * i := by
  rw [BitVec.toNat_add, BitVec.toNat_ofNat, Nat.mod_eq_of_lt (show 16 * i < 2 ^ 32 by omega),
    Nat.mod_eq_of_lt (by omega)]

theorem isRsdp_slot {base : Word32} {i n : Nat} (hfits : base.toNat + 16 * n ≤ 2 ^ 32 - 16)
    (hi : i < n) : isRsdp m (base + BitVec.ofNat 32 (16 * i)) = true ↔
      Valid m (base.toNat + 16 * i) := by
  have hslot := toNat_slot hfits hi
  rw [← hslot]
  exact isRsdp_iff (by omega)

/-- A search over `n` addresses from `base` on finds the least valid one. -/
theorem find_least {base x : Word32} {n : Nat} (hfits : base.toNat + 16 * n ≤ 2 ^ 32 - 16)
    (h : (slots base 0 n).find? (isRsdp m) = some x) :
    IsLeast {a | (∃ i < n, a = base.toNat + 16 * i) ∧ Valid m a} x.toNat := by
  rw [slots_zero, List.find?_map, Option.map_eq_some_iff] at h
  obtain ⟨i, hi, rfl⟩ := h
  obtain ⟨hvalid, hmem, hfirst⟩ := List.find?_range_eq_some.mp hi
  have hlt := List.mem_range.mp hmem
  have hslot := toNat_slot hfits hlt
  refine ⟨⟨⟨i, hlt, hslot⟩, ?_⟩, ?_⟩
  · rw [hslot]
    exact (isRsdp_slot hfits hlt).mp hvalid
  · rintro _ ⟨⟨j, hj, rfl⟩, hother⟩
    rw [hslot]
    by_contra hless
    have hno := hfirst j (by omega)
    rw [Function.comp_apply, (isRsdp_slot hfits hj).mpr hother] at hno
    exact absurd hno (by decide)

theorem find_none {base : Word32} {n : Nat} (hfits : base.toNat + 16 * n ≤ 2 ^ 32 - 16)
    (h : (slots base 0 n).find? (isRsdp m) = none) :
    {a | (∃ i < n, a = base.toNat + 16 * i) ∧ Valid m a} = ∅ := by
  rw [slots_zero, List.find?_eq_none] at h
  refine Set.eq_empty_of_forall_notMem ?_
  rintro _ ⟨⟨i, hi, rfl⟩, hvalid⟩
  have hno := h _ (List.mem_map_of_mem (List.mem_range.mpr hi))
  exact hno ((isRsdp_slot hfits hi).mpr hvalid)

theorem toNat_ebda (m : Mem) : (ebda m).toNat = 16 * (load16 m 0x40E).toNat := by
  have hlt := (load16 m 0x40E).isLt
  unfold ebda
  rw [BitVec.toNat_shiftLeft, BitVec.toNat_setWidth_of_le (by decide), Nat.shiftLeft_eq,
    Nat.mod_eq_of_lt (by omega)]
  omega

/-- The slots of the BIOS area are the multiples of 16 in it. -/
theorem biosValid_eq (m : Mem) : biosValid m =
    {a | (∃ i < 8192, a = (0xe0000 : Word32).toNat + 16 * i) ∧ Valid m a} := by
  have hbase : (0xe0000 : Word32).toNat = 0xE0000 := rfl
  ext a
  rw [hbase]
  constructor
  · rintro ⟨hlo, hhi, hdvd, hvalid⟩
    exact ⟨⟨(a - 0xE0000) / 16, by omega, by omega⟩, hvalid⟩
  · rintro ⟨⟨i, hi, rfl⟩, hvalid⟩
    exact ⟨by omega, by omega, by omega, hvalid⟩

/-- **What `FindRsdp` returns.**  The least valid address of the BIOS area; if there is none, the
least one of the EBDA; if there is none either, the null pointer. -/
theorem findRsdp_least (m : Mem) : findRsdp m = findRsdpLoops m ∧
    (IsLeast (biosValid m) (findRsdp m).toNat ∨
      biosValid m = ∅ ∧ IsLeast (ebdaValid m) (findRsdp m).toNat ∨
      biosValid m = ∅ ∧ ebdaValid m = ∅ ∧ findRsdp m = 0) := by
  refine ⟨findRsdp_eq_loops m, ?_⟩
  have hbios := biosLoop_eq (m := m) 8192 0 rfl
  have hebda := ebdaLoop_eq (m := m) (ebda m) 64 0 rfl
  have hlt := (load16 m 0x40E).isLt
  have hfits : (ebda m).toNat + 16 * 64 ≤ 2 ^ 32 - 16 := by
    rw [toNat_ebda]
    omega
  have hzero : BitVec.ofNat 32 0 = (0 : Word32) := rfl
  rw [Nat.mul_zero, BitVec.add_zero] at hbios hebda
  rw [hzero] at hebda
  rw [findRsdp_eq_loops, findRsdpLoops, hbios, hebda, biosValid_eq]
  unfold ebdaValid
  rw [← toNat_ebda]
  cases hfirst : (slots 0xe0000 0 8192).find? (isRsdp m) with
  | some offset => exact Or.inl (find_least (by decide) hfirst)
  | none =>
      refine Or.inr ?_
      have hempty := find_none (by decide) hfirst
      cases hsecond : (slots (ebda m) 0 64).find? (isRsdp m) with
      | some offset => exact Or.inl ⟨hempty, find_least hfits hsecond⟩
      | none => exact Or.inr ⟨hempty, find_none hfits hsecond, rfl⟩

end Acpi
end Loader
end ZineOS
