import ZineOS.Loader.Memory
import ZineOS.Lib.Words

/-!
# The kernel's copies of `memcpy`

`string.h` of the kernel has an inline `__memcpy` for lengths that are not known at compile time, and
`stdlib.cpp` a `memcpy` out of line.  Both are the same two string instructions, which are also those
of the loader.  They differ in the line before: the inline one says `uint32_t size = (uint32_t)size;`,
so that it copies as many bytes as the stack happens to hold.

* **`memcpy_as_asked_iff`** — it copies what it is asked to exactly when that value is `n`.
* `Scroll` of `video.cpp` calls it for 24 of the 25 rows and clears the last one, so there a value
  that is too large by no more than this row does no harm.

`rep movs` runs forward, and an area in memory does not reach over the top of the address space.
-/

namespace ZineOS
namespace Kernel

open Lib Loader

/-- What a copy does: its return value, the memory behind it and the stores it has made. -/
structure Copy where
  ret : Word64
  mem : Mem
  stores : List (Nat × Nat)

/-- The `asm` statement: `rep movsl`, then `rep movsb` for the rest. -/
def stringCopy (m : Mem) (dst src : Word64) (size : Word32) : Copy :=
  let words := (size / 4).toNat
  let rest := (size &&& 3).toNat
  let m := Mem.repMovs 4 words m dst.toNat src.toNat
  { ret := dst
    mem := Mem.repMovs 1 rest m (dst.toNat + 4 * words) (src.toNat + 4 * words)
    stores := Mem.repMovsStores 4 words dst.toNat ++
      Mem.repMovsStores 1 rest (dst.toNat + 4 * words) }

/-- `memcpy` of `stdlib.cpp`. -/
def memcpy (m : Mem) (dst src n : Word64) : Copy :=
  let size : Word32 := n.setWidth 32
  stringCopy m dst src size

/-- `__memcpy` of `string.h`.  `size` is the local variable, which is set to itself; `n` is not
used. -/
def inlineMemcpy (size : Word32) (m : Mem) (dst src _n : Word64) : Copy :=
  stringCopy m dst src size

/-! ## What the two instructions do -/

/-- A copy as the caller wants it: the `n` bytes are moved and nothing else is stored. -/
structure Exact (m : Mem) (c : Copy) (dst src : Word64) (n : Nat) : Prop where
  ret : c.ret = dst
  bytes : ∀ j < n, c.mem (dst.toNat + j) = m (src.toNat + j)
  others : ∀ x, ¬ (dst.toNat ≤ x ∧ x < dst.toNat + n) → c.mem x = m x
  stores : ∀ x, Mem.Covers c.stores x ↔ dst.toNat ≤ x ∧ x < dst.toNat + n

variable {m : Mem} {dst src n : Word64} {size : Word32}

/-- The words and the rest make up the whole. -/
theorem words_and_rest (size : Word32) :
    (size / 4).toNat = size.toNat / 4 ∧ (size &&& 3).toNat = size.toNat % 4 :=
  ⟨BitVec.toNat_udiv, Words.toNat_and_lowMask size (k := 2) (w := 32) (by decide)⟩

/-- At addresses below 4 GB the memory is that behind the loader's copy. -/
theorem stringCopy_mem (m : Mem) (dst src : Word32) (size : Word32) :
    (stringCopy m (dst.setWidth 64) (src.setWidth 64) size).mem = Loader.memcpy m dst src size := by
  obtain ⟨hwords, hrest⟩ := words_and_rest size
  have haddr : ∀ p : Word32, (p.setWidth 64).toNat = p.toNat := fun p =>
    BitVec.toNat_setWidth_of_le (by decide)
  simp only [stringCopy, Loader.memcpy, hwords, hrest, haddr]

theorem covers_stringCopy {x : Nat} : Mem.Covers (stringCopy m dst src size).stores x ↔
    dst.toNat ≤ x ∧ x < dst.toNat + size.toNat := by
  obtain ⟨hwords, hrest⟩ := words_and_rest size
  simp only [stringCopy, Mem.covers_append, Mem.covers_repMovs, hwords, hrest]
  omega

/-- The memory behind the copy, when no byte is overwritten before its turn. -/
theorem stringCopy_bytes {j : Nat} (hj : j < size.toNat)
    (hsafe : src.toNat + j < dst.toNat ∨ dst.toNat ≤ src.toNat) :
    (stringCopy m dst src size).mem (dst.toNat + j) = m (src.toNat + j) := by
  obtain ⟨hwords, hrest⟩ := words_and_rest size
  simp only [stringCopy, hwords, hrest]
  rcases Nat.lt_or_ge j (4 * (size.toNat / 4)) with hword | htail
  · rw [Mem.repMovs_of_not _ (by omega), Mem.repMovs_apply _ hword (by omega)]
  · -- one of the last `size % 4` bytes
    obtain ⟨i, rfl⟩ := Nat.exists_eq_add_of_le htail
    rw [← Nat.add_assoc, ← Nat.add_assoc, Mem.repMovs_apply _ (by omega) (by omega),
      Mem.repMovs_of_not _ (by omega)]

theorem stringCopy_of_not {x : Nat} (h : ¬ (dst.toNat ≤ x ∧ x < dst.toNat + size.toNat)) :
    (stringCopy m dst src size).mem x = m x := by
  obtain ⟨hwords, hrest⟩ := words_and_rest size
  simp only [stringCopy, hwords, hrest]
  rw [Mem.repMovs_of_not _ (by omega), Mem.repMovs_of_not _ (by omega)]

/-- **`size` bytes are copied,** so `n` are exactly when `size` is `n`. -/
theorem stringCopy_exact_iff {n : Nat}
    (hsafe : src.toNat + n ≤ dst.toNat ∨ dst.toNat ≤ src.toNat) :
    Exact m (stringCopy m dst src size) dst src n ↔ size.toNat = n := by
  constructor
  · intro hexact
    -- the first byte behind the shorter of the two areas
    have hend := hexact.stores (dst.toNat + min size.toNat n)
    rw [covers_stringCopy] at hend
    omega
  · rintro rfl
    exact ⟨rfl, fun j hj => stringCopy_bytes hj (by omega), fun x hx => stringCopy_of_not hx,
      fun x => covers_stringCopy⟩

/-! ## `__memcpy` -/

/-- The inline copy does what it is asked to, and so it is the same as the other two. -/
structure AsAsked (size : Word32) (m : Mem) (dst src n : Word64) : Prop where
  exact : Exact m (inlineMemcpy size m dst src n) dst src n.toNat
  outOfLine : inlineMemcpy size m dst src n = memcpy m dst src n
  loader : ∀ dst' src' n' : Word32,
    dst = dst'.setWidth 64 → src = src'.setWidth 64 → n = n'.setWidth 64 →
      (inlineMemcpy size m dst src n).mem = Loader.memcpy m dst' src' n'

/-- For lengths below 4 GB, areas that are apart, and a destination below the source. -/
theorem asAsked_iff (hn : n.toNat < 2 ^ 32)
    (hsafe : src.toNat + n.toNat ≤ dst.toNat ∨ dst.toNat ≤ src.toNat) :
    AsAsked size m dst src n ↔ size.toNat = n.toNat := by
  constructor
  · exact fun h => (stringCopy_exact_iff hsafe).mp h.exact
  · intro hsize
    have hwidth : n.setWidth 32 = size := by
      apply BitVec.eq_of_toNat_eq
      rw [BitVec.toNat_setWidth, hsize, Nat.mod_eq_of_lt hn]
    refine ⟨(stringCopy_exact_iff hsafe).mpr hsize, ?_, ?_⟩
    · unfold inlineMemcpy memcpy
      rw [hwidth]
    · rintro dst' src' n' rfl rfl rfl
      have hsame : n' = size := by
        rw [← hwidth, BitVec.setWidth_setWidth_of_le n' (by decide), BitVec.setWidth_eq]
      rw [hsame]
      exact stringCopy_mem m dst' src' size

/-! ## `Scroll` -/

namespace Video

/-- `VGA_MEMORY_ADDR`. -/
def vgaMemory : Word64 := 0xB8000

/-- The memory and what `Scroll` uses of the static variables. -/
structure State where
  mem : Mem
  attrib : Word16
  csrY : Int
  stores : List (Nat × Nat)

/-- `*(short *)p = v`. -/
def store16 (s : State) (p : Word64) (v : Word16) : State :=
  { s with mem := s.mem.store p.toNat 2 v.toNat, stores := (p.toNat, 2) :: s.stores }

/-- `memsetw` of `string.h`. -/
def memsetw (s : State) (dest : Word64) (val : Word16) : Nat → State
  | 0 => s
  | count + 1 => memsetw (store16 s dest val) (dest + 2) val count

/-- `(uint16_t *)VGA_MEMORY_ADDR + y * 80`. -/
def rowAddr (y : Word32) : Word64 := vgaMemory + (y * 80).setWidth 64 * 2

/-- `Scroll`.  The length is not a constant, so `memcpy` is `__memcpy`; `size` is its local
variable. -/
def scroll (size : Word32) (s : State) : State :=
  if s.csrY < 25 then s
  else
    let blank := 0x20 ||| s.attrib
    let temp := BitVec.ofInt 32 (s.csrY - 25 + 1)
    let copy := inlineMemcpy size s.mem vgaMemory (rowAddr temp)
      (((25 - temp) * 80 * 2).setWidth 64)
    let s := { s with mem := copy.mem, stores := copy.stores ++ s.stores }
    let s := memsetw s (rowAddr (25 - temp)) blank 80
    { s with csrY := 24 }

/-! ### Rows in video memory -/

variable {s t : State} {dest : Word64} {v : Word16} {count x : Nat}

/-- The bytes of the 80 × 25 cells. -/
def OnScreen (x : Nat) : Prop := 0xB8000 ≤ x ∧ x < 0xB8000 + 80 * 25 * 2

/-- `t` is `s` after `count` cells from `dest` on have been set to `v`. -/
structure Filled (s t : State) (dest : Nat) (v : Word16) (count : Nat) : Prop where
  cells : ∀ i < count, t.mem.load (dest + 2 * i) 2 = v.toNat
  others : ∀ x, ¬ (dest ≤ x ∧ x < dest + 2 * count) → t.mem x = s.mem x
  stores : ∃ new, t.stores = new ++ s.stores ∧
    ∀ x, Mem.Covers new x ↔ dest ≤ x ∧ x < dest + 2 * count
  attrib : t.attrib = s.attrib

theorem memsetw_filled (hfits : dest.toNat + 2 * count < 2 ^ 64) :
    Filled s (memsetw s dest v count) dest.toNat v count := by
  induction count generalizing s dest with
  | zero =>
      refine ⟨fun i hi => absurd hi (Nat.not_lt_zero i), fun _ _ => rfl, ⟨[], rfl, fun x => ?_⟩, rfl⟩
      exact iff_of_false Mem.not_covers_nil (by omega)
  | succ count ih =>
      have hnext : (dest + 2).toNat = dest.toNat + 2 := by
        rw [BitVec.toNat_add]
        exact Nat.mod_eq_of_lt (show dest.toNat + 2 < 2 ^ 64 by omega)
      have hrest := @ih (store16 s dest v) (dest + 2) (by omega)
      rw [hnext] at hrest
      obtain ⟨new, hnew, hcovers⟩ := hrest.stores
      refine ⟨fun i hi => ?_, fun x hx => ?_, ⟨new ++ [(dest.toNat, 2)], ?_, fun x => ?_⟩,
        hrest.attrib⟩
      · cases i with
        | zero =>
            -- the first cell is not touched again
            have hkept : Mem.AgreeOn (memsetw s dest v (count + 1)).mem (store16 s dest v).mem
                (dest.toNat + 2 * 0) 2 := fun x hlo hhi => hrest.others x (by omega)
            rw [Mem.load_congr hkept]
            exact (Mem.load_store_same s.mem dest.toNat 2 v.toNat).trans (Nat.mod_eq_of_lt v.isLt)
        | succ i =>
            have hcell := hrest.cells i (by omega)
            have haddr : dest.toNat + 2 * (i + 1) = dest.toNat + 2 + 2 * i := by omega
            rw [haddr]
            exact hcell
      · have hlater := hrest.others x (by omega)
        exact hlater.trans (Mem.store_of_not (by omega))
      · rw [List.append_assoc]
        exact hnew
      · rw [Mem.covers_append, hcovers, Mem.covers_cons, or_iff_left Mem.not_covers_nil]
        omega

/-- `s` after the copy. -/
def copied (size : Word32) (s : State) : State :=
  let copy := inlineMemcpy size s.mem vgaMemory 0xB80A0 3840
  { s with mem := copy.mem, stores := copy.stores ++ s.stores }

/-- With the cursor behind the last row, `Scroll` copies 24 rows and clears the last one. -/
theorem scroll_eq (h : s.csrY = 25) :
    scroll size s =
      { memsetw (copied size s) 0xB8F00 (0x20 ||| s.attrib) 80 with csrY := 24 } := by
  have hsource : rowAddr (BitVec.ofInt 32 (25 - 25 + 1)) = 0xB80A0 := by decide
  have hlast : rowAddr (25 - BitVec.ofInt 32 (25 - 25 + 1)) = 0xB8F00 := by decide
  have hlength : ((25 - BitVec.ofInt 32 (25 - 25 + 1)) * 80 * 2 : Word32).setWidth 64 =
      (3840 : Word64) := by decide
  unfold scroll
  rw [h, if_neg (by decide)]
  simp only [hsource, hlast, hlength, copied, h]

/-- Rows 1 to 24 have moved up by one, the last row is blank, and nothing else has been stored. -/
structure MovesUp (s t : State) : Prop where
  rows : ∀ r < 24, ∀ c < 160,
    t.mem (0xB8000 + 160 * r + c) = s.mem (0xB8000 + 160 * (r + 1) + c)
  last : ∀ c < 80, t.mem.load (0xB8000 + 160 * 24 + 2 * c) 2 = (0x20 ||| s.attrib).toNat
  others : ∀ x, ¬ OnScreen x → t.mem x = s.mem x
  stores : ∃ new, t.stores = new ++ s.stores ∧ ∀ x, Mem.Covers new x ↔ OnScreen x
  attrib : t.attrib = s.attrib
  csrY : t.csrY = 24

/-- What its copy does to the memory and which bytes it stores. -/
theorem rowCopy (m : Mem) (size : Word32) :
    (∀ j < size.toNat,
      (inlineMemcpy size m vgaMemory 0xB80A0 3840).mem (0xB8000 + j) = m (0xB80A0 + j)) ∧
    (∀ x, ¬ (0xB8000 ≤ x ∧ x < 0xB8000 + size.toNat) →
      (inlineMemcpy size m vgaMemory 0xB80A0 3840).mem x = m x) ∧
    ∀ x, Mem.Covers (inlineMemcpy size m vgaMemory 0xB80A0 3840).stores x ↔
      0xB8000 ≤ x ∧ x < 0xB8000 + size.toNat := by
  have hdst : vgaMemory.toNat = 0xB8000 := by decide
  have hsrc : (0xB80A0 : Word64).toNat = 0xB80A0 := by decide
  have hbytes := @stringCopy_bytes m vgaMemory 0xB80A0 size
  have hothers := @stringCopy_of_not m vgaMemory 0xB80A0 size
  have hcovers := @covers_stringCopy m vgaMemory 0xB80A0 size
  rw [hdst] at hbytes hothers hcovers
  rw [hsrc] at hbytes
  exact ⟨fun j hj => hbytes hj (Or.inr (by decide)), fun x hx => hothers hx, fun x => hcovers⟩

theorem movesUp_iff (hfill : Filled (copied size s) t 0xB8F00 (0x20 ||| s.attrib) 80) :
    MovesUp s { t with csrY := 24 } ↔ 3840 ≤ size.toNat ∧ size.toNat ≤ 4000 := by
  obtain ⟨new, hnew, hcovers⟩ := hfill.stores
  obtain ⟨hbytes, hothers, hcopy⟩ := rowCopy s.mem size
  constructor
  · intro hup
    obtain ⟨all, hall, hscreen⟩ := hup.stores
    have hsame : new ++ (inlineMemcpy size s.mem vgaMemory 0xB80A0 3840).stores = all := by
      refine (List.append_left_inj s.stores).mp ?_
      rw [← hall, List.append_assoc]
      exact hnew.symm
    -- the last byte of row 23, and the first one behind the screen
    have hbottom := hscreen (0xB8000 + 3839)
    have hbehind := hscreen (0xB8000 + 4000)
    rw [← hsame, Mem.covers_append, hcovers, hcopy] at hbottom hbehind
    unfold OnScreen at hbottom hbehind
    omega
  · rintro ⟨hlong, hshort⟩
    refine ⟨?_, fun c hc => ?_, fun x hx => ?_,
      ⟨new ++ (inlineMemcpy size s.mem vgaMemory 0xB80A0 3840).stores, ?_, fun x => ?_⟩,
      hfill.attrib, rfl⟩
    · intro r hr c hc
      have hkept := hfill.others (0xB8000 + 160 * r + c) (by omega)
      have hshift : 0xB8000 + 160 * (r + 1) + c = 0xB80A0 + (160 * r + c) := by omega
      rw [hshift, ← hbytes _ (by omega), ← Nat.add_assoc]
      exact hkept
    · have hcell := hfill.cells c hc
      exact hcell
    · unfold OnScreen at hx
      have hkept := hfill.others x (by omega)
      exact hkept.trans (hothers x (by omega))
    · exact hnew.trans (List.append_assoc _ _ _).symm
    · rw [Mem.covers_append, hcovers, hcopy]
      unfold OnScreen
      omega

/-- **`Scroll`** is right when the copy is not too short and ends in the row that is cleared. -/
theorem scroll_movesUp_iff (h : s.csrY = 25) :
    MovesUp s (scroll size s) ↔ 3840 ≤ size.toNat ∧ size.toNat ≤ 4000 := by
  have hdest : (0xB8F00 : Word64).toNat = 0xB8F00 := by decide
  rw [scroll_eq h]
  exact movesUp_iff (hdest ▸ memsetw_filled (by decide))

end Video

/-- **When the kernel copies what it is asked to.**  For every value that the uninitialised local
variable may have: `__memcpy` is right, and the same as the other two, exactly when the value is the
length; `Scroll` exactly when it covers the 24 rows and ends in the last row. -/
theorem memcpy_as_asked_iff (size : Word32) :
    (∀ (m : Mem) (dst src n : Word64), n.toNat < 2 ^ 32 →
      (src.toNat + n.toNat ≤ dst.toNat ∨ dst.toNat ≤ src.toNat) →
        (AsAsked size m dst src n ↔ size.toNat = n.toNat)) ∧
    ∀ s : Video.State, s.csrY = 25 →
      (Video.MovesUp s (Video.scroll size s) ↔ 3840 ≤ size.toNat ∧ size.toNat ≤ 4000) :=
  ⟨fun _ _ _ _ hn hsafe => asAsked_iff hn hsafe, fun _ h => Video.scroll_movesUp_iff h⟩

/-- A screen whose bytes are their own addresses, with the cursor behind its last row. -/
def fullScreen : Video.State := ⟨fun x => BitVec.ofNat 8 x, 0x0F00, 25, []⟩

theorem rightSize_copies : AsAsked 3840 fullScreen.mem 0xB8000 0xB80A0 3840 ∧
    Video.MovesUp fullScreen (Video.scroll 3840 fullScreen) :=
  ⟨((memcpy_as_asked_iff 3840).1 _ _ _ _ (by decide) (by decide)).mpr (by decide),
    ((memcpy_as_asked_iff 3840).2 _ rfl).mpr (by decide)⟩

/-- With a zero on the stack nothing is copied: five bytes that are asked for stay what they were, and
the screen stays where it is. -/
theorem zeroSize_copies_nothing :
    (inlineMemcpy 0 fullScreen.mem 0x1000 0x2001 5).mem 0x1000 ≠
      (memcpy fullScreen.mem 0x1000 0x2001 5).mem 0x1000 ∧
    ¬ AsAsked 0 fullScreen.mem 0x1000 0x2001 5 ∧
      ¬ Video.MovesUp fullScreen (Video.scroll 0 fullScreen) := by
  refine ⟨by decide, fun h => ?_, fun h => ?_⟩
  · have hsize := (asAsked_iff (by decide) (by decide)).mp h
    exact absurd hsize (by decide)
  · have hsize := (Video.scroll_movesUp_iff rfl).mp h
    exact absurd hsize (by decide)

end Kernel
end ZineOS
