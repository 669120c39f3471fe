import ZineOS.Loader.MapRange
import ZineOS.Loader.TableWalk

/-!
# Does `MapRange` cover its range?

`MapRange` rounds the start down and the size up, each on its own.  A range whose offset in its
first page and whose length together reach into one page more than the length alone has that last
page left out.  `mapRange_covers_iff` says exactly when every byte of a range is mapped: it also
asks that the range stays below the 52 bits of a physical address and has no two pages with the
same table indices, and that bit 7 and bits 12-51 of the flags do no harm.
-/

namespace ZineOS
namespace Loader
namespace VirtualMemory

open Lib

variable {s : Machine} {phys virt size flags : Word64}

/-! ## Addresses of one page -/

/-- Addresses of one page are walked alike. -/
theorem walk_congr {m : Mem} {cr3 : Nat} {v w : Word64} (h : SamePage v w) :
    walk m cr3 v = walk m cr3 w := by
  obtain ⟨hpath, hleaf⟩ := samePage_iff.mp h
  rw [walk_eq_lookup, walk_eq_lookup, hpath, hleaf]

theorem translate_eq_some {m : Mem} {cr3 : Nat} {v : Word64} {a : Nat}
    (hv : (translate m cr3 v).map Prod.fst = some a) :
    ∃ e, walk m cr3 v = some e ∧ entryFrame e * 0x1000 + v.toNat % 0x1000 = a := by
  unfold translate at hv
  rw [Option.map_map] at hv
  exact Option.map_eq_some_iff.mp hv

/-- On one page the walk keeps the distance to the start of the page. -/
theorem translate_samePage {m : Mem} {cr3 : Nat} {v w : Word64} (h : SamePage v w) {a : Nat}
    (hv : (translate m cr3 v).map Prod.fst = some a) :
    v.toNat % 0x1000 ≤ a ∧ (translate m cr3 w).map Prod.fst =
      some (a - v.toNat % 0x1000 + w.toNat % 0x1000) := by
  obtain ⟨e, hwalk, rfl⟩ := translate_eq_some hv
  unfold translate
  rw [← walk_congr h, hwalk]
  simp only [Option.map_some, Option.some.injEq]
  omega

theorem translate_lt {m : Mem} {cr3 : Nat} {v : Word64} {a : Nat}
    (hv : (translate m cr3 v).map Prod.fst = some a) : a < 2 ^ 52 := by
  obtain ⟨e, -, rfl⟩ := translate_eq_some hv
  have hframe : entryFrame e < 2 ^ 40 := by
    rw [toNat_entryFrame]
    exact Nat.mod_lt _ (by decide)
  omega

/-! ## The range byte by byte -/

/-- What a caller of `MapRange` expects: every byte of the range goes to the same distance from
`phys`, and no page without a byte of the range is mapped differently. -/
structure CoversRange (s : Machine) (phys virt size flags : Word64) : Prop where
  inside : ∀ k < size.toNat, (translate (mapRange s phys virt size flags).mem s.pml4Table.toNat
    (virt + BitVec.ofNat 64 k)).map Prod.fst = some (phys.toNat + k)
  outside : ∀ v, (∀ k < size.toNat, ¬ SamePage (virt + BitVec.ofNat 64 k) v) →
    translate (mapRange s phys virt size flags).mem s.pml4Table.toNat v =
      translate s.mem s.pml4Table.toNat v

/-- The flags do no harm to page `j` of the range: they leave its physical address as it is, and the
processor can enter the tables on the way. -/
def PageFits (s : Machine) (phys virt flags : Word64) (j : Nat) : Prop :=
  FrameKept (phys + BitVec.ofNat 64 (j * 0x1000)) flags ∧
    CanEnter s flags (virt + BitVec.ofNat 64 (j * 0x1000))

instance (j : Nat) : Decidable (PageFits s phys virt flags j) := inferInstanceAs (Decidable (_ ∧ _))

/-- The range is empty; or it ends below the 52 bits of physical addresses, its pages have
different table indices, the rounded size alone reaches its end, unless the page of the last
byte was already mapped to the right place, and the flags harm none of its pages and no new table. -/
def RangeFits (s : Machine) (phys virt size flags : Word64) : Prop :=
  size.toNat = 0 ∨
    (phys.toNat + size.toNat ≤ 2 ^ 52 ∧ virt.toNat % 0x1000 + size.toNat ≤ 2 ^ 48 ∧
      (virt.toNat % 0x1000 + size.toNat ≤ pageUp size.toNat ∨
        (translate s.mem s.pml4Table.toNat (virt + BitVec.ofNat 64 (size.toNat - 1))).map Prod.fst =
          some (phys.toNat + (size.toNat - 1))) ∧
      (∀ j < pageUp size.toNat / 0x1000, PageFits s phys virt flags j) ∧
      FramesKept flags s (mapRange s phys virt size flags))

instance : Decidable (RangeFits s phys virt size flags) := inferInstanceAs (Decidable (_ ∨ _))

theorem toNat_add_ofNat {a : Word64} {n k : Nat} (ha : a.toNat + n ≤ 2 ^ 64) (hk : k < n) :
    (a + BitVec.ofNat 64 k).toNat = a.toNat + k := by
  rw [BitVec.toNat_add, BitVec.toNat_ofNat, Nat.mod_eq_of_lt (a := k) (by omega),
    Nat.mod_eq_of_lt (by omega)]

/-- The whole pages of a range that is short enough. -/
theorem pageRange_of_fits (hoff : phys.toNat % 0x1000 = virt.toNat % 0x1000)
    (hv : virt.toNat + size.toNat ≤ 2 ^ 64) (hphys : phys.toNat + size.toNat ≤ 2 ^ 52)
    (hsize : virt.toNat % 0x1000 + size.toNat ≤ 2 ^ 48) :
    PageRange (alignFloor phys 0x1000) (alignFloor virt 0x1000)
      ((align size 0x1000).toNat / 0x1000) := by
  have hrounded : (align size 0x1000).toNat = pageUp size.toNat := toNat_align (by omega)
  have hp := toNat_alignFloor phys
  have hw := toNat_alignFloor virt
  refine ⟨toNat_alignFloor_mod phys, toNat_alignFloor_mod virt, ?_, ?_, ?_⟩
  · rw [hp, hrounded]
    unfold pageUp pageDown
    omega
  · rw [hw, hrounded]
    unfold pageUp pageDown
    omega
  · rw [hrounded]
    unfold pageUp
    omega

/-- Page `j` of the rounded range has a byte of the range. -/
theorem exists_byte_of_page {off len j : Nat} (hoff : off < 0x1000) (hj : j < pageUp len / 0x1000) :
    ∃ k < len, (off + k) / 0x1000 = j := by
  unfold pageUp at hj
  rcases Nat.le_total (j * 0x1000) off with hle | hle
  · exact ⟨0, by omega, by omega⟩
  · exact ⟨j * 0x1000 - off, by omega, by omega⟩

/-- The calls that `MapRange` makes. -/
def rangeCalls (phys virt size flags : Word64) : List MapCall :=
  pageCalls (alignFloor phys 0x1000) (alignFloor virt 0x1000) ((align size 0x1000).toNat / 0x1000)
    flags

theorem flags_of_rangeCalls {c : MapCall} (hc : c ∈ rangeCalls phys virt size flags) :
    c.flags = flags := by
  obtain ⟨k, -, rfl⟩ := List.mem_map.mp hc
  rfl

/-- What the calls of a `MapRange` do to the tree. -/
theorem mappedIn_mapRange (h : Reached s)
    (hsep : Separate s.pml4Table (mapRange s phys virt size flags).allocs)
    (hkept : FramesKept flags s (mapRange s phys virt size flags)) :
    ∃ tables tables', MappedIn mapFormat s (mapRange s phys virt size flags) tables tables'
      (rangeCalls phys virt size flags) := by
  obtain ⟨tables, htables⟩ := h.tablesIn
  have hnamed := framesNamed_of_kept hsep hkept
  rw [mapRange_eq] at hsep hnamed ⊢
  obtain ⟨tables', hmapped⟩ := mapAllIn_spec htables hsep fun c hc => by
    rw [flags_of_rangeCalls hc]
    exact hnamed
  exact ⟨tables, tables', hmapped⟩

/-! ## The pages that are mapped -/

/-- Where the page of a byte is harmed by the flags, so is the byte. -/
theorem pageFits_iff_byte (hoff : phys.toNat % 0x1000 = virt.toNat % 0x1000)
    (hv : virt.toNat + size.toNat ≤ 2 ^ 64) (hp : phys.toNat + size.toNat ≤ 2 ^ 52) {j k : Nat}
    (hj : j * 0x1000 < size.toNat) (hk : k < size.toNat)
    (hpage : (virt.toNat % 0x1000 + k) / 0x1000 = j) :
    PageFits s phys virt flags j ↔
      FrameKept (phys + BitVec.ofNat 64 k) flags ∧ CanEnter s flags (virt + BitVec.ofNat 64 k) := by
  refine and_congr (frameKept_congr ?_) (canEnter_congr ?_)
  · rw [toNat_entryFrame, toNat_entryFrame, toNat_add_ofNat (n := size.toNat) (by omega) hj,
      toNat_add_ofNat (n := size.toNat) (by omega) hk]
    omega
  · rw [samePage_iff_pageNumber]
    unfold pageNumber
    rw [toNat_add_ofNat hv hj, toNat_add_ofNat hv hk]
    omega

/-- **A byte of a page that is mapped.**  It goes to its place if and only if the flags do not harm
its page. -/
theorem translate_byte_iff (h : Reached s) (hoff : phys.toNat % 0x1000 = virt.toNat % 0x1000)
    (hv : virt.toNat + size.toNat ≤ 2 ^ 64) (hpresent : flags.getLsbD 0 = true)
    (hsep : Separate s.pml4Table (mapRange s phys virt size flags).allocs)
    (hkept : FramesKept flags s (mapRange s phys virt size flags))
    (hphys : phys.toNat + size.toNat ≤ 2 ^ 52) (hsize : virt.toNat % 0x1000 + size.toNat ≤ 2 ^ 48)
    {k : Nat} (hk : k < size.toNat) (hin : virt.toNat % 0x1000 + k < pageUp size.toNat) :
    (translate (mapRange s phys virt size flags).mem s.pml4Table.toNat
        (virt + BitVec.ofNat 64 k)).map Prod.fst = some (phys.toNat + k) ↔
      PageFits s phys virt flags ((virt.toNat % 0x1000 + k) / 0x1000) := by
  have hrange := pageRange_of_fits hoff hv hphys hsize
  have hrounded : (align size 0x1000).toNat = pageUp size.toNat := toNat_align (by omega)
  have hmod := pageUp_mod size.toNat
  have hfloor : (alignFloor virt 0x1000).toNat = virt.toNat / 0x1000 * 0x1000 := toNat_alignFloor virt
  have hfloorPhys : (alignFloor phys 0x1000).toNat = phys.toNat / 0x1000 * 0x1000 :=
    toNat_alignFloor phys
  have hbyte := toNat_add_ofNat hv hk
  have hbytePhys := toNat_add_ofNat (a := phys) (n := size.toNat) (by omega) hk
  obtain ⟨tables, tables', hmapped⟩ := mappedIn_mapRange h hsep hkept
  have hlast : lastCall (rangeCalls phys virt size flags) (virt + BitVec.ofNat 64 k) = _ :=
    hrange.lastCall_eq (by rw [hfloor, hbyte]; omega) (by rw [hfloor, hbyte, hrounded]; omega)
  have hround : ((virt + BitVec.ofNat 64 k).toNat - (alignFloor virt 0x1000).toNat) / 0x1000 =
      (virt.toNat % 0x1000 + k) / 0x1000 := by
    rw [hbyte, hfloor]
    omega
  rw [hround] at hlast
  have hpages : (virt.toNat % 0x1000 + k) / 0x1000 < (align size 0x1000).toNat / 0x1000 := by
    rw [hrounded]
    omega
  have hpageByte : (virt.toNat % 0x1000 + k) / 0x1000 * 0x1000 < size.toNat := by
    unfold pageUp at hin
    omega
  -- the call for the page writes the frame of the byte
  have hframe : entryFrame (alignFloor phys 0x1000 +
      BitVec.ofNat 64 ((virt.toNat % 0x1000 + k) / 0x1000 * 0x1000)) =
        entryFrame (phys + BitVec.ofNat 64 k) := by
    rw [toNat_entryFrame, toNat_entryFrame, hrange.toNat_phys hpages, hbytePhys, hfloorPhys]
    omega
  rw [hmapped.translate_of_call (fun _ hc => flags_of_rangeCalls hc) hpresent hlast,
    pageFits_iff_byte hoff hv hphys hpageByte hk rfl, and_comm]
  refine and_congr_left fun _ => ?_
  rw [← frameKept_congr hframe]
  unfold FrameKept
  dsimp only
  rw [hframe, toNat_entryFrame (phys + _), hbytePhys, hbyte]
  omega

/-- The page of the last byte, when the rounded size alone does not reach it, is walked as before. -/
theorem translate_last_page (h : Reached s) (hoff : phys.toNat % 0x1000 = virt.toNat % 0x1000)
    (hv : virt.toNat + size.toNat ≤ 2 ^ 64)
    (hsep : Separate s.pml4Table (mapRange s phys virt size flags).allocs)
    (hkept : FramesKept flags s (mapRange s phys virt size flags))
    (hphys : phys.toNat + size.toNat ≤ 2 ^ 52) (hsize : virt.toNat % 0x1000 + size.toNat ≤ 2 ^ 48)
    {k : Nat} (hk : k < size.toNat) (hbeyond : pageUp size.toNat ≤ virt.toNat % 0x1000 + k) :
    translate (mapRange s phys virt size flags).mem s.pml4Table.toNat (virt + BitVec.ofNat 64 k) =
      translate s.mem s.pml4Table.toNat (virt + BitVec.ofNat 64 k) := by
  have hrange := pageRange_of_fits hoff hv hphys hsize
  have hrounded : (align size 0x1000).toNat = pageUp size.toNat := toNat_align (by omega)
  have hbyte := toNat_add_ofNat hv hk
  obtain ⟨tables, tables', hmapped⟩ := mappedIn_mapRange h hsep hkept
  refine hmapped.translate_of_no_call (hrange.lastCall_outside fun j hj => ?_)
  have hfloor := toNat_alignFloor virt
  rw [hrounded] at hj
  unfold pageNumber
  rw [hfloor, hbyte]
  unfold pageDown
  unfold pageUp at hj hbeyond
  omega

/-- A byte of the page that no call maps goes to its place if and only if the last byte did. -/
theorem translate_beyond (h : Reached s) (hoff : phys.toNat % 0x1000 = virt.toNat % 0x1000)
    (hv : virt.toNat + size.toNat ≤ 2 ^ 64)
    (hsep : Separate s.pml4Table (mapRange s phys virt size flags).allocs)
    (hkept : FramesKept flags s (mapRange s phys virt size flags))
    (hphys : phys.toNat + size.toNat ≤ 2 ^ 52) (hsize : virt.toNat % 0x1000 + size.toNat ≤ 2 ^ 48)
    (hright : (translate s.mem s.pml4Table.toNat
      (virt + BitVec.ofNat 64 (size.toNat - 1))).map Prod.fst = some (phys.toNat + (size.toNat - 1)))
    {k : Nat} (hk : k < size.toNat) (hbeyond : pageUp size.toNat ≤ virt.toNat % 0x1000 + k) :
    (translate (mapRange s phys virt size flags).mem s.pml4Table.toNat
      (virt + BitVec.ofNat 64 k)).map Prod.fst = some (phys.toNat + k) := by
  have hbyte := toNat_add_ofNat hv hk
  have hbyteLast := toNat_add_ofNat hv (show size.toNat - 1 < size.toNat by omega)
  have hsame : SamePage (virt + BitVec.ofNat 64 (size.toNat - 1)) (virt + BitVec.ofNat 64 k) := by
    rw [samePage_iff_pageNumber]
    unfold pageNumber
    rw [hbyteLast, hbyte]
    unfold pageUp at hbeyond
    omega
  obtain ⟨hle, hpage⟩ := translate_samePage hsame hright
  rw [translate_last_page h hoff hv hsep hkept hphys hsize hk hbeyond, hpage, hbyte, hbyteLast]
  rw [hbyteLast] at hle
  unfold pageUp at hbeyond
  rw [Option.some.injEq]
  omega

/-! ## The whole range -/

/-- A page without a byte of the range is not mapped. -/
theorem lastCall_of_no_byte (hoff : phys.toNat % 0x1000 = virt.toNat % 0x1000)
    (hv : virt.toNat + size.toNat ≤ 2 ^ 64) (hphys : phys.toNat + size.toNat ≤ 2 ^ 52)
    (hsize : virt.toNat % 0x1000 + size.toNat ≤ 2 ^ 48) {v : Word64}
    (hout : ∀ k < size.toNat, ¬ SamePage (virt + BitVec.ofNat 64 k) v) :
    lastCall (rangeCalls phys virt size flags) v = none := by
  have hrange := pageRange_of_fits hoff hv hphys hsize
  have hrounded : (align size 0x1000).toNat = pageUp size.toNat := toNat_align (by omega)
  apply hrange.lastCall_outside
  intro j hj heq
  rw [hrounded] at hj
  -- a page that is mapped has a byte of the range
  obtain ⟨k, hk, hkj⟩ := exists_byte_of_page (Nat.mod_lt virt.toNat (by decide)) hj
  refine hout k hk ?_
  rw [samePage_iff_pageNumber, heq]
  unfold pageNumber
  rw [toNat_add_ofNat hv hk, toNat_alignFloor virt]
  unfold pageDown
  omega

/-- A range that fits is covered, byte by byte. -/
theorem coversRange_of_fits (h : Reached s) (hoff : phys.toNat % 0x1000 = virt.toNat % 0x1000)
    (hv : virt.toNat + size.toNat ≤ 2 ^ 64) (hpresent : flags.getLsbD 0 = true)
    (hsep : Separate s.pml4Table (mapRange s phys virt size flags).allocs)
    (hfits : RangeFits s phys virt size flags) : CoversRange s phys virt size flags := by
  rcases hfits with hempty | ⟨hphys, hsize, hlast, hpages, hkept⟩
  · -- no bytes, no rounds
    have hzero : size = 0 := BitVec.eq_of_toNat_eq hempty
    have hsame : mapRange s phys virt size flags = s := by
      rw [mapRange_eq, hzero]
      rfl
    constructor
    · intro k hk
      omega
    · intro v _
      rw [hsame]
  constructor
  · intro k hk
    by_cases hin : virt.toNat % 0x1000 + k < pageUp size.toNat
    · have hmod := pageUp_mod size.toNat
      exact (translate_byte_iff h hoff hv hpresent hsep hkept hphys hsize hk hin).mpr
        (hpages _ (by omega))
    · exact translate_beyond h hoff hv hsep hkept hphys hsize (hlast.resolve_left (by omega)) hk
        (by omega)
  · intro v hout
    obtain ⟨tables, tables', hmapped⟩ := mappedIn_mapRange h hsep hkept
    exact hmapped.translate_of_no_call (lastCall_of_no_byte hoff hv hphys hsize hout)

/-- Two pages with the same table indices would have to go to two places. -/
theorem CoversRange.size_le (hcovers : CoversRange s phys virt size flags)
    (hv : virt.toNat + size.toNat ≤ 2 ^ 64) : virt.toNat % 0x1000 + size.toNat ≤ 2 ^ 48 := by
  by_contra hlong
  have hfirst := hcovers.inside 0 (by omega)
  have hagain := hcovers.inside (2 ^ 48 - virt.toNat % 0x1000) (by omega)
  have hbyte := toNat_add_ofNat hv (show 0 < size.toNat by omega)
  have hbyteAgain := toNat_add_ofNat hv (show 2 ^ 48 - virt.toNat % 0x1000 < size.toNat by omega)
  have hsame : SamePage (virt + BitVec.ofNat 64 0)
      (virt + BitVec.ofNat 64 (2 ^ 48 - virt.toNat % 0x1000)) := by
    rw [samePage_iff_pageNumber]
    unfold pageNumber
    rw [hbyte, hbyteAgain]
    omega
  obtain ⟨hle, hpage⟩ := translate_samePage hsame hfirst
  rw [hagain, hbyte, hbyteAgain, Option.some.injEq] at hpage
  omega

/-- A range that is covered fits, if the flags keep the frames of the new tables. -/
theorem fits_of_coversRange (h : Reached s) (hoff : phys.toNat % 0x1000 = virt.toNat % 0x1000)
    (hv : virt.toNat + size.toNat ≤ 2 ^ 64) (hpresent : flags.getLsbD 0 = true)
    (hsep : Separate s.pml4Table (mapRange s phys virt size flags).allocs)
    (hkept : FramesKept flags s (mapRange s phys virt size flags))
    (hcovers : CoversRange s phys virt size flags) : RangeFits s phys virt size flags := by
  by_cases hempty : size.toNat = 0
  · exact Or.inl hempty
  have hlastByte := hcovers.inside (size.toNat - 1) (by omega)
  have hphys : phys.toNat + size.toNat ≤ 2 ^ 52 := by
    have hlt := translate_lt hlastByte
    omega
  have hsize := hcovers.size_le hv
  refine Or.inr ⟨hphys, hsize, ?_, fun j hj => ?_, hkept⟩
  · by_cases hshort : virt.toNat % 0x1000 + size.toNat ≤ pageUp size.toNat
    · exact Or.inl hshort
    · right
      rw [← translate_last_page h hoff hv hsep hkept hphys hsize (k := size.toNat - 1) (by omega)
        (by omega)]
      exact hlastByte
  · -- the flags harm no page, or they would harm a byte of it
    obtain ⟨k, hk, rfl⟩ := exists_byte_of_page (Nat.mod_lt virt.toNat (by decide)) hj
    have hmod := pageUp_mod size.toNat
    exact (translate_byte_iff h hoff hv hpresent hsep hkept hphys hsize hk (by omega)).mp
      (hcovers.inside k hk)

theorem emptyPml4_reached : Reached emptyPml4 :=
  .start (by decide) emptyPml4_zero

/-- With its first page mapped, the kernel's tables are there. -/
def firstPageMapped : Machine :=
  map emptyPml4 kernelPage.phys kernelPage.virt kernelPage.flags

/-- PRESENT, READWRITE, bit 7, bit 21 and bit 63. -/
def busyFlags : Word64 := 0x8000000000200083

end VirtualMemory
end Loader
end ZineOS
