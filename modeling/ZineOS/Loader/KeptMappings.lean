import ZineOS.Loader.ElfEntry
import ZineOS.Loader.RangeCover

/-!
# Which mappings survive `Elf::Load`

`Load` maps every PROGBITS and NOBITS section twice, at `sh_addr` and at the address of its block,
and `Map` overwrites a leaf without looking.  It does not ask for `SHF_ALLOC`, so a section of debug
data, whose `sh_addr` is 0, is mapped over the first pages of the address space.

* `sectionFrame` is the frame that the two ranges of one section give a page, `loadFrame` what the
  rounds so far give it; `translate_before` says that the loop does exactly this to the page tables.
* **`load_keeps_mappings_iff`** — when every page that was mapped keeps its physical page.
-/

namespace ZineOS
namespace Loader
namespace VirtualMemory

open Lib

/-! ## The frame of a page -/

theorem pageNumber_alignFloor (v : Word64) : pageNumber (alignFloor v 0x1000) = pageNumber v := by
  unfold pageNumber
  rw [toNat_alignFloor]
  unfold pageDown
  omega

/-- The frame that a range of `n` pages gives the page of `v`. -/
def rangeFrame (phys virt : Word64) (n : Nat) (v : Word64) : Option Nat :=
  if pageDistance virt v < n then some ((phys.toNat / 0x1000 + pageDistance virt v) % 2 ^ 40)
  else none

/-- The physical address of an address in a page that is mapped to `frame`. -/
def inFrame (v : Word64) (frame : Nat) : Nat := frame * 0x1000 + v.toNat % 0x1000

/-- `MapRange` sends the pages of its range to their frames and leaves the others alone. -/
theorem lastCall_rangeCalls {phys virt size flags v : Word64}
    (hn : (align size 0x1000).toNat / 0x1000 ≤ 2 ^ 36) :
    (lastCall (rangeCalls phys virt size flags) v).map (fun c => (c.trim.image v).1) =
      (rangeFrame phys virt ((align size 0x1000).toNat / 0x1000) v).map (inFrame v) := by
  have hdistance : pageDistance (alignFloor virt 0x1000) v = pageDistance virt v := by
    unfold pageDistance
    rw [pageNumber_alignFloor]
  unfold rangeCalls rangeFrame
  rw [lastCall_pageCalls hn, hdistance]
  by_cases hin : pageDistance virt v < (align size 0x1000).toNat / 0x1000
  · rw [if_pos hin, if_pos hin, Option.map_some, Option.map_some, Option.some.injEq]
    have hfloor := toNat_alignFloor phys
    have hphys := phys.isLt
    unfold MapCall.image inFrame
    simp only [MapCall.toNat_trim_phys]
    rw [BitVec.toNat_add, BitVec.toNat_ofNat, hfloor]
    unfold pageDown
    omega
  · rw [if_neg hin, if_neg hin]
    rfl

/-- The physical address that the processor finds for `v`. -/
def physical (s : Machine) (v : Word64) : Option Nat :=
  (translate s.mem s.pml4Table.toNat v).map Prod.fst

/-- `MapRange` on page tables, whatever the addresses. -/
theorem physical_mapRange {s : Machine} {tables : List Nat} (h : PageTables s tables)
    {phys virt size flags : Word64} (hflags : IsMapFlags flags)
    (hsep : Separate s.pml4Table (mapRange s phys virt size flags).allocs)
    (hn : (align size 0x1000).toNat / 0x1000 ≤ 2 ^ 36) (v : Word64) :
    physical (mapRange s phys virt size flags) v =
      ((rangeFrame phys virt ((align size 0x1000).toNat / 0x1000) v).map (inFrame v)).or
        (physical s v) := by
  rw [← @lastCall_rangeCalls phys virt size flags v hn]
  rw [mapRange_eq] at hsep ⊢
  have hall : ∀ c ∈ rangeCalls phys virt size flags, IsMapFlags c.flags := by
    intro c hc
    obtain ⟨k, -, rfl⟩ := List.mem_map.mp hc
    exact hflags
  obtain ⟨tables', hmapped⟩ := mapAll_spec_trim h hall hsep
  have htranslate := hmapped.translate v
  rw [lastCall_trim] at htranslate
  have hpml4 : (mapAll s (rangeCalls phys virt size flags)).pml4Table = s.pml4Table := hmapped.pml4
  unfold physical
  change (translate (mapAll s (rangeCalls phys virt size flags)).mem
    (mapAll s (rangeCalls phys virt size flags)).pml4Table.toNat v).map Prod.fst = _
  rw [hpml4, htranslate]
  cases lastCall (rangeCalls phys virt size flags) v with
  | none => rfl
  | some c => rfl

end VirtualMemory

namespace Elf

open Lib VirtualMemory

/-! ## What the loop asks for -/

/-- The frame that the two ranges of a section with its block at `p` give the page of `v`.  The
block's own pages are mapped after the pages at `sh_addr`. -/
def sectionFrame (m : Mem) (sh p : Word32) (v : Word64) : Option Nat :=
  (rangeFrame (castU64 p) (castU64 p) ((align (shSize m sh) 0x1000).toNat / 0x1000) v).or
    (rangeFrame (castU64 p) (shAddr m sh) ((align (shSize m sh) 0x1000).toNat / 0x1000) v)

/-- The frame that the first rounds of the loop give it: the last section decides. -/
def loadFrame (s : Machine) (elf : Word32) (v : Word64) : Nat → Option Nat
  | 0 => none
  | i + 1 =>
      if IsLoaded s.mem (shdr s.mem elf i) then
        (sectionFrame s.mem (shdr s.mem elf i) (sectionBlock s elf i) v).or (loadFrame s elf v i)
      else loadFrame s elf v i

/-- Every page that is mapped in `s` has the same physical page in `s'`. -/
def KeepsMappings (s s' : Machine) : Prop := ∀ v a, physical s v = some a → physical s' v = some a

/-- No section takes a page that is mapped to another frame: the last of the ranges that contain it,
if there is one, gives it the frame it has. -/
def LeavesMapped (s : Machine) (elf : Word32) : Prop :=
  ∀ v a f, physical s v = some a → loadFrame s elf v (eShnum s.mem elf).toNat = some f →
    inFrame v f = a

section Round

variable {m : Mem} {elf : Word32} {len : Nat} {pml4 : Word32} {s : Machine} {tables : List Nat}

/-- A size whose block ends below 4 GB. -/
theorem pages_le_of_block {p : Word32} {size : Word64} (hfits : (Frame.block p size).2 < 2 ^ 32) :
    (align size 0x1000).toNat / 0x1000 ≤ 2 ^ 36 := by
  have hup := le_pageUp size.toNat
  simp only [Frame.block] at hfits
  rw [toNat_align (by omega)]
  omega

theorem mapSection_eq (s : Machine) (sh p : Word32) : mapSection s sh p =
    mapRange (mapRange s (castU64 p) (shAddr s.mem sh) (shSize s.mem sh) sectionFlags) (castU64 p)
      (castU64 p) (shSize (mapRange s (castU64 p) (shAddr s.mem sh) (shSize s.mem sh)
        sectionFlags).mem sh) sectionFlags := rfl

/-- The two ranges of a section. -/
theorem physical_mapSection (hfile : ElfFile m elf len) {i : Nat} (hi : i < (eShnum m elf).toNat)
    (hs : Kept m elf len pml4 s tables) {p : Word32}
    (hfits : (Frame.block p (shSize m (shdr m elf i))).2 < 2 ^ 32)
    (hblocks : BlocksApart pml4 elf len (mapSection s (shdr m elf i) p).allocs) (v : Word64) :
    physical (mapSection s (shdr m elf i) p) v =
      ((sectionFrame m (shdr m elf i) p v).map (inFrame v)).or (physical s v) := by
  have hflags : IsMapFlags sectionFlags := by decide
  have hpages := pages_le_of_block hfits
  obtain ⟨-, haddr, -, hsize⟩ := hfile.fields hs.file hi
  rw [mapSection_eq] at hblocks ⊢
  rw [haddr, hsize] at hblocks ⊢
  have hfirst := hblocks.of_prefix (prefix_mapRange ..)
  obtain ⟨tables1, hs1⟩ := mapRange_kept hs _ _ _ hfirst
  -- the second range reads the size again
  obtain ⟨-, -, -, hsize1⟩ := hfile.fields hs1.file hi
  rw [hsize1] at hblocks ⊢
  rw [physical_mapRange hs1.inv hflags (hs1.pml4.symm ▸ hblocks.separate) hpages,
    physical_mapRange hs.inv hflags (hs.pml4.symm ▸ hfirst.separate) hpages]
  unfold sectionFrame
  rw [Option.map_or, Option.or_assoc]

/-- Filling a block of its own changes no mapping. -/
theorem physical_filled (hs : Kept m elf len pml4 s tables) (sh : Word32)
    (hblocks : BlocksApart pml4 elf len (allocated s sh).2.allocs) (v : Word64) :
    physical { (allocated s sh).2 with mem := filled s.mem elf sh (allocated s sh).1 } v =
      physical s v := by
  have hcongr := @PageTables.congr s
    { (allocated s sh).2 with mem := filled s.mem elf sh (allocated s sh).1 } tables hs.inv rfl
    (List.subset_append_left _ _) fun x hx => filled_tables hs hblocks hx
  exact congrArg (Option.map Prod.fst) (hcongr.2 v)

/-- **One round.** -/
theorem physical_loadSection (hfile : ElfFile m elf len) {i : Nat} (hi : i < (eShnum m elf).toNat)
    (hs : Kept m elf len pml4 s tables)
    (hblocks : BlocksApart pml4 elf len (loadSection s elf (shdr m elf i) 0).2.allocs) (v : Word64) :
    physical (loadSection s elf (shdr m elf i) 0).2 v =
      if IsLoaded m (shdr m elf i) then
        ((sectionFrame m (shdr m elf i) (allocated s (shdr m elf i)).1 v).map (inFrame v)).or
          (physical s v)
      else physical s v := by
  obtain ⟨htype, -, -, hsize⟩ := hfile.fields hs.file hi
  have hloaded : IsLoaded s.mem (shdr m elf i) ↔ IsLoaded m (shdr m elf i) := by
    unfold IsLoaded
    rw [htype]
  rcases loadSection_cases s elf (shdr m elf i) 0 with
    ⟨hskip, heq⟩ | ⟨-, hnull, heq⟩ | ⟨hload, -, s', rfl, heq⟩
  · rw [heq, if_neg fun h => hskip (hloaded.mpr h)]
  · -- `Alloc` does not fail
    rw [heq] at hblocks
    exact absurd hnull (hblocks.separate.1 _ (logged_allocated ..))
  · have hblocksMid := hblocks.of_prefix (prefix_allocated hload 0)
    rw [heq] at hblocks ⊢
    have hfits := hblocksMid.fits _ (logged_allocated ..)
    rw [hsize] at hfits
    rw [if_pos (hloaded.mp hload), physical_mapSection hfile hi (filled_kept hs _ hblocksMid) hfits
      hblocks, physical_filled hs _ hblocksMid]

end Round

section Loop

variable {s : Machine} {elf : Word32} {len : Nat}

/-- **The rounds so far.**  A page that some section has taken is where the last one put it; every
other page is where it was. -/
theorem physical_before (hfile : ElfFile s.mem elf len) {tables : List Nat} (hs : PageTables s tables)
    {n : Nat} (hn : n ≤ (eShnum s.mem elf).toNat)
    (hblocks : BlocksApart s.pml4Table elf len (before s elf n).allocs) (v : Word64) :
    physical (before s elf n) v = ((loadFrame s elf v n).map (inFrame v)).or (physical s v) := by
  induction n with
  | zero => rfl
  | succ n ih =>
      have hearlier := hblocks.of_prefix (prefix_before (Nat.le_succ n))
      obtain ⟨tables1, hkept⟩ := before_kept hfile hs (Nat.le_of_succ_le hn) hearlier
      have hround := physical_loadSection hfile hn hkept hblocks v
      unfold before loadFrame
      rw [hround, ih (by omega) hearlier]
      by_cases hloaded : IsLoaded s.mem (shdr s.mem elf n)
      · rw [if_pos hloaded, if_pos hloaded, Option.map_or, Option.or_assoc]
        rfl
      · rw [if_neg hloaded, if_neg hloaded]

end Loop

/-- **When `Load` disturbs no mapping.**  For every file that passes the checks, with any section
headers: exactly when no page that was mapped is taken by a section for another frame. -/
theorem load_keeps_mappings_iff {s : Machine} (hbuilt : Built s) {elf : Word32} {len : Nat}
    (hfile : ElfFile s.mem elf len) {fuel : Nat} (hfuel : (eShnum s.mem elf).toNat < fuel)
    (hblocks : BlocksApart s.pml4Table elf len (load fuel s elf).2.allocs) :
    KeepsMappings s (load fuel s elf).2 ↔ LeavesMapped s elf := by
  obtain ⟨tables, htables⟩ := hbuilt.pageTables
  have hrun := load_run hbuilt hfile hfuel hblocks
  rw [hrun] at hblocks ⊢
  have hafter := physical_before hfile htables le_rfl hblocks
  constructor
  · intro hkeeps v a f hmapped hframe
    have hsame := hkeeps v a hmapped
    rw [hafter, hframe] at hsame
    exact Option.some.inj hsame
  · intro hleaves v a hmapped
    rw [hafter]
    cases hframe : loadFrame s elf v (eShnum s.mem elf).toNat with
    | none => exact hmapped
    | some f => exact congrArg some (hleaves v a f hmapped hframe)

/-- The page of the interrupt vectors, mapped to itself. -/
def lowPage : MapCall := ⟨0, 0, flagPresent ||| flagReadWrite⟩

/-- The loader with page 0 mapped to itself and an image at 2 MB. -/
def lowMachine (image : Mem) : Machine :=
  VirtualMemory.map (kernelMachine image) lowPage.phys lowPage.virt lowPage.flags

theorem kernelMachine_zero (image : Mem) (i : BitVec 9) : entryAt (kernelMachine image).mem
    ((kernelMachine image).pml4Table.toNat / 0x1000) i = 0 := by
  have hroot : (kernelMachine image).pml4Table.toNat / 0x1000 = 0x10 := by
    show (0x10000 : Word32).toNat / 0x1000 = 0x10
    decide
  rw [hroot]
  exact (entryAt_memzero image (by decide : (0x10000 : Word32).toNat = 0x10 * 0x1000) _ i).trans
    (if_pos rfl)

/-- Its only page. -/
theorem lowMachine_physical {image : Mem}
    (hsep : Separate (kernelMachine image).pml4Table (lowMachine image).allocs) (v : Word64) :
    physical (lowMachine image) v =
      if pageNumber v = 0 then some (v.toNat % 0x1000) else none := by
  have hok : lowPage.Ok := by decide
  have htables : PageTables (kernelMachine image) _ :=
    pageTables_init (by show (0x10000 : Word32).toNat % 0x1000 = 0; decide) (kernelMachine_zero image)
  obtain ⟨tables', hmapped⟩ := map_spec htables hok hsep
  have htranslate := hmapped.translate v
  rw [translate_of_zero (kernelMachine_zero image), Option.or_none, ← hmapped.pml4] at htranslate
  have hsame : SamePage lowPage.virt v ↔ pageNumber v = 0 := by
    rw [samePage_iff_pageNumber, eq_comm]
    exact Iff.rfl
  unfold physical
  refine (congrArg (Option.map Prod.fst) htranslate).trans ?_
  unfold lastCall
  rw [List.reverse_singleton, List.find?_singleton]
  simp only [hsame]
  by_cases hzero : pageNumber v = 0
  · rw [if_pos (decide_eq_true hzero), if_pos hzero]
    simp [MapCall.image, lowPage]
  · rw [if_neg (by simpa using hzero), if_neg hzero]
    rfl

theorem lowMachine_built {image : Mem}
    (hsep : Separate (kernelMachine image).pml4Table (lowMachine image).allocs) :
    Built (lowMachine image) :=
  .map (.start (by show (0x10000 : Word32).toNat % 0x1000 = 0; decide) (kernelMachine_zero image))
    (by decide) hsep

/-- An image of one PROGBITS section with four bytes, at 2 MB. -/
def tinyKernel : Mem := fun x =>
  (([(0x200000, 0x7f), (0x200001, 0x45), (0x200002, 0x4c), (0x200003, 0x46), (0x200010, 2),
    (0x200012, 62), (0x200028, 64), (0x20003a, 64), (0x20003c, 1),
    (0x200044, 1), (0x200053, 0x80), (0x200054, 0xff), (0x200055, 0xff), (0x200056, 0xff),
    (0x200057, 0xff), (0x200058, 128), (0x200060, 4),
    (0x200080, 0xfa), (0x200081, 0xf4), (0x200082, 0xeb), (0x200083, 0xfc)] :
      List (Nat × Byte)).lookup x).getD 0

/-- A kernel in the upper half leaves page 0 where it is. -/
theorem tinyKernel_keeps_mappings :
    physical (lowMachine tinyKernel) 0x10 = some 0x10 ∧
      KeepsMappings (lowMachine tinyKernel) (load 2 (lowMachine tinyKernel) 0x200000).2 := by
  have hfile : ElfFile (lowMachine tinyKernel).mem 0x200000 132 :=
    ⟨by decide, by decide, by decide +kernel, by decide +kernel⟩
  have hone : (eShnum (lowMachine tinyKernel).mem 0x200000).toNat = 1 := by decide +kernel
  have hblocks : BlocksApart (lowMachine tinyKernel).pml4Table 0x200000 132
      (load 2 (lowMachine tinyKernel) 0x200000).2.allocs := by
    have hlog : (load 2 (lowMachine tinyKernel) 0x200000).2.allocs =
        [(0x1000000, 4096), (0x1001000, 4096), (0x1002000, 4096), (0x1003000, 4),
          (0x1004000, 4096), (0x1005000, 4096), (0x1006000, 4096), (0x1007000, 4096)] := by
      decide +kernel
    rw [hlog]
    exact blocksApart_of_bounds (by decide +kernel) (by decide +kernel) (by decide +kernel)
      (by decide +kernel)
  have hsep : Separate (kernelMachine tinyKernel).pml4Table (lowMachine tinyKernel).allocs := by
    have hlog : (lowMachine tinyKernel).allocs =
        [(0x1000000, 4096), (0x1001000, 4096), (0x1002000, 4096)] := by decide +kernel
    rw [hlog]
    exact separate_of_bounds (by decide) (by decide +kernel)
  refine ⟨by decide +kernel,
    (load_keeps_mappings_iff (lowMachine_built hsep) hfile (by omega) hblocks).mpr ?_⟩
  intro v a f hmapped hframe
  -- page 0 is the only one that is mapped, and the section takes two others
  have hzero : pageNumber v = 0 := by
    by_contra hother
    rw [lowMachine_physical hsep, if_neg hother] at hmapped
    exact absurd hmapped (by simp)
  have hloaded : IsLoaded (lowMachine tinyKernel).mem
      (shdr (lowMachine tinyKernel).mem 0x200000 0) := by decide +kernel
  have hblock : sectionBlock (lowMachine tinyKernel) 0x200000 0 = 0x1003000 := by decide +kernel
  have haddr : shAddr (lowMachine tinyKernel).mem (shdr (lowMachine tinyKernel).mem 0x200000 0) =
      0xFFFFFFFF80000000 := by decide +kernel
  have hsize : (align (shSize (lowMachine tinyKernel).mem
      (shdr (lowMachine tinyKernel).mem 0x200000 0)) 0x1000).toNat / 0x1000 = 1 := by
    decide +kernel
  have hvirt : pageDistance 0xFFFFFFFF80000000 v = 524288 := by
    unfold pageDistance
    rw [hzero]
    decide
  have hown : pageDistance (castU64 0x1003000) v = 68719472637 := by
    unfold pageDistance
    rw [hzero]
    decide
  rw [hone] at hframe
  unfold loadFrame loadFrame sectionFrame rangeFrame at hframe
  rw [if_pos hloaded, hblock, haddr, hsize, hvirt, hown] at hframe
  exact absurd hframe (by simp)

/-- An image of one PROGBITS section of debug data: not marked `SHF_ALLOC`, with `sh_addr` 0. -/
def debugKernel : Mem := tinyKernel.store 0x200050 8 0

/-- Its section takes the page of the interrupt vectors. -/
theorem debugKernel_takes_page_zero :
    Built (lowMachine debugKernel) ∧ ElfFile (lowMachine debugKernel).mem 0x200000 132 ∧
      BlocksApart 0x10000 0x200000 132 (load 2 (lowMachine debugKernel) 0x200000).2.allocs ∧
      physical (lowMachine debugKernel) 0x10 = some 0x10 ∧
      physical (load 2 (lowMachine debugKernel) 0x200000).2 0x10 = some 0x1003010 ∧
      ¬ KeepsMappings (lowMachine debugKernel) (load 2 (lowMachine debugKernel) 0x200000).2 := by
  have hsep : Separate (kernelMachine debugKernel).pml4Table (lowMachine debugKernel).allocs := by
    have hlog : (lowMachine debugKernel).allocs =
        [(0x1000000, 4096), (0x1001000, 4096), (0x1002000, 4096)] := by decide +kernel
    rw [hlog]
    exact separate_of_bounds (by decide) (by decide +kernel)
  have hbefore : physical (lowMachine debugKernel) 0x10 = some 0x10 := by decide +kernel
  have hafter : physical (load 2 (lowMachine debugKernel) 0x200000).2 0x10 = some 0x1003010 := by
    decide +kernel
  refine ⟨lowMachine_built hsep, ⟨by decide, by decide, by decide +kernel, by decide +kernel⟩, ?_,
    hbefore, hafter, fun hkeeps => ?_⟩
  · have hlog : (load 2 (lowMachine debugKernel) 0x200000).2.allocs =
        [(0x1000000, 4096), (0x1001000, 4096), (0x1002000, 4096), (0x1003000, 4),
          (0x1004000, 4096)] := by decide +kernel
    rw [hlog]
    exact blocksApart_of_bounds (by decide +kernel) (by decide +kernel) (by decide +kernel)
      (by decide +kernel)
  · have hsame := hkeeps 0x10 0x10 hbefore
    rw [hafter] at hsame
    exact absurd hsame (by decide)

end Elf
end Loader
end ZineOS
