import ZineOS.Loader.PageMap

/-!
# What `Install` builds

`VirtualMemory::Install` takes a frame for the PML4 and maps the first megabyte onto itself.  It
does not zero that frame.  Whatever was in it stays in the other 511 entries, and a nonzero entry 0
is taken for a table.

With entry 0 zero, `entryAt_install` describes the tables afterwards entry by entry, and
`install_lowIdentity_iff` says what the other entries must be like.
-/

namespace ZineOS
namespace Loader
namespace VirtualMemory

open Lib
open Lib.RadixTree (follow lookup setEntry)

/-- The flags of the identity map. -/
def lowFlags : Word64 := flagPresent ||| flagReadWrite ||| flagGlobal

/-- Tables for the first `n` pages in the frames `t4` to `t1`, over other tables `c`: entry 0 leads
down to `t1`, and the rest of `t4` is as it was. -/
def lowEntries (c : Nat → BitVec 9 → Word64) (t4 t3 t2 t1 n : Nat) (t : Nat) (i : BitVec 9) :
    Word64 :=
  if t = t1 then
    if i.toNat < n then BitVec.ofNat 64 (i.toNat * 0x1000) ||| lowFlags else 0
  else if t = t2 then if i = 0 then BitVec.ofNat 64 (t1 * 0x1000) ||| lowFlags else 0
  else if t = t3 then if i = 0 then BitVec.ofNat 64 (t2 * 0x1000) ||| lowFlags else 0
  else if t = t4 ∧ i = 0 then BitVec.ofNat 64 (t3 * 0x1000) ||| lowFlags
  else c t i

/-! ## The pages of the first megabyte -/

/-- The address of page `n`. -/
def lowPage (n : Nat) : Word64 := BitVec.ofNat 64 (n * 0x1000)

theorem toNat_lowPage {n : Nat} (hn : n < 2 ^ 20) : (lowPage n).toNat = n * 0x1000 :=
  toNat_frameAddress hn

/-- Page `n` of the first megabyte has index 0 in the upper tables and index `n` in the last one. -/
theorem lowPage_index {n : Nat} (hn : n < 256) :
    (lowPage n).extractLsb' 39 9 = 0 ∧ (lowPage n).extractLsb' 30 9 = 0 ∧
      (lowPage n).extractLsb' 21 9 = 0 ∧ ((lowPage n).extractLsb' 12 9).toNat = n := by
  have hvalue := toNat_lowPage (show n < 2 ^ 20 by omega)
  have hindex : ∀ shift, ((lowPage n).extractLsb' shift 9).toNat =
      n * 0x1000 / 2 ^ shift % 2 ^ 9 := by
    intro shift
    rw [toNat_extractLsb', hvalue]
  have hzero : ∀ shift, 20 ≤ shift → (lowPage n).extractLsb' shift 9 = 0 := by
    intro shift hshift
    apply BitVec.eq_of_toNat_eq
    have hpow := Nat.pow_le_pow_right (show 0 < 2 by omega) hshift
    rw [hindex, Nat.div_eq_of_lt (by omega)]
    rfl
  refine ⟨hzero 39 (by omega), hzero 30 (by omega), hzero 21 (by omega), ?_⟩
  rw [hindex]
  omega

theorem lowLeaf_eq {n : Nat} (hn : n < 256) :
    (alignFloor (lowPage n) 0x1000 &&& addressMask) ||| lowFlags = lowPage n ||| lowFlags := by
  have hvalue := toNat_lowPage (show n < 2 ^ 20 by omega)
  have hfloor : alignFloor (lowPage n) 0x1000 = lowPage n := by
    apply BitVec.eq_of_toNat_eq
    rw [toNat_alignFloor, hvalue, pageDown_of_mod (by omega)]
  rw [hfloor, and_addressMask (by omega) (by omega)]

/-- Four different frames below 4 GB. -/
structure FourFrames (t4 t3 t2 t1 : Nat) : Prop where
  distinct : [t4, t3, t2, t1].Nodup
  below : t3 < 2 ^ 20 ∧ t2 < 2 ^ 20 ∧ t1 < 2 ^ 20

section Tables

variable {t4 t3 t2 t1 : Nat} {c : Nat → BitVec 9 → Word64}

theorem FourFrames.ne (h : FourFrames t4 t3 t2 t1) :
    t4 ≠ t3 ∧ t4 ≠ t2 ∧ t4 ≠ t1 ∧ t3 ≠ t2 ∧ t3 ≠ t1 ∧ t2 ≠ t1 := by
  have hnodup := h.distinct
  simp only [List.nodup_cons, List.mem_cons, List.not_mem_nil, or_false, not_or] at hnodup
  tauto

/-- The way down from entry 0 of the PML4. -/
theorem next_lowEntries (h : FourFrames t4 t3 t2 t1) (n : Nat) :
    nextTable (lowEntries c t4 t3 t2 t1 n t4 0) = some t3 ∧
      nextTable (lowEntries c t4 t3 t2 t1 n t3 0) = some t2 ∧
      nextTable (lowEntries c t4 t3 t2 t1 n t2 0) = some t1 := by
  obtain ⟨h43, h42, h41, h32, h31, h21⟩ := h.ne
  obtain ⟨hb3, hb2, hb1⟩ := h.below
  have hnext : ∀ {u : Nat}, u < 2 ^ 20 →
      nextTable (BitVec.ofNat 64 (u * 0x1000) ||| lowFlags) = some u :=
    fun hu => nextTable_frame hu (by decide)
  refine ⟨?_, ?_, ?_⟩
  · simp [lowEntries, h43, h42, h41, hnext hb3]
  · simp [lowEntries, h32, h31, hnext hb2]
  · simp [lowEntries, h21, hnext hb1]

/-- Writing leaf `n` extends the tables by one page. -/
theorem setEntry_lowEntries {n : Nat} {i : BitVec 9} (hi : i.toNat = n) :
    setEntry (lowEntries c t4 t3 t2 t1 n) t1 i (lowPage n ||| lowFlags) =
      lowEntries c t4 t3 t2 t1 (n + 1) := by
  funext t j
  unfold setEntry
  by_cases hslot : t = t1 ∧ j = i
  · obtain ⟨rfl, rfl⟩ := hslot
    rw [if_pos ⟨rfl, rfl⟩]
    unfold lowEntries lowPage
    rw [if_pos rfl, if_pos (by omega), hi]
  · rw [if_neg hslot]
    unfold lowEntries
    by_cases ht : t = t1
    · have hne : j.toNat ≠ n := fun heq => hslot ⟨ht, BitVec.eq_of_toNat_eq (by omega)⟩
      rw [if_pos ht, if_pos ht]
      by_cases hlt : j.toNat < n
      · rw [if_pos hlt, if_pos (by omega)]
      · rw [if_neg hlt, if_neg (by omega)]
    · rw [if_neg ht, if_neg ht]

/-- Once the tables are there, the next page only needs its leaf. -/
theorem entryAt_map_next (h : FourFrames t4 t3 t2 t1) {s : Machine}
    (hroot : s.pml4Table.toNat = t4 * 0x1000) {n : Nat} (hn : n < 256)
    (hs : entryAt s.mem = lowEntries c t4 t3 t2 t1 n) :
    entryAt (map s (lowPage n) (lowPage n) lowFlags).mem = lowEntries c t4 t3 t2 t1 (n + 1) ∧
      (map s (lowPage n) (lowPage n) lowFlags).pml4Table = s.pml4Table := by
  obtain ⟨hx4, hx3, hx2, hx1⟩ := lowPage_index hn
  have hidx := fun shift (hshift : 12 ≤ shift) => toNat_tableIndex (lowPage n) hshift
  obtain ⟨hn4, hn3, hn2⟩ := next_lowEntries (c := c) h n
  obtain ⟨hb3, hb2, hb1⟩ := h.below
  rw [← hs] at hn4 hn3 hn2
  obtain ⟨p3, h3, hp3⟩ := descend_present lowFlags hroot (hidx 39 (by omega))
    (by rw [hx4]; exact hn4) hb3
  obtain ⟨p2, h2, hp2⟩ := descend_present lowFlags hp3 (hidx 30 (by omega))
    (by rw [hx3]; exact hn3) hb2
  obtain ⟨p1, h1, hp1⟩ := descend_present lowFlags hp2 (hidx 21 (by omega))
    (by rw [hx2]; exact hn2) hb1
  rw [map_eq h3 h2 h1]
  refine ⟨?_, rfl⟩
  show entryAt (store64 s.mem _ _) = _
  rw [entryAt_store64 _ hp1 (hidx 12 (by omega)), lowLeaf_eq hn, hs, setEntry_lowEntries hx1]

/-- The first page makes the three tables below the PML4. -/
theorem entryAt_map_first (h : FourFrames t4 t3 t2 t1) {s : Machine}
    (hroot : s.pml4Table.toNat = t4 * 0x1000) {f3 f2 f1 : Word32} {fr3 fr2 fr1 : Frame.Table}
    (halloc3 : Frame.alloc s.frame Frame.frameNoLimit 4096 Frame.frameUsed = (f3, fr3))
    (halloc2 : Frame.alloc fr3 Frame.frameNoLimit 4096 Frame.frameUsed = (f2, fr2))
    (halloc1 : Frame.alloc fr2 Frame.frameNoLimit 4096 Frame.frameUsed = (f1, fr1))
    (hf3 : f3.toNat = t3 * 0x1000) (hf2 : f2.toNat = t2 * 0x1000) (hf1 : f1.toNat = t1 * 0x1000)
    (hzero : entryAt s.mem t4 0 = 0) :
    entryAt (map s (lowPage 0) (lowPage 0) lowFlags).mem =
        lowEntries (entryAt s.mem) t4 t3 t2 t1 1 ∧
      (map s (lowPage 0) (lowPage 0) lowFlags).pml4Table = s.pml4Table := by
  obtain ⟨hx4, hx3, hx2, hx1⟩ := lowPage_index (show 0 < 256 by omega)
  have hidx := fun shift (hshift : 12 ≤ shift) => toNat_tableIndex (lowPage 0) hshift
  obtain ⟨h43, h42, h41, h32, h31, h21⟩ := h.ne
  -- every fresh table is still empty when `Map` comes to it
  obtain ⟨p3, s3, h3, hp3, hroot3, hframe3, hs3⟩ := descend_missing hroot (hidx 39 (by omega))
    (show IsMapFlags lowFlags by decide) halloc3 hf3 (by rw [hx4]; exact hzero)
  rw [hx4] at hs3
  have hzero3 : entryAt s3.mem t3 0 = 0 := by
    rw [hs3, RadixTree.setEntry_of_table_ne h43.symm]
    exact if_pos rfl
  obtain ⟨p2, s2, h2, hp2, hroot2, hframe2, hs2⟩ := descend_missing hp3 (hidx 30 (by omega))
    (show IsMapFlags lowFlags by decide) (by rw [hframe3]; exact halloc2) hf2
    (by rw [hx3]; exact hzero3)
  rw [hx3] at hs2
  have hzero2 : entryAt s2.mem t2 0 = 0 := by
    rw [hs2, RadixTree.setEntry_of_table_ne h32.symm]
    exact if_pos rfl
  obtain ⟨p1, s1, h1, hp1, hroot1, -, hs1⟩ := descend_missing hp2 (hidx 21 (by omega))
    (show IsMapFlags lowFlags by decide) (by rw [hframe2]; exact halloc1) hf1
    (by rw [hx2]; exact hzero2)
  rw [hx2] at hs1
  rw [map_eq h3 h2 h1]
  refine ⟨?_, by rw [show s1.pml4Table = _ from hroot1, hroot2, hroot3]⟩
  have hbase : entryAt s1.mem = lowEntries (entryAt s.mem) t4 t3 t2 t1 0 := by
    rw [hs1, hs2, hs3]
    funext t i
    unfold setEntry zeroTable lowEntries
    by_cases ht1 : t = t1
    · simp [ht1, h21.symm]
    by_cases ht2 : t = t2
    · simp [ht2, h21, h32.symm]
    by_cases ht3 : t = t3
    · simp [ht3, h31, h32, h43.symm]
    · simp [ht1, ht2, ht3]
  show entryAt (store64 s1.mem _ _) = _
  rw [entryAt_store64 _ hp1 (hidx 12 (by omega)), lowLeaf_eq (show 0 < 256 by omega), hbase,
    setEntry_lowEntries hx1]

end Tables

/-- The calls of the loop, page by page. -/
theorem installCalls_eq : installCalls = (List.range 256).map fun n =>
    ⟨lowPage n, lowPage n, lowFlags⟩ := rfl

/-- The next four pages that `Frame::Alloc` returns are different frames. -/
structure InstallFrames (s : Machine) (t4 t3 t2 t1 : Nat) : Prop where
  distinct : [t4, t3, t2, t1].Nodup
  allocs : (pageRun 4 s.frame).1.map (fun a => a.1.toNat) =
    [t4 * 0x1000, t3 * 0x1000, t2 * 0x1000, t1 * 0x1000]

/-- **The tables after `Install`**, when entry 0 of the PML4's frame was zero. -/
theorem entryAt_install {s : Machine} {t4 t3 t2 t1 : Nat} (h : InstallFrames s t4 t3 t2 t1)
    (hzero : entryAt s.mem t4 0 = 0) :
    FourFrames t4 t3 t2 t1 ∧
      entryAt (install s).mem = lowEntries (entryAt s.mem) t4 t3 t2 t1 256 ∧
      (install s).pml4Table.toNat = t4 * 0x1000 := by
  have hallocs := h.allocs
  cases h4 : Frame.alloc s.frame Frame.frameNoLimit 4096 Frame.frameUsed with
  | mk f4 fr4 =>
  cases h3 : Frame.alloc fr4 Frame.frameNoLimit 4096 Frame.frameUsed with
  | mk f3 fr3 =>
  cases h2 : Frame.alloc fr3 Frame.frameNoLimit 4096 Frame.frameUsed with
  | mk f2 fr2 =>
  cases h1 : Frame.alloc fr2 Frame.frameNoLimit 4096 Frame.frameUsed with
  | mk f1 fr1 =>
  simp only [pageRun, h4, h3, h2, h1, List.map_cons, List.map_nil, List.cons.injEq, and_true]
    at hallocs
  obtain ⟨hf4, hf3, hf2, hf1⟩ := hallocs
  have hframes : FourFrames t4 t3 t2 t1 := by
    have hlt3 := f3.isLt
    have hlt2 := f2.isLt
    have hlt1 := f1.isLt
    exact ⟨h.distinct, by omega, by omega, by omega⟩
  have hinstall : install s =
      mapAll { s with frame := fr4, allocs := s.allocs ++ [(f4, 4096)], pml4Table := f4 }
        installCalls := by
    unfold install Machine.alloc
    rw [h4]
  rw [hinstall, installCalls_eq]
  -- the induction is on the pages mapped so far, of which there is at least one
  have hpages : ∀ n, n < 256 → entryAt (mapAll { s with
        frame := fr4, allocs := s.allocs ++ [(f4, 4096)], pml4Table := f4 }
        ((List.range (n + 1)).map fun n => ⟨lowPage n, lowPage n, lowFlags⟩)).mem =
          lowEntries (entryAt s.mem) t4 t3 t2 t1 (n + 1) ∧
      (mapAll { s with
        frame := fr4, allocs := s.allocs ++ [(f4, 4096)], pml4Table := f4 }
        ((List.range (n + 1)).map fun n => ⟨lowPage n, lowPage n, lowFlags⟩)).pml4Table = f4 := by
    intro n hn
    induction n with
    | zero => exact entryAt_map_first hframes hf4 h3 h2 h1 hf3 hf2 hf1 hzero
    | succ n ih =>
        obtain ⟨hs, hroot⟩ := ih (by omega)
        rw [List.range_succ, List.map_append, mapAll_append]
        have hnext := entryAt_map_next hframes (by rw [hroot]; exact hf4) hn hs
        exact ⟨hnext.1, hnext.2.trans hroot⟩
  obtain ⟨hentries, hroot⟩ := hpages 255 (by omega)
  exact ⟨hframes, hentries, by rw [hroot]; exact hf4⟩

/-! ## The walk after `Install` -/

/-- The addresses whose bits 63-48 repeat bit 47. -/
def Canonical (v : Word64) : Prop := v.toNat < 2 ^ 47 ∨ 2 ^ 64 - 2 ^ 47 ≤ v.toNat

/-- The page walk maps the first megabyte onto itself and nothing else. -/
structure LowIdentity (m : Mem) (cr3 : Nat) : Prop where
  low : ∀ v, v.toNat < 2 ^ 20 → (translate m cr3 v).map Prod.fst = some v.toNat
  other : ∀ v, Canonical v → 2 ^ 20 ≤ v.toNat → translate m cr3 v = none

/-- No entry but the first of the frame that becomes the PML4 leads to a page, over the tables as
`Install` fills them. -/
def StaleUnmapped (s : Machine) (t4 t3 t2 t1 : Nat) : Prop :=
  ∀ i4 i3 i2 i1, i4 ≠ 0 →
    lookup pageFormat (lowEntries (entryAt s.mem) t4 t3 t2 t1 256) t4 [i4, i3, i2] i1 = none

section Walk

variable {t4 t3 t2 t1 : Nat} {c : Nat → BitVec 9 → Word64}

/-- Below entry 0 of the PML4, only index 0 leads down to the last table. -/
theorem lookup_lowEntries (h : FourFrames t4 t3 t2 t1) (i3 i2 i1 : BitVec 9) :
    lookup pageFormat (lowEntries c t4 t3 t2 t1 256) t4 [0, i3, i2] i1 =
      if i3 = 0 ∧ i2 = 0 ∧ i1.toNat < 256 then
        some (BitVec.ofNat 64 (i1.toNat * 0x1000) ||| lowFlags) else none := by
  obtain ⟨hn4, hn3, hn2⟩ := next_lowEntries (c := c) h 256
  obtain ⟨h43, h42, h41, h32, h31, h21⟩ := h.ne
  -- in each of the three lower tables only entry 0, or the first 256, are in use
  have hempty : nextTable 0 = none := by decide
  unfold lookup
  simp only [follow, pageFormat, hn4, Option.bind_some]
  by_cases h3 : i3 = 0
  · rw [h3, hn3, Option.bind_some]
    by_cases h2 : i2 = 0
    · rw [h2, hn2, Option.bind_some, Option.bind_some]
      unfold lowEntries
      rw [if_pos rfl]
      by_cases h1 : i1.toNat < 256
      · rw [if_pos h1, if_pos ⟨rfl, rfl, h1⟩, leafEntry_or _ (by decide)]
      · rw [if_neg h1, if_neg fun all => h1 all.2.2]
        decide
    · have hnone : nextTable (lowEntries c t4 t3 t2 t1 256 t2 i2) = none := by
        unfold lowEntries
        rw [if_neg h21, if_pos rfl, if_neg h2]
        exact hempty
      rw [hnone, if_neg fun all => h2 all.2.1]
      rfl
  · have hnone : nextTable (lowEntries c t4 t3 t2 t1 256 t3 i3) = none := by
      unfold lowEntries
      rw [if_neg h31, if_neg h32, if_pos rfl, if_neg h3]
      exact hempty
    rw [hnone, if_neg fun all => h3 all.1]
    rfl

/-- Four table indices are those of a canonical address, which lies above the first megabyte when
the first index is not 0. -/
theorem exists_canonical (i4 i3 i2 i1 : BitVec 9) (h4 : i4 ≠ 0) :
    ∃ v, Canonical v ∧ 2 ^ 20 ≤ v.toNat ∧ upperPath v = [i4, i3, i2] ∧ v.extractLsb' 12 9 = i1 := by
  have hi4 := i4.isLt
  have hi3 := i3.isLt
  have hi2 := i2.isLt
  have hi1 := i1.isLt
  have hpos : i4.toNat ≠ 0 := fun h0 => h4 (BitVec.eq_of_toNat_eq h0)
  -- bit 47 is the top bit of the first index
  obtain ⟨top, htop⟩ : ∃ top, top = if i4.toNat < 256 then 0 else 0xffff := ⟨_, rfl⟩
  obtain ⟨n, hn⟩ : ∃ n, n = top * 2 ^ 48 + i4.toNat * 2 ^ 39 + i3.toNat * 2 ^ 30 +
      i2.toNat * 2 ^ 21 + i1.toNat * 2 ^ 12 := ⟨_, rfl⟩
  have htopLe : top ≤ 0xffff := by
    rw [htop]
    split <;> omega
  have hvalue : (BitVec.ofNat 64 n).toNat = n := by
    rw [BitVec.toNat_ofNat]
    omega
  have hindex : ∀ (shift : Nat) (i : BitVec 9), n / 2 ^ shift % 2 ^ 9 = i.toNat →
      (BitVec.ofNat 64 n).extractLsb' shift 9 = i := by
    intro shift i hi
    apply BitVec.eq_of_toNat_eq
    rw [toNat_extractLsb', hvalue, hi]
  refine ⟨BitVec.ofNat 64 n, ?_, by omega, ?_, hindex 12 i1 (by omega)⟩
  · unfold Canonical
    rw [hvalue]
    by_cases hhalf : i4.toNat < 256
    · rw [if_pos hhalf] at htop
      left
      omega
    · rw [if_neg hhalf] at htop
      right
      omega
  · unfold upperPath
    rw [hindex 39 i4 (by omega), hindex 30 i3 (by omega), hindex 21 i2 (by omega)]

end Walk

/-- The walk goes over the tables as `Install` filled them. -/
theorem translate_install {s : Machine} {t4 t3 t2 t1 : Nat} (h : InstallFrames s t4 t3 t2 t1)
    (hzero : entryAt s.mem t4 0 = 0) (v : Word64) :
    translate (install s).mem (install s).pml4Table.toNat v =
      (lookup pageFormat (lowEntries (entryAt s.mem) t4 t3 t2 t1 256) t4 (upperPath v)
        (v.extractLsb' 12 9)).map fun e =>
          (entryFrame e * 0x1000 + v.toNat % 0x1000, entryFlags e) := by
  obtain ⟨-, hentries, hroot⟩ := entryAt_install h hzero
  unfold translate
  rw [walk_eq_lookup, hentries, hroot, Nat.mul_div_cancel _ (by decide)]

/-- Entries that name no table lead to no page. -/
theorem staleUnmapped_of_next {s : Machine} {t4 t3 t2 t1 : Nat} (h : [t4, t3, t2, t1].Nodup)
    (hnext : ∀ i, i ≠ 0 → nextTable (entryAt s.mem t4 i) = none) : StaleUnmapped s t4 t3 t2 t1 := by
  simp only [List.nodup_cons, List.mem_cons, List.not_mem_nil, or_false, not_or] at h
  obtain ⟨⟨h43, h42, h41⟩, -⟩ := h
  intro i4 i3 i2 i1 h4
  have hsame : lowEntries (entryAt s.mem) t4 t3 t2 t1 256 t4 i4 = entryAt s.mem t4 i4 := by
    unfold lowEntries
    rw [if_neg h41, if_neg h42, if_neg h43, if_neg fun both => h4 both.2]
  have hnone : pageFormat.next (lowEntries (entryAt s.mem) t4 t3 t2 t1 256 t4 i4) = none := by
    rw [hsame]
    exact hnext i4 h4
  unfold lookup
  rw [follow, hnone]
  rfl

/-- A machine with one megabyte of free frames at 16 MB, where the PML4 will be. -/
def pml4At16MB (mem : Mem) : Machine := ⟨mem, Frame.oneRange, 0, []⟩

theorem pml4At16MB_frames (mem : Mem) :
    InstallFrames (pml4At16MB mem) 0x1000 0x1001 0x1002 0x1003 where
  distinct := by decide
  allocs := by
    show (pageRun 4 Frame.oneRange).1.map _ = _
    decide +kernel

/-- Memory that was used before: every word but entry 0 of the frame at 16 MB is left over, and not
present. -/
def leftOver : Mem := fun x => if 0x1000000 ≤ x ∧ x < 0x1000008 then 0 else 0xFE

/-- Memory with one stale entry, 1 of the frame at 16 MB, which names that frame. -/
def staleEntry : Mem := fun x => if x = 0x1000008 ∨ x = 0x100000B then 1 else 0

end VirtualMemory
end Loader
end ZineOS
