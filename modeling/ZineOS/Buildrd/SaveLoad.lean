import ZineOS.Buildrd.Load
import ZineOS.InitRd.RoundTrip

/-!
# Saving and loading again

`Save` walks the list four times, for the header, the names, the entries and the contents, and `Load`
reads the four parts back front to back.  `load_image` says that it finds what was written, as long
as the symbol table is shorter than 2^32 bytes.

* **`save_load_roundtrip`** — the list that is loaded is the list that was saved, and saving it again
  writes the same file but for the `reserved` field of the entries.
-/

namespace ZineOS
namespace Buildrd

open Lib Loader
open InitRd (symbol symbolsLength dataLength dataStart imageLength imageOf entriesFrom initMagic)

variable {fs : List File} {i : Nat}

/-! ## The four parts of the file -/

theorem length_le_symbolsLength (fs : List File) : fs.length ≤ symbolsLength fs := by
  induction fs with
  | nil => exact Nat.zero_le _
  | cons f fs ih =>
      unfold symbolsLength at ih ⊢
      rw [List.flatMap_cons, List.length_append, List.length_cons]
      have hsymbol : (symbol f).length = f.name.val.length + 1 := by simp [symbol]
      omega

theorem ofNat_word (v : Word32) : BitVec.ofNat 32 v.toNat = v := by
  rw [BitVec.ofNat_toNat, BitVec.setWidth_eq]

/-- Where the parts lie in the file. -/
theorem holds_image (magic reserved : Word32) (fs : List File) :
    (fileMem (imageOf magic reserved fs)).Holds 0 (RdHeader.bytes ⟨magic, initrdVersion,
        BitVec.ofNat 32 (imageLength fs), BitVec.ofNat 32 fs.length,
        BitVec.ofNat 32 (symbolsLength fs)⟩) ∧
      (fileMem (imageOf magic reserved fs)).Holds 20 (fs.flatMap symbol) ∧
      (fileMem (imageOf magic reserved fs)).Holds (20 + symbolsLength fs)
        (entriesFrom ⟨BitVec.ofNat 32 (dataStart fs), 0, 0, reserved⟩ fs) ∧
      (fileMem (imageOf magic reserved fs)).Holds (dataStart fs) (fs.flatMap File.data) := by
  obtain ⟨hrest, hdata⟩ := Mem.holds_append.mp (holds_fileMem (imageOf magic reserved fs))
  obtain ⟨hrest, hentries⟩ := Mem.holds_append.mp hrest
  obtain ⟨hheader, hsymbols⟩ := Mem.holds_append.mp hrest
  simp only [List.length_append, InitRd.length_header_bytes, InitRd.length_entriesFrom,
    Nat.zero_add] at hsymbols hentries hdata
  exact ⟨hheader, hsymbols, hentries, hdata⟩

theorem parts_le (fs : List File) : 20 + symbolsLength fs + 16 * fs.length = dataStart fs ∧
    dataStart fs + dataLength fs = imageLength fs := ⟨rfl, rfl⟩

section Image

variable (magic reserved : Word32) (heap : Heap) (hS : symbolsLength fs < 2 ^ 32)

/-- The header that is read. -/
theorem headerOf_image : headerOf heap (imageOf magic reserved fs) = ⟨magic, initrdVersion,
    BitVec.ofNat 32 (imageLength fs), BitVec.ofNat 32 fs.length,
    BitVec.ofNat 32 (symbolsLength fs)⟩ := by
  obtain ⟨hheader, -⟩ := holds_image magic reserved fs
  obtain ⟨hmagic, hversion, hsize, hcount, hsymbols⟩ := InitRd.load_header hheader
  obtain ⟨hstart, hlength⟩ := parts_le fs
  have hfield : ∀ off, off + 4 ≤ 20 → (fread (imageOf magic reserved fs) 0 20
      (junk heap.header)).word32 off =
        BitVec.ofNat 32 ((fileMem (imageOf magic reserved fs)).load (0 + off) 4) := by
    intro off hoff
    refine word32_fread hoff ?_
    rw [InitRd.length_imageOf]
    omega
  unfold headerOf RdHeader.read
  rw [hfield 0 (by omega), hfield 4 (by omega), hfield 8 (by omega), hfield 12 (by omega),
    hfield 16 (by omega), hmagic, hversion, hsize, hcount, hsymbols]
  simp only [ofNat_word]

include hS in
theorem sizes_image :
    (headerOf heap (imageOf magic reserved fs)).symbolSize.toNat = symbolsLength fs ∧
      (headerOf heap (imageOf magic reserved fs)).entryCount.toNat = fs.length ∧
      filesStart heap (imageOf magic reserved fs) = dataStart fs := by
  have hcount := length_le_symbolsLength fs
  have hsymbols : (BitVec.ofNat 32 (symbolsLength fs)).toNat = symbolsLength fs := by
    rw [BitVec.toNat_ofNat, Nat.mod_eq_of_lt hS]
  have hfiles : (BitVec.ofNat 32 fs.length).toNat = fs.length := by
    rw [BitVec.toNat_ofNat, Nat.mod_eq_of_lt (by omega)]
  unfold filesStart
  rw [headerOf_image]
  simp only [hsymbols, hfiles]
  exact ⟨trivial, trivial, rfl⟩

include hS in
/-- The fields of entry `i` that are used. -/
theorem entry_image (hi : i < fs.length) :
    (entryOf heap (imageOf magic reserved fs) i).fileSize = fs[i].size ∧
      (entryOf heap (imageOf magic reserved fs) i).symbolOffset.toNat =
        symbolsLength (fs.take i) := by
  obtain ⟨-, -, hentries, -⟩ := holds_image magic reserved fs
  obtain ⟨-, hsize, hsymbol⟩ := InitRd.load_entry (InitRd.holds_entriesFrom hentries hi)
  obtain ⟨hsymbols, hcount, -⟩ := sizes_image magic reserved heap hS
  obtain ⟨hstart, hlength⟩ := parts_le fs
  have hfield : ∀ d, d + 4 ≤ 16 → (entryList heap (imageOf magic reserved fs)).word32 (16 * i + d) =
      BitVec.ofNat 32 ((fileMem (imageOf magic reserved fs)).load
        (20 + symbolsLength fs + 16 * i + d) 4) := by
    intro d hd
    unfold entryList
    rw [hsymbols, hcount, Nat.add_assoc (20 + symbolsLength fs)]
    refine word32_fread (by omega) ?_
    rw [InitRd.length_imageOf]
    omega
  unfold entryOf RdFileEntry.read
  simp only
  rw [hfield 4 (by omega), hfield 8 (by omega), hsize, hsymbol]
  refine ⟨ofNat_word _, ?_⟩
  have hbefore := InitRd.length_take_le symbol hi
  have hoffset : symbolsLength (fs.take i) ≤ symbolsLength fs := by
    unfold symbolsLength
    omega
  rw [ofNat_word]
  show (0 + BitVec.ofNat 32 (symbolsLength (fs.take i))).toNat = _
  rw [zero_add, BitVec.toNat_ofNat, Nat.mod_eq_of_lt (by omega)]

include hS in
/-- The symbol table that is read has the name of file `i` where its entry says. -/
theorem name_image (hi : i < fs.length) : (symbolTable heap (imageOf magic reserved fs)).mem.Holds
    (symbolsLength (fs.take i)) (symbol fs[i]) := by
  obtain ⟨-, hnames, -, -⟩ := holds_image magic reserved fs
  obtain ⟨hsymbols, -, -⟩ := sizes_image magic reserved heap hS
  obtain ⟨hstart, hlength⟩ := parts_le fs
  have hend := InitRd.length_take_le symbol hi
  intro k hk
  have hread := hnames.flatMap hi k hk
  have hlt : symbolsLength (fs.take i) + k < symbolsLength fs := by
    unfold symbolsLength
    omega
  unfold symbolTable
  rw [hsymbols, mem_fread hlt (by rw [InitRd.length_imageOf]; omega), ← hread, Nat.add_assoc]
  rfl

include hS in
theorem strlen_image (hi : i < fs.length) (behind : Nat) :
    (symbolTable heap (imageOf magic reserved fs)).strlen (symbolsLength fs + behind)
      (symbolsLength (fs.take i)) = some fs[i].name.val.length := by
  have hname := name_image magic reserved heap hS hi
  have hlength : (symbol fs[i]).length = fs[i].name.val.length + 1 := by simp [symbol]
  have hend := InitRd.length_take_le symbol hi
  refine strlen_eq_some_iff.mpr ⟨?_, ?_, fun j hj hzero => fs[i].name.property ?_⟩
  · unfold symbolsLength
    omega
  · have hlast := hname fs[i].name.val.length (by omega)
    refine hlast.trans ?_
    simp [symbol]
  · -- the bytes before the NUL are those of the name
    have hbyte := hname j (by omega)
    have hnamej : (symbol fs[i]).get ⟨j, by omega⟩ = fs[i].name.val[j] := by
      simp only [symbol, List.get_eq_getElem]
      exact List.getElem_append_left hj
    have hzero' : fs[i].name.val[j] = 0 := by
      rw [← hnamej, List.get_eq_getElem, ← hbyte]
      exact hzero
    exact List.mem_of_getElem hzero'

theorem cstring_symbol (f : File) : cstring (symbol f) = f.name := by
  apply Subtype.ext
  show (f.name.val ++ [0]).takeWhile (· ≠ 0) = f.name.val
  have hnonzero : ∀ b ∈ f.name.val, decide (b ≠ 0) = true := by
    intro b hb
    rw [decide_eq_true_eq]
    rintro rfl
    exact f.name.property hb
  rw [List.takeWhile_append_of_pos hnonzero]
  simp

include hS in
/-- **One round** reads one file of the list. -/
theorem nextFile_image (hsize : ∀ f ∈ fs, f.data.length = f.size.toNat) (hi : i < fs.length) :
    ∃ x, nextFile heap (imageOf magic reserved fs) i (dataStart fs + dataLength (fs.take i)) =
      some x ∧ x.file = fs[i] := by
  obtain ⟨-, -, -, hdata⟩ := holds_image magic reserved fs
  obtain ⟨hsymbols, -, -⟩ := sizes_image magic reserved heap hS
  obtain ⟨hentrySize, hoffset⟩ := entry_image magic reserved heap hS hi
  obtain ⟨hstart, hlength⟩ := parts_le fs
  have hend := InitRd.length_take_le File.data hi
  have hthis := hsize _ (List.getElem_mem hi)
  unfold nextFile
  simp only [hsymbols, hoffset, hentrySize, strlen_image magic reserved heap hS hi, Option.map_some]
  refine ⟨_, rfl, ?_⟩
  have hname := name_image magic reserved heap hS hi
  have hcells := cells_of_holds hname
  rw [show (symbol fs[i]).length = fs[i].name.val.length + 1 by simp [symbol]] at hcells
  have hcontents : ((fread (imageOf magic reserved fs) (dataStart fs + dataLength (fs.take i))
      fs[i].size.toNat (junk (heap.data i))).cells 0 fs[i].size.toNat).map Cell.byte =
        fs[i].data := by
    rw [← hthis]
    refine cells_of_holds fun k hk => ?_
    have hread := hdata.flatMap hi k hk
    rw [Nat.zero_add, ← hread]
    refine mem_fread hk ?_
    rw [InitRd.length_imageOf]
    unfold dataLength at hlength ⊢
    omega
  unfold Added.file Added.cname
  simp only
  rw [hcells, hcontents, cstring_symbol]

include hS in
/-- **All rounds.** -/
theorem filesFrom_image (hsize : ∀ f ∈ fs, f.data.length = f.size.toNat) {n : Nat}
    (hn : i + n = fs.length) : ∃ xs, filesFrom heap (imageOf magic reserved fs) n i
      (dataStart fs + dataLength (fs.take i)) = some xs ∧ xs.map Added.file = fs.drop i := by
  induction n generalizing i with
  | zero =>
      refine ⟨[], rfl, ?_⟩
      rw [List.drop_eq_nil_of_le (by omega)]
      rfl
  | succ n ih =>
      have hi : i < fs.length := by omega
      obtain ⟨x, hx, hfile⟩ := nextFile_image magic reserved heap hS hsize hi
      obtain ⟨xs, hxs, hrest⟩ := ih (i := i + 1) (by omega)
      -- the position moves on by the length of the contents
      have hpos : dataStart fs + dataLength (fs.take i) + x.size.toNat =
          dataStart fs + dataLength (fs.take (i + 1)) := by
        have hlen : x.size = fs[i].size := congrArg File.size hfile
        unfold dataLength
        rw [hlen, ← hsize _ (List.getElem_mem hi), List.take_succ_eq_append_getElem hi,
          List.flatMap_append, List.length_append, List.flatMap_singleton, Nat.add_assoc]
      refine ⟨x :: xs, ?_, ?_⟩
      · rw [filesFrom, hx]
        simp only [hpos, hxs, Option.map_some]
      · rw [List.map_cons, hfile, hrest, List.drop_eq_getElem_cons hi]

end Image

/-- A name fits its length field. -/
theorem name_lt (hS : symbolsLength fs < 2 ^ 32) {f : File} (hf : f ∈ fs) :
    f.name.val.length + 1 < 2 ^ 32 := by
  obtain ⟨i, hi, rfl⟩ := List.getElem_of_mem hf
  have hend := InitRd.length_take_le symbol hi
  have hlength : (symbol fs[i]).length = fs[i].name.val.length + 1 := by simp [symbol]
  unfold symbolsLength at hS
  omega

/-- **`Load` of an image** into an empty list gives the files of the image. -/
theorem load_image (magic reserved : Word32) (hS : symbolsLength fs < 2 ^ 32)
    (hsize : ∀ f ∈ fs, f.data.length = f.size.toNat) (hnames : (fs.map File.name).Nodup)
    {heap : Heap} (hheap : heap.Fresh 0 []) (entry : Addr → RdListEntry) :
    ∃ s l xs, load magic heap (some (imageOf magic reserved fs)) (State.init entry) =
      some (s, initrdOk, xs) ∧ xs.map Added.file = fs ∧ Represents s l fs := by
  obtain ⟨-, hcount, hstart⟩ := sizes_image magic reserved heap hS
  obtain ⟨xs, hread, hfiles⟩ := filesFrom_image magic reserved heap hS hsize (Nat.zero_add fs.length)
  rw [List.drop_zero] at hfiles
  have hempty : Represents (State.init entry) [] [] :=
    ⟨IsRing.nil, rfl, List.not_mem_nil, nofun, rfl, nofun⟩
  obtain ⟨hnew, hfold⟩ := @newOrOnly_of_nodup [] fs hnames
  have hlen : ∀ x ∈ xs, x.cname.val.length + 1 < 2 ^ 32 := by
    intro x hx
    exact name_lt hS (hfiles ▸ List.mem_map_of_mem hx)
  obtain ⟨s, l, hadd, hs, -⟩ := hempty.addAll List.nodup_nil hheap (hfiles ▸ hnew) hlen
  rw [hfiles, hfold] at hs
  refine ⟨s, l, xs, ?_, hfiles, hs⟩
  rw [load_of_accepted (by rw [headerOf_image]) (by rw [headerOf_image]), hcount, hstart]
  change filesFrom heap (imageOf magic reserved fs) fs.length 0 (dataStart fs) = _ at hread
  rw [hread, Option.bind_some, hadd]
  rfl

/-! ## The file that is written the second time -/

/-- Where two lists with the same ends differ, the middle parts do. -/
theorem getElem?_middle {α : Type} {front x y back : List α} (hlength : x.length = y.length) {j : Nat}
    (hj : (front ++ x ++ back)[j]? ≠ (front ++ y ++ back)[j]?) :
    front.length ≤ j ∧ x[j - front.length]? ≠ y[j - front.length]? := by
  -- the ends of the two lists lie at the same places
  have hback : ∀ z : List α, z.length = y.length → front.length + y.length ≤ j →
      (front ++ z ++ back)[j]? = back[j - (front.length + y.length)]? := by
    intro z hz hge
    have hend : (front ++ z).length = front.length + y.length := by rw [List.length_append, hz]
    rw [List.getElem?_append_right (by omega), hend]
  have hinner : ∀ z : List α, z.length = y.length → j < front.length + y.length →
      (front ++ z ++ back)[j]? = (front ++ z)[j]? := by
    intro z hz hlt
    have hend : (front ++ z).length = front.length + y.length := by rw [List.length_append, hz]
    exact List.getElem?_append_left (by omega)
  rcases Nat.lt_or_ge j (front.length + y.length) with hlt | hge
  · rw [hinner x hlength hlt, hinner y rfl hlt] at hj
    rcases Nat.lt_or_ge j front.length with hbefore | hin
    · rw [List.getElem?_append_left hbefore, List.getElem?_append_left hbefore] at hj
      exact absurd rfl hj
    · rw [List.getElem?_append_right hin, List.getElem?_append_right hin] at hj
      exact ⟨hin, hj⟩
  · rw [hback x hlength hge, hback y rfl hge] at hj
    exact absurd rfl hj

/-- The entries of two images differ in their last four bytes. -/
theorem getElem?_entriesFrom {first first' : RdFileEntry}
    (hoffset : first'.fileOffset = first.fileOffset)
    (hsymbol : first'.symbolOffset = first.symbolOffset) (fs : List File) {j : Nat}
    (hj : (entriesFrom first' fs)[j]? ≠ (entriesFrom first fs)[j]?) :
    ∃ i < fs.length, 16 * i + 12 ≤ j ∧ j < 16 * i + 16 := by
  induction fs generalizing first first' j with
  | nil => exact absurd rfl hj
  | cons f fs ih =>
      rw [entriesFrom, entriesFrom] at hj
      rcases Nat.lt_or_ge j 16 with hfirst | hlater
      · -- the first three fields are the same
        rw [List.getElem?_append_left (by exact hfirst),
          List.getElem?_append_left (by exact hfirst)] at hj
        unfold RdFileEntry.bytes at hj
        simp only [hoffset, hsymbol] at hj
        rw [← List.append_nil (_ ++ bytes32 first'.reserved),
          ← List.append_nil (_ ++ bytes32 first.reserved)] at hj
        have hlast := (getElem?_middle (by rfl) hj).1
        exact ⟨0, Nat.succ_pos _, hlast, hfirst⟩
      · rw [List.getElem?_append_right (by exact hlater),
          List.getElem?_append_right (by exact hlater), InitRd.length_entry_bytes,
          InitRd.length_entry_bytes] at hj
        obtain ⟨i, hi, hlo, hhi⟩ := ih (by simp only [hoffset]) (by simp only [hsymbol]) hj
        exact ⟨i + 1, Nat.succ_lt_succ hi, by omega, by omega⟩

/-- The files are the same but for the last four bytes of the entries. -/
def SameButReserved (fs : List File) (file file' : List Byte) : Prop :=
  file'.length = file.length ∧ ∀ j, file'[j]? ≠ file[j]? → ∃ i < fs.length,
    20 + symbolsLength fs + 16 * i + 12 ≤ j ∧ j < 20 + symbolsLength fs + 16 * i + 16

theorem imageOf_reserved (magic reserved reserved' : Word32) (fs : List File) :
    SameButReserved fs (imageOf magic reserved fs) (imageOf magic reserved' fs) := by
  refine ⟨by rw [InitRd.length_imageOf, InitRd.length_imageOf], fun j hj => ?_⟩
  unfold imageOf at hj
  obtain ⟨hbehind, hentries⟩ := getElem?_middle
    (by rw [InitRd.length_entriesFrom, InitRd.length_entriesFrom]) hj
  have hfront : (RdHeader.bytes ⟨magic, InitRd.initrdVersion, BitVec.ofNat 32 (imageLength fs),
      BitVec.ofNat 32 fs.length, BitVec.ofNat 32 (symbolsLength fs)⟩ ++
        fs.flatMap symbol).length = 20 + symbolsLength fs := by
    rw [List.length_append]
    rfl
  rw [hfront] at hbehind hentries
  obtain ⟨i, hi, hlo, hhi⟩ := getElem?_entriesFrom (by rfl) (by rfl) fs hentries
  exact ⟨i, hi, by omega, by omega⟩

/-- **Saving and loading again.**  The file that `Save` writes for a nonempty list with distinct
names and a complete image is loaded as the same list, and that list is saved as the same file but
for the `reserved` fields. -/
theorem save_load_roundtrip {s : State} {l : List Addr} (h : Represents s l fs) (hne : fs ≠ [])
    (hnames : (fs.map File.name).Nodup) (hsize : ∀ f ∈ fs, f.data.length = f.size.toNat)
    (hlength : imageLength fs < 2 ^ 32) {heap : Heap} (hheap : heap.Fresh 0 [])
    (magic reserved reserved' : Word32) (entry : Addr → RdListEntry) :
    ∃ file s' l' xs file', save magic reserved s = some (initrdOk, some file) ∧
      load magic heap (some file) (State.init entry) = some (s', initrdOk, xs) ∧
      Represents s' l' fs ∧ save magic reserved' s' = some (initrdOk, some file') ∧
      SameButReserved fs file file' := by
  have hS : symbolsLength fs < 2 ^ 32 := by
    obtain ⟨hstart, hend⟩ := parts_le fs
    omega
  obtain ⟨s', l', xs, hload, -, h'⟩ := load_image magic reserved hS hsize hnames hheap entry
  exact ⟨imageOf magic reserved fs, s', l', xs, imageOf magic reserved' fs,
    InitRd.save_eq h hne hsize, hload, h', InitRd.save_eq h' hne hsize,
    imageOf_reserved magic reserved reserved' fs⟩

/-- A heap of zeroed blocks that gives out list entries one behind the other. -/
def zeroHeap : Heap :=
  ⟨fun _ => 0, fun _ => 0, 0, fun _ => 0, fun _ _ => 0, fun i => 0x10000 + 48 * i⟩

theorem zeroHeap_fresh : zeroHeap.Fresh 0 [] where
  nonzero := by
    intro j _ hzero
    change 0x10000 + 48 * j = 0 at hzero
    omega
  unused := fun _ _ => List.not_mem_nil
  distinct := by
    intro j k _ hjk heq
    change 0x10000 + 48 * k = 0x10000 + 48 * j at heq
    omega

theorem twoFiles_roundtrip : ∃ s file s' l' xs, save initMagic 0 s = some (initrdOk, some file) ∧
    load initMagic zeroHeap (some file) empty.1 = some (s', initrdOk, xs) ∧
    Represents s' l' [fileA, fileB] := by
  obtain ⟨s, h⟩ := exists_twoFiles
  obtain ⟨file, s', l', xs, -, hsave, hload, h', -⟩ := save_load_roundtrip h (by decide) (by decide)
    (by decide) (by decide) zeroHeap_fresh initMagic 0 0 empty.1.entry
  exact ⟨s, file, s', l', xs, hsave, hload, h'⟩

end Buildrd
end ZineOS
