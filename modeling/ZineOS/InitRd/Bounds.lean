import ZineOS.Buildrd.SaveLoad

/-!
# Do the readers stay inside the image?

Neither reader compares an offset with the size of what it reads.

* The builder trusts `fread`: where the file is too short, names and contents are whatever `malloc`
  has returned, and a name is read on behind the symbol table until there is a NUL.
* The loader adds 32-bit offsets from the header and the entries to the address of the image.

**`readers_inside_iff`** says for both exactly which images keep them inside.
-/

namespace ZineOS
namespace Buildrd

open Lib Loader

/-! ## The builder -/

variable {magic : Word32} {heap : Heap} {bytes : List Byte} {s s' : State} {n i k pos : Nat}
  {xs : List Added}

/-- The byte has been read from the file. -/
def FromFile (bytes : List Byte) (c : Cell) : Prop :=
  ∃ p, c.source = some p ∧ bytes[p]? = some c.byte

/-- The cell of a block into which something has been read. -/
theorem fromFile_fread_iff {f : Nat → Byte} :
    FromFile bytes (fread bytes pos n (junk f) k) ↔ k < n ∧ pos + k < bytes.length := by
  constructor
  · rintro ⟨p, hsource, -⟩
    exact source_fread_iff.mp (by rw [hsource]; rfl)
  · rintro ⟨hk, hpos⟩
    rw [fread_of_lt hk hpos]
    exact ⟨pos + k, rfl, List.getElem?_eq_getElem hpos⟩

theorem forall_cells {P : Cell → Prop} {b : Block} {off : Nat} :
    (∀ c ∈ b.cells off n, P c) ↔ ∀ k < n, P (b (off + k)) := by
  unfold Block.cells
  simp

/-- The position in the file before round `i`. -/
def positionOf (heap : Heap) (bytes : List Byte) : Nat → Nat
  | 0 => filesStart heap bytes
  | i + 1 => positionOf heap bytes i + (entryOf heap bytes i).fileSize.toNat

/-- The string at the offset of entry `i` ends inside the part of the symbol table that the file has,
and the file has all of the contents. -/
structure EntryFits (heap : Heap) (bytes : List Byte) (i : Nat) : Prop where
  name : ∃ j, (entryOf heap bytes i).symbolOffset.toNat ≤ j ∧
    j < (headerOf heap bytes).symbolSize.toNat ∧ bytes[20 + j]? = some 0
  data : (entryOf heap bytes i).fileSize.toNat = 0 ∨
    positionOf heap bytes i + (entryOf heap bytes i).fileSize.toNat ≤ bytes.length

/-- What the loop reads, round by round. -/
theorem getElem_filesFrom (h : filesFrom heap bytes n i (positionOf heap bytes i) = some xs) :
    xs.length = n ∧ ∀ k (hk : k < xs.length),
      nextFile heap bytes (i + k) (positionOf heap bytes (i + k)) = some xs[k] := by
  induction n generalizing i xs with
  | zero =>
      cases h
      exact ⟨rfl, fun k hk => absurd hk (Nat.not_lt_zero k)⟩
  | succ n ih =>
      rw [filesFrom] at h
      split at h
      · cases h
      · rename_i x hx
        obtain ⟨ys, hys, rfl⟩ := Option.map_eq_some_iff.mp h
        obtain ⟨-, -, -, -, hsize⟩ := nextFile_eq_some hx
        rw [hsize] at hys
        obtain ⟨hlength, hrest⟩ := ih (i := i + 1) hys
        refine ⟨congrArg Nat.succ hlength, fun k hk => ?_⟩
        cases k with
        | zero => exact hx
        | succ k =>
            have hindex : i + (k + 1) = i + 1 + k := by omega
            rw [hindex]
            exact hrest k (Nat.lt_of_succ_lt_succ hk)

/-- **One file.**  All its bytes come from the file exactly when the entry fits. -/
theorem nextFile_fromFile_iff {x : Added}
    (h : nextFile heap bytes i (positionOf heap bytes i) = some x) :
    (∀ c ∈ x.name ++ x.data, FromFile bytes c) ↔ EntryFits heap bytes i := by
  obtain ⟨m, hm, hnameCells, hdataCells, -⟩ := nextFile_eq_some h
  obtain ⟨-, hzero, hbefore⟩ := strlen_eq_some_iff.mp hm
  rw [hnameCells, hdataCells]
  simp only [List.forall_mem_append, forall_cells, Nat.zero_add]
  unfold symbolTable at hzero hbefore ⊢
  simp only [fromFile_fread_iff]
  constructor
  · rintro ⟨hname, hdata⟩
    obtain ⟨hlast, hlong⟩ := hname m (Nat.lt_succ_self m)
    constructor
    · refine ⟨(entryOf heap bytes i).symbolOffset.toNat + m, by omega, hlast, ?_⟩
      rw [fread_of_lt hlast hlong] at hzero
      rw [List.getElem?_eq_getElem hlong]
      exact congrArg some hzero
    · by_cases hempty : (entryOf heap bytes i).fileSize.toNat = 0
      · exact Or.inl hempty
      · have hend := (hdata ((entryOf heap bytes i).fileSize.toNat - 1) (by omega)).2
        exact Or.inr (by omega)
  · rintro ⟨⟨j, hoff, hj, hnul⟩, hdata⟩
    obtain ⟨hlong, hbyte⟩ := List.getElem?_eq_some_iff.mp hnul
    -- the first NUL does not lie behind this one
    have hfirst : (entryOf heap bytes i).symbolOffset.toNat + m ≤ j := by
      by_contra hlater
      refine hbefore (j - (entryOf heap bytes i).symbolOffset.toNat) (by omega) ?_
      rw [Nat.add_sub_cancel' hoff, fread_of_lt hj hlong]
      exact hbyte
    refine ⟨fun k hk => ⟨by omega, by omega⟩, fun k hk => ⟨hk, ?_⟩⟩
    rcases hdata with hempty | hend
    · omega
    · omega

/-- **The builder.**  Every byte that a successful `Load` adds comes from the file exactly when all
entries fit. -/
theorem load_fromFile_iff (h : load magic heap (some bytes) s = some (s', initrdOk, xs)) :
    (∀ x ∈ xs, ∀ c ∈ x.name ++ x.data, FromFile bytes c) ↔
      ∀ i < (headerOf heap bytes).entryCount.toNat, EntryFits heap bytes i := by
  obtain ⟨bytes', heq, -, -, hread, -⟩ := load_ok h
  cases heq
  obtain ⟨hlength, hrounds⟩ := @getElem_filesFrom heap bytes _ 0 xs hread
  rw [← hlength]
  constructor
  · intro hall i hi
    have hround := hrounds i hi
    rw [Nat.zero_add] at hround
    exact (nextFile_fromFile_iff hround).mp (hall _ (List.getElem_mem hi))
  · intro hfits x hx
    obtain ⟨i, hi, rfl⟩ := List.getElem_of_mem hx
    have hround := hrounds i hi
    rw [Nat.zero_add] at hround
    exact (nextFile_fromFile_iff hround).mpr (hfits i hi)

end Buildrd

namespace InitRd

open Lib Loader Buildrd

/-! ## The loader -/

variable {magic : Word32} {m m' : Mem} {header : Word32} {rd : Reader 32} {len n o : Nat}

/-- The `n` bytes at `p` lie within the first `header.size` bytes of the image. -/
def InImage (m : Mem) (header p : Word32) (n : Nat) : Prop :=
  ∀ k < n, header.toNat ≤ (p + BitVec.ofNat 32 k).toNat ∧
    (p + BitVec.ofNat 32 k).toNat < header.toNat + (sizeOf m header).toNat

/-- All that `GetFile` reads and returns lies inside an image of `len` bytes: the record, the name up
to its NUL, and the contents. -/
structure StaysInside (m : Mem) (rd : Reader 32) (len : Nat) : Prop where
  size_le : (sizeOf m rd.header).toNat ≤ len
  file : ∀ index, index < getFileCount m rd → ∃ info,
    getFile m rd index = (initrdOk, some info) ∧
    InImage m rd.header (entryAt rd index) 16 ∧
    (∃ k, m (info.name + BitVec.ofNat 32 k).toNat = 0 ∧ InImage m rd.header info.name (k + 1)) ∧
    InImage m rd.header info.data info.size.toNat

/-- Where the loader looks for record `i`, from the start of the image. -/
def recordOffset (m : Mem) (header : Word32) (i : Nat) : Nat :=
  (20 + (symbolSize m header).toNat + 16 * i) % 2 ^ 32

def recordAt (m : Mem) (header : Word32) (i : Nat) : Word32 :=
  header + BitVec.ofNat 32 (recordOffset m header i)

/-- Where it looks for the name. -/
def nameOffset (m : Mem) (header : Word32) (i : Nat) : Nat :=
  (20 + (symbolOffset m (recordAt m header i)).toNat) % 2 ^ 32

/-- File `i` of an image whose sums stay below its size: the record is inside, the name has a NUL
inside, and the contents are empty or inside. -/
structure FileFits (m : Mem) (header : Word32) (i : Nat) : Prop where
  record : recordOffset m header i + 16 ≤ (sizeOf m header).toNat
  name : ∃ k, nameOffset m header i + k < (sizeOf m header).toNat ∧
    m (header.toNat + nameOffset m header i + k) = 0
  data : (fileSize m (recordAt m header i)).toNat = 0 ∨
    (fileOffset m (recordAt m header i)).toNat + (fileSize m (recordAt m header i)).toNat ≤
      (sizeOf m header).toNat

/-- An image of no more than `len` bytes in which all files fit. -/
structure ImageFits (m : Mem) (header : Word32) (len : Nat) : Prop where
  size_le : (sizeOf m header).toNat ≤ len
  file : ∀ i < (entryCount m header).toNat, FileFits m header i

/-- The bytes at an offset are inside the image exactly when the offset and their number, added
without wrapping, are not more than its size. -/
theorem inImage_iff (hfits : header.toNat + (sizeOf m header).toNat ≤ 2 ^ 32) (ho : o < 2 ^ 32) :
    InImage m header (header + BitVec.ofNat 32 o) n ↔ n = 0 ∨ o + n ≤ (sizeOf m header).toNat := by
  have hsize := (sizeOf m header).isLt
  have hheader := header.isLt
  have haddr : ∀ k, (header + BitVec.ofNat 32 o + BitVec.ofNat 32 k).toNat =
      (header.toNat + o + k) % 2 ^ 32 := by
    intro k
    rw [BitVec.toNat_add, BitVec.toNat_add, BitVec.toNat_ofNat, BitVec.toNat_ofNat]
    omega
  unfold InImage
  simp only [haddr]
  constructor
  · intro hall
    by_contra hout
    -- the first byte that would be behind the end
    have hbyte := hall (if o ≤ (sizeOf m header).toNat then (sizeOf m header).toNat - o else 0)
      (by split_ifs <;> omega)
    split_ifs at hbyte
    · omega
    · omega
  · intro hin k hk
    omega

theorem ofNat_mod (n : Nat) : BitVec.ofNat 32 (n % 2 ^ 32) = BitVec.ofNat 32 n := by
  apply BitVec.eq_of_toNat_eq
  rw [BitVec.toNat_ofNat, BitVec.toNat_ofNat, Nat.mod_mod]

/-- The pointers of a reader that has accepted the image. -/
theorem load_ok_reader {rd' : Reader 32} (h : load magic m rd header = (rd', initrdOk)) :
    rd' = ⟨header, header + 20, header + 20 + (symbolSize m header).setWidth 32⟩ := by
  unfold load at h
  dsimp only at h
  split_ifs at h
  · exact absurd (Prod.mk.inj h).2 (by decide)
  · exact absurd (Prod.mk.inj h).2 (by decide)
  · exact absurd (Prod.mk.inj h).2 (by decide)
  · exact (Prod.mk.inj h).1.symm

/-- **One file.** -/
theorem file_inside_iff (hfits : header.toNat + (sizeOf m header).toNat ≤ 2 ^ 32) (i : Nat) :
    (InImage m header (recordAt m header i) 16 ∧
      (∃ k, m (header + BitVec.ofNat 32 (nameOffset m header i) + BitVec.ofNat 32 k).toNat = 0 ∧
        InImage m header (header + BitVec.ofNat 32 (nameOffset m header i)) (k + 1)) ∧
      InImage m header (header + BitVec.ofNat 32 (fileOffset m (recordAt m header i)).toNat)
        (fileSize m (recordAt m header i)).toNat) ↔ FileFits m header i := by
  have hrecord : recordOffset m header i < 2 ^ 32 := Nat.mod_lt _ (by decide)
  have hname : nameOffset m header i < 2 ^ 32 := Nat.mod_lt _ (by decide)
  have hbyte : ∀ k, nameOffset m header i + k < (sizeOf m header).toNat →
      (header + BitVec.ofNat 32 (nameOffset m header i) + BitVec.ofNat 32 k).toNat =
        header.toNat + nameOffset m header i + k := by
    intro k hk
    rw [BitVec.toNat_add, BitVec.toNat_add, BitVec.toNat_ofNat, BitVec.toNat_ofNat]
    omega
  have hname_iff : (∃ k,
      m (header + BitVec.ofNat 32 (nameOffset m header i) + BitVec.ofNat 32 k).toNat = 0 ∧
        InImage m header (header + BitVec.ofNat 32 (nameOffset m header i)) (k + 1)) ↔
      ∃ k, nameOffset m header i + k < (sizeOf m header).toNat ∧
        m (header.toNat + nameOffset m header i + k) = 0 := by
    refine exists_congr fun k => ?_
    rw [inImage_iff hfits hname]
    constructor
    · rintro ⟨hnul, hin⟩
      have hk : nameOffset m header i + k < (sizeOf m header).toNat := by omega
      exact ⟨hk, hbyte k hk ▸ hnul⟩
    · rintro ⟨hk, hnul⟩
      exact ⟨(hbyte k hk).symm ▸ hnul, by omega⟩
  have hrecord_iff : InImage m header (recordAt m header i) 16 ↔
      recordOffset m header i + 16 ≤ (sizeOf m header).toNat := by
    unfold recordAt
    rw [inImage_iff hfits hrecord]
    omega
  rw [hrecord_iff, hname_iff, inImage_iff hfits (BitVec.isLt _)]
  exact ⟨fun h => ⟨h.1, h.2.1, h.2.2⟩, fun h => ⟨h.record, h.name, h.data⟩⟩

section Opened

variable {rd : Reader 32}
  (hrd : rd = ⟨header, header + 20, header + 20 + (symbolSize m header).setWidth 32⟩)

include hrd in
theorem entryAt_eq (index : Word64) : entryAt rd index = recordAt m header index.toNat := by
  have hindex : (index * 16).setWidth 32 = BitVec.ofNat 32 (16 * index.toNat) := by
    apply BitVec.eq_of_toNat_eq
    rw [BitVec.toNat_setWidth, BitVec.toNat_mul, BitVec.toNat_ofNat, Nat.mul_comm]
    exact Nat.mod_mod_of_dvd _ (by decide)
  unfold entryAt recordAt recordOffset
  rw [hrd, hindex, ofNat_mod, BitVec.ofNat_add, BitVec.ofNat_add, ofNat_word, BitVec.setWidth_eq]
  simp only [BitVec.add_assoc]
  rfl

include hrd in
/-- What `GetFile` returns for an index below the count. -/
theorem getFile_record {index : Word64} (hzero : header ≠ 0)
    (hindex : index < getFileCount m rd) : getFile m rd index = (initrdOk, some
      { data := header + BitVec.ofNat 32 (fileOffset m (recordAt m header index.toNat)).toNat
        size := fileSize m (recordAt m header index.toNat)
        name := header + BitVec.ofNat 32 (nameOffset m header index.toNat) }) := by
  have hentry := entryAt_eq hrd index
  have hheader : rd.header = header := by rw [hrd]
  have hname : rd.symbolTable + (symbolOffset m (recordAt m header index.toNat)).setWidth 32 =
      header + BitVec.ofNat 32 (nameOffset m header index.toNat) := by
    unfold nameOffset
    rw [hrd, ofNat_mod, BitVec.ofNat_add, ofNat_word, BitVec.setWidth_eq]
    exact BitVec.add_assoc _ _ _
  unfold getFileCount at hindex
  rw [hheader, if_neg hzero] at hindex
  unfold getFile
  rw [hheader, if_neg hzero, if_neg (BitVec.not_le.mpr hindex)]
  simp only [hentry]
  rw [hname, ofNat_word, BitVec.setWidth_eq]

include hrd in
theorem lt_getFileCount_iff (hzero : header ≠ 0) {index : Word64} :
    index < getFileCount m rd ↔ index.toNat < (entryCount m header).toNat := by
  have hcount := (entryCount m header).isLt
  have hheader : rd.header = header := by rw [hrd]
  unfold getFileCount
  rw [hheader, if_neg hzero, BitVec.lt_def, BitVec.toNat_setWidth, Nat.mod_eq_of_lt (by omega)]

end Opened

/-- **The loader.**  After a successful `Load` everything that `GetFile` reads and returns lies inside
the image exactly when the image fits. -/
theorem staysInside_iff {rd' : Reader 32} (h : load magic m rd header = (rd', initrdOk))
    (hsymbols : symbolSize m' header = symbolSize m header) (hfits : header.toNat + len ≤ 2 ^ 32) :
    StaysInside m' rd' len ↔ ImageFits m' header len := by
  have hzero : header ≠ 0 := by
    rintro rfl
    exact absurd (Prod.mk.inj h).2 (by decide)
  have hrd := load_ok_reader h
  rw [← hsymbols] at hrd
  have hheader : rd'.header = header := by rw [hrd]
  constructor
  · intro hinside
    have hle := hheader ▸ hinside.size_le
    refine ⟨hle, fun i hi => ?_⟩
    have hcount := (entryCount m' header).isLt
    have hindex : (BitVec.ofNat 64 i).toNat = i := by
      rw [BitVec.toNat_ofNat, Nat.mod_eq_of_lt (by omega)]
    have hlt := (lt_getFileCount_iff hrd hzero).mpr (hindex.symm ▸ hi)
    obtain ⟨info, hget, hparts⟩ := hinside.file (BitVec.ofNat 64 i) hlt
    rw [getFile_record hrd hzero hlt] at hget
    cases hget
    rw [hheader, entryAt_eq hrd, hindex] at hparts
    exact (file_inside_iff (by omega) i).mp hparts
  · intro himage
    have hle := himage.size_le
    refine ⟨hheader.symm ▸ hle, fun index hlt => ⟨_, getFile_record hrd hzero hlt, ?_⟩⟩
    have hi := (lt_getFileCount_iff hrd hzero).mp hlt
    rw [hheader, entryAt_eq hrd]
    exact (file_inside_iff (by omega) _).mpr (himage.file _ hi)

/-- The loader's `Load` gives the reader that `load` does. -/
theorem load_of_loaderLoad {s : Machine} {initRd : Word64}
    (h : (loaderLoad magic s initRd rd header).2.2.2 = initrdOk) :
    load magic s.mem rd header = ((loaderLoad magic s initRd rd header).2.2.1, initrdOk) := by
  have hrun := @loaderLoad_reader magic s initRd rd header
  rw [← hrun, ← h]

/-! ## An image that nobody writes to -/

/-- The five words of the header and the `len` bytes of the image are what they were. -/
structure ImageKept (m m' : Mem) (header : Word32) (len : Nat) : Prop where
  words : ∀ d < 5, Mem.AgreeOn m m' (header + BitVec.ofNat 32 (4 * d)).toNat 4
  image : Mem.AgreeOn m m' header.toNat len

theorem ImageKept.symm (h : ImageKept m m' header len) : ImageKept m' m header len :=
  ⟨fun d hd => (h.words d hd).symm, h.image.symm⟩

theorem ImageKept.word (h : ImageKept m m' header len) {d : Nat} (hd : d < 5) :
    read32 m (header + BitVec.ofNat 32 (4 * d)) = read32 m' (header + BitVec.ofNat 32 (4 * d)) :=
  congrArg (BitVec.ofNat 32) (Mem.load_congr (h.words d hd))

theorem ImageKept.fits (h : ImageKept m m' header len) (hfits : header.toNat + len ≤ 2 ^ 32)
    (himage : ImageFits m header len) : ImageFits m' header len := by
  have hsize : sizeOf m header = sizeOf m' header := h.word (d := 2) (by decide)
  have hcount : entryCount m header = entryCount m' header := h.word (d := 3) (by decide)
  have hsymbols : symbolSize m header = symbolSize m' header := h.word (d := 4) (by decide)
  have hoffset : ∀ i, recordOffset m header i = recordOffset m' header i := by
    intro i
    unfold recordOffset
    rw [hsymbols]
  have hat : ∀ i, recordAt m header i = recordAt m' header i := by
    intro i
    unfold recordAt
    rw [hoffset]
  -- the fields of a record inside the image
  have hfield : ∀ i < (entryCount m header).toNat, ∀ d ≤ 12,
      read32 m (recordAt m header i + BitVec.ofNat 32 d) =
        read32 m' (recordAt m header i + BitVec.ofNat 32 d) := by
    intro i hi d hd
    have hrecord := (himage.file i hi).record
    have hle := himage.size_le
    have haddr : (recordAt m header i + BitVec.ofNat 32 d).toNat =
        header.toNat + recordOffset m header i + d := by
      unfold recordAt
      rw [BitVec.toNat_add, BitVec.toNat_add, BitVec.toNat_ofNat, BitVec.toNat_ofNat]
      omega
    refine congrArg (BitVec.ofNat 32) (Mem.load_congr ?_)
    rw [haddr]
    exact fun x hlo hhi => h.image x (by omega) (by omega)
  have hname : ∀ i < (entryCount m header).toNat, nameOffset m header i = nameOffset m' header i := by
    intro i hi
    unfold nameOffset symbolOffset
    rw [← hat]
    exact congrArg (fun v : Word32 => (20 + v.toNat) % 2 ^ 32) (hfield i hi 8 (by decide))
  refine ⟨hsize ▸ himage.size_le, fun i hi => ?_⟩
  rw [← hcount] at hi
  have hfile := himage.file i hi
  constructor
  · rw [← hoffset, ← hsize]
    exact hfile.record
  · obtain ⟨k, hk, hnul⟩ := hfile.name
    have hle := himage.size_le
    rw [← hname i hi, ← hsize]
    exact ⟨k, hk, (h.image _ (by omega) (by omega)).symm.trans hnul⟩
  · have hoff : fileOffset m (recordAt m header i) = fileOffset m' (recordAt m header i) := by
      have hword := hfield i hi 0 (by decide)
      rwa [BitVec.add_zero] at hword
    have hsz : fileSize m (recordAt m header i) = fileSize m' (recordAt m header i) :=
      hfield i hi 4 (by decide)
    rw [← hat, ← hoff, ← hsz, ← hsize]
    exact hfile.data

/-- **What keeps the readers inside the image.**  For every byte string `bytes`: all that a successful
`Load` of the builder adds has been read from it exactly when every entry fits; and while it stays in
memory, all that the loader's `GetFile` reads and returns after a successful `Load` lies inside it
exactly when the image fits. -/
theorem readers_inside_iff (magic : Word32) (bytes : List Byte) :
    (∀ heap s s' xs,
      Buildrd.load magic heap (some bytes) s = some (s', Buildrd.initrdOk, xs) →
      ((∀ x ∈ xs, ∀ c ∈ x.name ++ x.data, FromFile bytes c) ↔
        ∀ i < (headerOf heap bytes).entryCount.toNat, EntryFits heap bytes i)) ∧
    (∀ (s : Machine) (initRd : Word64) (rd : Reader 32) (header : Word32) (m' : Mem),
      header.toNat + bytes.length ≤ 2 ^ 32 → s.mem.Holds header.toNat bytes →
      (loaderLoad magic s initRd rd header).2.2.2 = initrdOk →
      ImageKept s.mem m' header bytes.length →
      (StaysInside m' (loaderLoad magic s initRd rd header).2.2.1 bytes.length ↔
        ImageFits s.mem header bytes.length)) := by
  refine ⟨fun heap s s' xs h => load_fromFile_iff h, ?_⟩
  intro s initRd rd header m' hfits _ hok hkept
  have hsymbols : symbolSize m' header = symbolSize s.mem header := hkept.symm.word (d := 4) (by decide)
  rw [staysInside_iff (load_of_loaderLoad hok) hsymbols hfits]
  exact ⟨hkept.symm.fits hfits, hkept.fits hfits⟩

/-- A machine that has nothing in memory but these bytes, from 1 MB on. -/
def machineWith (bytes : List Byte) : Machine :=
  ⟨fun x => if 0x100000 ≤ x then bytes.getD (x - 0x100000) 0 else 0, Frame.empty, 0x10000, []⟩

/-- A good image. -/
def goodImage : List Byte := imageOf initMagic 0 [fileA, fileB]

theorem goodImage_inside :
    (∃ s' xs, Buildrd.load initMagic zeroHeap (some goodImage) Buildrd.empty.1 =
        some (s', Buildrd.initrdOk, xs) ∧ ∀ x ∈ xs, ∀ c ∈ x.name ++ x.data, FromFile goodImage c) ∧
      StaysInside (machineWith goodImage).mem
        (loaderLoad initMagic (machineWith goodImage) 0 ⟨0, 0, 0⟩ 0x100000).2.2.1 goodImage.length := by
  constructor
  · obtain ⟨s', l, xs, hload, -, -⟩ := @load_image [fileA, fileB] initMagic 0 (by decide)
      (by decide) (by decide) zeroHeap zeroHeap_fresh Buildrd.empty.1.entry
    refine ⟨s', xs, hload, ((readers_inside_iff initMagic goodImage).1 _ _ _ _ hload).mpr ?_⟩
    have hcount : (headerOf zeroHeap goodImage).entryCount.toNat = 2 := by decide +kernel
    rw [hcount]
    intro i hi
    interval_cases i
    · exact ⟨⟨1, by decide +kernel, by decide +kernel, by decide +kernel⟩,
        Or.inr (by decide +kernel)⟩
    · exact ⟨⟨3, by decide +kernel, by decide +kernel, by decide +kernel⟩,
        Or.inr (by decide +kernel)⟩
  · refine ((readers_inside_iff initMagic goodImage).2 _ _ _ _ _ (by decide) ?_ ?_ ?_).mpr ?_
    · unfold Mem.Holds
      decide +kernel
    · rw [loaderLoad_reader]
      decide +kernel
    · exact ⟨fun _ _ _ _ _ => rfl, fun _ _ _ => rfl⟩
    · have hcount : (entryCount (machineWith goodImage).mem (0x100000 : Word32)).toNat = 2 := by
        decide +kernel
      refine ⟨by decide +kernel, ?_⟩
      rw [hcount]
      intro i hi
      interval_cases i
      · exact ⟨by decide +kernel, ⟨1, by decide +kernel, by decide +kernel⟩,
          Or.inr (by decide +kernel)⟩
      · exact ⟨by decide +kernel, ⟨1, by decide +kernel, by decide +kernel⟩,
          Or.inr (by decide +kernel)⟩

/-- A header that promises one file and has nothing behind it. -/
def headerAlone : List Byte := RdHeader.bytes ⟨initMagic, initrdVersion, 20, 1, 0⟩

/-- The header is accepted by both.  The builder adds a file whose name it has read behind the empty
symbol table, and the loader reads the record of the file behind the image. -/
theorem headerAlone_read_behind :
    (∃ s' xs, Buildrd.load initMagic { zeroHeap with behind := 1 } (some headerAlone)
        Buildrd.empty.1 = some (s', Buildrd.initrdOk, xs) ∧
      ¬ ∀ x ∈ xs, ∀ c ∈ x.name ++ x.data, FromFile headerAlone c) ∧
    (loaderLoad initMagic (machineWith headerAlone) 0 ⟨0, 0, 0⟩ 0x100000).2.2.2 = initrdOk ∧
      ¬ StaysInside (machineWith headerAlone).mem
        (loaderLoad initMagic (machineWith headerAlone) 0 ⟨0, 0, 0⟩ 0x100000).2.2.1
        headerAlone.length := by
  refine ⟨?_, ?_, ?_⟩
  · have hheap : ({ zeroHeap with behind := 1 } : Heap).Fresh 0 [] :=
      ⟨zeroHeap_fresh.nonzero, zeroHeap_fresh.unused, zeroHeap_fresh.distinct⟩
    have hread : filesFrom { zeroHeap with behind := 1 } headerAlone 1 0 36 =
        some [⟨[⟨0, none⟩], [], 0⟩] := by decide +kernel
    have hnew : NewOrOnly [] (List.map Added.file [⟨[⟨0, none⟩], [], 0⟩]) :=
      ⟨Or.inr (by decide), trivial⟩
    obtain ⟨s', l, hadd, -⟩ := Buildrd.empty_represents.addAll List.nodup_nil hheap hnew (by decide)
    refine ⟨s', [⟨[⟨0, none⟩], [], 0⟩], ?_, ?_⟩
    · have hcount : (headerOf { zeroHeap with behind := 1 } headerAlone).entryCount.toNat = 1 := by
        decide +kernel
      have hstart : filesStart { zeroHeap with behind := 1 } headerAlone = 36 := by decide +kernel
      rw [load_of_accepted (by decide +kernel) (by decide +kernel), hcount, hstart, hread,
        Option.bind_some, hadd]
      rfl
    · intro hall
      obtain ⟨p, hp, -⟩ := hall _ List.mem_cons_self ⟨0, none⟩ List.mem_cons_self
      cases hp
  · rw [loaderLoad_reader]
    decide +kernel
  · rw [loaderLoad_reader]
    intro hinside
    have hload : load initMagic (machineWith headerAlone).mem ⟨0, 0, 0⟩ (0x100000 : Word32) =
        (⟨0x100000, 0x100014, 0x100014⟩, initrdOk) := by
      unfold load
      have hsymbols : symbolSize (machineWith headerAlone).mem (0x100000 : Word32) = 0 := by
        decide +kernel
      rw [if_neg (by decide), if_neg (by decide +kernel), if_neg (by decide +kernel), hsymbols]
      rfl
    have hfile := ((staysInside_iff hload rfl (by decide)).mp (hload ▸ hinside)).file 0
      (by decide +kernel)
    exact absurd hfile.record (by decide +kernel)

end InitRd
end ZineOS
