import ZineOS.InitRd.Image

/-!
# What is saved can be read

Both readers, at 32-bit and at 64-bit pointers, answer from a stored image with exactly the files
it was made of.
-/

namespace ZineOS
namespace InitRd

open Lib Loader Buildrd

variable {w : Nat} {magic : Word32} {m : Mem} {base i : Nat} {l : List File} {rd : Reader w}

/-! ## Pointers into the image -/

theorem toNat_add_ofNat {p : BitVec w} {n : Nat} (h : p.toNat + n < 2 ^ w) :
    (p + BitVec.ofNat w n).toNat = p.toNat + n := by
  rw [BitVec.toNat_add, BitVec.toNat_ofNat,
    Nat.mod_eq_of_lt (lt_of_le_of_lt (Nat.le_add_left _ _) h), Nat.mod_eq_of_lt h]

theorem toNat_add_setWidth {p : BitVec w} {v : Word32} (h : p.toNat + v.toNat < 2 ^ w) :
    (p + v.setWidth w).toNat = p.toNat + v.toNat := by
  rw [BitVec.toNat_add, BitVec.toNat_setWidth,
    Nat.mod_eq_of_lt (lt_of_le_of_lt (Nat.le_add_left _ _) h), Nat.mod_eq_of_lt h]

theorem toNat_read32 (m : Mem) (p : BitVec w) : (read32 m p).toNat = m.load p.toNat 4 := by
  have hlt := Mem.load_lt (a := p.toNat) (n := 4) m
  unfold read32
  rw [BitVec.toNat_ofNat]
  exact Nat.mod_eq_of_lt hlt

/-- The members of the reader after a successful `Load`. -/
structure Opened (rd : Reader w) (base : Nat) (l : List File) : Prop where
  header : rd.header.toNat = base
  symbolTable : rd.symbolTable.toNat = base + 20
  entryList : rd.entryList.toNat = base + 20 + symbolsLength l

/-- An image in the address space of both programs. -/
structure Fits (w base : Nat) (l : List File) : Prop where
  width : 32 ≤ w
  start : base ≠ 0
  fits : base + imageLength l < 2 ^ 32

theorem Fits.lt (h : Fits w base l) {n : Nat} (hn : n ≤ base + imageLength l) : n < 2 ^ w :=
  lt_of_lt_of_le (lt_of_le_of_lt hn h.fits) (Nat.pow_le_pow_right (by omega) h.width)

theorem dataStart_le (l : List File) : dataStart l ≤ imageLength l := Nat.le_add_right _ _

/-- `Load` accepts a stored image. -/
theorem load_eq (hs : Stored magic m base l) (hf : Fits w base l) (rd : Reader w) :
    (load magic m rd (BitVec.ofNat w base)).2 = initrdOk ∧
      Opened (load magic m rd (BitVec.ofNat w base)).1 base l := by
  have hstart := dataStart_le l
  unfold dataStart at hstart
  have hbase : (BitVec.ofNat w base).toNat = base := by
    rw [BitVec.toNat_ofNat, Nat.mod_eq_of_lt (hf.lt (by omega))]
  have hfield : ∀ n, n ≤ 20 → (BitVec.ofNat w base + BitVec.ofNat w n).toNat = base + n := by
    intro n hn
    rw [toNat_add_ofNat (by rw [hbase]; exact hf.lt (by omega)), hbase]
  have hnonzero : BitVec.ofNat w base ≠ 0 := by
    intro hzero
    rw [hzero] at hbase
    exact hf.start (by simpa using hbase.symm)
  have hmagic : magicOf m (BitVec.ofNat w base) = magic := by
    apply BitVec.eq_of_toNat_eq
    unfold magicOf
    rw [toNat_read32, hbase, hs.magic]
  have hversion : versionOf m (BitVec.ofNat w base) = initrdVersion := by
    apply BitVec.eq_of_toNat_eq
    have hfour : (BitVec.ofNat w base + 4).toNat = base + 4 := hfield 4 (by omega)
    unfold versionOf
    rw [toNat_read32, hfour, hs.version]
    rfl
  have hsymbols : (symbolSize m (BitVec.ofNat w base)).toNat = symbolsLength l := by
    have hsixteen : (BitVec.ofNat w base + 16).toNat = base + 16 := hfield 16 (by omega)
    unfold symbolSize
    rw [toNat_read32, hsixteen, hs.symbolSize]
  -- both checks pass, and the three pointers are set
  have hload : load magic m rd (BitVec.ofNat w base) =
      (⟨BitVec.ofNat w base, BitVec.ofNat w base + 20,
        BitVec.ofNat w base + 20 + (symbolSize m (BitVec.ofNat w base)).setWidth w⟩, initrdOk) := by
    unfold load
    rw [if_neg hnonzero, if_neg (not_not_intro hmagic), if_neg (not_not_intro hversion)]
  rw [hload]
  refine ⟨rfl, hbase, hfield 20 le_rfl, ?_⟩
  have htable : (BitVec.ofNat w base + 20).toNat = base + 20 := hfield 20 le_rfl
  show (BitVec.ofNat w base + 20 + (symbolSize m (BitVec.ofNat w base)).setWidth w).toNat = _
  rw [toNat_add_setWidth (by rw [htable, hsymbols]; exact hf.lt (by omega)), htable, hsymbols]

/-! ## `GetFile` -/

/-- What `GetFile` has to say about a file: its name, size and contents, all inside the image. -/
structure Gives (m : Mem) (base : Nat) (l : List File) (info : RdFileInfo w) (f : File) : Prop where
  name : m.Holds info.name.toNat (symbol f)
  size : info.size = f.size
  data : m.Holds info.data.toNat f.data
  name_inside : base ≤ info.name.toNat ∧ info.name.toNat + (symbol f).length ≤ base + imageLength l
  data_inside : base ≤ info.data.toNat ∧ info.data.toNat + f.data.length ≤ base + imageLength l

theorem Opened.count (ho : Opened rd base l) (hs : Stored magic m base l) (hf : Fits w base l) :
    (entryCount m rd.header).toNat = l.length := by
  have hstart := dataStart_le l
  unfold dataStart at hstart
  unfold entryCount
  rw [toNat_read32]
  show m.load (rd.header + BitVec.ofNat w 12).toNat 4 = _
  rw [toNat_add_ofNat (by rw [ho.header]; exact hf.lt (by omega)), ho.header, hs.entryCount]

theorem Opened.header_ne_zero (ho : Opened rd base l) (hf : Fits w base l) : rd.header ≠ 0 := by
  intro hzero
  have hbase := ho.header
  rw [hzero] at hbase
  exact hf.start (by simpa using hbase.symm)

theorem Opened.toNat_entryAt (ho : Opened rd base l) (hf : Fits w base l) (hi : i < l.length) :
    (entryAt rd (BitVec.ofNat 64 i)).toNat = base + 20 + symbolsLength l + 16 * i := by
  have hstart := dataStart_le l
  have hfits := hf.fits
  unfold dataStart at hstart
  have hindex : (BitVec.ofNat 64 i * 16).setWidth w = BitVec.ofNat w (16 * i) := by
    apply BitVec.eq_of_toNat_eq
    rw [BitVec.toNat_setWidth, BitVec.toNat_mul, BitVec.toNat_ofNat, BitVec.toNat_ofNat]
    show (i % 2 ^ 64 * 16 % 2 ^ 64) % 2 ^ w = 16 * i % 2 ^ w
    have hsmall : i % 2 ^ 64 * 16 % 2 ^ 64 = 16 * i := by omega
    rw [hsmall]
  unfold entryAt
  rw [hindex, toNat_add_ofNat (by rw [ho.entryList]; exact hf.lt (by omega)), ho.entryList]

/-- The words of an entry, which lie `n` bytes behind its start. -/
theorem Opened.toNat_field (ho : Opened rd base l) (hf : Fits w base l) (hi : i < l.length) {n : Nat}
    (hn : n ≤ 16) : (entryAt rd (BitVec.ofNat 64 i) + BitVec.ofNat w n).toNat =
      base + 20 + symbolsLength l + 16 * i + n := by
  have hentry := ho.toNat_entryAt hf hi
  have hstart := dataStart_le l
  unfold dataStart at hstart
  rw [toNat_add_ofNat (by rw [hentry]; exact hf.lt (by omega)), hentry]

theorem Opened.fileOffset (ho : Opened rd base l) (hs : Stored magic m base l) (hf : Fits w base l)
    (hi : i < l.length) :
    (fileOffset m (entryAt rd (BitVec.ofNat 64 i))).toNat = fileStart l i := by
  unfold InitRd.fileOffset
  rw [toNat_read32, ho.toNat_entryAt hf hi, hs.offset i hi]

theorem Opened.fileSize (ho : Opened rd base l) (hs : Stored magic m base l) (hf : Fits w base l)
    (hi : i < l.length) :
    (fileSize m (entryAt rd (BitVec.ofNat 64 i))).toNat = l[i].data.length := by
  have hfour : (entryAt rd (BitVec.ofNat 64 i) + 4).toNat = _ :=
    ho.toNat_field hf hi (n := 4) (by omega)
  unfold InitRd.fileSize
  rw [toNat_read32, hfour, hs.fileSize i hi]

theorem Opened.symbolOffset (ho : Opened rd base l) (hs : Stored magic m base l)
    (hf : Fits w base l) (hi : i < l.length) :
    (symbolOffset m (entryAt rd (BitVec.ofNat 64 i))).toNat = symbolsLength (l.take i) := by
  have height : (entryAt rd (BitVec.ofNat 64 i) + 8).toNat = _ :=
    ho.toNat_field hf hi (n := 8) (by omega)
  unfold InitRd.symbolOffset
  rw [toNat_read32, height, hs.symbolStart i hi]

/-- **A file of the image is read back.** -/
theorem getFile_eq (ho : Opened rd base l) (hs : Stored magic m base l) (hf : Fits w base l)
    (hsize : ∀ f ∈ l, f.data.length = f.size.toNat) (hi : i < l.length) :
    ∃ info, getFile m rd (BitVec.ofNat 64 i) = (initrdOk, some info) ∧
      info.name.toNat = base + 20 + symbolsLength (l.take i) ∧ Gives m base l info l[i] := by
  have hcount := ho.count hs hf
  have hstart := dataStart_le l
  have hfits := hf.fits
  have hnames := length_take_le symbol hi
  have hdata := length_take_le File.data hi
  have hindex : ¬ (entryCount m rd.header).setWidth 64 ≤ BitVec.ofNat 64 i := by
    rw [BitVec.le_def, BitVec.toNat_setWidth, BitVec.toNat_ofNat, hcount]
    unfold dataStart at hstart
    omega
  -- the two pointers: into the symbol table and behind the header
  have hname : (rd.symbolTable +
      (symbolOffset m (entryAt rd (BitVec.ofNat 64 i))).setWidth w).toNat =
      base + 20 + symbolsLength (l.take i) := by
    have hsymbol := ho.symbolOffset hs hf hi
    rw [toNat_add_setWidth, ho.symbolTable, hsymbol]
    rw [ho.symbolTable, hsymbol]
    refine hf.lt ?_
    unfold dataStart symbolsLength at *
    omega
  have hcontents : (rd.header + (fileOffset m (entryAt rd (BitVec.ofNat 64 i))).setWidth w).toNat =
      base + fileStart l i := by
    have hoffset := ho.fileOffset hs hf hi
    rw [toNat_add_setWidth, ho.header, hoffset]
    rw [ho.header, hoffset]
    refine hf.lt ?_
    unfold fileStart imageLength dataLength
    omega
  have hget : getFile m rd (BitVec.ofNat 64 i) = (initrdOk, some
      { data := rd.header + (fileOffset m (entryAt rd (BitVec.ofNat 64 i))).setWidth w
        size := fileSize m (entryAt rd (BitVec.ofNat 64 i))
        name := rd.symbolTable +
          (symbolOffset m (entryAt rd (BitVec.ofNat 64 i))).setWidth w }) := by
    unfold getFile
    rw [if_neg (ho.header_ne_zero hf), if_neg hindex]
  refine ⟨_, hget, hname, ⟨?_, ?_, ?_, ?_, ?_⟩⟩
  · rw [hname]
    exact hs.names.flatMap hi
  · apply BitVec.eq_of_toNat_eq
    rw [ho.fileSize hs hf hi]
    exact hsize _ (List.getElem_mem hi)
  · rw [hcontents, fileStart, ← Nat.add_assoc]
    exact hs.contents.flatMap hi
  · rw [hname]
    unfold dataStart symbolsLength at *
    omega
  · rw [hcontents]
    unfold fileStart imageLength dataLength
    omega

/-- An index behind the last file. -/
theorem getFile_beyond (ho : Opened rd base l) (hs : Stored magic m base l) (hf : Fits w base l)
    {index : Word64} (hi : l.length ≤ index.toNat) :
    getFile m rd index = (initrdFileNotFound, none) := by
  have hcount := ho.count hs hf
  have hindex : (entryCount m rd.header).setWidth 64 ≤ index := by
    rw [BitVec.le_def, BitVec.toNat_setWidth, hcount,
      Nat.mod_eq_of_lt (by rw [← hcount]; exact lt_trans (entryCount m rd.header).isLt (by decide))]
    exact hi
  unfold getFile
  rw [if_neg (ho.header_ne_zero hf), if_pos hindex]

/-! ## `FindFile` -/

/-- `strcmp` compares two NUL-terminated strings. -/
theorem strcmp_eq {n n' : List Byte} (hn : 0 ∉ n) (hn' : 0 ∉ n') {p q : BitVec w}
    (hp : m.Holds p.toNat (n ++ [0])) (hq : m.Holds q.toNat (n' ++ [0]))
    (hpw : p.toNat + n.length < 2 ^ w) (hqw : q.toNat + n'.length < 2 ^ w) {fuel : Nat}
    (hfuel : n.length < fuel) : strcmp m fuel p q = some (if n = n' then 0 else 1) := by
  induction n generalizing n' p q fuel with
  | nil =>
      obtain ⟨fuel, rfl⟩ : ∃ f, fuel = f + 1 := ⟨fuel - 1, by omega⟩
      have hzero : m p.toNat = 0 := (Mem.holds_cons.mp hp).1
      rw [strcmp, if_neg (by simp [hzero]), hzero]
      cases n' with
      | nil =>
          have hzero' : m q.toNat = 0 := (Mem.holds_cons.mp hq).1
          rw [if_pos hzero'.symm, if_pos rfl]
      | cons c n' =>
          have hc : m q.toNat = c := (Mem.holds_cons.mp hq).1
          have hne : ¬ (0 : Byte) = m q.toNat := fun heq => hn' (heq.trans hc ▸ List.mem_cons_self)
          rw [if_neg hne, if_neg (by simp)]
  | cons c n ih =>
      obtain ⟨fuel, rfl⟩ : ∃ f, fuel = f + 1 := ⟨fuel - 1, by omega⟩
      obtain ⟨hc, hrest⟩ := Mem.holds_cons.mp hp
      have hc0 : c ≠ 0 := fun heq => hn (heq ▸ List.mem_cons_self)
      rw [strcmp, hc]
      cases n' with
      | nil =>
          have hzero' : m q.toNat = 0 := (Mem.holds_cons.mp hq).1
          rw [hzero', if_neg (by simp), if_neg hc0, if_neg (by simp)]
      | cons c' n' =>
          obtain ⟨hc', hrest'⟩ := Mem.holds_cons.mp hq
          have hc0' : c' ≠ 0 := fun heq => hn' (heq ▸ List.mem_cons_self)
          rw [hc', if_pos ⟨hc0, hc0'⟩]
          by_cases heq : c = c'
          · -- the strings go on
            subst heq
            rw [List.length_cons] at hpw hqw hfuel
            have hp1 : (p + 1).toNat = p.toNat + 1 := toNat_add_ofNat (n := 1) (by omega)
            have hq1 : (q + 1).toNat = q.toNat + 1 := toNat_add_ofNat (n := 1) (by omega)
            rw [if_neg (not_not_intro rfl),
              ih (fun h => hn (List.mem_cons_of_mem _ h)) (fun h => hn' (List.mem_cons_of_mem _ h))
                (hp1 ▸ hrest) (hq1 ▸ hrest') (by omega) (by omega) (by omega)]
            simp
          · rw [if_pos heq, if_neg (by simp [heq])]

/-- What `FindFile` answers: the first file of that name at index `i` or later. -/
def findFrom (m : Mem) (rd : Reader w) (l : List File) (name : CString) (i : Nat) :
    Word64 × Option (RdFileInfo w) :=
  match (l.drop i).findIdx? fun f => f.name = name with
  | some j => getFile m rd (BitVec.ofNat 64 (i + j))
  | none => (initrdFileNotFound, none)

theorem findFrom_end {name : CString} : findFrom m rd l name l.length =
    (initrdFileNotFound, none) := by
  rw [findFrom, List.drop_length]
  rfl

theorem findFrom_found {name : CString} (hi : i < l.length) (heq : name = l[i].name) :
    findFrom m rd l name i = getFile m rd (BitVec.ofNat 64 i) := by
  rw [findFrom, List.drop_eq_getElem_cons hi, List.findIdx?_cons,
    if_pos (decide_eq_true heq.symm)]
  rfl

theorem findFrom_skip {name : CString} (hi : i < l.length) (hne : name ≠ l[i].name) :
    findFrom m rd l name i = findFrom m rd l name (i + 1) := by
  unfold findFrom
  rw [List.drop_eq_getElem_cons hi, List.findIdx?_cons, if_neg (by simpa using Ne.symm hne)]
  cases (l.drop (i + 1)).findIdx? fun f => f.name = name with
  | none => rfl
  | some j =>
      have hshift : i + (j + 1) = i + 1 + j := by omega
      simp only [Option.map_some, hshift]

theorem findLoop_eq (ho : Opened rd base l) (hs : Stored magic m base l) (hf : Fits w base l)
    (hsize : ∀ f ∈ l, f.data.length = f.size.toNat) {name : CString} {p : BitVec w}
    (hp : m.Holds p.toNat (name.val ++ [0])) (hpw : p.toNat + name.val.length < 2 ^ w) {fuel : Nat}
    (hi : i ≤ l.length) (hfuel : l.length - i < fuel) :
    findLoop m rd p fuel (BitVec.ofNat 32 i) = some (findFrom m rd l name i) := by
  have hcount := ho.count hs hf
  have hlen : l.length < 2 ^ 32 := by rw [← hcount]; exact (entryCount m rd.header).isLt
  induction fuel generalizing i with
  | zero => omega
  | succ fuel ih =>
      rw [findLoop]
      rcases Nat.eq_or_lt_of_le hi with rfl | hlt
      · have hend : BitVec.ofNat 32 l.length = entryCount m rd.header := by
          rw [← hcount, BitVec.ofNat_toNat, BitVec.setWidth_eq]
        rw [if_pos hend, findFrom_end]
      · have hnot : BitVec.ofNat 32 i ≠ entryCount m rd.header := by
          intro heq
          have hnat := congrArg BitVec.toNat heq
          rw [hcount, BitVec.toNat_ofNat] at hnat
          omega
        have hindex : (BitVec.ofNat 32 i).setWidth 64 = BitVec.ofNat 64 i := by
          apply BitVec.eq_of_toNat_eq
          rw [BitVec.toNat_setWidth, BitVec.toNat_ofNat, BitVec.toNat_ofNat]
          omega
        obtain ⟨info, hget, hname, hgives⟩ := getFile_eq ho hs hf hsize hlt
        have hinside : info.name.toNat + l[i].name.val.length < 2 ^ w := by
          have hend := hgives.name_inside.2
          rw [symbol, List.length_append, List.length_singleton] at hend
          exact hf.lt (by omega)
        -- the name in the image is compared as a C string
        have hstrings := strcmp_eq name.2 l[i].name.2 hp hgives.name hpw hinside
          (show name.val.length < 2 ^ w by omega)
        rw [if_neg hnot, hindex, hget]
        simp only [hstrings]
        by_cases heq : name = l[i].name
        · rw [if_pos (congrArg Subtype.val heq), findFrom_found hlt heq]
          exact congrArg some hget.symm
        · -- the loop goes on with the next index
          have hnext : BitVec.ofNat 32 i + 1 = BitVec.ofNat 32 (i + 1) := by
            rw [BitVec.ofNat_add]
            rfl
          rw [if_neg (fun h => heq (Subtype.ext h)), findFrom_skip hlt heq]
          show findLoop m rd p fuel (BitVec.ofNat 32 i + 1) = _
          rw [hnext]
          exact ih hlt (by omega)

/-! ## The answers -/

/-- A reader answers with exactly the files of `l`. -/
structure Answers (m : Mem) (rd : Reader w) (base : Nat) (l : List File) : Prop where
  count : (getFileCount m rd).toNat = l.length
  file : ∀ i (hi : i < l.length), ∃ info,
    getFile m rd (BitVec.ofNat 64 i) = (initrdOk, some info) ∧ Gives m base l info l[i]
  beyond : ∀ index : Word64, l.length ≤ index.toNat →
    getFile m rd index = (initrdFileNotFound, none)
  find : ∀ (name : CString) (p : BitVec w), m.Holds p.toNat (name.val ++ [0]) →
    p.toNat + name.val.length < 2 ^ w → findFile m rd p = some (findFrom m rd l name 0)

/-- **A stored image is read.** -/
theorem Opened.answers (ho : Opened rd base l) (hs : Stored magic m base l) (hf : Fits w base l)
    (hsize : ∀ f ∈ l, f.data.length = f.size.toNat) : Answers m rd base l where
  count := by
    have hcount := ho.count hs hf
    have hlt := (entryCount m rd.header).isLt
    unfold getFileCount
    rw [if_neg (ho.header_ne_zero hf), BitVec.toNat_setWidth, hcount]
    omega
  file := by
    intro i hi
    obtain ⟨info, hget, -, hgives⟩ := getFile_eq ho hs hf hsize hi
    exact ⟨info, hget, hgives⟩
  beyond := fun index hi => getFile_beyond ho hs hf hi
  find := by
    intro name p hp hpw
    have hcount := ho.count hs hf
    have hlt := (entryCount m rd.header).isLt
    unfold findFile
    rw [if_neg (ho.header_ne_zero hf)]
    exact findLoop_eq ho hs hf hsize hp hpw (Nat.zero_le _) (by omega)

theorem loaderLoad_reader (s : Machine) (initRd : Word64) (rd : Reader 32) (header : Word32) :
    (loaderLoad magic s initRd rd header).2.2 = load magic s.mem rd header := by
  unfold loaderLoad
  cases hload : load magic s.mem rd header with
  | mk rd' code =>
      by_cases hok : code = initrdOk
      · simp only [if_pos hok]
      · simp only [if_neg hok]

/-- **What the builder saves, the loader and the kernel read.**  For every list of files whose image
is shorter than 4 GB, put at any address but zero. -/
theorem saved_image_read (magic reserved : Word32) {s : State} {k : List Addr} {l : List File}
    (h : Represents s k l) (hne : l ≠ []) (hsize : ∀ f ∈ l, f.data.length = f.size.toNat)
    (hlen : imageLength l < 2 ^ 32) :
    ∃ bytes, save magic reserved s = some (Buildrd.initrdOk, some bytes) ∧
      ∀ base m, base ≠ 0 → base + bytes.length < 2 ^ 32 → m.Holds base bytes →
        m.load (base + 8) 4 = bytes.length ∧
        (∀ (machine : Machine) (initRd : Word64) (rd : Reader 32), machine.mem = m →
          let r := (loaderLoad magic machine initRd rd (BitVec.ofNat 32 base)).2.2
          r.2 = initrdOk ∧ ∀ m', m'.Holds base bytes → Answers m' r.1 base l) ∧
        (∀ rd : Reader 64,
          let r := load magic m rd (BitVec.ofNat 64 base)
          r.2 = initrdOk ∧ ∀ m', m'.Holds base bytes → Answers m' r.1 base l) := by
  refine ⟨_, save_eq h hne hsize, fun base m hbase hfits hm => ?_⟩
  rw [length_imageOf] at hfits ⊢
  have hs := stored_of_holds hsize hlen hm
  refine ⟨hs.size, ?_, ?_⟩
  · rintro machine initRd rd rfl
    have hf : Fits 32 base l := ⟨le_rfl, hbase, hfits⟩
    simp only [loaderLoad_reader]
    obtain ⟨hok, ho⟩ := load_eq hs hf rd
    exact ⟨hok, fun m' hm' => ho.answers (stored_of_holds hsize hlen hm') hf hsize⟩
  · intro rd
    have hf : Fits 64 base l := ⟨by decide, hbase, hfits⟩
    obtain ⟨hok, ho⟩ := load_eq hs hf rd
    exact ⟨hok, fun m' hm' => ho.answers (stored_of_holds hsize hlen hm') hf hsize⟩

/-- A builder with two files, one of them empty. -/
def twoFiles : State × FileMap :=
  after (after empty (.addFromMemory nameA [1, 2] 2 0x1000)) (.addFromMemory nameB [] 0 0x2000)

theorem twoFiles_refines : Refines twoFiles := by
  have hreach : (builder.restrict fun s call _ => KeepsOthers s.1 call).Reachable twoFiles := by
    refine restrict_reachable_after ?_ ⟨by decide, by decide, by decide⟩
      (by decide +kernel) (.inl (by decide +kernel))
    refine restrict_reachable_after ?_ ⟨by decide, by decide, by decide⟩
      (by decide +kernel) (.inl (by decide +kernel))
    exact .init ⟨rfl, rfl, rfl⟩
  exact (restrict_refines hreach).1

/-- The value of `'init'` under GCC. -/
def initMagic : Word32 := 0x696e6974

theorem twoFiles_read :
    ∃ bytes, save initMagic 0 twoFiles.1 = some (Buildrd.initrdOk, some bytes) ∧
      ∀ base m, base ≠ 0 → base + bytes.length < 2 ^ 32 → m.Holds base bytes →
        m.load (base + 8) 4 = bytes.length ∧
        (∀ (machine : Machine) (initRd : Word64) (rd : Reader 32), machine.mem = m →
          let r := (loaderLoad initMagic machine initRd rd (BitVec.ofNat 32 base)).2.2
          r.2 = initrdOk ∧ ∀ m', m'.Holds base bytes → Answers m' r.1 base twoFiles.2) ∧
        (∀ rd : Reader 64,
          let r := load initMagic m rd (BitVec.ofNat 64 base)
          r.2 = initrdOk ∧ ∀ m', m'.Holds base bytes → Answers m' r.1 base twoFiles.2) := by
  obtain ⟨k, hk⟩ := twoFiles_refines
  exact saved_image_read initMagic 0 hk (by decide) (by decide) (by decide)

/-- At address zero the pointer is the null pointer, and `Load` refuses it. -/
theorem image_at_zero_refused :
    ∃ bytes m, save initMagic 0 twoFiles.1 = some (Buildrd.initrdOk, some bytes) ∧
      0 + bytes.length < 2 ^ 32 ∧ m.Holds 0 bytes ∧
      ∀ machine initRd rd, machine.mem = m →
        (loaderLoad initMagic machine initRd rd (BitVec.ofNat 32 0)).2.2.2 ≠ initrdOk := by
  obtain ⟨k, hk⟩ := twoFiles_refines
  refine ⟨imageOf initMagic 0 twoFiles.2, fun x => (imageOf initMagic 0 twoFiles.2).getD x 0,
    save_eq hk (by decide) (by decide), by decide, ?_, ?_⟩
  · intro i hi
    show (imageOf initMagic 0 twoFiles.2).getD (0 + i) 0 = _
    rw [Nat.zero_add, List.getD_eq_getElem _ _ hi]
  · intro machine initRd rd _
    rw [loaderLoad_reader]
    have hnull : (load initMagic machine.mem rd (BitVec.ofNat 32 0)).2 = initrdFileNotFound := rfl
    rw [hnull]
    decide

end InitRd
end ZineOS
