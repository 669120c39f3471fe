import ZineOS.Buildrd.FileMap
import ZineOS.InitRd.Reader

/-!
# The image of the initial RAM disk

`Stored` says what it means for an image of the files `l` to lie at an address.  The encoder and the
decoders meet there: the bytes that `Save` writes are stored wherever they are put, and both readers
answer from any memory in which the files are stored.
-/

namespace ZineOS
namespace InitRd

open Lib Loader Buildrd

/-! ## Layout -/

/-- A name with its NUL. -/
def symbol (f : File) : List Byte := f.name.val ++ [0]

/-- The length of the symbol table. -/
def symbolsLength (l : List File) : Nat := (l.flatMap symbol).length

/-- The length of the files' contents. -/
def dataLength (l : List File) : Nat := (l.flatMap File.data).length

/-- Where the contents begin: header, symbol table and entries lie before them. -/
def dataStart (l : List File) : Nat := 20 + symbolsLength l + 16 * l.length

def imageLength (l : List File) : Nat := dataStart l + dataLength l

/-- The offset of the contents of file `i`. -/
def fileStart (l : List File) (i : Nat) : Nat := dataStart l + dataLength (l.take i)

/-- An image of the files `l` lies at `base`. -/
structure Stored (magic : Word32) (m : Mem) (base : Nat) (l : List File) : Prop where
  magic : m.load base 4 = magic.toNat
  version : m.load (base + 4) 4 = 0x00010000
  size : m.load (base + 8) 4 = imageLength l
  entryCount : m.load (base + 12) 4 = l.length
  symbolSize : m.load (base + 16) 4 = symbolsLength l
  offset : ∀ i < l.length,
    m.load (base + 20 + symbolsLength l + 16 * i) 4 = fileStart l i
  fileSize : ∀ i (hi : i < l.length),
    m.load (base + 20 + symbolsLength l + 16 * i + 4) 4 = l[i].data.length
  symbolStart : ∀ i < l.length,
    m.load (base + 20 + symbolsLength l + 16 * i + 8) 4 = symbolsLength (l.take i)
  names : m.Holds (base + 20) (l.flatMap symbol)
  contents : m.Holds (base + dataStart l) (l.flatMap File.data)

variable {magic reserved : Word32} {m : Mem} {a base : Nat} {l : List File} {i : Nat}

/-- The part of file `i` ends before the end of all parts. -/
theorem length_take_le (g : File → List Byte) (hi : i < l.length) :
    ((l.take i).flatMap g).length + (g l[i]).length ≤ (l.flatMap g).length := by
  have hsplit : l.flatMap g = (l.take i).flatMap g ++ (g l[i] ++ (l.drop (i + 1)).flatMap g) := by
    rw [← List.flatMap_cons, ← List.flatMap_append, List.getElem_cons_drop, List.take_append_drop]
  rw [hsplit, List.length_append, List.length_append]
  omega

/-! ## What `Save` writes is stored -/

theorem load_bytes32 {v : Word32} (h : m.Holds a (bytes32 v)) : m.load a 4 = v.toNat := by
  have hv := v.isLt
  have hbyte : ∀ i (hi : i < 4), m (a + i) = (bytes32 v)[i] := fun i hi => h i hi
  have h₀ : m a = v.setWidth 8 := hbyte 0 (by decide)
  have h₁ : m (a + 1) = (v >>> 8).setWidth 8 := hbyte 1 (by decide)
  have h₂ : m (a + 1 + 1) = (v >>> 16).setWidth 8 := hbyte 2 (by decide)
  have h₃ : m (a + 1 + 1 + 1) = (v >>> 24).setWidth 8 := hbyte 3 (by decide)
  simp only [Mem.load, h₀, h₁, h₂, h₃, BitVec.toNat_setWidth, BitVec.toNat_ushiftRight,
    Nat.shiftRight_eq_div_pow]
  omega

theorem length_entry_bytes (e : RdFileEntry) : e.bytes.length = 16 := rfl

theorem length_header_bytes (h : RdHeader) : h.bytes.length = 20 := rfl

/-- The fields of a file entry in memory. -/
theorem load_entry {e : RdFileEntry} (h : m.Holds a e.bytes) :
    m.load a 4 = e.fileOffset.toNat ∧ m.load (a + 4) 4 = e.fileSize.toNat ∧
      m.load (a + 8) 4 = e.symbolOffset.toNat := by
  obtain ⟨hrest, -⟩ := Mem.holds_append.mp h
  obtain ⟨hrest, hsymbol⟩ := Mem.holds_append.mp hrest
  obtain ⟨hoffset, hsize⟩ := Mem.holds_append.mp hrest
  exact ⟨load_bytes32 hoffset, load_bytes32 hsize, load_bytes32 hsymbol⟩

/-- The fields of the header in memory. -/
theorem load_header {h : RdHeader} (hh : m.Holds a h.bytes) :
    m.load a 4 = h.magic.toNat ∧ m.load (a + 4) 4 = h.version.toNat ∧
      m.load (a + 8) 4 = h.size.toNat ∧ m.load (a + 12) 4 = h.entryCount.toNat ∧
      m.load (a + 16) 4 = h.symbolSize.toNat := by
  obtain ⟨hrest, hsymbols⟩ := Mem.holds_append.mp hh
  obtain ⟨hrest, hcount⟩ := Mem.holds_append.mp hrest
  obtain ⟨hrest, hsize⟩ := Mem.holds_append.mp hrest
  obtain ⟨hmagic, hversion⟩ := Mem.holds_append.mp hrest
  exact ⟨load_bytes32 hmagic, load_bytes32 hversion, load_bytes32 hsize, load_bytes32 hcount,
    load_bytes32 hsymbols⟩

/-- The entries that `Save` writes when its third loop starts with `first`. -/
def entriesFrom (first : RdFileEntry) : List File → List Byte
  | [] => []
  | f :: l =>
      let e := { first with fileSize := f.size }
      e.bytes ++ entriesFrom { e with
        symbolOffset := e.symbolOffset + BitVec.ofNat 32 (symbol f).length
        fileOffset := e.fileOffset + BitVec.ofNat 32 f.data.length } l

theorem length_entriesFrom (first : RdFileEntry) (l : List File) :
    (entriesFrom first l).length = 16 * l.length := by
  induction l generalizing first with
  | nil => rfl
  | cons f l ih =>
      rw [entriesFrom, List.length_append, ih, length_entry_bytes, List.length_cons]
      omega

/-- Entry `i` carries the offsets behind the first `i` files. -/
theorem holds_entriesFrom {first : RdFileEntry} (h : m.Holds a (entriesFrom first l))
    (hi : i < l.length) :
    m.Holds (a + 16 * i) (RdFileEntry.bytes
      { first with
        fileOffset := first.fileOffset + BitVec.ofNat 32 (dataLength (l.take i))
        fileSize := l[i].size
        symbolOffset := first.symbolOffset + BitVec.ofNat 32 (symbolsLength (l.take i)) }) := by
  induction l generalizing first a i with
  | nil => cases hi
  | cons f l ih =>
      rw [entriesFrom] at h
      obtain ⟨hhead, hrest⟩ := Mem.holds_append.mp h
      rw [length_entry_bytes] at hrest
      cases i with
      | zero => simpa [dataLength, symbolsLength] using hhead
      | succ i =>
          have hnext := ih hrest (Nat.lt_of_succ_lt_succ hi)
          have haddr : a + 16 + 16 * i = a + 16 * (i + 1) := by omega
          rw [haddr] at hnext
          simpa [dataLength, symbolsLength, BitVec.ofNat_add, BitVec.add_assoc] using hnext

/-! ### The four loops of `Save` -/

def fileOf (e : RdListEntry) : File := ⟨e.name, e.fileSize, e.data⟩

/-- The length fields of an entry are those of its name and its contents. -/
def Sized (e : RdListEntry) : Prop :=
  e.nameLength.toNat = (symbol (fileOf e)).length ∧ e.data.length = e.fileSize.toNat

theorem Sized.nameLength {e : RdListEntry} (h : Sized e) :
    e.nameLength = BitVec.ofNat 32 (symbol (fileOf e)).length := by
  rw [← h.1, BitVec.ofNat_toNat, BitVec.setWidth_eq]

theorem Sized.fileSize {e : RdListEntry} (h : Sized e) :
    e.fileSize = BitVec.ofNat 32 e.data.length := by
  rw [h.2, BitVec.ofNat_toNat, BitVec.setWidth_eq]

theorem foldl_count {es : List RdListEntry} (hes : ∀ e ∈ es, Sized e) (h : RdHeader) :
    es.foldl RdHeader.count h =
      { h with
        entryCount := h.entryCount + BitVec.ofNat 32 es.length
        symbolSize := h.symbolSize + BitVec.ofNat 32 (symbolsLength (es.map fileOf))
        size := h.size + BitVec.ofNat 32 (dataLength (es.map fileOf) +
          symbolsLength (es.map fileOf) + 16 * es.length) } := by
  induction es generalizing h with
  | nil => simp [symbolsLength, dataLength]
  | cons e es ih =>
      obtain ⟨he, hes⟩ := List.forall_mem_cons.mp hes
      rw [List.foldl_cons, ih hes]
      have hlength : symbolsLength ((e :: es).map fileOf) =
          (symbol (fileOf e)).length + symbolsLength (es.map fileOf) := by simp [symbolsLength]
      have hdata : dataLength ((e :: es).map fileOf) =
          e.data.length + dataLength (es.map fileOf) := by simp [dataLength, fileOf]
      have hsum : e.data.length + dataLength (es.map fileOf) +
          ((symbol (fileOf e)).length + symbolsLength (es.map fileOf)) + 16 * (es.length + 1) =
          e.data.length + (symbol (fileOf e)).length + 16 +
            (dataLength (es.map fileOf) + symbolsLength (es.map fileOf) + 16 * es.length) := by
        omega
      rw [hlength, hdata, RdHeader.count, he.nameLength, he.fileSize, List.length_cons, hsum]
      simp only [RdHeader.mk.injEq, true_and]
      refine ⟨?_, ?_, ?_⟩
      · rw [BitVec.ofNat_add _ (dataLength _ + _ + _), BitVec.ofNat_add _ 16,
          BitVec.ofNat_add e.data.length, BitVec.add_assoc]
        rfl
      · rw [Nat.add_comm es.length 1, BitVec.ofNat_add, BitVec.add_assoc]
        rfl
      · rw [BitVec.ofNat_add, BitVec.add_assoc]

theorem foldl_symbols {es : List RdListEntry} (hes : ∀ e ∈ es, Sized e) (out : List Byte) :
    es.foldl (fun out e => out ++ (e.name.val ++ [0]).take e.nameLength.toNat) out =
      out ++ (es.map fileOf).flatMap symbol := by
  induction es generalizing out with
  | nil => simp
  | cons e es ih =>
      obtain ⟨he, hes⟩ := List.forall_mem_cons.mp hes
      have htake : (e.name.val ++ [0]).take e.nameLength.toNat = symbol (fileOf e) := by
        rw [he.1]
        exact List.take_length
      rw [List.foldl_cons, ih hes, htake, List.map_cons, List.flatMap_cons, List.append_assoc]

theorem foldl_write {es : List RdListEntry} (hes : ∀ e ∈ es, Sized e) (first : RdFileEntry)
    (out : List Byte) :
    (es.foldl RdFileEntry.write (first, out)).2 = out ++ entriesFrom first (es.map fileOf) := by
  induction es generalizing first out with
  | nil => simp [entriesFrom]
  | cons e es ih =>
      obtain ⟨he, hes⟩ := List.forall_mem_cons.mp hes
      rw [List.foldl_cons, RdFileEntry.write, ih hes, List.map_cons, entriesFrom,
        List.append_assoc, he.nameLength]
      simp only [fileOf, he.fileSize]

theorem foldl_data {es : List RdListEntry} (hes : ∀ e ∈ es, Sized e) (out : List Byte) :
    es.foldl (fun out e => out ++ e.data.take e.fileSize.toNat) out =
      out ++ (es.map fileOf).flatMap File.data := by
  induction es generalizing out with
  | nil => simp
  | cons e es ih =>
      obtain ⟨he, hes⟩ := List.forall_mem_cons.mp hes
      have htake : e.data.take e.fileSize.toNat = (fileOf e).data := by
        rw [← he.2]
        exact List.take_length
      rw [List.foldl_cons, ih hes, htake, List.map_cons, List.flatMap_cons, List.append_assoc]

/-- `do … while` over the list, as a fold over its entries. -/
theorem forEntries_eq {σ : Type} {s : State} {k : List Addr} (h : Represents s k l) (hne : l ≠ [])
    (body : σ → RdListEntry → σ) (init : σ) :
    forEntries s body init = some ((k.map s.entry).foldl body init) := by
  cases k with
  | nil => exact absurd h.files.symm hne
  | cons a t =>
      have hlen : (a :: t).length ≤ s.live.length := (h.ring.nodup.subperm h.live).length_le
      unfold forEntries
      rw [h.head_cons, h.ring.doWhile_eq (Nat.lt_of_succ_le hlen), List.foldl_map]

/-- The bytes of the image of the files `l`. -/
def imageOf (magic reserved : Word32) (l : List File) : List Byte :=
  (RdHeader.mk magic initrdVersion (BitVec.ofNat 32 (imageLength l)) (BitVec.ofNat 32 l.length)
    (BitVec.ofNat 32 (symbolsLength l))).bytes ++ l.flatMap symbol ++
    entriesFrom ⟨BitVec.ofNat 32 (dataStart l), 0, 0, reserved⟩ l ++ l.flatMap File.data

theorem length_imageOf (magic reserved : Word32) (l : List File) :
    (imageOf magic reserved l).length = imageLength l := by
  simp only [imageOf, List.length_append, length_header_bytes, length_entriesFrom]
  rfl

/-- **`Save` writes the image** of the files in the list. -/
theorem save_eq {s : State} {k : List Addr} (h : Represents s k l) (hne : l ≠ [])
    (hsize : ∀ f ∈ l, f.data.length = f.size.toNat) :
    save magic reserved s = some (Buildrd.initrdOk, some (imageOf magic reserved l)) := by
  have hhead : s.head ≠ 0 := by
    cases k with
    | nil => exact absurd h.files.symm hne
    | cons a t => exact h.head_ne_zero
  have hfiles : (k.map s.entry).map fileOf = l := by
    rw [← h.files, List.map_map]
    rfl
  have hes : ∀ e ∈ k.map s.entry, Sized e := by
    intro e he
    obtain ⟨a, ha, rfl⟩ := List.mem_map.mp he
    refine ⟨?_, hsize (s.file a) (h.files ▸ List.mem_map_of_mem ha)⟩
    rw [h.nameLength a ha]
    simp [symbol, fileOf]
  have hlength : (k.map s.entry).length = l.length := by
    rw [← hfiles, List.length_map, List.length_map, List.length_map]
  unfold save
  rw [if_neg hhead]
  -- each of the four passes over the list is one fold
  simp only [forEntries_eq h hne, foldl_count hes, foldl_symbols hes, foldl_write hes,
    foldl_data hes, hfiles, hlength, Option.bind_eq_bind, Option.bind_some, List.nil_append]
  have hdata : 20 + (0 + BitVec.ofNat 32 (symbolsLength l)) + 16 * (0 + BitVec.ofNat 32 l.length) =
      BitVec.ofNat 32 (dataStart l) := by
    rw [zero_add, zero_add, dataStart, BitVec.ofNat_add, BitVec.ofNat_add, BitVec.ofNat_mul]
    rfl
  have htotal : 20 + BitVec.ofNat 32 (dataLength l + symbolsLength l + 16 * l.length) =
      BitVec.ofNat 32 (imageLength l) := by
    have hsum : imageLength l = 20 + (dataLength l + symbolsLength l + 16 * l.length) := by
      unfold imageLength dataStart
      omega
    rw [hsum, BitVec.ofNat_add 20]
    rfl
  rw [hdata, htotal, zero_add, zero_add]
  rfl

/-- **An image that is written is stored wherever it is put.** -/
theorem stored_of_holds (hsize : ∀ f ∈ l, f.data.length = f.size.toNat)
    (hlen : imageLength l < 2 ^ 32) (h : m.Holds base (imageOf magic reserved l)) :
    Stored magic m base l := by
  have hparts : symbolsLength l ≤ imageLength l ∧ l.length ≤ imageLength l ∧
      dataStart l ≤ imageLength l := by
    unfold imageLength dataStart
    omega
  have hsmall : ∀ n, n ≤ imageLength l → (BitVec.ofNat 32 n).toNat = n := by
    intro n hn
    rw [BitVec.toNat_ofNat, Nat.mod_eq_of_lt (lt_of_le_of_lt hn hlen)]
  obtain ⟨hrest, hdata⟩ := Mem.holds_append.mp h
  obtain ⟨hrest, hentries⟩ := Mem.holds_append.mp hrest
  obtain ⟨hheader, hsymbols⟩ := Mem.holds_append.mp hrest
  obtain ⟨hmagic, hversion, hsize', hcount, hsymsize⟩ := load_header hheader
  simp only [List.length_append, length_header_bytes, length_entriesFrom] at hsymbols hentries hdata
  have haddr : base + (20 + (l.flatMap symbol).length) = base + 20 + symbolsLength l :=
    (Nat.add_assoc _ _ _).symm
  rw [haddr] at hentries
  have hentry := fun i (hi : i < l.length) => load_entry (holds_entriesFrom hentries hi)
  have hbefore : ∀ i < l.length, dataLength (l.take i) ≤ dataLength l ∧
      symbolsLength (l.take i) ≤ symbolsLength l := by
    intro i hi
    have hd := length_take_le File.data hi
    have hs := length_take_le symbol hi
    unfold dataLength symbolsLength
    omega
  -- no field of the header or of an entry wraps
  exact {
    magic := hmagic
    version := hversion
    size := hsize'.trans (hsmall _ le_rfl)
    entryCount := hcount.trans (hsmall _ hparts.2.1)
    symbolSize := hsymsize.trans (hsmall _ hparts.1)
    offset := by
      intro i hi
      rw [(hentry i hi).1, ← BitVec.ofNat_add]
      refine hsmall _ ?_
      have hd := (hbefore i hi).1
      unfold imageLength
      omega
    fileSize := by
      intro i hi
      rw [(hentry i hi).2.1]
      exact (hsize _ (List.getElem_mem hi)).symm
    symbolStart := by
      intro i hi
      rw [(hentry i hi).2.2]
      show (0 + BitVec.ofNat 32 (symbolsLength (l.take i))).toNat = _
      rw [zero_add]
      exact hsmall _ ((hbefore i hi).2.trans hparts.1)
    names := hsymbols
    contents := hdata }

end InitRd
end ZineOS
