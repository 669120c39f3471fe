import ZineOS.Buildrd.FileMap
import ZineOS.Lib.ByteMemory

/-!
# Reading an image back into the builder

`Load` reads a file front to back: the header into `m_header`, the symbol table and the entries into
blocks from `malloc`, then the contents of the files one after the other.  It checks the magic value
and the version, but not how much `fread` has read: bytes that the file does not have stay what they
were.  A `Cell` remembers where its byte came from.

The name of a file is the string at `symbol_offset` in the symbol table, which may lead past the
table.  `strlen` then reads whatever lies behind the block; where it leaves the memory that can be
read the program dies, and the call has no result.
-/

namespace ZineOS
namespace Buildrd

open Lib Loader

def initrdInvalidFile : Word32 := 4
def initrdWrongVersion : Word32 := 5

/-- A byte of memory, with its place in the file if `fread` has put it there. -/
structure Cell where
  byte : Byte
  source : Option Nat
  deriving DecidableEq

/-- A block of memory. -/
abbrev Block := Nat → Cell

/-- Memory that nothing has been read into. -/
def junk (f : Nat → Byte) : Block := fun k => ⟨f k, none⟩

/-- `fread` of `n` bytes at position `pos` of the file into a block. -/
def fread (file : List Byte) (pos n : Nat) (block : Block) : Block := fun k =>
  if k < n then
    match file[pos + k]? with
    | some b => ⟨b, some (pos + k)⟩
    | none => block k
  else block k

namespace Block

/-- The block as memory. -/
def mem (b : Block) : Mem := fun k => (b k).byte

/-- `n` cells from `off` on. -/
def cells (b : Block) (off n : Nat) : List Cell := (List.range n).map fun k => b (off + k)

/-- A 32-bit field. -/
def word32 (b : Block) (off : Nat) : Word32 := BitVec.ofNat 32 (b.mem.load off 4)

/-- `strlen` of the string at `off`, in memory that can be read below `limit`. -/
def strlen (b : Block) (limit off : Nat) : Option Nat :=
  (List.range (limit - off)).find? fun k => (b (off + k)).byte = 0

end Block

/-- The string that some bytes begin with. -/
def cstring (l : List Byte) : CString :=
  ⟨l.takeWhile (· ≠ 0), fun hmem => by simpa using List.mem_takeWhile_imp hmem⟩

def RdHeader.read (b : Block) : RdHeader :=
  ⟨b.word32 0, b.word32 4, b.word32 8, b.word32 12, b.word32 16⟩

/-- The entry at index `i` of a block. -/
def RdFileEntry.read (b : Block) (i : Nat) : RdFileEntry :=
  ⟨b.word32 (16 * i), b.word32 (16 * i + 4), b.word32 (16 * i + 8), b.word32 (16 * i + 12)⟩

/-- What `Load` finds in memory and gets from `malloc`. -/
structure Heap where
  /-- `m_header` before the call. -/
  header : Nat → Byte
  /-- The block for the symbol table, and what lies behind it. -/
  table : Nat → Byte
  /-- How many bytes behind that block can be read. -/
  behind : Nat
  /-- The block for the entries. -/
  entries : Nat → Byte
  /-- The block for the contents of file `i`. -/
  data : Nat → Nat → Byte
  /-- The list entry that `malloc` returns when file `i` is added. -/
  node : Nat → Addr

/-- What `AddFromMemory` is called with: the name with its NUL, and the contents. -/
structure Added where
  name : List Cell
  data : List Cell
  size : Word32
  deriving DecidableEq

namespace Added

def cname (x : Added) : CString := cstring (x.name.map Cell.byte)

def file (x : Added) : File := ⟨x.cname, x.size, x.data.map Cell.byte⟩

end Added

/-- `m_header` after the first `fread`. -/
def headerOf (heap : Heap) (bytes : List Byte) : RdHeader :=
  RdHeader.read (fread bytes 0 20 (junk heap.header))

/-- `symbol_table`. -/
def symbolTable (heap : Heap) (bytes : List Byte) : Block :=
  fread bytes 20 (headerOf heap bytes).symbolSize.toNat (junk heap.table)

/-- `file_entry_list`. -/
def entryList (heap : Heap) (bytes : List Byte) : Block :=
  fread bytes (20 + (headerOf heap bytes).symbolSize.toNat)
    (16 * (headerOf heap bytes).entryCount.toNat) (junk heap.entries)

/-- `file_entry_list[i]`. -/
def entryOf (heap : Heap) (bytes : List Byte) (i : Nat) : RdFileEntry :=
  RdFileEntry.read (entryList heap bytes) i

/-- Where the contents of the files begin. -/
def filesStart (heap : Heap) (bytes : List Byte) : Nat :=
  20 + (headerOf heap bytes).symbolSize.toNat + 16 * (headerOf heap bytes).entryCount.toNat

/-- The file that round `i` reads at position `pos`. -/
def nextFile (heap : Heap) (bytes : List Byte) (i pos : Nat) : Option Added :=
  let limit := (headerOf heap bytes).symbolSize.toNat + heap.behind
  ((symbolTable heap bytes).strlen limit (entryOf heap bytes i).symbolOffset.toNat).map fun n =>
    { name := (symbolTable heap bytes).cells (entryOf heap bytes i).symbolOffset.toNat (n + 1)
      data := (fread bytes pos (entryOf heap bytes i).fileSize.toNat (junk (heap.data i))).cells 0
        (entryOf heap bytes i).fileSize.toNat
      size := (entryOf heap bytes i).fileSize }

/-- The last `n` rounds of the loop over the files, from round `i` on, with what the rounds so far
have added. -/
def loadFiles (heap : Heap) (bytes : List Byte) :
    Nat → Nat → Nat → State → List Added → Option (State × List Added)
  | 0, _, _, s, added => some (s, added)
  | n + 1, i, pos, s, added =>
      match nextFile heap bytes i pos with
      | none => none
      | some x =>
          match addFromMemory s x.cname (x.data.map Cell.byte) x.size (heap.node i) with
          | none => none
          | some (s, _) =>
              loadFiles heap bytes n (i + 1) (pos + x.size.toNat) s (added ++ [x])

/-- `Load` of a file with these bytes, or of one that does not exist: the list, the return value and
what was added.  `magic` is the compiler's value of `'init'`. -/
def load (magic : Word32) (heap : Heap) (file : Option (List Byte)) (s : State) :
    Option (State × Word32 × List Added) :=
  match file with
  | none => some (s, initrdFileNotFound, [])
  | some bytes =>
      let header := headerOf heap bytes
      if header.magic ≠ magic then some (s, initrdInvalidFile, [])
      else if header.version ≠ initrdVersion then some (s, initrdWrongVersion, [])
      else
        (loadFiles heap bytes header.entryCount.toNat 0 (filesStart heap bytes) s []).map
          fun run => (run.1, initrdOk, run.2)

/-! ## What `fread` reads -/

variable {bytes : List Byte} {pos n k off limit : Nat} {block : Block}

/-- A byte that the file has. -/
theorem fread_of_lt (hk : k < n) (hpos : pos + k < bytes.length) :
    fread bytes pos n block k = ⟨bytes[pos + k], some (pos + k)⟩ := by
  unfold fread
  rw [if_pos hk, List.getElem?_eq_getElem hpos]

/-- A byte that is not asked for or that the file does not have. -/
theorem fread_of_not (h : ¬ (k < n ∧ pos + k < bytes.length)) : fread bytes pos n block k = block k := by
  unfold fread
  by_cases hk : k < n
  · rw [if_pos hk, List.getElem?_eq_none (by omega)]
  · rw [if_neg hk]

theorem source_fread_iff {f : Nat → Byte} :
    (fread bytes pos n (junk f) k).source.isSome ↔ k < n ∧ pos + k < bytes.length := by
  by_cases h : k < n ∧ pos + k < bytes.length
  · rw [fread_of_lt h.1 h.2]
    exact iff_of_true rfl h
  · rw [fread_of_not h]
    exact iff_of_false Bool.false_ne_true h

/-- The file as memory. -/
def fileMem (bytes : List Byte) : Mem := fun x => bytes.getD x 0

theorem holds_fileMem (bytes : List Byte) : (fileMem bytes).Holds 0 bytes := by
  intro i hi
  unfold fileMem
  rw [Nat.zero_add, List.getD_eq_getElem _ _ hi]

theorem mem_fread (hk : k < n) (hpos : pos + k < bytes.length) :
    (fread bytes pos n block).mem k = fileMem bytes (pos + k) := by
  unfold Block.mem fileMem
  rw [fread_of_lt hk hpos, List.getD_eq_getElem _ _ hpos]

/-- A field that has been read whole. -/
theorem word32_fread (hoff : off + 4 ≤ n) (hpos : pos + off + 4 ≤ bytes.length) :
    (fread bytes pos n block).word32 off = BitVec.ofNat 32 ((fileMem bytes).load (pos + off) 4) := by
  unfold Block.word32
  congr 1
  simp only [Mem.load]
  rw [mem_fread (by omega) (by omega), mem_fread (by omega) (by omega),
    mem_fread (by omega) (by omega), mem_fread (by omega) (by omega)]
  rfl

/-- Cells that hold a known string. -/
theorem cells_of_holds {l : List Byte} (h : block.mem.Holds off l) :
    (block.cells off l.length).map Cell.byte = l := by
  apply List.ext_getElem
  · simp [Block.cells]
  · intro i _ hi
    simp only [Block.cells, List.getElem_map, List.getElem_range]
    exact h i hi

theorem strlen_eq_some_iff : block.strlen limit off = some n ↔
    off + n < limit ∧ (block (off + n)).byte = 0 ∧ ∀ j < n, (block (off + j)).byte ≠ 0 := by
  unfold Block.strlen
  rw [List.find?_range_eq_some]
  simp only [decide_eq_true_eq, List.mem_range, Bool.not_eq_eq_eq_not, Bool.not_true,
    decide_eq_false_iff_not]
  constructor
  · rintro ⟨hzero, hlt, hbefore⟩
    exact ⟨by omega, hzero, hbefore⟩
  · rintro ⟨hlt, hzero, hbefore⟩
    exact ⟨hzero, by omega, hbefore⟩

/-! ## Reading and adding apart -/

/-- What `n` rounds read. -/
def filesFrom (heap : Heap) (bytes : List Byte) : Nat → Nat → Nat → Option (List Added)
  | 0, _, _ => some []
  | n + 1, i, pos =>
      match nextFile heap bytes i pos with
      | none => none
      | some x => (filesFrom heap bytes n (i + 1) (pos + x.size.toNat)).map (x :: ·)

/-- What one round reads, when the name ends. -/
theorem nextFile_eq_some {heap : Heap} {i : Nat} {x : Added}
    (h : nextFile heap bytes i pos = some x) :
    ∃ len, (symbolTable heap bytes).strlen ((headerOf heap bytes).symbolSize.toNat + heap.behind)
        (entryOf heap bytes i).symbolOffset.toNat = some len ∧
      x.name = (symbolTable heap bytes).cells (entryOf heap bytes i).symbolOffset.toNat (len + 1) ∧
      x.data = (fread bytes pos (entryOf heap bytes i).fileSize.toNat (junk (heap.data i))).cells 0
        (entryOf heap bytes i).fileSize.toNat ∧
      x.size = (entryOf heap bytes i).fileSize := by
  unfold nextFile at h
  obtain ⟨len, hlen, hx⟩ := Option.map_eq_some_iff.mp h
  rw [← hx]
  refine ⟨len, hlen, rfl, ?_, rfl⟩
  dsimp only

/-- The calls of `AddFromMemory`, from round `i` on. -/
def addAll (heap : Heap) : Nat → State → List Added → Option State
  | _, s, [] => some s
  | i, s, x :: xs =>
      match addFromMemory s x.cname (x.data.map Cell.byte) x.size (heap.node i) with
      | none => none
      | some (s, _) => addAll heap (i + 1) s xs

variable {heap : Heap} {i : Nat} {s s' : State} {l : List Addr} {m : List File} {magic : Word32}

/-- The file and the list do not influence each other. -/
theorem loadFiles_eq (added : List Added) : loadFiles heap bytes n i pos s added =
    (filesFrom heap bytes n i pos).bind fun xs =>
      (addAll heap i s xs).map fun s' => (s', added ++ xs) := by
  induction n generalizing i pos s added with
  | zero => simp [loadFiles, filesFrom, addAll]
  | succ n ih =>
      rw [loadFiles, filesFrom]
      cases nextFile heap bytes i pos with
      | none => rfl
      | some x =>
          simp only [Option.bind_map, Function.comp_def, addAll]
          cases addFromMemory s x.cname (x.data.map Cell.byte) x.size (heap.node i) with
          | none =>
              cases filesFrom heap bytes n (i + 1) (pos + x.size.toNat) <;> rfl
          | some run =>
              simp only [ih, List.append_assoc, List.singleton_append]

theorem load_of_accepted (hmagic : (headerOf heap bytes).magic = magic)
    (hversion : (headerOf heap bytes).version = initrdVersion) : load magic heap (some bytes) s =
    (filesFrom heap bytes (headerOf heap bytes).entryCount.toNat 0 (filesStart heap bytes)).bind
      fun xs => (addAll heap 0 s xs).map fun s' => (s', initrdOk, xs) := by
  unfold load
  simp only [hmagic, hversion, ne_eq, not_true_eq_false, if_false, loadFiles_eq, Option.map_bind,
    Function.comp_def, Option.map_map, List.nil_append]

/-- What a `Load` that returns `INITRD_OK` has read and added. -/
theorem load_ok {file : Option (List Byte)} {xs : List Added}
    (h : load magic heap file s = some (s', initrdOk, xs)) :
    ∃ bytes, file = some bytes ∧ (headerOf heap bytes).magic = magic ∧
      (headerOf heap bytes).version = initrdVersion ∧
      filesFrom heap bytes (headerOf heap bytes).entryCount.toNat 0 (filesStart heap bytes) =
        some xs ∧ addAll heap 0 s xs = some s' := by
  cases file with
  | none => simp [load, initrdOk, initrdFileNotFound] at h
  | some bytes =>
      by_cases hmagic : (headerOf heap bytes).magic = magic
      · by_cases hversion : (headerOf heap bytes).version = initrdVersion
        · rw [load_of_accepted hmagic hversion] at h
          obtain ⟨ys, hys, hadd⟩ := Option.bind_eq_some_iff.mp h
          obtain ⟨t, ht, heq⟩ := Option.map_eq_some_iff.mp hadd
          cases heq
          exact ⟨bytes, rfl, hmagic, hversion, hys, ht⟩
        · simp [load, hmagic, hversion, initrdOk, initrdWrongVersion] at h
      · simp [load, hmagic, initrdOk, initrdInvalidFile] at h

/-! ## Adding a list of files -/

/-- From round `i` on `malloc` returns addresses of its own. -/
structure Heap.Fresh (heap : Heap) (i : Nat) (live : List Addr) : Prop where
  nonzero : ∀ j, i ≤ j → heap.node j ≠ 0
  unused : ∀ j, i ≤ j → heap.node j ∉ live
  distinct : ∀ j k, i ≤ j → j < k → heap.node k ≠ heap.node j

theorem mem_live_addFromMemory {name : CString} {data : List Byte} {size r : Word32} {new a : Addr}
    (h : addFromMemory s name data size new = some (s', r)) (ha : a ∈ s'.live) :
    a = new ∨ a ∈ s.live := by
  unfold addFromMemory at h
  split at h
  · cases h
  · cases h
    rw [sameFiles_link.live] at ha
    exact Or.inr ha
  · cases h
    rw [sameFiles_link.live] at ha
    exact List.mem_cons.mp ha

theorem Heap.Fresh.next (h : heap.Fresh i s.live) {name : CString} {data : List Byte}
    {size r : Word32} (hadd : addFromMemory s name data size (heap.node i) = some (s', r)) :
    heap.Fresh (i + 1) s'.live where
  nonzero := fun j hj => h.nonzero j (by omega)
  unused := by
    intro j hj hmem
    rcases mem_live_addFromMemory hadd hmem with heq | hold
    · exact h.distinct i j le_rfl hj heq
    · exact h.unused j (by omega) hold
  distinct := fun j k hj hjk => h.distinct j k (by omega) hjk

/-- Each file has a name that is not in the list yet, or finds a list of at most one file. -/
def NewOrOnly : FileMap → List File → Prop
  | _, [] => True
  | m, f :: fs => (f.name ∉ m.map File.name ∨ m.length ≤ 1) ∧ NewOrOnly (m.add f) fs

theorem Represents.keepsOthers (h : Represents s l m) {f : File}
    (hf : f.name ∉ m.map File.name ∨ m.length ≤ 1) (new : Addr) :
    KeepsOthers s (.addFromMemory f.name f.data f.size new) := by
  by_cases hname : f.name ∈ m.map File.name
  · right
    have hlength : l.length ≤ 1 := by
      rw [← List.length_map (f := s.file), h.files]
      exact hf.resolve_left (not_not_intro hname)
    cases l with
    | nil => exact absurd (h.files ▸ hname) List.not_mem_nil
    | cons a t =>
        obtain rfl : t = [] := List.length_eq_zero_iff.mp (by simpa using hlength)
        rw [h.head_cons]
        exact h.ring.path.next_eq_head_iff.mpr rfl
  · exact .inl (h.find_eq_none hname)

/-- **The calls of `AddFromMemory`** follow the map as long as they are of that kind. -/
theorem Represents.addAll (h : Represents s l m) (hm : (m.map File.name).Nodup) {xs : List Added}
    (hfresh : heap.Fresh i s.live) (hnew : NewOrOnly m (xs.map Added.file))
    (hlen : ∀ x ∈ xs, x.cname.val.length + 1 < 2 ^ 32) :
    ∃ s' l', Buildrd.addAll heap i s xs = some s' ∧
      Represents s' l' ((xs.map Added.file).foldl FileMap.add m) ∧
      (((xs.map Added.file).foldl FileMap.add m).map File.name).Nodup := by
  induction xs generalizing i s l m with
  | nil => exact ⟨s, l, rfl, h, hm⟩
  | cons x xs ih =>
      obtain ⟨hx, hxs⟩ := List.forall_mem_cons.mp hlen
      obtain ⟨hfirst, hrest⟩ := hnew
      have hcall : Allowed s (.addFromMemory x.cname (x.data.map Cell.byte) x.size (heap.node i)) :=
        ⟨hfresh.nonzero i le_rfl, hfresh.unused i le_rfl, hx⟩
      obtain ⟨s₁, r, l₁, hadd, h₁, hm₁⟩ := h.exec hm hcall (h.keepsOthers hfirst _)
      obtain ⟨s', l', hall, h'⟩ := ih h₁ hm₁ (hfresh.next hadd) hrest hxs
      refine ⟨s', l', ?_, h'⟩
      change addFromMemory s x.cname (x.data.map Cell.byte) x.size (heap.node i) = _ at hadd
      rw [Buildrd.addAll, hadd]
      exact hall

/-- Distinct new names are put behind the others. -/
theorem newOrOnly_of_nodup {fs : List File} (h : ((m ++ fs).map File.name).Nodup) :
    NewOrOnly m fs ∧ fs.foldl FileMap.add m = m ++ fs := by
  induction fs generalizing m with
  | nil => exact ⟨trivial, (List.append_nil m).symm⟩
  | cons f fs ih =>
      have hf : f.name ∉ m.map File.name := by
        intro hmem
        rw [List.map_append, List.nodup_append] at h
        exact h.2.2 f.name hmem f.name List.mem_cons_self rfl
      have hsplit : m ++ f :: fs = FileMap.add m f ++ fs := by
        rw [FileMap.add_of_not_mem hf, List.append_assoc]
        rfl
      rw [hsplit] at h ⊢
      obtain ⟨hnew, hfold⟩ := ih h
      exact ⟨⟨.inl hf, hnew⟩, hfold⟩

end Buildrd
end ZineOS
