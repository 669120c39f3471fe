import ZineOS.Loader.Common
import ZineOS.Lib.Ring

/-!
# The initial RAM disk builder

`buildrd.cpp`: the circular list of files behind `m_list_head` and the writing of the image.

The heap is a function from addresses to list entries, and `live` lists the entries that `malloc`
has given out and `free` has not taken back.  An entry holds the string and the bytes its
`name_ptr` and `data_ptr` point to.  A loop around the list that makes more rounds than there are
entries never ends; such a call has no result.
-/

namespace ZineOS
namespace Buildrd

open Lib Loader

/-- A pointer of the host. -/
abbrev Addr := Nat

/-- A string without its terminating NUL. -/
abbrev CString := { s : List Byte // (0 : Byte) ∉ s }

def initrdOk : Word32 := 0
def initrdFileNotFound : Word32 := 1
def initrdVersion : Word32 := 0x00010000

structure RdListEntry where
  name : CString
  data : List Byte
  nameLength : Word32
  fileSize : Word32
  next : Addr
  prev : Addr

structure State where
  head : Addr
  entry : Addr → RdListEntry
  live : List Addr

namespace State

def next (s : State) (a : Addr) : Addr := (s.entry a).next
def prev (s : State) (a : Addr) : Addr := (s.entry a).prev

/-- `a->next_ptr = v`. -/
def setNext (s : State) (a v : Addr) : State :=
  { s with entry := Function.update s.entry a { s.entry a with next := v } }

/-- `a->prev_ptr = v`. -/
def setPrev (s : State) (a v : Addr) : State :=
  { s with entry := Function.update s.entry a { s.entry a with prev := v } }

end State

/-- `Find`. -/
def find (s : State) (fileName : CString) : Option (Option Addr) :=
  if s.head = 0 then some none
  else search s.next s.head (fun e => fileName = (s.entry e).name) s.live.length s.head

/-- The statements of `Remove` under the comment "Take me out of the list". -/
def unlink (s : State) (entry : Addr) : State :=
  let s := s.setPrev (s.next entry) (s.prev entry)
  s.setNext (s.prev entry) (s.next entry)

/-- The block of `Remove` for an entry at the head: the next one becomes the head, unless this was
the only entry, and the entry is freed. -/
def dropHead (s : State) (entry : Addr) : State :=
  let next := s.next s.head
  { s with head := if next = entry then 0 else next, live := s.live.erase entry }

/-- `Remove`. -/
def remove (s : State) (fileName : CString) : Option (State × Word32) :=
  match find s fileName with
  | none => none
  | some none => some (s, initrdFileNotFound)
  | some (some entry) =>
      let s := unlink s entry
      some (if s.head = entry then dropHead s entry else s, initrdOk)

/-- The statements of `AddFromMemory` that put `newEntry` into the list. -/
def link (s : State) (newEntry : Addr) : State :=
  if s.head = 0 then
    let s := { s with head := newEntry }
    let s := s.setNext s.head s.head
    s.setPrev s.head s.head
  else
    let s := s.setNext newEntry s.head
    let s := s.setPrev newEntry (s.prev s.head)
    let s := s.setNext (s.prev s.head) newEntry
    s.setPrev s.head newEntry

/-- `AddFromMemory`; `new` is what `malloc` returns if it is called.  A new entry's link fields
hold whatever was there before. -/
def addFromMemory (s : State) (name : CString) (data : List Byte) (size : Word32) (new : Addr) :
    Option (State × Word32) :=
  match find s name with
  | none => none
  | some (some old) =>
      let entry := { s.entry old with fileSize := size, data := data }
      some (link { s with entry := Function.update s.entry old entry } old, initrdOk)
  | some none =>
      let entry := { s.entry new with
        name := name
        nameLength := BitVec.ofNat 32 name.val.length + 1
        fileSize := size
        data := data }
      some (link { s with entry := Function.update s.entry new entry, live := new :: s.live } new,
        initrdOk)

/-- The empty list of a new `InitRd`, over any heap. -/
def State.init (entry : Addr → RdListEntry) : State := ⟨0, entry, []⟩

/-! ## The image -/

structure RdHeader where
  magic : Word32
  version : Word32
  size : Word32
  entryCount : Word32
  symbolSize : Word32

structure RdFileEntry where
  fileOffset : Word32
  fileSize : Word32
  symbolOffset : Word32
  reserved : Word32

/-- A 32-bit word in memory order. -/
def bytes32 (v : Word32) : List Byte :=
  [v.setWidth 8, (v >>> 8).setWidth 8, (v >>> 16).setWidth 8, (v >>> 24).setWidth 8]

def RdHeader.bytes (h : RdHeader) : List Byte :=
  bytes32 h.magic ++ bytes32 h.version ++ bytes32 h.size ++ bytes32 h.entryCount ++
    bytes32 h.symbolSize

def RdFileEntry.bytes (e : RdFileEntry) : List Byte :=
  bytes32 e.fileOffset ++ bytes32 e.fileSize ++ bytes32 e.symbolOffset ++ bytes32 e.reserved

/-- `do { body } while (entry != m_list_head)` from the head on. -/
def forEntries {σ : Type} (s : State) (body : σ → RdListEntry → σ) (init : σ) : Option σ :=
  doWhile s.next s.head (fun x e => body x (s.entry e)) s.live.length init s.head

/-- The body of the first loop: one more entry in the header. -/
def RdHeader.count (h : RdHeader) (e : RdListEntry) : RdHeader :=
  { h with
    entryCount := h.entryCount + 1
    symbolSize := h.symbolSize + e.nameLength
    size := h.size + (e.fileSize + e.nameLength + 16) }

/-- The body of the third loop: write the file entry, then move the offsets on. -/
def RdFileEntry.write (x : RdFileEntry × List Byte) (e : RdListEntry) : RdFileEntry × List Byte :=
  let f := { x.1 with fileSize := e.fileSize }
  ({ f with
    symbolOffset := f.symbolOffset + e.nameLength
    fileOffset := f.fileOffset + f.fileSize }, x.2 ++ f.bytes)

/-- `Save`, with a file that can be opened and written: the return value and, unless there is
nothing to save, the bytes of the file.  `magic` is the compiler's value of `'init'`, and `reserved`
the field of the local `file_entry` that is never set. -/
def save (magic reserved : Word32) (s : State) : Option (Word32 × Option (List Byte)) :=
  if s.head = 0 then some (0, none)
  else do
    let header ← forEntries s RdHeader.count ⟨magic, initrdVersion, 20, 0, 0⟩
    let symbols ← forEntries s
      (fun out e => out ++ (e.name.val ++ [0]).take e.nameLength.toNat) []
    let first : RdFileEntry := ⟨20 + header.symbolSize + 16 * header.entryCount, 0, 0, reserved⟩
    let entries ← forEntries s RdFileEntry.write (first, [])
    let files ← forEntries s (fun out e => out ++ e.data.take e.fileSize.toNat) []
    some (initrdOk, some (header.bytes ++ symbols ++ entries.2 ++ files))

end Buildrd
end ZineOS
