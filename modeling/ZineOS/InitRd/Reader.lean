import ZineOS.Loader.Virtual
import ZineOS.Loader.Elf

/-!
# The two readers of the initial RAM disk

`initrd.cpp` of the loader and `initrd.cpp` of the kernel are the same text, once compiled with
pointers of 32 and once of 64 bits, so they are one definition over the pointer width `w`.  They
differ in `Load`: the loader also publishes the address and maps the image.

The image is read where it lies, from the memory of the moment.
-/

namespace ZineOS
namespace InitRd

open Lib Loader

def initrdOk : Word64 := 0
def initrdFileNotFound : Word64 := 1
def initrdInvalidFile : Word64 := 4
def initrdWrongVersion : Word64 := 5
def initrdVersion : Word32 := 0x00010000

variable {w : Nat}

/-- `*(uint32_t *)p`. -/
def read32 (m : Mem) (p : BitVec w) : Word32 := BitVec.ofNat 32 (m.load p.toNat 4)

/-! ## `RdHeader` and `RdFileEntry` -/

def magicOf (m : Mem) (header : BitVec w) : Word32 := read32 m header
def versionOf (m : Mem) (header : BitVec w) : Word32 := read32 m (header + 4)
def sizeOf (m : Mem) (header : BitVec w) : Word32 := read32 m (header + 8)
def entryCount (m : Mem) (header : BitVec w) : Word32 := read32 m (header + 12)
def symbolSize (m : Mem) (header : BitVec w) : Word32 := read32 m (header + 16)

def fileOffset (m : Mem) (entry : BitVec w) : Word32 := read32 m entry
def fileSize (m : Mem) (entry : BitVec w) : Word32 := read32 m (entry + 4)
def symbolOffset (m : Mem) (entry : BitVec w) : Word32 := read32 m (entry + 8)

/-- What `GetFile` fills in. -/
structure RdFileInfo (w : Nat) where
  name : BitVec w
  size : Word32
  data : BitVec w

/-- The members of class `InitRd`. -/
structure Reader (w : Nat) where
  header : BitVec w
  symbolTable : BitVec w
  entryList : BitVec w

/-- `Load` of the kernel, and the part of it that the loader shares.  `magic` is the compiler's value
of `'init'`.  A failed check leaves `m_header` set. -/
def load (magic : Word32) (m : Mem) (rd : Reader w) (header : BitVec w) : Reader w × Word64 :=
  let rd := { rd with header := header }
  if header = 0 then (rd, initrdFileNotFound)
  else if magicOf m header ≠ magic then (rd, initrdInvalidFile)
  else if versionOf m header ≠ initrdVersion then (rd, initrdWrongVersion)
  else
    let symbolTable := header + 20
    let entryList := symbolTable + (symbolSize m header).setWidth w
    ({ rd with symbolTable := symbolTable, entryList := entryList }, initrdOk)

/-- `Load` of the loader: on success it stores `g_system_params.init_rd` and maps the image to
itself. -/
def loaderLoad (magic : Word32) (s : Machine) (initRd : Word64) (rd : Reader 32) (header : Word32) :
    Machine × Word64 × Reader 32 × Word64 :=
  let (rd, code) := load magic s.mem rd header
  if code = initrdOk then
    let initRd := ptrToU64 header
    let size := (sizeOf s.mem header).setWidth 64
    (VirtualMemory.mapRange s initRd initRd size Elf.sectionFlags, initRd, rd, code)
  else (s, initRd, rd, code)

/-- `&m_entry_list[index]`. -/
def entryAt (rd : Reader w) (index : Word64) : BitVec w := rd.entryList + (index * 16).setWidth w

/-- `GetFile`: the return value and, on success, what it writes to `*file_info`. -/
def getFile (m : Mem) (rd : Reader w) (index : Word64) : Word64 × Option (RdFileInfo w) :=
  if rd.header = 0 then (initrdFileNotFound, none)
  else if (entryCount m rd.header).setWidth 64 ≤ index then (initrdFileNotFound, none)
  else
    let entry := entryAt rd index
    (initrdOk, some
      { data := rd.header + (fileOffset m entry).setWidth w
        size := fileSize m entry
        name := rd.symbolTable + (symbolOffset m entry).setWidth w })

/-- `GetFileCount`. -/
def getFileCount (m : Mem) (rd : Reader w) : Word64 :=
  if rd.header = 0 then 0 else (entryCount m rd.header).setWidth 64

/-- `strcmp` of `string.h`: 0 if the strings are equal, 1 if not. -/
def strcmp (m : Mem) : Nat → BitVec w → BitVec w → Option Nat
  | 0, _, _ => none
  | fuel + 1, str1, str2 =>
      if m str1.toNat ≠ 0 ∧ m str2.toNat ≠ 0 then
        if m str1.toNat ≠ m str2.toNat then some 1 else strcmp m fuel (str1 + 1) (str2 + 1)
      else if m str1.toNat = m str2.toNat then some 0
      else some 1

/-- The loop of `FindFile`.  `none` is a call that does not return. -/
def findLoop (m : Mem) (rd : Reader w) (name : BitVec w) :
    Nat → Word32 → Option (Word64 × Option (RdFileInfo w))
  | 0, _ => none
  | fuel + 1, i =>
      if i = entryCount m rd.header then some (initrdFileNotFound, none)
      else
        match getFile m rd (i.setWidth 64) with
        -- does not happen: `i` is below `entry_count`
        | (_, none) => none
        | (_, some info) =>
            match strcmp m (2 ^ w) name info.name with
            | none => none
            | some 0 => some (initrdOk, some info)
            | some _ => findLoop m rd name fuel (i + 1)

/-- `FindFile`. -/
def findFile (m : Mem) (rd : Reader w) (name : BitVec w) :
    Option (Word64 × Option (RdFileInfo w)) :=
  if rd.header = 0 then some (initrdFileNotFound, none)
  else findLoop m rd name (2 ^ 32) 0

end InitRd
end ZineOS
