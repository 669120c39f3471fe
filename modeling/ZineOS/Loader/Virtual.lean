import ZineOS.Loader.Frame
import ZineOS.Loader.Memory

/-!
# The loader's page-table builder

`virtual.cpp` builds the four-level page tables of the kernel in physical memory, before paging is
switched on, so its pointers are physical addresses.  `Machine` is what the functions read and
write: the memory, the frame table and the pointer `pml4_table`.  `allocs` is not in the source; it
records what every call of `Frame::Alloc` returned, with the size it was asked for.
-/

namespace ZineOS
namespace Loader

open Lib

/-- What the loader's memory managers work on. -/
structure Machine where
  mem : Mem
  frame : Frame.Table
  pml4Table : Word32
  /-- history: the pointers `Frame::Alloc` returned and the sizes asked for, oldest first -/
  allocs : List (Word32 × Word64)

/-- A call of `Frame::Alloc`. -/
def Machine.alloc (s : Machine) (maxAddr size type : Word64) : Word32 × Machine :=
  let r := Frame.alloc s.frame maxAddr size type
  (r.1, { s with frame := r.2, allocs := s.allocs ++ [(r.1, size)] })

namespace VirtualMemory

/-- `VIRTUAL_FLAG_PRESENT`. -/
def flagPresent : Word64 := 1 <<< 0
/-- `VIRTUAL_FLAG_READWRITE`. -/
def flagReadWrite : Word64 := 1 <<< 1
/-- `VIRTUAL_FLAG_USER`. -/
def flagUser : Word64 := 1 <<< 2
/-- `VIRTUAL_FLAG_GLOBAL`. -/
def flagGlobal : Word64 := 1 <<< 8

/-- Bits 12-51 form the base address. -/
def addressMask : Word64 := 0x000FFFFFFFFFF000

/-- `table[index]` as an address. -/
def slot (table index : Word32) : Word32 := table + 8 * index

/-- The block that `Map` repeats for the upper three levels: give the entry a zeroed table if it is
zero, then follow it.  The 64-bit entry is cut to a 32-bit pointer. -/
def descend (s : Machine) (table index : Word32) (flags : Word64) : Word32 × Machine :=
  let s :=
    if load64 s.mem (slot table index) = 0 then
      let (ptr, s) := s.alloc Frame.frameNoLimit 4096 Frame.frameUsed
      let mem := memzero s.mem ptr 4096
      { s with mem := store64 mem (slot table index) (ptr.setWidth 64 ||| flags) }
    else s
  ((load64 s.mem (slot table index) &&& addressMask).setWidth 32, s)

/-- `(virt >> shift) & 0x1ff`, a `size_t`. -/
def tableIndex (virt : Word64) (shift : Nat) : Word32 := ((virt >>> shift) &&& 0x1ff).setWidth 32

/-- `VirtualMemory::Map`. -/
def map (s : Machine) (phys virt flags : Word64) : Machine :=
  let phys := alignFloor phys 0x1000
  let virt := alignFloor virt 0x1000
  let (pml3Table, s) := descend s s.pml4Table (tableIndex virt 39) flags
  let (pml2Table, s) := descend s pml3Table (tableIndex virt 30) flags
  let (pml1Table, s) := descend s pml2Table (tableIndex virt 21) flags
  { s with
    mem := store64 s.mem (slot pml1Table (tableIndex virt 12)) ((phys &&& addressMask) ||| flags) }

/-- The arguments of one `Map`. -/
structure MapCall where
  phys : Word64
  virt : Word64
  flags : Word64
deriving DecidableEq, Repr

/-- A sequence of `Map` calls. -/
def mapAll (s : Machine) (calls : List MapCall) : Machine :=
  calls.foldl (fun s c => map s c.phys c.virt c.flags) s

/-- The loop of `MapRange`, cut off after `fuel` rounds. -/
def mapLoop : Nat → Machine → Word64 → Word64 → Word64 → Word64 → Machine
  | 0, s, _, _, _, _ => s
  | fuel + 1, s, phys, virt, size, flags =>
      if size = 0 then s
      else mapLoop fuel (map s phys virt flags) (phys + 0x1000) (virt + 0x1000) (size - 0x1000) flags

/-- `VirtualMemory::MapRange`.  The rounded size is the number of rounds in pages. -/
def mapRange (s : Machine) (phys virt size flags : Word64) : Machine :=
  let phys := alignFloor phys 0x1000
  let virt := alignFloor virt 0x1000
  let size := align size 0x1000
  mapLoop (size.toNat / 0x1000) s phys virt size flags

/-- The identity calls of `Install`, `i = 0, 0x1000, ..., 0xff000`. -/
def installCalls : List MapCall :=
  (List.range 256).map fun i =>
    ⟨BitVec.ofNat 64 (i * 0x1000), BitVec.ofNat 64 (i * 0x1000),
      flagPresent ||| flagReadWrite ||| flagGlobal⟩

/-- `VirtualMemory::Install`.  The frame of the PML4 is used as it comes from `Alloc`. -/
def install (s : Machine) : Machine :=
  let (ptr, s) := s.alloc Frame.frameNoLimit 4096 Frame.frameUsed
  mapAll { s with pml4Table := ptr } installCalls

/-! ## The hardware's view -/

/-- The bits of an entry that are not the base address. -/
def entryFlags (e : Word64) : Word64 := e &&& ~~~addressMask

/-- The frame number in an entry, bits 12-51. -/
def entryFrame (e : Word64) : Nat := (e.extractLsb' 12 40).toNat

/-- How the processor reads an entry of the upper levels: it must be present, and with bit 7 clear
it names a table. -/
def nextTable (e : Word64) : Option Nat :=
  if e.getLsbD 0 && !e.getLsbD 7 then some (entryFrame e) else none

/-- How it reads an entry of the last level. -/
def leafEntry (e : Word64) : Option Word64 := if e.getLsbD 0 then some e else none

/-- Entry `i` of the table in frame number `t`. -/
def entryAt (m : Mem) (t : Nat) (i : BitVec 9) : Word64 :=
  BitVec.ofNat 64 (m.load (t * 0x1000 + 8 * i.toNat) 8)

/-- The processor's page walk: bits 47-39, 38-30 and 29-21 select tables, bits 20-12 the leaf. -/
def walk (m : Mem) (cr3 : Nat) (v : Word64) : Option Word64 := do
  let pml3 ← nextTable (entryAt m (cr3 / 0x1000) (v.extractLsb' 39 9))
  let pml2 ← nextTable (entryAt m pml3 (v.extractLsb' 30 9))
  let pml1 ← nextTable (entryAt m pml2 (v.extractLsb' 21 9))
  leafEntry (entryAt m pml1 (v.extractLsb' 12 9))

/-- The processor's rights to a page, bit by bit: a right is there when all four entries on the walk
grant it. -/
def rights (m : Mem) (cr3 : Nat) (v : Word64) : Option Word64 := do
  let e4 := entryAt m (cr3 / 0x1000) (v.extractLsb' 39 9)
  let pml3 ← nextTable e4
  let e3 := entryAt m pml3 (v.extractLsb' 30 9)
  let pml2 ← nextTable e3
  let e2 := entryAt m pml2 (v.extractLsb' 21 9)
  let pml1 ← nextTable e2
  let e1 ← leafEntry (entryAt m pml1 (v.extractLsb' 12 9))
  some (e4 &&& e3 &&& e2 &&& e1)

/-- The physical address and the flags a virtual address is sent to. -/
def translate (m : Mem) (cr3 : Nat) (v : Word64) : Option (Nat × Word64) :=
  (walk m cr3 v).map fun e => (entryFrame e * 0x1000 + v.toNat % 0x1000, entryFlags e)

end VirtualMemory
end Loader
end ZineOS
