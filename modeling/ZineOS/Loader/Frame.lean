import ZineOS.Loader.Common
import ZineOS.Lib.SpanTable

/-!
# The loader's frame table

`frame.cpp` keeps the physical memory map in `g_mem`, 256 pairs of 64-bit words, of which the first
`mem_index` are in use.  Word 0 of a pair is the page-aligned start with the entry's flag in its low
twelve bits, word 1 the end.  `mem_index` is a `uint8_t`, so it wraps from 255 to 0.

The four operations are translated one to one.  A `for` loop that stops at the first entry passing a
test is a search over the indices in the loop's order; the test and what is done at the found index
are definitions of their own.
-/

namespace ZineOS
namespace Loader
namespace Frame

/-- `FRAME_FLAGS`. -/
def frameFlags : Word64 := 4095

/-- `FRAME_CLEARFLAGS(v)`: `~4095` is an `int`, sign-extended to the width of `v`. -/
def frameClearFlags (v : Word64) : Word64 := v &&& ~~~4095

/-- `FRAME_FREE`. -/
def frameFree : Word64 := 0x01
/-- `FRAME_USED`. -/
def frameUsed : Word64 := 0x02
/-- `FRAME_AVAILABLE`. -/
def frameAvailable : Word64 := 0x04

/-- `FRAME_SUB_1MB`. -/
def frameSub1MB : Word64 := 1024 * 1024
/-- `FRAME_SUB_4GB`. -/
def frameSub4GB : Word64 := 0x100000000
/-- `FRAME_NO_LIMIT`. -/
def frameNoLimit : Word64 := 0xffffffffffffffff

/-- One row of `g_mem`: start (the low 12 bits are flags) and end. -/
structure Entry where
  start : Word64
  stop : Word64
deriving DecidableEq, Repr

/-- `g_mem` and `mem_index`. -/
structure Table where
  gMem : Nat → Entry
  memIndex : BitVec 8

/-- The zero-initialised globals. -/
def empty : Table := ⟨fun _ => ⟨0, 0⟩, 0⟩

namespace Table

/-- Both words of row `i`. -/
def setEntry (t : Table) (i : Nat) (e : Entry) : Table :=
  { t with gMem := fun j => if j = i then e else t.gMem j }

/-- `g_mem[i][0] = v`. -/
def setStart (t : Table) (i : Nat) (v : Word64) : Table :=
  t.setEntry i { t.gMem i with start := v }

/-- `g_mem[i][1] = v`. -/
def setStop (t : Table) (i : Nat) (v : Word64) : Table :=
  t.setEntry i { t.gMem i with stop := v }

/-- Fill the row at `mem_index`, then `++mem_index`. -/
def push (t : Table) (e : Entry) : Table :=
  { t.setEntry t.memIndex.toNat e with memIndex := t.memIndex + 1 }

end Table

/-- `(g_mem[i][0] & FRAME_FREE) == FRAME_FREE`. -/
def Entry.isFree (e : Entry) : Bool := e.start &&& frameFree == frameFree

/-- The test of the loop in `ReserveRange`: a free entry that contains `[start, stop)`. -/
def reserveFits (t : Table) (start stop : Word64) (i : Nat) : Bool :=
  let memStart := frameClearFlags (t.gMem i).start
  let memEnd := frameClearFlags (t.gMem i).stop
  (t.gMem i).isFree && decide (memStart ≤ start) && decide (stop ≤ memEnd)

/-- The body of the loop in `ReserveRange` at the entry it found. -/
def reserveAt (t : Table) (i : Nat) (start stop type : Word64) : Table :=
  let memStart := frameClearFlags (t.gMem i).start
  let memEnd := frameClearFlags (t.gMem i).stop
  if start = memStart ∧ stop = memEnd then
    t.setEntry i ⟨start ||| type, stop⟩
  else
    let t := t.push ⟨start ||| type, stop⟩
    if start = memStart then
      t.setStart i (stop ||| frameFree)
    else if stop = memEnd then
      t.setStop i start
    else
      let t := t.push ⟨stop ||| frameFree, (t.gMem i).stop⟩
      t.setStop i start

/-- `Frame::ReserveRange`. -/
def reserveRange (t : Table) (addr length type : Word64) : Table :=
  let start := alignFloor addr 0x1000
  let stop := align (addr + length) 0x1000
  if t.memIndex = 255 then t
  else
    match (List.range t.memIndex.toNat).find? (reserveFits t start stop) with
    | some i => reserveAt t i start stop type
    | none => t

/-- `Frame::AddRange`.  The guard `mem_index < 256` holds of every `uint8_t`. -/
def addRange (t : Table) (addr length : Word64) : Table :=
  let start := align addr 0x1000
  let stop := alignFloor (addr + length) 0x1000
  if t.memIndex.toNat < 256 then t.push ⟨start ||| frameFree, stop⟩ else t

/-- The local `start` of `Alloc`: a `size_t`, so the low 32 bits of the entry's start. -/
def allocStart (t : Table) (i : Nat) : Word32 := (frameClearFlags (t.gMem i).start).setWidth 32

/-- The local `end` of `Alloc`, cut to 32 bits likewise. -/
def allocEnd (t : Table) (i : Nat) : Word32 := (frameClearFlags (t.gMem i).stop).setWidth 32

/-- The test of the loop in `Alloc`, for the rounded `size`. -/
def allocFits (t : Table) (maxAddr size : Word64) (i : Nat) : Bool :=
  let flags : Word32 := ((t.gMem i).start &&& frameFlags).setWidth 32
  let need := (allocStart t i).setWidth 64 + size
  flags &&& 1 == 1 && decide (need ≤ maxAddr) && decide (need ≤ (allocEnd t i).setWidth 64)

/-- The loop of `Alloc`, from the newest entry down to entry 0. -/
def allocFind (t : Table) (maxAddr size : Word64) : Option Nat :=
  (List.range t.memIndex.toNat).reverse.find? (allocFits t maxAddr size)

/-- `Frame::Alloc`: the returned pointer and the table after the call. -/
def alloc (t : Table) (maxAddr size type : Word64) : Word32 × Table :=
  let size := align size 0x1000
  match allocFind t maxAddr size with
  | some i =>
      let start := allocStart t i
      (start, reserveRange t (start.setWidth 64) size type)
  | none => (0, t)

/-- `Frame::Free`.  `(uint64_t)frame` sign-extends the 32-bit pointer. -/
def free (t : Table) (frame : Word32) : Table :=
  let location : Nat → Word64 := fun i => frameClearFlags (t.gMem i).start
  match (List.range t.memIndex.toNat).find? fun i => location i == frame.signExtend 64 with
  | some i => t.setStart i (location i ||| frameFree)
  | none => t

/-! ## Reading the table as a page map -/

/-- What the flag of an entry says about its pages. -/
inductive Status where
  | free
  | used
  | available
deriving DecidableEq, Repr

/-- The flag bit stored for a status. -/
def Status.flag : Status → Word64
  | .free => frameFree
  | .used => frameUsed
  | .available => frameAvailable

/-- The status an entry's first word stands for. -/
def Entry.status (e : Entry) : Status :=
  if e.start &&& frameFlags = frameFree then .free
  else if e.start &&& frameFlags = frameUsed then .used
  else .available

/-- The addresses of an entry with its status: `start <= p < end`. -/
def Entry.span (e : Entry) : Lib.Span Nat Status :=
  ⟨(frameClearFlags e.start).toNat, (frameClearFlags e.stop).toNat, e.status⟩

/-- The rows in use, `g_mem[0 .. mem_index)`. -/
def Table.live (t : Table) : List Entry := (List.range t.memIndex.toNat).map t.gMem

/-- The rows in use as labelled spans. -/
def Table.spans (t : Table) : List (Lib.Span Nat Status) := t.live.map Entry.span

/-- The status of page number `p`, `none` for a page the table does not track. -/
def Table.pageStatus (t : Table) (p : Nat) : Option Status := Lib.Span.lookup t.spans (p * 0x1000)

end Frame
end Loader
end ZineOS
