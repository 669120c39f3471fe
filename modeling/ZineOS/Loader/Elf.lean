import ZineOS.Loader.Virtual

/-!
# The loader's ELF64 reader

`Elf::Load` checks the header of an image in memory and gives every PROGBITS and NOBITS section a
block of frames: it copies or clears the contents and maps the block at the section's address and at
its own.  The headers are read where the source reads them, from the memory of that moment.

A failed check prints, clears interrupts and halts, so `Load` does not go on from there.  The section
loop re-reads `e_shnum` every round; it is cut off after `fuel` rounds.
-/

namespace ZineOS
namespace Loader
namespace Elf

open Lib VirtualMemory

/-- `ET_EXEC`. -/
def etExec : Word16 := 2
/-- `EM_X86_64`. -/
def emX86_64 : Word16 := 62
/-- `SHT_PROGBITS`. -/
def shtProgbits : Word32 := 1
/-- `SHT_NOBITS`. -/
def shtNobits : Word32 := 8

/-! ## Fields of `Elf64_Ehdr` and `Elf64_Shdr` -/

def eIdent (m : Mem) (elf : Word32) (i : Nat) : Byte := load8 m (elf + BitVec.ofNat 32 i)
def eType (m : Mem) (elf : Word32) : Word16 := load16 m (elf + 16)
def eMachine (m : Mem) (elf : Word32) : Word16 := load16 m (elf + 18)
def eEntry (m : Mem) (elf : Word32) : Word64 := load64 m (elf + 24)
def eShoff (m : Mem) (elf : Word32) : Word64 := load64 m (elf + 40)
def eShentsize (m : Mem) (elf : Word32) : Word16 := load16 m (elf + 58)
def eShnum (m : Mem) (elf : Word32) : Word16 := load16 m (elf + 60)

def shType (m : Mem) (sh : Word32) : Word32 := load32 m (sh + 4)
def shAddr (m : Mem) (sh : Word32) : Word64 := load64 m (sh + 16)
def shOffset (m : Mem) (sh : Word32) : Word64 := load64 m (sh + 24)
def shSize (m : Mem) (sh : Word32) : Word64 := load64 m (sh + 32)

/-- `(uint64_t)p` of a pointer: the compiler sign-extends. -/
def castU64 (p : Word32) : Word64 := p.signExtend 64

/-- The pointer `section_header`. -/
def sectionHeader (m : Mem) (elf : Word32) : Word32 := (castU64 elf + eShoff m elf).setWidth 32

/-- `&section_header[i]`, by the size of the structure. -/
def sectionAt (base i : Word32) : Word32 := base + 64 * i

/-! ## `Elf::Load` -/

/-- How far a call of `Load` has come. -/
inductive Outcome where
  /-- `Elf::Error` was called with this text and value and has halted the processor. -/
  | error (what : String) (value : Word64)
  | returned (entry : Word64)
  /-- The loop has used up its rounds. -/
  | running
deriving DecidableEq, Repr

/-- The checks of `Load`, with the text and value each one reports. -/
def check (m : Mem) (elf : Word32) : Option (String × Word64) :=
  if eIdent m elf 0 ≠ 0x7f ∨ eIdent m elf 1 ≠ 0x45 ∨ eIdent m elf 2 ≠ 0x4c ∨
      eIdent m elf 3 ≠ 0x46 then some ("IDENT", load64 m elf)
  else if eType m elf ≠ etExec then some ("Type", (eType m elf).setWidth 64)
  else if eMachine m elf ≠ emX86_64 then some ("Machine", (eMachine m elf).setWidth 64)
  else none

/-- `VIRTUAL_FLAG_PRESENT | VIRTUAL_FLAG_READWRITE | VIRTUAL_FLAG_GLOBAL`. -/
def sectionFlags : Word64 := flagPresent ||| flagReadWrite ||| flagGlobal

/-- Map a section virtual and physically. -/
def mapSection (s : Machine) (sh ptr : Word32) : Machine :=
  let s := mapRange s (castU64 ptr) (shAddr s.mem sh) (shSize s.mem sh) sectionFlags
  mapRange s (castU64 ptr) (castU64 ptr) (shSize s.mem sh) sectionFlags

/-- The local `entry` after a PROGBITS section. -/
def updateEntry (m : Mem) (elf sh ptr : Word32) (entry : Word64) : Word64 :=
  if shAddr m sh ≤ eEntry m elf ∧ eEntry m elf ≤ shAddr m sh + shSize m sh then
    castU64 ptr + eEntry m elf - shAddr m sh
  else entry

/-- A PROGBITS section.  `none` is the early return when `Alloc` fails. -/
def loadProgbits (s : Machine) (elf sh : Word32) (entry : Word64) : Option Word64 × Machine :=
  let (ptr, s) := s.alloc Frame.frameSub4GB (shSize s.mem sh) Frame.frameUsed
  if ptr = 0 then (none, s)
  else
    let src := (shOffset s.mem sh + castU64 elf).setWidth 32
    let mem := memcpy s.mem ptr src ((shSize s.mem sh).setWidth 32)
    let s := mapSection { s with mem := mem } sh ptr
    (some (updateEntry s.mem elf sh ptr entry), s)

/-- A NOBITS section. -/
def loadNobits (s : Machine) (sh : Word32) (entry : Word64) : Option Word64 × Machine :=
  let (ptr, s) := s.alloc Frame.frameSub4GB (shSize s.mem sh) Frame.frameUsed
  if ptr = 0 then (none, s)
  else
    let mem := memzero s.mem ptr ((shSize s.mem sh).setWidth 32).toNat
    (some entry, mapSection { s with mem := mem } sh ptr)

/-- The body of the loop for one section header. -/
def loadSection (s : Machine) (elf sh : Word32) (entry : Word64) : Option Word64 × Machine :=
  if shType s.mem sh = shtProgbits then loadProgbits s elf sh entry
  else if shType s.mem sh = shtNobits then loadNobits s sh entry
  else (some entry, s)

/-- The loop over the section headers. -/
def loadLoop : Nat → Machine → Word32 → Word32 → Word32 → Word64 → Outcome × Machine
  | 0, s, _, _, _, _ => (.running, s)
  | fuel + 1, s, elf, base, i, entry =>
      if i = (eShnum s.mem elf).setWidth 32 then (.returned entry, s)
      else
        match loadSection s elf (sectionAt base i) entry with
        | (none, s) => (.returned 0, s)
        | (some entry, s) => loadLoop fuel s elf base (i + 1) entry

/-- `Elf::Load`. -/
def load (fuel : Nat) (s : Machine) (elf : Word32) : Outcome × Machine :=
  match check s.mem elf with
  | some (what, value) => (.error what value, s)
  | none => loadLoop fuel s elf (sectionHeader s.mem elf) 0 0

end Elf
end Loader
end ZineOS
