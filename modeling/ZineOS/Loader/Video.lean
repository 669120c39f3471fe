import ZineOS.Loader.Memory

/-!
# The loader's text console

`video.cpp`.  The file's static variables are the fields of `State`; `csr_x` and `csr_y` are signed
integers that stay small, every pointer is a 32-bit word.  `stores` is not in the source: it lists
the address and the length of every store made, so that one can speak about where they go.
-/

namespace ZineOS
namespace Loader
namespace Video

open Lib

/-- `VGA_MEMORY_ADDR`. -/
def vgaMemory : Word32 := 0xB8000

structure State where
  mem : Mem
  lineptr : Word32
  attrib : Word16
  csrX : Int
  csrY : Int
  /-- CRT controller registers 14 and 15. -/
  crtc : Byte × Byte
  stores : List (Nat × Nat)

/-- The static variables as the linker leaves them. -/
def statics (mem : Mem) : State where
  mem := mem
  lineptr := vgaMemory
  attrib := 0x0F <<< 8
  csrX := 0
  csrY := 0
  crtc := (0, 0)
  stores := []

/-- `*(uint16_t *)p = v`. -/
def store16 (s : State) (p : Word32) (v : Word16) : State :=
  { s with mem := s.mem.store p.toNat 2 v.toNat, stores := (p.toNat, 2) :: s.stores }

/-- `memsetw` of `string.h`: one 16-bit store after the other. -/
def memsetw (s : State) (dest : Word32) (val : Word16) : Nat → State
  | 0 => s
  | count + 1 => memsetw (store16 s dest val) (dest + 2) val count

def copy (s : State) (dst src n : Word32) : State :=
  { s with mem := memcpy s.mem dst src n, stores := (dst.toNat, n.toNat) :: s.stores }

/-- The address of row `y`, as `(uint16_t *)VGA_MEMORY_ADDR + y * 80` computes it. -/
def rowAddr (y : Word32) : Word32 := vgaMemory + y * 80 * 2

def scroll (s : State) : State :=
  if s.csrY < 25 then s
  else
    let blank := 0x20 ||| s.attrib
    let temp := BitVec.ofInt 32 (s.csrY - 25 + 1)
    -- the existing lines move up, then the emptied one is cleared
    let s := copy s vgaMemory (rowAddr temp) ((25 - temp) * 80 * 2)
    let s := memsetw s (rowAddr (25 - temp)) blank 80
    { s with csrY := 24 }

def moveCursor (s : State) : State :=
  let temp := BitVec.ofInt 32 (s.csrY * 80 + s.csrX)
  { s with crtc := ((temp >>> 8).setWidth 8, temp.setWidth 8) }

/-- The statements of the two new-line branches of `Out`. -/
def newLine (s : State) : State :=
  let s := scroll { s with csrX := 0, csrY := s.csrY + 1 }
  { s with lineptr := rowAddr (BitVec.ofInt 32 s.csrY) }

/-- The first half of `Out`: what the character itself does.  `c >= ' '` compares signed
characters, so the bytes from `0x80` on are skipped. -/
def outChar (s : State) (c : Byte) : State :=
  if c = 0x08 then
    if s.csrX ≠ 0 then { s with csrX := s.csrX - 1 } else s
  -- `& ~(8 - 1)` rounds down, also for negative numbers
  else if c = 0x09 then { s with csrX := (s.csrX + 8) / 8 * 8 }
  else if c = 0x0D then { s with csrX := 0 }
  else if c = 0x0A then newLine s
  else if (0x20 : Byte).sle c then
    let s' := store16 s (s.lineptr + 2 * BitVec.ofInt 32 s.csrX) (c.signExtend 16 ||| s.attrib)
    { s' with csrX := s.csrX + 1 }
  else s

/-- `Out`. -/
def out (s : State) (c : Byte) : State :=
  let s := outChar s c
  if 80 ≤ s.csrX then newLine s else s

/-- `Write(char)`. -/
def write (s : State) (ch : Byte) : State := moveCursor (out s ch)

/-- `Write(const char *)`: the characters in front of the NUL. -/
def writeText (s : State) (text : List Byte) : State :=
  moveCursor ((text.takeWhile (· ≠ 0)).foldl out s)

def startLine (s : State) : State := if s.csrX = 0 then s else write s 0x0A

def clear (s : State) : State :=
  let blank := 0x20 ||| s.attrib
  let s := memsetw s vgaMemory blank (80 * 25)
  moveCursor { s with csrX := 0, csrY := 0, lineptr := vgaMemory }

def install (s : State) : State := clear s

def setFgColor (s : State) (fore : Byte) : State :=
  { s with attrib := (s.attrib &&& 0xF000) ||| ((fore.setWidth 16 &&& 0xF) <<< 8) }

def setBgColor (s : State) (back : Byte) : State :=
  { s with attrib := (s.attrib &&& 0x0F00) ||| ((back.setWidth 16 &&& 0xF) <<< 12) }

/-- `SetColors(Color, Color)`. -/
def setColors (s : State) (fore back : Byte) : State :=
  { s with attrib := ((back.setWidth 16 <<< 4) ||| (fore.setWidth 16 &&& 0x0F)) <<< 8 }

/-- `SetColors(uint16_t)`. -/
def setColorMask (s : State) (colors : Word16) : State := { s with attrib := colors <<< 8 }

/-- The public functions that change something. -/
inductive Call
  | write (ch : Byte)
  | writeText (text : List Byte)
  | startLine
  | clear
  | setFgColor (fore : Byte)
  | setBgColor (back : Byte)
  | setColors (fore back : Byte)
  | setColorMask (colors : Word16)

def step (s : State) : Call → State
  | .write ch => Video.write s ch
  | .writeText text => Video.writeText s text
  | .startLine => Video.startLine s
  | .clear => Video.clear s
  | .setFgColor fore => Video.setFgColor s fore
  | .setBgColor back => Video.setBgColor s back
  | .setColors fore back => Video.setColors s fore back
  | .setColorMask colors => Video.setColorMask s colors

end Video
end Loader
end ZineOS
