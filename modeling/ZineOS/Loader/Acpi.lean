import ZineOS.InitRd.Reader

/-!
# The ACPI scan of the loader

`acpi.cpp`: find the RSDP, walk the RSDT, count the processors of every MADT and start them through
a trampoline below 1 MB.  The MADT walk and the string compares of `FindFile` need not end; they are
cut off after a number of rounds, and a call that is cut off is still `running`.

The polling loops only read memory.  What the APIC and the other processors write meanwhile is the
parameter `others`, a function of the trampoline's address.
-/

namespace ZineOS
namespace Loader

open Lib InitRd

/-- What the compiler and the linker decide: the extent of the loader in memory, the addresses of
two literals and of `ApplicationProcessor`, and the value of `'init'`. -/
structure Image where
  code : Word32
  stop : Word32
  kernelBin : Word32
  trampolineBin : Word32
  applicationProcessor : Word32
  initrdMagic : Word32

/-- A call that has come back, or is still in one of its loops. -/
inductive Progress where
  | returned (s : Machine)
  | running (s : Machine)

/-- The machine as the call has left it so far. -/
def Progress.machine : Progress → Machine
  | .returned s => s
  | .running s => s

namespace Acpi

/-- `ICR_LOW`. -/
def icrLow : Word32 := 0x0300
/-- `LOCAL_APIC`. -/
def localApic : Byte := 0
/-- `sizeof(Acpi::Madt)`. -/
def sizeofMadt : Word32 := 44
/-- `sizeof(Acpi::Rsdt)`. -/
def sizeofRsdt : Word32 := 36

/-- `"RSD PTR "`. -/
def rsdpSignature : List Byte := [0x52, 0x53, 0x44, 0x20, 0x50, 0x54, 0x52, 0x20]
/-- `"APIC"`. -/
def madtSignature : List Byte := [0x41, 0x50, 0x49, 0x43]

/-- The loop of `CheckSum`. -/
def checkSumLoop (m : Mem) : Nat → Byte → Word32 → Byte
  | 0, val, _ => val
  | length + 1, val, tablePtr => checkSumLoop m length (val + load8 m tablePtr) (tablePtr + 1)

/-- `CheckSum`. -/
def checkSum (m : Mem) (tablePtr length : Word32) : Byte := checkSumLoop m length.toNat 0 tablePtr

/-- The two tests `FindRsdp` makes at an address. -/
def isRsdp (m : Mem) (offset : Word32) : Bool :=
  memcmp m rsdpSignature offset == 0 && checkSum m offset 20 == 0

/-- `FindRsdp`: the BIOS area in steps of 16, then the first kilobyte of the EBDA. -/
def findRsdp (m : Mem) : Word32 :=
  let bios := (List.range 8192).map fun i => 0xe0000 + BitVec.ofNat 32 (16 * i)
  let ebda : Word32 := (load16 m 0x040E).setWidth 32 <<< 4
  let area := (List.range 64).map fun i => ebda + BitVec.ofNat 32 (16 * i)
  match bios.find? (isRsdp m) with
  | some offset => offset
  | none => (area.find? (isRsdp m)).getD 0

/-- `SendApicCommand`.  The wait for the delivery bit changes nothing. -/
def sendApicCommand (m : Mem) (apicAddress location command : Word32) : Mem :=
  store32 m (apicAddress + location) command

/-- The sub-table loop of `ParseMadt`: `cpu_count` when it ends, `none` when the rounds do. -/
def madtLoop (m : Mem) (madt : Word32) : Nat → Word32 → Word32 → Word32 → Option Word32
  | 0, _, _, _ => none
  | fuel + 1, ctr, offset, cpuCount =>
      if load32 m (madt + 4) ≤ ctr then some cpuCount
      else
        let cpuCount := if load8 m offset = localApic then cpuCount + 1 else cpuCount
        let length : Word32 := (load8 m (offset + 1)).setWidth 32
        if length = 0 then some cpuCount
        else madtLoop m madt fuel (ctr + length) (offset + length) cpuCount

/-- `cpu_count` after the loop of `ParseMadt`. -/
def countProcessors (m : Mem) (fuel : Nat) (madt : Word32) : Option Word32 :=
  madtLoop m madt fuel sizeofMadt (madt + sizeofMadt) 0

section

variable (img : Image) (others : Word32 → Mem → Mem) (fuel : Nat)

/-- The end of `ParseMadt`, once `trampoline.bin` is found: `cpu_count`, `gdt.location` and `address`
lie at 3, 18 and 7 in the packed `Trampoline`. -/
def startProcessors (s : Machine) (madt : Word32) (fileInfo : RdFileInfo 32) : Machine :=
  let (trampoline, s) := s.alloc Frame.frameSub1MB 4096 Frame.frameAvailable
  let m := memcpy s.mem trampoline fileInfo.data fileInfo.size
  let m := store32 m (trampoline + 3) 1
  let m := store32 m (trampoline + 18) (load32 m (trampoline + 18) + trampoline)
  let m := store32 m (trampoline + 7) img.applicationProcessor
  let m := sendApicCommand m (load32 m (madt + 36)) icrLow 0xC4500
  let m := sendApicCommand m (load32 m (madt + 36)) icrLow (0xC4600 + trampoline >>> 12)
  let m := others trampoline m
  { s with mem := m, frame := Frame.free s.frame trampoline }

/-- `ParseMadt`. -/
def parseMadt (s : Machine) (rd : Reader 32) (madt : Word32) : Progress :=
  match countProcessors s.mem fuel madt with
  | none => .running s
  | some cpuCount =>
      if cpuCount = 0 then .returned s
      else
        match findFile s.mem rd img.trampolineBin with
        | none => .running s
        | some (_, none) => .returned s
        | some (_, some fileInfo) => .returned (startProcessors img others s madt fileInfo)

/-- The loop of `ParseRsdp` over `table_count` pointers, from number `i` on. -/
def rsdtLoop (rd : Reader 32) (offsetPtr : Word32) : Nat → Machine → Word32 → Progress
  | 0, s, _ => .returned s
  | n + 1, s, i =>
      let tablePtr := load32 s.mem (offsetPtr + 4 * i)
      if memcmp s.mem madtSignature tablePtr = 0 then
        match parseMadt img others fuel s rd tablePtr with
        | .returned s => rsdtLoop rd offsetPtr n s (i + 1)
        | .running s => .running s
      else rsdtLoop rd offsetPtr n s (i + 1)

/-- `ParseRsdp`. -/
def parseRsdp (s : Machine) (rd : Reader 32) (rsdp : Word32) : Progress :=
  let rsdt := load32 s.mem (rsdp + 16)
  let length := load32 s.mem (rsdt + 4)
  if checkSum s.mem rsdt length ≠ 0 then .returned s
  else
    let tableCount := (length - sizeofRsdt) / 4
    rsdtLoop img others fuel rd (rsdt + 36) tableCount.toNat s 0

/-- `Acpi::Install`. -/
def install (s : Machine) (rd : Reader 32) : Progress :=
  let rsdp := findRsdp s.mem
  if rsdp ≠ 0 then parseRsdp img others fuel s rd rsdp else .returned s

end

end Acpi
end Loader
end ZineOS
