import ZineOS.Loader.Multiboot
import ZineOS.Loader.Acpi

/-!
# The loader's main function

`kmain` in the source's order: free memory from the memory map, reservations, page tables, the
initial RAM disk, ACPI, the kernel.  What is printed on the way is left out.

`bootTable` is the frame table when `VirtualMemory::Install` is called, `afterInstall` what follows
that call.
-/

namespace ZineOS
namespace Loader

open Lib InitRd MBoot

/-- `"initrd"`. -/
def initrdName : List Byte := [0x69, 0x6e, 0x69, 0x74, 0x72, 0x64]

/-- The ranges that `kmain` gives to `AddRange`: the entries of type 1. -/
def availableRanges (m : Mem) (info : Word32) : List (Word64 × Word64) :=
  (List.range (getMemMapCount m info).toNat).filterMap fun i =>
    let map := getMemMap m info (BitVec.ofNat 32 i)
    if mapType m map = 1 then some (mapAddr m map, mapLen m map) else none

/-- The memory map loop. -/
def addMemoryMap (m : Mem) (info : Word32) (t : Frame.Table) : Frame.Table :=
  (availableRanges m info).foldl (fun t r => Frame.addRange t r.1 r.2) t

/-- The lower 4 KB, then the multiboot structure. -/
def reserveInfo (info : Word32) (t : Frame.Table) : Frame.Table :=
  let t := Frame.reserveRange t 0 4096 Frame.frameUsed
  Frame.reserveRange t (ptrToU64 info) sizeofInfoTable Frame.frameAvailable

/-- The bytes of every module, then the modules table. -/
def reserveModules (m : Mem) (info : Word32) (t : Frame.Table) : Frame.Table :=
  let t := (List.range (getModuleCount m info).toNat).foldl (fun t i =>
    let module := getModule m info (BitVec.ofNat 32 i)
    Frame.reserveRange t (ptrToU64 (modStart m module)) ((getSize m module).setWidth 64)
      Frame.frameUsed) t
  Frame.reserveRange t (ptrToU64 (modsAddr m info)) ((getModsTableSize m info).setWidth 64)
    Frame.frameAvailable

/-- The loader's own image. -/
def reserveImage (img : Image) (t : Frame.Table) : Frame.Table :=
  Frame.reserveRange t (ptrToU64 img.code) (ptrToU64 img.stop - ptrToU64 img.code)
    Frame.frameAvailable

/-- The frame table when `VirtualMemory::Install` is called. -/
def bootTable (img : Image) (m : Mem) (info : Word32) (t : Frame.Table) : Frame.Table :=
  reserveImage img (reserveModules m info (reserveInfo info (addMemoryMap m info t)))

section

variable (img : Image) (others : Word32 → Mem → Mem) (fuel : Nat)

/-- `kmain` behind `Acpi::Install`: find the kernel and load it. -/
def loadKernel (s : Machine) (rd : Reader 32) : Elf.Outcome × Machine :=
  match findFile s.mem rd img.kernelBin with
  | none => (.running, s)
  | some (_, none) => (.returned 0, s)
  | some (_, some fileInfo) => Elf.load fuel s fileInfo.data

/-- `kmain` behind `VirtualMemory::Install`. -/
def afterInstall (s : Machine) (info : Word32) : Elf.Outcome × Machine :=
  let s := VirtualMemory.mapRange s (ptrToU64 img.code) (ptrToU64 img.code)
    (ptrToU64 img.stop - ptrToU64 img.code) Elf.sectionFlags
  let initrdModule := findModuleByCmdLine s.mem info initrdName
  if initrdModule = 0 then (.returned 0, s)
  else
    let (s, _, rd, _) := loaderLoad img.initrdMagic s 0 ⟨0, 0, 0⟩ (modStart s.mem initrdModule)
    match Acpi.install img others fuel s rd with
    | .running s => (.running, s)
    | .returned s => loadKernel img fuel s rd

/-- `kmain`. -/
def kmain (s : Machine) (magic info : Word32) : Elf.Outcome × Machine :=
  if magic ≠ bootloaderMagic ∨ info = 0 then (.returned 0, s)
  else if getMemMapCount s.mem info = 0 then (.returned 0, s)
  else if getModuleCount s.mem info = 0 then
    (.returned 0, { s with frame := reserveInfo info (addMemoryMap s.mem info s.frame) })
  else
    let s := { s with frame := bootTable img s.mem info s.frame }
    afterInstall img others fuel (VirtualMemory.install s) info

end

end Loader
end ZineOS
