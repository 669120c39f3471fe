import ZineOS.Loader.Memory

/-!
# The multiboot information

`multiboot.h`: the structures a multiboot loader leaves in memory and the accessors of `InfoTable`.
They are read where they lie, so every accessor takes the memory of the moment.  An index outside
its table gives the null pointer, as in the source.
-/

namespace ZineOS
namespace Loader
namespace MBoot

open Lib

/-- `BOOTLOADER_MAGIC`. -/
def bootloaderMagic : Word32 := 0x2BADB002
/-- `INFO_MODS`. -/
def infoMods : Word32 := 0x00000008
/-- `INFO_MEM_MAP`. -/
def infoMemMap : Word32 := 0x00000040

/-- `sizeof(InfoTable)`. -/
def sizeofInfoTable : Word64 := 88
/-- `sizeof(ModuleTable)`. -/
def sizeofModuleTable : Word32 := 16
/-- `sizeof(MemoryMapTable)`, which is packed. -/
def sizeofMemoryMapTable : Word32 := 24

/-! ## The fields -/

def flags (m : Mem) (info : Word32) : Word32 := load32 m info
def modsCount (m : Mem) (info : Word32) : Word32 := load32 m (info + 20)
def modsAddr (m : Mem) (info : Word32) : Word32 := load32 m (info + 24)
def mmapLength (m : Mem) (info : Word32) : Word32 := load32 m (info + 44)
def mmapAddr (m : Mem) (info : Word32) : Word32 := load32 m (info + 48)

def modStart (m : Mem) (module : Word32) : Word32 := load32 m module
def modEnd (m : Mem) (module : Word32) : Word32 := load32 m (module + 4)
def cmdline (m : Mem) (module : Word32) : Word32 := load32 m (module + 8)

def mapAddr (m : Mem) (map : Word32) : Word64 := load64 m (map + 4)
def mapLen (m : Mem) (map : Word32) : Word64 := load64 m (map + 12)
def mapType (m : Mem) (map : Word32) : Word32 := load32 m (map + 20)

/-! ## The accessors -/

/-- `ModuleTable::GetSize`. -/
def getSize (m : Mem) (module : Word32) : Word32 := modEnd m module - modStart m module

/-- `GetModuleCount`. -/
def getModuleCount (m : Mem) (info : Word32) : Word32 :=
  if flags m info &&& infoMods ≠ 0 ∧ modsAddr m info ≠ 0 then modsCount m info else 0

/-- `modules + index`. -/
def moduleAt (m : Mem) (info index : Word32) : Word32 := modsAddr m info + sizeofModuleTable * index

/-- `GetModule`. -/
def getModule (m : Mem) (info index : Word32) : Word32 :=
  if getModuleCount m info ≤ index then 0 else moduleAt m info index

/-- `FindModuleByCmdLine`.  The command line is compared over the length of `literal` only. -/
def findModuleByCmdLine (m : Mem) (info : Word32) (literal : List Byte) : Word32 :=
  let matchesAt (i : Nat) : Bool :=
    memcmp m literal (cmdline m (moduleAt m info (BitVec.ofNat 32 i))) == 0
  match (List.range (getModuleCount m info).toNat).find? matchesAt with
  | some i => moduleAt m info (BitVec.ofNat 32 i)
  | none => 0

/-- `GetModsTableSize`. -/
def getModsTableSize (m : Mem) (info : Word32) : Word32 := modsCount m info * sizeofModuleTable

/-- `GetMemMapCount`. -/
def getMemMapCount (m : Mem) (info : Word32) : Word32 :=
  if flags m info &&& infoMemMap = 0 ∨ mmapLength m info = 0 then 0
  else mmapLength m info / sizeofMemoryMapTable

/-- `GetMemMap`. -/
def getMemMap (m : Mem) (info index : Word32) : Word32 :=
  if getMemMapCount m info ≤ index then 0
  else mmapAddr m info + sizeofMemoryMapTable * index

end MBoot
end Loader
end ZineOS
