import ZineOS.Loader.AcpiRun
import ZineOS.Loader.KernelLoad
import ZineOS.Loader.ModuleSearch
import ZineOS.InitRd.RoundTrip

/-!
# From the boot loader to the kernel

`kmain` from its first line to the address it returns, on which `boot.asm` switches to long mode.  The
parts of it have their theorems elsewhere; here they are put together: what each part leaves is what
the next one relies on.

`Platform` is what the machine and the boot loader promise, `RamDisk` what the RAM disk holds, `Run`
that this boot has memory enough and comes back from ACPI.  `HandedOver` is what the kernel starts
with.
-/

namespace ZineOS
namespace Loader

open Lib InitRd MBoot VirtualMemory

/-! ## The RAM disk -/

section RamDisk

variable {avail device : Nat → Prop} {n : Nat} {live : AllocLog} {tables : List Nat} {s : Machine}
  {magic : Word32} {base : Nat} {l : List Buildrd.File}

/-- `InitRd::Load` when the image is there. -/
theorem loaderLoad_eq (hs : Stored magic s.mem base l) (hf : Fits 32 base l) {header : Word32}
    (hheader : header.toNat = base) (initRd : Word64) (rd : Reader 32) :
    loaderLoad magic s initRd rd header =
        (VirtualMemory.mapRange s (ptrToU64 header) (ptrToU64 header)
          ((sizeOf s.mem header).setWidth 64) Elf.sectionFlags, ptrToU64 header,
          (load magic s.mem rd header).1, (load magic s.mem rd header).2) ∧
      Opened (load magic s.mem rd header).1 base l ∧
      ((sizeOf s.mem header).setWidth 64).toNat = imageLength l := by
  have hofNat : header = BitVec.ofNat 32 base := by
    rw [← hheader, BitVec.ofNat_toNat, BitVec.setWidth_eq]
  have hlen := hf.fits
  have hloaded := load_eq hs hf rd
  rw [← hofNat] at hloaded
  have hsize : ((sizeOf s.mem header).setWidth 64).toNat = imageLength l := by
    have hfield : (header + 8).toNat = base + 8 := by
      have hstart := dataStart_le l
      unfold dataStart at hstart
      rw [BitVec.toNat_add, hheader, Nat.mod_eq_of_lt]
      · rfl
      · show base + 8 < 2 ^ 32
        omega
    unfold InitRd.sizeOf
    rw [BitVec.toNat_setWidth, toNat_read32, hfield, hs.size]
    omega
  refine ⟨?_, hloaded.2, hsize⟩
  unfold loaderLoad
  dsimp only
  rw [if_pos hloaded.1]

/-- `InitRd::Load` maps the RAM disk to itself and opens it. -/
theorem loaderLoad_booting (device : Nat → Prop) (h : Booting avail n s live tables)
    (hs : Stored magic s.mem base l)
    (hf : Fits 32 base l) {header : Word32} (hheader : header.toNat = base) (initRd : Word64)
    (rd : Reader 32) (hample : Ample n (loaderLoad magic s initRd rd header).1.allocs) :
    ∃ live' tables', Booting avail n (loaderLoad magic s initRd rd header).1 live' tables' ∧
      Preserves avail device s (loaderLoad magic s initRd rd header).1 ∧
      Opened (loaderLoad magic s initRd rd header).2.2.1 base l ∧
      ∀ v, InPages base (imageLength l) v.toNat →
        physical (loaderLoad magic s initRd rd header).1 v = some v.toNat := by
  have hlen := hf.fits
  obtain ⟨heq, hopened, hsize⟩ := loaderLoad_eq hs hf hheader initRd rd
  have hstart : (ptrToU64 header).toNat = base := by rw [toNat_ptrToU64, hheader]
  rw [heq] at hample ⊢
  obtain ⟨live', tables', hbooting, hpreserves, hpages⟩ :=
    h.mapRange device (by rw [hstart]; omega) (by rw [hsize]; omega) hample
  rw [hstart, hsize] at hpages
  exact ⟨live', tables', hbooting, hpreserves, hopened, hpages⟩

/-- `FindFile` gives the file's place in the image. -/
theorem findFile_data {m : Mem} {rd : Reader 32} (ho : Opened rd base l) (hs : Stored magic m base l)
    (hf : Fits 32 base l) (hsize : ∀ f ∈ l, f.data.length = f.size.toNat) {name : Buildrd.CString}
    {p : Word32} (hp : m.Holds p.toNat (name.val ++ [0])) (hpw : p.toNat + name.val.length < 2 ^ 32)
    {k : Nat} (hk : l.findIdx? (fun f => f.name = name) = some k) :
    ∃ info, findFile m rd p = some (initrdOk, some info) ∧
      info.data = BitVec.ofNat 32 (base + fileStart l k) := by
  have hlt : k < l.length := (List.findIdx?_eq_some_iff_getElem.mp hk).1
  have hfind := (ho.answers hs hf hsize).find name p hp hpw
  unfold findFrom at hfind
  rw [List.drop_zero, hk] at hfind
  dsimp only at hfind
  rw [Nat.zero_add] at hfind
  obtain ⟨info, hget, -, -⟩ := getFile_eq ho hs hf hsize hlt
  refine ⟨info, hfind.trans (congrArg some hget), ?_⟩
  have hdata : info.data =
      rd.header + (fileOffset m (InitRd.entryAt rd (BitVec.ofNat 64 k))).setWidth 32 := by
    unfold getFile at hget
    rw [if_neg (ho.header_ne_zero hf)] at hget
    dsimp only at hget
    split_ifs at hget
    · exact absurd (congrArg Prod.fst hget)
        (show initrdFileNotFound ≠ initrdOk by decide)
    · have hinfo := Option.some.inj (congrArg Prod.snd hget)
      rw [← hinfo]
  have hoffset := ho.fileOffset hs hf hlt
  apply BitVec.eq_of_toNat_eq
  rw [hdata, BitVec.setWidth_eq, BitVec.toNat_add, ho.header, hoffset, BitVec.toNat_ofNat]

end RamDisk

/-! ## What is promised -/

/-- What `kmain` reads on its way and the kernel needs: the boot data and the loader itself, whose
variables are not in the memory of the model but fields of the machine. -/
def Kept (img : Image) (m : Mem) (info : Word32) (x : Nat) : Prop :=
  BootData m info x ∨ (img.code.toNat ≤ x ∧ x < img.stop.toNat)

/-- The page is free when `VirtualMemory::Install` is called. -/
def Spendable (img : Image) (m : Mem) (info : Word32) (q : Nat) : Prop :=
  (bootTable img m info Frame.empty).pageStatus q = some .free

/-- The machine and what the boot loader left.  Memory lies below 2 GB, what is needed later is
withheld from the frame allocator, and devices are neither. -/
structure Platform (img : Image) (others : Word32 → Mem → Mem) (device : Nat → Prop) (m : Mem)
    (info : Word32) : Prop where
  info_ne : info ≠ 0
  memoryMap_ne : getMemMapCount m info ≠ 0
  memoryMap_le : ∀ r ∈ availableRanges m info, r.1.toNat + r.2.toNat ≤ 2 ^ 31
  memoryMap_apart : (availableRanges m info).Pairwise fun a b =>
    ∀ p, Frame.Inside a.1.toNat a.2.toNat p → ¬ Frame.Inside b.1.toNat b.2.toNat p
  loader_le : img.stop.toNat + 0x1000 ≤ 2 ^ 31
  infoFits : InfoFits m info initrdName.length
  withheld : ∀ x, Kept img m info x → ¬ Spendable img m info (x / 0x1000)
  devices : ∀ x, device x → ¬ Kept img m info x ∧ ¬ Spendable img m info (x / 0x1000)
  confines : Acpi.Confines others device

/-- `"kernel.bin"`. -/
def kernelName : Buildrd.CString :=
  ⟨[0x6b, 0x65, 0x72, 0x6e, 0x65, 0x6c, 0x2e, 0x62, 0x69, 0x6e], by decide⟩

/-- The module that `kmain` takes for the RAM disk. -/
def initrdModule (m : Mem) (info : Word32) : Word32 := findModuleByCmdLine m info initrdName

/-- Where the RAM disk lies. -/
def initrdBase (m : Mem) (info : Word32) : Nat := (modStart m (initrdModule m info)).toNat

/-- Where the file number `k` of a RAM disk at `base` lies. -/
def fileAt (base : Nat) (l : List Buildrd.File) (k : Nat) : Word32 :=
  BitVec.ofNat 32 (base + fileStart l k)

/-- Its length. -/
def fileLength (l : List Buildrd.File) (k : Nat) : Nat :=
  (l[k]?.map fun f => f.data.length).getD 0

/-- The module `initrd` is the image of the files `l`, and file `k`, the first of that name, is a
kernel whose section `i` holds the entry point.  The name is compared with a literal in the
loader. -/
structure RamDisk (img : Image) (m : Mem) (info reserved : Word32) (l : List Buildrd.File)
    (k i : Nat) : Prop where
  found : initrdModule m info ≠ 0
  start : initrdBase m info ≠ 0
  inside : initrdBase m info + imageLength l ≤ (modEnd m (initrdModule m info)).toNat
  low : initrdBase m info + imageLength l + 0x1000 ≤ 2 ^ 31
  holds : m.Holds (initrdBase m info) (imageOf img.initrdMagic reserved l)
  sizes : ∀ f ∈ l, f.data.length = f.size.toNat
  name : m.Holds img.kernelBin.toNat (kernelName.val ++ [0])
  name_inside : img.code.toNat ≤ img.kernelBin.toNat ∧
    img.kernelBin.toNat + kernelName.val.length < img.stop.toNat
  kernel : l.findIdx? (fun f => f.name = kernelName) = some k
  image : Elf.Image m (fileAt (initrdBase m info) l k) (fileLength l k)
  entry : Elf.HoldsEntry m (fileAt (initrdBase m info) l k) i
  decides : Elf.LastAccepted m (fileAt (initrdBase m info) l k) i

/-- The machine when the loader itself is mapped, by the one behind `VirtualMemory::Install`. -/
def loaderMapped (img : Image) (s : Machine) : Machine :=
  VirtualMemory.mapRange s (ptrToU64 img.code) (ptrToU64 img.code)
    (ptrToU64 img.stop - ptrToU64 img.code) Elf.sectionFlags

/-- The machine and the RAM disk when `Acpi::Install` is called. -/
def atAcpi (img : Image) (s : Machine) (info : Word32) : Machine × Reader 32 :=
  let r := loaderLoad img.initrdMagic (loaderMapped img s) 0 ⟨0, 0, 0⟩
    (modStart (loaderMapped img s).mem (initrdModule (loaderMapped img s).mem info))
  (r.1, r.2.2.1)

/-- The machine when `VirtualMemory::Install` is called. -/
def booted (img : Image) (s : Machine) (info : Word32) : Machine :=
  { s with frame := bootTable img s.mem info s.frame }

/-- The rows of the frame table that are in use then, at most. -/
def bootRows (m : Mem) (info : Word32) : Nat :=
  (availableRanges m info).length + 2 * (getModuleCount m info).toNat + 8

/-- This boot starts afresh, finds the page of the PML4 zeroed, memory and rows enough, and comes
back from ACPI, where every trampoline fits into its page. -/
structure Run (img : Image) (others : Word32 → Mem → Mem) (device : Nat → Prop) (fuel : Nat)
    (s : Machine) (info : Word32) : Prop where
  fresh : s.frame = Frame.empty ∧ s.allocs = []
  zeroed : ∀ i, entryAt s.mem ((rooted (booted img s info)).pml4Table.toNat / 0x1000) i = 0
  ample : Ample (bootRows s.mem info) (kmain img others fuel s bootloaderMagic info).2.allocs
  returns : ∃ s', Acpi.install img others fuel (atAcpi img (install (booted img s info)) info).1
    (atAcpi img (install (booted img s info)) info).2 = .returned s'
  starts : ∀ a ∈ Acpi.installStarts img others fuel
      (atAcpi img (install (booted img s info)) info).1
      (atAcpi img (install (booted img s info)) info).2,
    Acpi.Start.Harmless img others device a

/-- What the kernel starts with at `e`, when `m` was the memory that the loader started with. -/
structure HandedOver (img : Image) (m : Mem) (info : Word32) (l : List Buildrd.File) (k : Nat)
    (s : Machine) (e : Word64) : Prop where
  nonNull : e ≠ 0
  /-- the address that is jumped to, and the one that the kernel was linked at -/
  ident : physical s e = some e.toNat
  entry : physical s (Elf.eEntry m (fileAt (initrdBase m info) l k)) = some e.toNat
  lowMemory : ∀ v, v.toNat < 2 ^ 20 → physical s v = some v.toNat
  loader : ∀ v, InPages img.code.toNat (img.stop.toNat - img.code.toNat) v.toNat →
    physical s v = some v.toNat
  ramDisk : ∀ v, InPages (initrdBase m info) (imageLength l) v.toNat → physical s v = some v.toNat
  sections : ∀ j < (Elf.eShnum m (fileAt (initrdBase m info) l k)).toNat,
    Elf.IsLoaded m (Elf.shdr m (fileAt (initrdBase m info) l k) j) →
    ∃ p, Elf.SectionAt m (fileAt (initrdBase m info) l k) (fileLength l k)
      (Elf.shdr m (fileAt (initrdBase m info) l k) j) p s
  kept : ∀ x, Kept img m info x → s.mem x = m x

/-! ## Stage by stage -/

section Stages

variable {img : Image} {others : Word32 → Mem → Mem} {avail device : Nat → Prop} {n : Nat}
  {live : AllocLog} {tables : List Nat} {s : Machine} {m : Mem} {info reserved : Word32}
  {l : List Buildrd.File} {k i : Nat}

theorem RamDisk.modules_ne (hdisk : RamDisk img m info reserved l k i) :
    getModuleCount m info ≠ 0 := by
  obtain ⟨j, hj, -⟩ := exists_module hdisk.found
  intro hzero
  rw [hzero] at hj
  exact absurd hj (Nat.not_lt_zero _)

/-- Every byte of the RAM disk is boot data. -/
theorem RamDisk.bootData (hdisk : RamDisk img m info reserved l k i) {x : Nat}
    (hlo : initrdBase m info ≤ x) (hhi : x < initrdBase m info + imageLength l) :
    BootData m info x := by
  have hinside := hdisk.inside
  obtain ⟨j, hj, heq⟩ := exists_module hdisk.found
  have hmodule : initrdModule m info = moduleAt m info (BitVec.ofNat 32 j) := heq
  unfold initrdBase at hlo hhi hinside
  rw [hmodule] at hlo hhi hinside
  exact .module j hj hlo (by omega)

theorem RamDisk.fits (hdisk : RamDisk img m info reserved l k i) :
    Fits 32 (initrdBase m info) l := by
  have hlow := hdisk.low
  exact ⟨le_rfl, hdisk.start, by omega⟩

/-- The RAM disk is still there in a memory that kept it. -/
theorem RamDisk.stored (hdisk : RamDisk img m info reserved l k i) {m' : Mem}
    (hkept : ∀ x, Kept img m info x → m' x = m x) :
    Stored img.initrdMagic m' (initrdBase m info) l := by
  have hfits := hdisk.fits.fits
  have hholds : m'.Holds (initrdBase m info) (imageOf img.initrdMagic reserved l) := by
    intro j hj
    rw [hkept _ (Or.inl (hdisk.bootData (Nat.le_add_right _ _) ?_))]
    · exact hdisk.holds j hj
    · rw [length_imageOf] at hj
      omega
  exact stored_of_holds hdisk.sizes (by omega) hholds

/-- The file lies in the RAM disk. -/
theorem RamDisk.file (hdisk : RamDisk img m info reserved l k i) :
    (fileAt (initrdBase m info) l k).toNat = initrdBase m info + fileStart l k ∧
      fileStart l k + fileLength l k ≤ imageLength l := by
  have hlt : k < l.length := (List.findIdx?_eq_some_iff_getElem.mp hdisk.kernel).1
  have hdata := length_take_le Buildrd.File.data hlt
  have hfits := hdisk.fits.fits
  have hinside : fileStart l k + fileLength l k ≤ imageLength l := by
    unfold fileLength fileStart imageLength dataLength
    rw [List.getElem?_eq_getElem hlt]
    dsimp only [Option.map_some, Option.getD_some]
    omega
  refine ⟨?_, hinside⟩
  unfold fileAt
  rw [BitVec.toNat_ofNat, Nat.mod_eq_of_lt (by omega)]

theorem zero_not_mem_initrdName : (0 : Byte) ∉ initrdName := by decide

/-- Where `kmain` looks for the RAM disk. -/
theorem RamDisk.module (hplatform : Platform img others device m info)
    (hdisk : RamDisk img m info reserved l k i) {m' : Mem}
    (hkept : ∀ x, Kept img m info x → m' x = m x) :
    initrdModule m' info = initrdModule m info ∧
      (modStart m' (initrdModule m info)).toNat = initrdBase m info := by
  have hdata : ∀ x, BootData m info x → m' x = m x := fun x hx => hkept x (Or.inl hx)
  obtain ⟨j, hj, heq⟩ := exists_module hdisk.found
  have hmodule : initrdModule m info = moduleAt m info (BitVec.ofNat 32 j) := heq
  refine ⟨findModule_congr zero_not_mem_initrdName hplatform.infoFits hdata, ?_⟩
  unfold initrdBase
  rw [hmodule, modStart_congr hplatform.infoFits hdata hj]

theorem toNat_loaderSize {img : Image} (h : img.code.toNat ≤ img.stop.toNat) :
    (ptrToU64 img.stop - ptrToU64 img.code).toNat = img.stop.toNat - img.code.toNat := by
  have hstop := img.stop.isLt
  rw [BitVec.toNat_sub, toNat_ptrToU64, toNat_ptrToU64]
  omega

theorem loaderMapped_booting (hplatform : Platform img others device m info)
    (himage : img.code.toNat ≤ img.stop.toNat) (h : Booting avail n s live tables)
    (hample : Ample n (loaderMapped img s).allocs) :
    ∃ live' tables', Booting avail n (loaderMapped img s) live' tables' ∧
      Preserves avail device s (loaderMapped img s) ∧
      ∀ v, InPages img.code.toNat (img.stop.toNat - img.code.toNat) v.toNat →
        physical (loaderMapped img s) v = some v.toNat := by
  have hcode := img.code.isLt
  have hlow := hplatform.loader_le
  have hstart : (ptrToU64 img.code).toNat = img.code.toNat := toNat_ptrToU64 _
  have hsize : (ptrToU64 img.stop - ptrToU64 img.code).toNat =
      img.stop.toNat - img.code.toNat := toNat_loaderSize (by omega)
  unfold loaderMapped at hample ⊢
  obtain ⟨live', tables', hbooting, hpreserves, hpages⟩ := h.mapRange device
    (by rw [hstart]; exact hcode) (by rw [hsize]; omega) hample
  rw [hstart, hsize] at hpages
  exact ⟨live', tables', hbooting, hpreserves, hpages⟩

/-- The pages of a range that ends well below 2 GB. -/
theorem InPages.lt {p size x : Nat} (h : InPages p size x) (hlow : p + size + 0x1000 ≤ 2 ^ 31) :
    x < 2 ^ 31 := by
  obtain ⟨-, hhi⟩ := h
  unfold pageDown pageUp at hhi
  omega

/-- The RAM disk behind it. -/
theorem atAcpi_booting (hplatform : Platform img others device m info)
    (hdisk : RamDisk img m info reserved l k i)
    (h : Booting avail n (loaderMapped img s) live tables)
    (hkept : ∀ x, Kept img m info x → (loaderMapped img s).mem x = m x)
    (hample : Ample n (atAcpi img s info).1.allocs) :
    ∃ live' tables', Booting avail n (atAcpi img s info).1 live' tables' ∧
      Preserves avail device (loaderMapped img s) (atAcpi img s info).1 ∧
      Opened (atAcpi img s info).2 (initrdBase m info) l ∧
      ∀ v, InPages (initrdBase m info) (imageLength l) v.toNat →
        physical (atAcpi img s info).1 v = some v.toNat := by
  obtain ⟨hmodule, hbase⟩ := hdisk.module hplatform hkept
  unfold atAcpi at hample ⊢
  dsimp only at hample ⊢
  rw [hmodule] at hample ⊢
  obtain ⟨live', tables', hbooting, hpreserves, hopened, hpages⟩ :=
    loaderLoad_booting device h (hdisk.stored hkept) hdisk.fits hbase 0 ⟨0, 0, 0⟩ hample
  exact ⟨live', tables', hbooting, hpreserves, hopened, hpages⟩

/-- What `FindFile` finds is loaded. -/
theorem RamDisk.loadKernel_eq (hdisk : RamDisk img m info reserved l k i)
    (hkept : ∀ x, Kept img m info x → s.mem x = m x) {rd : Reader 32}
    (ho : Opened rd (initrdBase m info) l) (fuel : Nat) :
    loadKernel img fuel s rd = Elf.load fuel s (fileAt (initrdBase m info) l k) := by
  obtain ⟨hname, hnameEnd⟩ := hdisk.name_inside
  have hstop := img.stop.isLt
  -- the literal in the loader is still there
  have hliteral : s.mem.Holds img.kernelBin.toNat (kernelName.val ++ [0]) := by
    intro j hj
    rw [hkept _ (Or.inr ⟨by omega, ?_⟩)]
    · exact hdisk.name j hj
    · rw [List.length_append, List.length_singleton] at hj
      omega
  obtain ⟨fileInfo, hfind, hdata⟩ := findFile_data ho (hdisk.stored hkept) hdisk.fits hdisk.sizes
    hliteral (by omega) hdisk.kernel
  unfold loadKernel
  rw [hfind]
  dsimp only
  rw [hdata]
  rfl

/-- The kernel's file is kept. -/
theorem RamDisk.file_kept (hdisk : RamDisk img m info reserved l k i) {x : Nat}
    (hlo : (fileAt (initrdBase m info) l k).toNat ≤ x)
    (hhi : x < (fileAt (initrdBase m info) l k).toNat + fileLength l k) : Kept img m info x := by
  obtain ⟨hfile, hfileEnd⟩ := hdisk.file
  exact Or.inl (hdisk.bootData (by omega) (by omega))

/-- **From `FindFile` on.** -/
theorem loadKernel_booting (hdisk : RamDisk img m info reserved l k i)
    (hwithheld : ∀ x, Kept img m info x → ¬ avail (x / 0x1000))
    (hlow : Elf.BelowTwoGB avail) (h : Booting avail n s live tables)
    (hkept : ∀ x, Kept img m info x → s.mem x = m x) {rd : Reader 32}
    (ho : Opened rd (initrdBase m info) l) {fuel : Nat}
    (hfuel : (Elf.eShnum m (fileAt (initrdBase m info) l k)).toNat < fuel)
    (hample : Ample n (loadKernel img fuel s rd).2.allocs) :
    ∃ e s', loadKernel img fuel s rd = (.returned e, s') ∧
      Elf.KernelAt avail m (fileAt (initrdBase m info) l k) (fileLength l k) s s' e := by
  rw [hdisk.loadKernel_eq hkept ho] at hample ⊢
  -- the run with the blocks that count
  obtain ⟨hresult, htwins⟩ := (Twins.refl s live).load fuel (fileAt (initrdBase m info) l k)
  have hpast : ∀ a ∈ s.allocs, a.1 ≠ 0 := by
    obtain ⟨new, hs, -⟩ := htwins.log
    exact (hample.of_prefix ⟨new, hs.symm⟩).nonNull
  obtain ⟨e, s', hload, hkernel⟩ := Elf.load_kernel (s := s.withLog live)
    (fun x hlo hhi => hkept x (hdisk.file_kept hlo hhi)) hdisk.image
    (fun x hlo hhi => hwithheld x (hdisk.file_kept hlo hhi)) hlow hdisk.entry hdisk.decides hfuel h.view
    ((htwins.ample h.counted hpast h.nonNull).mp hample)
  rw [hload] at hresult htwins
  refine ⟨e, (Elf.load fuel s (fileAt (initrdBase m info) l k)).2, ?_, ?_⟩
  · rw [← Prod.mk.eta (p := Elf.load fuel s (fileAt (initrdBase m info) l k)), ← hresult]
  · exact hkernel.twins (Twins.refl s live) htwins

/-! ## The whole boot -/

/-- `kmain` as far as `VirtualMemory::Install`. -/
theorem kmain_eq (img : Image) (others : Word32 → Mem → Mem) (fuel : Nat) {s : Machine}
    (hinfo : info ≠ 0) (hmap : getMemMapCount s.mem info ≠ 0)
    (hmods : getModuleCount s.mem info ≠ 0) :
    kmain img others fuel s bootloaderMagic info =
      afterInstall img others fuel (install (booted img s info)) info := by
  unfold kmain
  rw [if_neg (by rintro (hmagic | hnull); exacts [hmagic rfl, hinfo hnull]), if_neg hmap, if_neg hmods]
  rfl

/-- Behind it `kmain` ends at once when there is no RAM disk. -/
theorem afterInstall_missing (img : Image) (others : Word32 → Mem → Mem) (fuel : Nat) {s : Machine}
    {info : Word32} (hmodule : initrdModule (loaderMapped img s).mem info = 0) :
    afterInstall img others fuel s info = (.returned 0, loaderMapped img s) := by
  unfold initrdModule loaderMapped at hmodule
  unfold afterInstall
  dsimp only
  rw [if_pos hmodule]
  rfl

/-- It never returns when ACPI does not. -/
theorem afterInstall_running {img : Image} {others : Word32 → Mem → Mem} {fuel : Nat}
    {s s' : Machine} {info : Word32} (hmodule : initrdModule (loaderMapped img s).mem info ≠ 0)
    (h : Acpi.install img others fuel (atAcpi img s info).1 (atAcpi img s info).2 = .running s') :
    afterInstall img others fuel s info = (.running, s') := by
  unfold initrdModule loaderMapped at hmodule
  unfold atAcpi initrdModule loaderMapped at h
  dsimp only at h
  unfold afterInstall
  dsimp only
  rw [if_neg hmodule, h]

/-- And it loads the kernel when ACPI is done. -/
theorem afterInstall_returned {img : Image} {others : Word32 → Mem → Mem} {fuel : Nat}
    {s s' : Machine} {info : Word32} (hmodule : initrdModule (loaderMapped img s).mem info ≠ 0)
    (h : Acpi.install img others fuel (atAcpi img s info).1 (atAcpi img s info).2 = .returned s') :
    afterInstall img others fuel s info = loadKernel img fuel s' (atAcpi img s info).2 := by
  unfold initrdModule loaderMapped at hmodule
  unfold atAcpi initrdModule loaderMapped at h ⊢
  dsimp only at h
  unfold afterInstall
  dsimp only
  rw [if_neg hmodule, h]

/-- The record grows on the way. -/
theorem log_afterInstall (img : Image) (others : Word32 → Mem → Mem) (fuel : Nat) (s : Machine)
    (info : Word32) :
    (loaderMapped img s).allocs <+: (afterInstall img others fuel s info).2.allocs ∧
      (initrdModule (loaderMapped img s).mem info ≠ 0 →
        (atAcpi img s info).1.allocs <+: (Acpi.install img others fuel (atAcpi img s info).1
            (atAcpi img s info).2).machine.allocs ∧
          (Acpi.install img others fuel (atAcpi img s info).1 (atAcpi img s info).2).machine.allocs
            <+: (afterInstall img others fuel s info).2.allocs) := by
  have hdisk : Uses (fun _ => True) (loaderMapped img s) (atAcpi img s info).1 :=
    Uses.loaderLoad trivial img.initrdMagic (loaderMapped img s) 0 ⟨0, 0, 0⟩ _
  have huses : Uses (fun _ => True) (atAcpi img s info).1 (Acpi.install img others fuel
      (atAcpi img s info).1 (atAcpi img s info).2).machine :=
    Uses.acpiInstall trivial img others fuel (atAcpi img s info).1 (atAcpi img s info).2
  have hacpi := huses.log
  by_cases hmodule : initrdModule (loaderMapped img s).mem info = 0
  · rw [afterInstall_missing img others fuel hmodule]
    exact ⟨List.prefix_rfl, fun h => absurd hmodule h⟩
  · cases hres : Acpi.install img others fuel (atAcpi img s info).1 (atAcpi img s info).2 with
    | running s' =>
        rw [hres] at hacpi
        rw [afterInstall_running hmodule hres]
        exact ⟨hdisk.log.trans hacpi, fun _ => ⟨hacpi, List.prefix_rfl⟩⟩
    | returned s' =>
        rw [hres] at hacpi
        have hkernel : Uses (fun _ => True) s' (loadKernel img fuel s' (atAcpi img s info).2).2 :=
          Uses.loadKernel trivial img (fun _ _ => trivial) s' (atAcpi img s info).2
        rw [afterInstall_returned hmodule hres]
        dsimp only [Progress.machine] at hacpi ⊢
        exact ⟨(hdisk.log.trans hacpi).trans hkernel.log, fun _ => ⟨hacpi, hkernel.log⟩⟩

/-- What the allocator may hand out is memory, and memory ends below 2 GB. -/
theorem Platform.booked (hplatform : Platform img others device m info) {rows : Nat}
    (himage : img.code.toNat ≤ img.stop.toNat) (hrows : bootRows m info + rows ≤ 253) :
    Frame.Owns (Spendable img m info) (bootRows m info) (bootTable img m info Frame.empty) [] ∧
      Elf.BelowTwoGB (Spendable img m info) := by
  have hfits : BootFits img m info rows := ⟨fun r hr => (hplatform.memoryMap_le r hr).trans
    (by decide), hplatform.memoryMap_apart, himage, hrows⟩
  have hbooked := booked_bootTable hfits
  refine ⟨hbooked.owns, fun q hq => ?_⟩
  obtain ⟨a, ha, -, hhi⟩ := hbooked.inside hq
  exact hhi.trans (hplatform.memoryMap_le a ha)

theorem Platform.owns_booted (hplatform : Platform img others device s.mem info)
    (hframe : s.frame = Frame.empty) {rows : Nat} (himage : img.code.toNat ≤ img.stop.toNat)
    (hrows : bootRows s.mem info + rows ≤ 253) :
    Frame.Owns (Spendable img s.mem info) (bootRows s.mem info) (booted img s info).frame [] := by
  rw [booted, hframe]
  exact (hplatform.booked himage hrows).1

/-- What holds of the machine from `Install` on, until the kernel is loaded.  The tables stand in
`tables`. -/
structure Underway (img : Image) (n : Nat) (m : Mem) (info : Word32) (s : Machine)
    (live : AllocLog) (tables : List Nat) : Prop where
  booting : Booting (Spendable img m info) n s live tables
  kept : ∀ x, Kept img m info x → s.mem x = m x
  lowMemory : ∀ v, v.toNat < 2 ^ 20 → physical s v = some v.toNat

theorem Underway.next {s' : Machine} {live' : AllocLog} {tables' : List Nat}
    (hplatform : Platform img others device m info) (h : Underway img n m info s live tables)
    (hbooting : Booting (Spendable img m info) n s' live' tables')
    (hpreserves : Preserves (Spendable img m info) device s s') :
    Underway img n m info s' live' tables' where
  booting := hbooting
  kept := fun x hx => (hpreserves.mem x (hplatform.withheld x hx) fun hd =>
    (hplatform.devices x hd).1 hx).trans (h.kept x hx)
  lowMemory := fun v hv => hpreserves.identity v (hv.trans (by decide)) (h.lowMemory v hv)

/-- The boot behind `Install`. -/
theorem afterInstall_handsOver {fuel : Nat} (hplatform : Platform img others device m info)
    (hdisk : RamDisk img m info reserved l k i) (hbelow : Elf.BelowTwoGB (Spendable img m info))
    (h : Underway img n m info s live tables)
    (hample : Ample n (afterInstall img others fuel s info).2.allocs) {s3 : Machine}
    (hreturns : Acpi.install img others fuel (atAcpi img s info).1 (atAcpi img s info).2 =
      .returned s3)
    (hstarts : ∀ a ∈ Acpi.installStarts img others fuel (atAcpi img s info).1 (atAcpi img s info).2,
      Acpi.Start.Harmless img others device a)
    (hfuel : (Elf.eShnum m (fileAt (initrdBase m info) l k)).toNat < fuel) :
    ∃ e s', afterInstall img others fuel s info = (.returned e, s') ∧
      HandedOver img m info l k s' e := by
  obtain ⟨hname, hnameEnd⟩ := hdisk.name_inside
  have hlow := hplatform.loader_le
  obtain ⟨hlogLoader, hlogs⟩ := log_afterInstall img others fuel s info
  -- the loader
  obtain ⟨live1, tables1, hbooting1, hpreserves1, hloader⟩ := loaderMapped_booting
    hplatform (by omega) h.booting (hample.of_prefix hlogLoader)
  have h1 := h.next hplatform hbooting1 hpreserves1
  have hmodule : initrdModule (loaderMapped img s).mem info ≠ 0 := by
    rw [(hdisk.module hplatform h1.kept).1]
    exact hdisk.found
  obtain ⟨hlogAcpi, hlogKernel⟩ := hlogs hmodule
  -- the RAM disk
  obtain ⟨live2, tables2, hbooting2, hpreserves2, hopened, hpages⟩ := atAcpi_booting hplatform hdisk
    hbooting1 h1.kept (hample.of_prefix (hlogAcpi.trans hlogKernel))
  have h2 := h1.next hplatform hbooting2 hpreserves2
  -- the processors
  obtain ⟨hbooting3, hpreserves3⟩ := Acpi.install_booting hbooting2
    (fun x hx => (hplatform.devices x hx).2) hplatform.confines hstarts (hample.of_prefix hlogKernel)
  rw [hreturns] at hbooting3 hpreserves3
  dsimp only [Progress.machine] at hbooting3 hpreserves3
  have h3 := h2.next hplatform hbooting3 hpreserves3
  -- the kernel
  rw [afterInstall_returned hmodule hreturns] at hample ⊢
  obtain ⟨e, s', heq, hne, hident, hentry, hsections, hpreserves4⟩ := loadKernel_booting hdisk
    hplatform.withheld hbelow h3.booting h3.kept hopened hfuel hample
  refine ⟨e, s', heq, hne, hident, hentry, ?_, ?_, ?_, hsections, ?_⟩
  · intro v hv
    exact hpreserves4.identity v (hv.trans (by decide)) (h3.lowMemory v hv)
  · intro v hv
    have hlt : v.toNat < 2 ^ 31 := hv.lt (by omega)
    exact hpreserves4.identity v hlt
      (hpreserves3.identity v hlt (hpreserves2.identity v hlt (hloader v hv)))
  · intro v hv
    have hlt : v.toNat < 2 ^ 31 := hv.lt hdisk.low
    exact hpreserves4.identity v hlt (hpreserves3.identity v hlt (hpages v hv))
  · intro x hx
    exact (hpreserves4.mem x (hplatform.withheld x hx) not_false).trans (h3.kept x hx)

end Stages

end Loader
end ZineOS
