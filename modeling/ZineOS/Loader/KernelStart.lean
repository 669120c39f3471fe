import ZineOS.Loader.HandOver
import ZineOS.Loader.BootBudget
import ZineOS.Loader.BootData

/-!
# The kernel is started

The theorem on the whole of `kmain`, and a PC that it holds of: 2 MB of memory, one module with a
kernel of one section, and no ACPI tables.
-/

namespace ZineOS
namespace Loader

open Lib InitRd MBoot VirtualMemory

/-- **The loader hands over to the kernel.**  On a machine that keeps to `Platform`, with a RAM disk
that holds a kernel, a boot that has memory enough returns an address.  It is mapped to itself, and
so is everything that the processor runs through until it jumps there; it is where the entry point
that the kernel was linked at is mapped, the sections are mapped where they were linked, with the
contents that the file gives them, and the boot data is as the boot loader left it. -/
theorem hands_over (img : Image) (others : Word32 → Mem → Mem) (device : Nat → Prop) (fuel : Nat)
    (s : Machine) (info reserved : Word32) (l : List Buildrd.File) (k i : Nat)
    (hplatform : Platform img others device s.mem info)
    (hdisk : RamDisk img s.mem info reserved l k i) (hrun : Run img others device fuel s info)
    (hfuel : (Elf.eShnum s.mem (fileAt (initrdBase s.mem info) l k)).toNat < fuel) :
    ∃ e s', kmain img others fuel s bootloaderMagic info = (.returned e, s') ∧
      HandedOver img s.mem info l k s' e := by
  obtain ⟨hframe, hlog⟩ := hrun.fresh
  obtain ⟨hname, hnameEnd⟩ := hdisk.name_inside
  obtain ⟨s3, hreturns⟩ := hrun.returns
  have hample := hrun.ample
  rw [kmain_eq img others fuel hplatform.info_ne hplatform.memoryMap_ne hdisk.modules_ne] at hample ⊢
  obtain ⟨-, hbelow⟩ := hplatform.booked (by omega) hample.rows
  -- the page tables
  have hrest : Uses (fun _ => True) (install (booted img s info))
      (afterInstall img others fuel (install (booted img s info)) info).2 :=
    Uses.afterInstall trivial img others (fun _ _ => trivial) _ _
  obtain ⟨live, tables, hbooting, hmem, hlowMemory⟩ :=
    booting_install (s := booted img s info) hlog
      (hplatform.owns_booted hframe (by omega) hample.rows) hrun.zeroed (hample.of_prefix hrest.log)
  exact afterInstall_handsOver hplatform hdisk hbelow
    ⟨hbooting, fun x hx => hmem x (hplatform.withheld x hx), hlowMemory⟩ hample hreturns hrun.starts
    hfuel

/-! ## Memory enough up to ACPI -/

section Budget

theorem rooted_page {s : Machine} {t4 t3 t2 t1 : Nat} (h : InstallFrames s t4 t3 t2 t1) :
    (rooted s).pml4Table.toNat / 0x1000 = t4 := by
  have hfirst := h.allocs
  simp only [pageRun, List.map_cons, List.cons.injEq] at hfirst
  have hpml4 : (rooted s).pml4Table = (Frame.alloc s.frame Frame.frameNoLimit 4096
    Frame.frameUsed).1 := rfl
  rw [hpml4, hfirst.1]
  omega

variable {img : Image} {others : Word32 → Mem → Mem} {device : Nat → Prop} {s : Machine}
  {info reserved : Word32} {l : List Buildrd.File} {k i cost room : Nat}

/-- The RAM disk takes three pages at most for each of its own. -/
theorem logged_atAcpi {m : Mem} (hplatform : Platform img others device m info)
    (hdisk : RamDisk img m info reserved l k i)
    (hkept : ∀ x, Kept img m info x → (loaderMapped img s).mem x = m x) :
    Logged (3 * (pageUp (imageLength l) / 0x1000)) (loaderMapped img s) (atAcpi img s info).1 := by
  obtain ⟨hmodule, hbase⟩ := hdisk.module hplatform hkept
  have hlow := hdisk.low
  unfold atAcpi
  dsimp only
  rw [hmodule]
  obtain ⟨heq, -, hsize⟩ := loaderLoad_eq (hdisk.stored hkept) hdisk.fits hbase 0 ⟨0, 0, 0⟩
  rw [heq, ← hsize, ← toNat_align (by omega)]
  exact logged_mapRange _ _ _ _ _

/-- **Up to ACPI**, in a room of which `room` pages are left. -/
theorem boot_atAcpi (hplatform : Platform img others device s.mem info)
    (hdisk : RamDisk img s.mem info reserved l k i) (hframe : s.frame = Frame.empty)
    (hlog : s.allocs = []) (hroom : Frame.Room (cost + room) (booted img s info).frame)
    (hzero : ¬ Spendable img s.mem info 0)
    (hzeroed : ∀ i, entryAt s.mem ((rooted (booted img s info)).pml4Table.toNat / 0x1000) i = 0)
    (hcost : 4 + 3 * (pageUp (img.stop.toNat - img.code.toNat) / 0x1000) +
      3 * (pageUp (imageLength l) / 0x1000) ≤ cost)
    (hrows : bootRows s.mem info + cost ≤ 253) :
    Ample (bootRows s.mem info) (atAcpi img (install (booted img s info)) info).1.allocs ∧
      (atAcpi img (install (booted img s info)) info).1.allocs.length ≤ cost ∧
      Frame.Room room (atAcpi img (install (booted img s info)) info).1.frame ∧
      initrdModule (loaderMapped img (install (booted img s info))).mem info ≠ 0 ∧
      Opened (atAcpi img (install (booted img s info)) info).2 (initrdBase s.mem info) l ∧
      (∀ x, ¬ Spendable img s.mem info (x / 0x1000) → ¬ device x →
        (atAcpi img (install (booted img s info)) info).1.mem x = s.mem x) ∧
      ∃ live tables, Underway img (bootRows s.mem info) s.mem info
        (atAcpi img (install (booted img s info)) info).1 live tables := by
  obtain ⟨hname, hnameEnd⟩ := hdisk.name_inside
  have hlow := hplatform.loader_le
  have hbootedLog : (booted img s info).allocs = [] := hlog
  have howns := hplatform.owns_booted hframe (by omega) hrows
  obtain ⟨hnull, -⟩ := howns.pageRun_room hzero hroom (Nat.le_add_right cost room) hrows
  have hstart : Ample (bootRows s.mem info) (booted img s info).allocs := by
    rw [hbootedLog]
    exact ⟨fun a ha => absurd ha List.not_mem_nil, by rw [List.length_nil]; omega⟩
  have hampleOf : ∀ {c : Nat} {s' : Machine}, Logged c (booted img s info) s' → c ≤ cost →
      Ample (bootRows s.mem info) s'.allocs := fun h hc =>
    hstart.logged (h.mono hc) hnull (by rw [hbootedLog, List.length_nil]; omega)
  -- the page tables
  obtain ⟨t4, t3, t2, t1, hframes, -⟩ := howns.installFrames (by omega) fun a ha =>
    hnull a ((pageRun_initial (by omega) _).subset ha)
  have hroot := hzeroed 0
  rw [rooted_page hframes] at hroot
  have hlogged1 := logged_install hframes hroot
  obtain ⟨live1, tables1, hbooting1, hmem1, hlowMemory1⟩ :=
    booting_install (s := booted img s info) hbootedLog howns hzeroed (hampleOf hlogged1 (by omega))
  have h1 : Underway img (bootRows s.mem info) s.mem info (install (booted img s info)) live1
      tables1 := ⟨hbooting1, fun x hx => hmem1 x (hplatform.withheld x hx), hlowMemory1⟩
  -- the loader
  have hlogged2 := logged_mapRange (install (booted img s info)) (ptrToU64 img.code)
    (ptrToU64 img.code) (ptrToU64 img.stop - ptrToU64 img.code) Elf.sectionFlags
  have hsize := toNat_loaderSize (hname.trans (by omega))
  rw [toNat_align (by omega), hsize] at hlogged2
  have hlogged12 := hlogged1.trans hlogged2
  obtain ⟨live2, tables2, hbooting2, hpreserves2, -⟩ := loaderMapped_booting
    hplatform (by omega) hbooting1 (hampleOf hlogged12 (by omega))
  have h2 := h1.next hplatform hbooting2 hpreserves2
  -- the RAM disk
  have hlogged3 := logged_atAcpi hplatform hdisk h2.kept
  have hlogged := hlogged12.trans hlogged3
  obtain ⟨live3, tables3, hbooting3, hpreserves3, hopened, -⟩ := atAcpi_booting hplatform hdisk
    hbooting2 h2.kept (hampleOf hlogged (by omega))
  have hmodule : initrdModule (loaderMapped img (install (booted img s info))).mem info ≠ 0 := by
    rw [(hdisk.module hplatform h2.kept).1]
    exact hdisk.found
  obtain ⟨j, hj, hpages, hlast⟩ := hlogged.mono hcost
  refine ⟨hampleOf hlogged hcost, ?_, ?_, hmodule, hopened, fun x hx hd => ?_, live3, tables3,
    h2.next hplatform hbooting3 hpreserves3⟩
  · rw [hpages, hbootedLog, List.nil_append, length_pageRun]
    exact hj
  · obtain ⟨-, hleft⟩ := howns.pageRun_room hzero hroom (hj.trans (Nat.le_add_right cost room))
      (by omega)
    rw [hlast]
    exact hleft.mono (by omega)
  · exact ((hpreserves2.trans hpreserves3).mem x hx hd).trans (hmem1 x hx)

/-- **The kernel**, by what is handed out for its sections. -/
theorem ample_loadKernel {m : Mem} {n fuel : Nat} {live : AllocLog} {tables : List Nat}
    (hplatform : Platform img others device m info) (hdisk : RamDisk img m info reserved l k i)
    (hbelow : Elf.BelowTwoGB (Spendable img m info)) (h : Underway img n m info s live tables)
    {rd : Reader 32} (ho : Opened rd (initrdBase m info) l)
    (hfuel : (Elf.eShnum m (fileAt (initrdBase m info) l k)).toNat < fuel)
    (hpast : Ample n s.allocs)
    (hample : Ample (n + (s.allocs.length - live.length)) (Elf.before (s.withLog live)
      (fileAt (initrdBase m info) l k)
      (Elf.eShnum m (fileAt (initrdBase m info) l k)).toNat).allocs) :
    Ample n (loadKernel img fuel s rd).2.allocs := by
  rw [hdisk.loadKernel_eq h.kept ho]
  have hsame : Mem.AgreeOn (s.withLog live).mem m (fileAt (initrdBase m info) l k).toNat
      (fileLength l k) := fun x hlo hhi => h.kept x (hdisk.file_kept hlo hhi)
  have hshnum := hdisk.image.file.shnum hsame
  rw [← hshnum] at hfuel hample
  obtain ⟨heq, -⟩ := Elf.load_booting (hdisk.image.congr hsame)
    (fun x hlo hhi => hplatform.withheld x (hdisk.file_kept hlo hhi)) hbelow hfuel h.booting.view
    (Or.inr hample)
  obtain ⟨-, htwins⟩ := (Twins.refl s live).load fuel (fileAt (initrdBase m info) l k)
  rw [htwins.ample h.booting.counted hpast.nonNull h.booting.nonNull, heq]
  exact hample

end Budget

theorem Elf.before_skip {s : Machine} {elf : Word32} {i : Nat}
    (h : ¬ Elf.IsLoaded (Elf.before s elf i).mem (Elf.shdr s.mem elf i)) :
    Elf.before s elf (i + 1) = Elf.before s elf i := by
  rw [Elf.before_succ s elf i 0]
  rcases Elf.loadSection_cases (Elf.before s elf i) elf (Elf.shdr s.mem elf i) 0 with
    ⟨-, heq⟩ | ⟨hload, -⟩ | ⟨hload, -⟩
  · rw [heq]
  · exact absurd hload h
  · exact absurd hload h

/-! ## No ACPI -/

namespace Acpi

variable {m : Mem}

theorem isRsdp_zero {p : Word32} (hfits : p.toNat + 20 ≤ 2 ^ 32) (h : m p.toNat = 0) :
    isRsdp m p = false := by
  rw [Bool.eq_false_iff]
  intro htrue
  have hfirst := ((isRsdp_iff hfits).mp htrue).signature 0 (by decide)
  rw [Nat.add_zero, h] at hfirst
  exact absurd hfirst (by decide)

/-- Zeros in the BIOS area and in the first page. -/
theorem findRsdp_zero (hbios : ∀ x, 0xe0000 ≤ x → x < 0x100000 → m x = 0)
    (hlow : ∀ x, x < 0x1000 → m x = 0) : findRsdp m = 0 := by
  have hebda : ebda m = 0 := by
    have hword : load16 m 0x40E = load16 (fun _ => 0) 0x40E := load16_congr fun x hlo hhi => by
      have hat : (0x40E : Word32).toNat = 0x40E := by decide
      exact hlow x (by omega)
    unfold ebda
    rw [hword]
    decide
  have hnone : ∀ base : Word32, ∀ n, base.toNat + 16 * n ≤ 0x100000 →
      (∀ x, base.toNat ≤ x → x < base.toNat + 16 * n → m x = 0) →
      ((List.range n).map fun i => base + BitVec.ofNat 32 (16 * i)).find? (isRsdp m) = none := by
    intro base n hfits hzero
    rw [List.find?_eq_none]
    intro p hp
    obtain ⟨i, hi, rfl⟩ := List.mem_map.mp hp
    have hlt := List.mem_range.mp hi
    have hat : (base + BitVec.ofNat 32 (16 * i)).toNat = base.toNat + 16 * i := by
      rw [BitVec.toNat_add, BitVec.toNat_ofNat]
      omega
    rw [isRsdp_zero (by rw [hat]; omega) (by rw [hat]; exact hzero _ (by omega) (by omega))]
    exact Bool.false_ne_true
  have hbiosAt : (0xe0000 : Word32).toNat = 0xe0000 := by decide
  have hzeroAt : (0 : Word32).toNat = 0 := by decide
  have hfirst := hnone 0xe0000 8192 (by omega) fun x hlo hhi => hbios x (by omega) (by omega)
  have hsecond := hnone 0 64 (by omega) fun x _ hhi => hlow x (by omega)
  unfold ebda at hebda
  unfold findRsdp
  dsimp only
  rw [hfirst, hebda, hsecond]
  rfl

/-- Without an RSDP nothing is done. -/
theorem install_of_absent {img : Image} {others : Word32 → Mem → Mem} {fuel : Nat} {s : Machine}
    {rd : Reader 32} (h : findRsdp s.mem = 0) :
    install img others fuel s rd = .returned s ∧ installStarts img others fuel s rd = [] := by
  unfold install installStarts
  dsimp only
  rw [if_neg (not_not.mpr h), if_pos h]
  exact ⟨rfl, rfl⟩

end Acpi

/-- **A boot without ACPI tables**, by what is handed out for the kernel in the room that is left. -/
theorem run_without_acpi {img : Image} {others : Word32 → Mem → Mem} {device : Nat → Prop}
    {s : Machine} {info reserved : Word32} {l : List Buildrd.File} {k i cost room fuel : Nat}
    (hplatform : Platform img others device s.mem info)
    (hdisk : RamDisk img s.mem info reserved l k i) (hframe : s.frame = Frame.empty)
    (hlog : s.allocs = []) (hroom : Frame.Room (cost + room) (booted img s info).frame)
    (hzero : ¬ Spendable img s.mem info 0)
    (hzeroed : ∀ i, entryAt s.mem ((rooted (booted img s info)).pml4Table.toNat / 0x1000) i = 0)
    (hcost : 4 + 3 * (pageUp (img.stop.toNat - img.code.toNat) / 0x1000) +
      3 * (pageUp (imageLength l) / 0x1000) ≤ cost)
    (hrows : bootRows s.mem info + cost ≤ 253)
    (hfuel : (Elf.eShnum s.mem (fileAt (initrdBase s.mem info) l k)).toNat < fuel)
    (habsent : ∀ x, x < 0x1000 ∨ 0xe0000 ≤ x ∧ x < 0x100000 →
      ¬ Spendable img s.mem info (x / 0x1000) ∧ ¬ device x ∧ s.mem x = 0)
    (hkernel : ∀ v live tables, Underway img (bootRows s.mem info) s.mem info v live tables →
      Frame.Room room v.frame → v.allocs.length ≤ cost →
      Ample (bootRows s.mem info + (v.allocs.length - live.length)) (Elf.before (v.withLog live)
        (fileAt (initrdBase s.mem info) l k)
        (Elf.eShnum s.mem (fileAt (initrdBase s.mem info) l k)).toNat).allocs) :
    Run img others device fuel s info := by
  obtain ⟨hname, hnameEnd⟩ := hdisk.name_inside
  obtain ⟨-, hbelow⟩ := hplatform.booked (by omega) hrows
  obtain ⟨hample, hlength, hleft, hmodule, hopened, hmem, live, tables, hunder⟩ :=
    boot_atAcpi hplatform hdisk hframe hlog hroom hzero hzeroed hcost hrows
  have hnone : Acpi.findRsdp (atAcpi img (install (booted img s info)) info).1.mem = 0 := by
    have hzeros : ∀ x, x < 0x1000 ∨ 0xe0000 ≤ x ∧ x < 0x100000 →
        (atAcpi img (install (booted img s info)) info).1.mem x = 0 := by
      intro x hx
      obtain ⟨hspend, hdevice, hbyte⟩ := habsent x hx
      rw [hmem x hspend hdevice, hbyte]
    exact Acpi.findRsdp_zero (fun x hlo hhi => hzeros x (Or.inr ⟨hlo, hhi⟩))
      fun x hhi => hzeros x (Or.inl hhi)
  obtain ⟨hinstall, hstarts⟩ := Acpi.install_of_absent hnone
  constructor
  · exact ⟨hframe, hlog⟩
  · exact hzeroed
  · rw [kmain_eq img others fuel hplatform.info_ne hplatform.memoryMap_ne hdisk.modules_ne,
      afterInstall_returned hmodule hinstall]
    exact ample_loadKernel hplatform hdisk hbelow hunder hopened hfuel hample
      (hkernel _ _ _ hunder hleft hlength)
  · exact ⟨_, hinstall⟩
  · intro a ha
    rw [hstarts] at ha
    exact absurd ha List.not_mem_nil

/-! ## A PC -/

/-- Fields of the given sizes, the low bytes first. -/
def fieldBytes (l : List (Nat × Nat)) : List Byte :=
  l.flatMap fun f => (List.range f.1).map fun i => BitVec.ofNat 8 (f.2 / 256 ^ i)

/-- A kernel that starts at the fifth byte of its section, which is linked at
`0xffffffff80000000`: the header, the null section, the section and its contents. -/
def pcKernel : List Byte := fieldBytes
  [(16, 0x00010102464c457f), (2, 2), (2, 62), (4, 1), (8, 0xffffffff80000004), (8, 0), (8, 64),
    (4, 0), (2, 64), (2, 0), (2, 0), (2, 64), (2, 2), (2, 0),
    (64, 0),
    (4, 1), (4, 1), (8, 6), (8, 0xffffffff80000000), (8, 192), (8, 16), (8, 0), (8, 16), (8, 0),
    (16, 0xfdebf490909090)]

def pcFiles : List Buildrd.File := [⟨kernelName, 208, pcKernel⟩]

/-- The loader is one page, with the kernel's name in it. -/
def pcLoader : Image := { pcImage with stop := 0x181000 }

/-- The module is the RAM disk. -/
def pcStart : Machine :=
  ⟨((pcMemory 0x101200).put 0x103000 (imageOf pcLoader.initrdMagic 0 pcFiles)).put 0x180100
    (kernelName.val ++ [0]), Frame.empty, 0, []⟩

/-- The local APIC. -/
def pcDevice (x : Nat) : Prop := 0xfee00000 ≤ x ∧ x < 0xfee01000

theorem wordsAt_of_not {x : Nat} (l : List (Nat × Nat)) (h : ∀ w ∈ l, x < w.1 ∨ w.1 + 4 ≤ x) :
    wordsAt l x = 0 := by
  unfold wordsAt
  refine List.foldlRecOn (motive := fun m : Mem => m x = 0) _ _ rfl ?_
  intro m hm w hw
  have hout := h w hw
  rw [Mem.store_of_not (by omega)]
  exact hm

/-- Outside the boot data and the loader there are zeros. -/
theorem pcStart_zero {x : Nat} (hx : x < 0x101000 ∨ 0x104000 ≤ x ∧ x < 0x180000 ∨ 0x181000 ≤ x) :
    pcStart.mem x = 0 := by
  have hdisk : (imageOf pcLoader.initrdMagic 0 pcFiles).length = 255 := by
    rw [length_imageOf]
    decide +kernel
  have hname : (kernelName.val ++ [0]).length = 11 := by decide
  unfold pcStart
  dsimp only
  rw [Mem.put_of_not (by rw [hname]; omega), Mem.put_of_not (by rw [hdisk]; omega)]
  refine wordsAt_of_not _ fun w hw => ?_
  have hwords : ∀ w ∈ ([(0x101000, 0x48), (0x101014, 1), (0x101018, 0x102000), (0x10102c, 48),
    (0x101030, 0x101100), (0x101100, 20), (0x101108, 0), (0x10110c, 0x9f000), (0x101114, 1),
    (0x101118, 20), (0x10111c, 0x100000), (0x101124, 0x100000), (0x10112c, 1),
    (0x102000, 0x103000), (0x102004, 0x104000), (0x102008, 0x101200),
    (0x101200, 0x74696e69), (0x101200 + 4, 0x6472)] : List (Nat × Nat)),
    0x101000 ≤ w.1 ∧ w.1 + 4 ≤ 0x103000 := by decide
  have hin := hwords w hw
  omega

/-- The rows of the frame table when the page tables are set up. -/
theorem pcStart_spans : (bootTable pcLoader pcStart.mem pcInfo Frame.empty).spans =
    [⟨0x1000, 0x9f000, .free⟩, ⟨0x100000, 0x101000, .free⟩, ⟨0, 0x1000, .used⟩,
      ⟨0x101000, 0x102000, .available⟩, ⟨0x102000, 0x103000, .available⟩,
      ⟨0x103000, 0x104000, .used⟩, ⟨0x104000, 0x180000, .free⟩,
      ⟨0x180000, 0x181000, .available⟩, ⟨0x181000, 0x200000, .free⟩] := by
  decide +kernel

theorem pcStart_spendable {q : Nat} (h : Spendable pcLoader pcStart.mem pcInfo q) :
    1 ≤ q ∧ q < 0x9f ∨ q = 0x100 ∨ 0x104 ≤ q ∧ q < 0x180 ∨ 0x181 ≤ q ∧ q < 0x200 := by
  unfold Spendable Frame.Table.pageStatus Span.lookup at h
  rw [pcStart_spans] at h
  obtain ⟨e, he, hfree⟩ := Option.map_eq_some_iff.mp h
  have hcovers := List.find?_some he
  obtain ⟨hlo, hhi⟩ := of_decide_eq_true hcovers
  have hmem := List.mem_of_find?_eq_some he
  simp only [List.mem_cons, List.not_mem_nil, or_false] at hmem
  rcases hmem with rfl | rfl | rfl | rfl | rfl | rfl | rfl | rfl | rfl
  all_goals first | exact absurd hfree (by decide) | (dsimp only at hlo hhi; omega)

/-- What the loader reads of the boot data. -/
theorem pcStart_info : availableRanges pcStart.mem pcInfo = [(0, 0x9f000), (0x100000, 0x100000)] ∧
    getMemMapCount pcStart.mem pcInfo ≠ 0 ∧ (getModuleCount pcStart.mem pcInfo).toNat = 1 ∧
    (modsAddr pcStart.mem pcInfo).toNat = 0x102000 ∧
    initrdModule pcStart.mem pcInfo = moduleAt pcStart.mem pcInfo (BitVec.ofNat 32 0) ∧
    initrdModule pcStart.mem pcInfo ≠ 0 ∧
    (modStart pcStart.mem (initrdModule pcStart.mem pcInfo)).toNat = 0x103000 ∧
    (modEnd pcStart.mem (initrdModule pcStart.mem pcInfo)).toNat = 0x104000 ∧
    (cmdline pcStart.mem (initrdModule pcStart.mem pcInfo)).toNat = 0x101200 ∧
    pcStart.mem 0x101206 = 0 := by decide +kernel

theorem pcStart_kept {x : Nat} (h : Kept pcLoader pcStart.mem pcInfo x) :
    0x101000 ≤ x ∧ x < 0x104000 ∨ 0x180000 ≤ x ∧ x < 0x181000 := by
  obtain ⟨-, -, hcount, hmods, hmodule, -, hstart, hend, hcmdline, hnul⟩ := pcStart_info
  rw [hmodule] at hstart hend hcmdline
  rcases h with hdata | himage
  · left
    cases hdata with
    | info hlo hhi =>
        rw [show pcInfo.toNat = 0x101000 from rfl] at hlo hhi
        rw [show sizeofInfoTable.toNat = 88 from rfl] at hhi
        omega
    | modules hlo hhi =>
        rw [hmods] at hlo hhi
        rw [hcount, show sizeofModuleTable.toNat = 16 from rfl] at hhi
        omega
    | module i hi hlo hhi =>
        rw [hcount, Nat.lt_one_iff] at hi
        subst hi
        rw [hstart] at hlo
        rw [hend] at hhi
        omega
    | cmdline i hi hlo hstr =>
        rw [hcount, Nat.lt_one_iff] at hi
        subst hi
        rw [hcmdline] at hlo hstr
        -- the string ends at `0x101206`
        have hle : x ≤ 0x101206 := by
          by_contra hlt
          exact hstr 0x101206 (by decide) (by omega) hnul
        omega
  · right
    have himageAt : pcLoader.code.toNat = 0x180000 ∧ pcLoader.stop.toNat = 0x181000 := by decide
    rw [himageAt.1, himageAt.2] at himage
    exact himage

theorem pcStart_withheld (x : Nat) (h : Kept pcLoader pcStart.mem pcInfo x) :
    ¬ Spendable pcLoader pcStart.mem pcInfo (x / 0x1000) := by
  intro hspend
  have hx := pcStart_kept h
  have hq := pcStart_spendable hspend
  omega

theorem pcStart_platform :
    Platform pcLoader (fun _ m => m) pcDevice pcStart.mem pcInfo where
  info_ne := by decide
  memoryMap_ne := pcStart_info.2.1
  memoryMap_le := by simp [pcStart_info.1]
  memoryMap_apart := by
    rw [pcStart_info.1]
    refine List.pairwise_pair.mpr fun p hp hp' => ?_
    obtain ⟨-, hhi⟩ := hp
    obtain ⟨hlo, -⟩ := hp'
    have hfirst : (0 : Word64).toNat = 0 ∧ (0x9f000 : Word64).toNat = 0x9f000 := by decide
    have hsecond : (0x100000 : Word64).toNat = 0x100000 := by decide
    dsimp only at hhi hlo
    omega
  loader_le := by decide
  infoFits := by
    obtain ⟨-, -, hcount, hmods, hmodule, -, -, -, hcmdline, -⟩ := pcStart_info
    rw [hmodule] at hcmdline
    constructor
    · decide
    · rw [hmods, hcount]
      decide
    · intro i hi
      rw [hcount, Nat.lt_one_iff] at hi
      subst hi
      rw [hcmdline]
      decide
  withheld := pcStart_withheld
  devices := by
    rintro x ⟨hlo, -⟩
    refine ⟨fun hkept => ?_, fun hspend => ?_⟩
    · have hx := pcStart_kept hkept
      omega
    · have hq := pcStart_spendable hspend
      omega
  confines := fun _ _ _ _ _ => rfl

/-! ### Its RAM disk -/

theorem pcFiles_length : imageLength pcFiles = 255 ∧ fileLength pcFiles 0 = 208 ∧
    (∀ f ∈ pcFiles, f.data.length = f.size.toNat) ∧
    initrdBase pcStart.mem pcInfo = 0x103000 ∧
    fileAt (initrdBase pcStart.mem pcInfo) pcFiles 0 = 0x10302f := by decide +kernel

/-- The kernel, as the loader reads it. -/
theorem pcStart_elf : Elf.check pcStart.mem 0x10302f = none ∧
    Elf.eShentsize pcStart.mem 0x10302f = 64 ∧ (Elf.eShoff pcStart.mem 0x10302f).toNat = 64 ∧
    (Elf.eShnum pcStart.mem 0x10302f).toNat = 2 ∧
    Elf.eEntry pcStart.mem 0x10302f = 0xffffffff80000004 ∧
    ¬ Elf.IsLoaded pcStart.mem (Elf.shdr pcStart.mem 0x10302f 0) ∧
    Elf.shType pcStart.mem (Elf.shdr pcStart.mem 0x10302f 1) = Elf.shtProgbits ∧
    Elf.shAddr pcStart.mem (Elf.shdr pcStart.mem 0x10302f 1) = 0xffffffff80000000 ∧
    Elf.shSize pcStart.mem (Elf.shdr pcStart.mem 0x10302f 1) = 16 := by decide +kernel

/-- Only the second section is loaded. -/
theorem pcStart_isLoaded {i : Nat} (hi : i < (Elf.eShnum pcStart.mem 0x10302f).toNat)
    (h : Elf.IsLoaded pcStart.mem (Elf.shdr pcStart.mem 0x10302f i)) : i = 1 := by
  obtain ⟨-, -, -, hshnum, -, hnull, -⟩ := pcStart_elf
  rw [hshnum] at hi
  rcases (by omega : i = 0 ∨ i = 1) with rfl | rfl
  · exact absurd h hnull
  · rfl

theorem pcStart_image : Elf.Image pcStart.mem 0x10302f 208 := by
  obtain ⟨hcheck, hshentsize, hshoff, hshnum, -, -, -, haddr, hsize⟩ := pcStart_elf
  have haddrNat : (0xffffffff80000000 : Word64).toNat = 0xffffffff80000000 := rfl
  have hsizeNat : (16 : Word64).toNat = 16 := rfl
  constructor
  · decide
  · decide
  · exact hcheck
  · exact hshentsize
  · rw [hshoff, hshnum]
    decide
  · intro i hi hloaded
    rw [pcStart_isLoaded hi hloaded, hsize]
    omega
  · intro i hi hloaded
    rw [pcStart_isLoaded hi hloaded, haddr]
    omega
  · intro i hi hloaded
    unfold Elf.pages pageUp
    rw [pcStart_isLoaded hi hloaded, haddr, hsize]
    omega
  · intro i j hij hj hloaded hloaded'
    have hi := pcStart_isLoaded (hij.trans hj) hloaded
    have hj := pcStart_isLoaded hj hloaded'
    omega

theorem pcStart_disk : RamDisk pcLoader pcStart.mem pcInfo 0 pcFiles 0 1 := by
  obtain ⟨-, -, -, -, -, hfound, -, hend, -, -⟩ := pcStart_info
  obtain ⟨hlength, hfile, hsizes, hbase, hfileAt⟩ := pcFiles_length
  obtain ⟨-, -, -, hshnum, hentry, -, htype, haddr, hsize⟩ := pcStart_elf
  have hentryNat : (0xffffffff80000004 : Word64).toNat = 0xffffffff80000004 := rfl
  have haddrNat : (0xffffffff80000000 : Word64).toNat = 0xffffffff80000000 := rfl
  have hsizeNat : (16 : Word64).toNat = 16 := rfl
  have hone : 1 < (Elf.eShnum pcStart.mem 0x10302f).toNat := by omega
  constructor
  · exact hfound
  · omega
  · omega
  · omega
  · rw [hbase]
    intro j hj
    rw [length_imageOf, hlength] at hj
    unfold pcStart
    dsimp only
    rw [Mem.put_of_not (by omega)]
    exact Mem.holds_put _ _ _ j (by rw [length_imageOf, hlength]; exact hj)
  · exact hsizes
  · exact Mem.holds_put _ _ _
  · decide
  · decide
  · rw [hfileAt, hfile]
    exact pcStart_image
  · rw [hfileAt]
    refine ⟨hone, htype, ?_, ?_⟩
    · unfold Elf.addresses
      rw [haddr, hentry]
      omega
    · unfold Elf.addresses
      rw [haddr, hsize, hentry]
      omega
  · rw [hfileAt]
    refine ⟨⟨hone, htype, ?_, ?_⟩, ?_⟩
    · rw [haddr, hentry]
      decide
    · rw [haddr, hsize, hentry]
      decide
    · intro j hj hacc
      have hlt := hacc.lt
      omega

/-! ### Its run -/

theorem pcStart_rows : bootRows pcStart.mem pcInfo = 12 := by
  obtain ⟨hranges, -, hcount, -⟩ := pcStart_info
  unfold bootRows
  rw [hranges, hcount]
  rfl

/-- Seventeen pages are free in a row behind the loader, and more. -/
theorem pcStart_room : Frame.Room (10 + 7) (booted pcLoader pcStart pcInfo).frame := by
  have hspans : (booted pcLoader pcStart pcInfo).frame.spans = _ := pcStart_spans
  constructor
  · intro _
    rw [hspans]
    exact ⟨⟨0x181000, 0x200000, .free⟩, by simp, rfl, by decide, by decide⟩
  · rw [hspans]
    decide

theorem pcStart_zero_page : ¬ Spendable pcLoader pcStart.mem pcInfo 0 := fun h => by
  have hq := pcStart_spendable h
  omega

/-- The pages that may be handed out are zeroed. -/
theorem pcStart_zeroed {q : Nat} (h : Spendable pcLoader pcStart.mem pcInfo q) (i : BitVec 9) :
    entryAt pcStart.mem q i = 0 := by
  have hq := pcStart_spendable h
  have hpage : (BitVec.ofNat 32 (q * 0x1000)).toNat = q * 0x1000 := by
    rw [BitVec.toNat_ofNat]
    omega
  have hcleared := entryAt_memzero pcStart.mem hpage q i
  rw [if_pos rfl] at hcleared
  rw [← hcleared]
  refine entryAt_congr (fun x hx => ?_) i
  unfold memzero
  rw [hpage, Mem.fill_of_mem (by omega), pcStart_zero (by omega)]

theorem pcStart_root (i : BitVec 9) : entryAt pcStart.mem
    ((rooted (booted pcLoader pcStart pcInfo)).pml4Table.toNat / 0x1000) i = 0 := by
  have hrows := pcStart_rows
  have howns := pcStart_platform.owns_booted rfl (by decide)
    (show bootRows pcStart.mem pcInfo + 10 ≤ 253 by omega)
  obtain ⟨hnull, -⟩ := howns.pageRun_room pcStart_zero_page pcStart_room
    (show 4 ≤ 10 + 7 by decide) (by omega)
  obtain ⟨t4, t3, t2, t1, hframes, havail⟩ := howns.installFrames (by omega) hnull
  rw [rooted_page hframes]
  exact pcStart_zeroed havail i

/-- The kernel's section is handed its block and its pages. -/
theorem pcStart_ample_before {v : Machine} {tables : List Nat} {n : Nat}
    (h : Booting (Spendable pcLoader pcStart.mem pcInfo) n v v.allocs tables)
    (hbelow : Elf.BelowTwoGB (Spendable pcLoader pcStart.mem pcInfo))
    (hkept : ∀ x, Kept pcLoader pcStart.mem pcInfo x → v.mem x = pcStart.mem x)
    (hroom : Frame.Room 7 v.frame) (hrows : n + v.allocs.length ≤ 240) :
    Ample n (Elf.before v 0x10302f 2).allocs := by
  obtain ⟨-, -, -, hshnum, -, hnull, htype, haddr, hsize⟩ := pcStart_elf
  obtain ⟨-, hfile, -, -, hfileAt⟩ := pcFiles_length
  have hbytes : ∀ x, (0x10302f : Word32).toNat ≤ x → x < (0x10302f : Word32).toNat + 208 →
      Kept pcLoader pcStart.mem pcInfo x := fun x hlo hhi =>
    pcStart_disk.file_kept (by rw [hfileAt]; exact hlo) (by rw [hfileAt, hfile]; exact hhi)
  have hsame : Mem.AgreeOn v.mem pcStart.mem (0x10302f : Word32).toNat 208 :=
    fun x hlo hhi => hkept x (hbytes x hlo hhi)
  have himage := pcStart_image.congr hsame
  have hwithheld : Elf.FileKept (Spendable pcLoader pcStart.mem pcInfo) 0x10302f 208 :=
    fun x hlo hhi => pcStart_withheld x (hbytes x hlo hhi)
  have hshnum' : (Elf.eShnum v.mem 0x10302f).toNat = 2 := by
    rw [pcStart_image.file.shnum hsame]
    exact hshnum
  have hshdr := Elf.shdr_congr hsame pcStart_image.fits pcStart_image.ehdr
  have hpast : Ample n v.allocs := ⟨h.nonNull, by omega⟩
  -- the null section
  have hfirst := pcStart_image.file.fields hsame (i := 0) (by omega)
  have hskip : Elf.before v 0x10302f 1 = v := by
    refine Elf.before_skip (i := 0) fun hload => hnull ?_
    unfold Elf.IsLoaded at hload ⊢
    rw [← hfirst.1, ← hshdr]
    exact hload
  obtain ⟨tables', hone⟩ :=
    (Elf.kernelLoad_zero h : Elf.KernelLoad _ n v 0x10302f 208 0 tables).next himage hwithheld hbelow
      (by omega) (by rw [Nat.zero_add, hskip]; exact hpast)
  -- the other one
  obtain ⟨htype', -, -, hsize'⟩ := pcStart_image.file.fields hsame (i := 1) (by omega)
  rw [htype, ← hshdr] at htype'
  rw [hsize, ← hshdr] at hsize'
  have hcost : Elf.mapCost v.mem (Elf.shdr v.mem 0x10302f 1) = 3 := by
    unfold Elf.mapCost
    rw [hsize']
    decide
  obtain ⟨g, hreach, hg, -⟩ := h.owns.ledger
  have hinv := (Frame.Ledger.inv_of_reachable hreach).table
  rw [hg] at hinv
  have hmemIndex := h.owns.rows
  obtain ⟨hp, hleft⟩ := hroom.alloc (j := 1) hinv (by omega)
    (fun hfree => pcStart_zero_page (h.owns.free 0 hfree)) (show 0 < (16 : Word64).toNat by decide)
    (by decide) (by decide) (show 2 ^ 32 - 1 ≤ Frame.frameSub4GB.toNat by decide) .used
  cases halloc : Frame.alloc v.frame Frame.frameSub4GB 16 Frame.frameUsed with
  | mk p f =>
  rw [show Frame.Status.used.flag = Frame.frameUsed from rfl, halloc] at hp hleft
  dsimp only at hp hleft
  have hsane : Frame.SaneSize 16 := by
    unfold Frame.SaneSize
    decide
  have howns := h.owns.alloc (by omega) (by decide) hsane (Or.inl rfl) halloc hp
  obtain ⟨hpages, -⟩ := howns.pageRun_room pcStart_zero_page hleft (show 6 ≤ 7 - 1 by decide)
    (by omega)
  have hblock : Frame.alloc (Elf.before v 0x10302f 1).frame Frame.frameSub4GB
      (Elf.shSize v.mem (Elf.shdr v.mem 0x10302f 1)) Frame.frameUsed = (p, f) := by
    rw [hskip, hsize']
    exact halloc
  refine hone.ample_next himage hwithheld hbelow (by omega) (Or.inl htype') hblock hp ?_ ?_
  · rw [hcost]
    exact hpages
  · rw [hskip, hcost]
    omega

/-- Nothing fails, and there is nothing for ACPI to do. -/
theorem pcStart_run : Run pcLoader (fun _ m => m) pcDevice 3 pcStart pcInfo := by
  have hrows := pcStart_rows
  obtain ⟨hlength, -, -, -, hfileAt⟩ := pcFiles_length
  obtain ⟨-, -, -, hshnum, -⟩ := pcStart_elf
  obtain ⟨-, hbelow⟩ := pcStart_platform.booked (by decide)
    (show bootRows pcStart.mem pcInfo + 10 ≤ 253 by omega)
  refine run_without_acpi pcStart_platform pcStart_disk rfl rfl pcStart_room pcStart_zero_page
    pcStart_root (by rw [hlength]; decide) (by omega) (by rw [hfileAt, hshnum]; decide) ?_ ?_
  · intro x hx
    refine ⟨fun h => ?_, fun hdevice => ?_, pcStart_zero (by omega)⟩
    · have hq := pcStart_spendable h
      omega
    · have hlo := hdevice.1
      omega
  · intro v live tables hunder hroom hlength
    have hcounted := hunder.booting.counted
    rw [hfileAt, hshnum]
    refine pcStart_ample_before hunder.booting.view hbelow hunder.kept hroom ?_
    show _ + live.length ≤ 240
    omega

/-- The kernel of the PC is started. -/
theorem pcStart_starts : ∃ e s', kmain pcLoader (fun _ m => m) 3 pcStart bootloaderMagic pcInfo =
      (.returned e, s') ∧ HandedOver pcLoader pcStart.mem pcInfo pcFiles 0 s' e := by
  refine hands_over pcLoader (fun _ m => m) pcDevice 3 pcStart pcInfo 0 pcFiles 0 1 pcStart_platform
    pcStart_disk pcStart_run ?_
  obtain ⟨-, -, -, -, hfileAt⟩ := pcFiles_length
  obtain ⟨-, -, -, hshnum, -⟩ := pcStart_elf
  rw [hfileAt, hshnum]
  decide

end Loader
end ZineOS
