import ZineOS.Loader.Acpi
import ZineOS.Loader.FrameTable

/-!
# The copy of the trampoline

`ParseMadt` allocates a page below 1 MB for the trampoline, copies the whole of `trampoline.bin` to it
and sets three of its fields.  It looks neither at the size of the file nor at whether `Alloc` has
found a page; without one it writes to the real-mode vectors, starts the other processors at address
0, and frees page 0.

* `startProcessorsTrace` is `startProcessors` with a list of what it stores through `trampoline` and
  of the commands it sends.
* **`trampoline_in_page_iff`** — it stays in its page exactly when there is one and the file fits.
-/

namespace ZineOS
namespace Loader
namespace Acpi

open Lib InitRd

/-- The stores through `trampoline`, each with its address and length, and the commands sent to the
APIC, each with its address. -/
structure Trace where
  stores : List (Nat × Nat)
  commands : List (Nat × Word32)

/-- The stores of a `memcpy`. -/
def memcpyStores (dst n : Word32) : List (Nat × Nat) :=
  Mem.repMovsStores 4 (n.toNat / 4) dst.toNat ++
    Mem.repMovsStores 1 (n.toNat % 4) (dst.toNat + 4 * (n.toNat / 4))

section

variable (img : Image) (others : Word32 → Mem → Mem) (fuel : Nat)

/-- The stores through `trampoline`: the file, `cpu_count`, `gdt.location` and `address`. -/
def trampolineStores (trampoline size : Word32) : List (Nat × Nat) :=
  memcpyStores trampoline size ++
    [((trampoline + 3).toNat, 4), ((trampoline + 18).toNat, 4), ((trampoline + 7).toNat, 4)]

/-- `startProcessors` with its trace. -/
def startProcessorsTrace (s : Machine) (madt : Word32) (fileInfo : RdFileInfo 32) :
    Machine × Trace :=
  let (trampoline, s) := s.alloc Frame.frameSub1MB 4096 Frame.frameAvailable
  let m := memcpy s.mem trampoline fileInfo.data fileInfo.size
  let m := store32 m (trampoline + 3) 1
  let m := store32 m (trampoline + 18) (load32 m (trampoline + 18) + trampoline)
  let m := store32 m (trampoline + 7) img.applicationProcessor
  let apic := load32 m (madt + 36)
  let m := sendApicCommand m apic icrLow 0xC4500
  let apic' := load32 m (madt + 36)
  let startup := 0xC4600 + trampoline >>> 12
  let m := sendApicCommand m apic' icrLow startup
  let m := others trampoline m
  ({ s with mem := m, frame := Frame.free s.frame trampoline },
    { stores := trampolineStores trampoline fileInfo.size
      commands := [((apic + icrLow).toNat, 0xC4500), ((apic' + icrLow).toNat, startup)] })

/-- `ParseMadt` with its trace. -/
def parseMadtTrace (s : Machine) (rd : Reader 32) (madt : Word32) : Progress × Trace :=
  match countProcessors s.mem fuel madt with
  | none => (.running s, ⟨[], []⟩)
  | some cpuCount =>
      if cpuCount = 0 then (.returned s, ⟨[], []⟩)
      else
        match findFile s.mem rd img.trampolineBin with
        | none => (.running s, ⟨[], []⟩)
        | some (_, none) => (.returned s, ⟨[], []⟩)
        | some (_, some fileInfo) =>
            let r := startProcessorsTrace img others s madt fileInfo
            (.returned r.1, r.2)

/-- The trace changes nothing. -/
theorem parseMadtTrace_progress (s : Machine) (rd : Reader 32) (madt : Word32) :
    (parseMadtTrace img others fuel s rd madt).1 = parseMadt img others fuel s rd madt := by
  unfold parseMadtTrace parseMadt
  cases countProcessors s.mem fuel madt with
  | none => rfl
  | some cpuCount =>
      dsimp only
      split_ifs with hnone
      · rfl
      · cases findFile s.mem rd img.trampolineBin with
        | none => rfl
        | some file =>
            obtain ⟨code, info⟩ := file
            cases info with
            | none => rfl
            | some fileInfo => rfl

/-! ## The page -/

/-- What `Frame::Alloc` returns for the trampoline. -/
def trampolinePage (t : Frame.Table) : Word32 :=
  (Frame.alloc t Frame.frameSub1MB 4096 Frame.frameAvailable).1

/-- What `ParseMadt` stores through `trampoline` lies in the page it was given; if it was given none,
it stores nothing, sends no command, so also no startup IPI, and leaves the frame table as it is. -/
structure StaysInPage (s : Machine) (run : Progress × Trace) : Prop where
  inside : trampolinePage s.frame ≠ 0 → ∀ x, Mem.Covers run.2.stores x →
    (trampolinePage s.frame).toNat ≤ x ∧ x < (trampolinePage s.frame).toNat + 4096
  silent : trampolinePage s.frame = 0 →
    run.2.stores = [] ∧ run.2.commands = [] ∧ run.1.machine.frame = s.frame

/-- The loop of `Alloc` finds a row with a page below 1 MB, and it is not at address 0. -/
def HasPage (t : Frame.Table) : Prop :=
  ∃ i, Frame.allocFind t Frame.frameSub1MB 4096 = some i ∧ Frame.allocStart t i ≠ 0

variable {img others fuel} {s : Machine} {rd : Reader 32} {madt : Word32} {x : Nat}

theorem covers_memcpy {dst n : Word32} :
    Mem.Covers (memcpyStores dst n) x ↔ dst.toNat ≤ x ∧ x < dst.toNat + n.toNat := by
  unfold memcpyStores
  rw [Mem.covers_append, Mem.covers_repMovs, Mem.covers_repMovs]
  omega

theorem trampolinePage_eq (t : Frame.Table) : trampolinePage t =
    match Frame.allocFind t Frame.frameSub1MB 4096 with
    | some i => Frame.allocStart t i
    | none => 0 := by
  have hsize : align 4096 0x1000 = 4096 := by decide
  unfold trampolinePage Frame.alloc
  rw [hsize]
  dsimp only
  cases Frame.allocFind t Frame.frameSub1MB 4096 with
  | none => rfl
  | some i => rfl

theorem hasPage_iff {t : Frame.Table} : HasPage t ↔ trampolinePage t ≠ 0 := by
  rw [trampolinePage_eq]
  unfold HasPage
  cases Frame.allocFind t Frame.frameSub1MB 4096 with
  | none => simp
  | some i => simp

/-- The page ends below 1 MB, in any frame table. -/
theorem HasPage.le {t : Frame.Table} (h : HasPage t) :
    (trampolinePage t).toNat + 4096 ≤ 0x100000 := by
  obtain ⟨i, hfind, -⟩ := h
  have hfit := List.find?_some hfind
  have hlt := (Frame.allocStart t i).isLt
  have hsize : (4096 : Word64).toNat = 4096 := rfl
  have hlimit : Frame.frameSub1MB.toNat = 0x100000 := by decide
  simp only [Frame.allocFits, Bool.and_eq_true, decide_eq_true_eq, BitVec.le_def] at hfit
  have hmax := hfit.1.2
  rw [BitVec.toNat_add, BitVec.toNat_setWidth_of_le (by decide), hsize, hlimit,
    Nat.mod_eq_of_lt (by omega)] at hmax
  rw [trampolinePage_eq, hfind]
  exact hmax

/-! ## What is stored -/

variable {fileInfo : RdFileInfo 32}

theorem startProcessorsTrace_stores : (startProcessorsTrace img others s madt fileInfo).2.stores =
    trampolineStores (trampolinePage s.frame) fileInfo.size := rfl

/-- The bytes of the file and the three fields. -/
theorem covers_trampolineStores {page size : Word32} (h : page.toNat + 4096 ≤ 0x100000) :
    Mem.Covers (trampolineStores page size) x ↔ page.toNat ≤ x ∧
      (x < page.toNat + size.toNat ∨ page.toNat + 3 ≤ x ∧ x < page.toNat + 11 ∨
        page.toNat + 18 ≤ x ∧ x < page.toNat + 22) := by
  have hfield : ∀ k : Word32, k.toNat < 4096 → (page + k).toNat = page.toNat + k.toNat := by
    intro k hk
    rw [BitVec.toNat_add, Nat.mod_eq_of_lt (by omega)]
  unfold trampolineStores
  rw [hfield 3 (by decide), hfield 18 (by decide), hfield 7 (by decide), Mem.covers_append,
    covers_memcpy]
  simp only [Mem.covers_cons, Mem.not_covers_nil, or_false]
  show _ ∨ _ + 3 ≤ x ∧ x < _ + 3 + 4 ∨ _ + 18 ≤ x ∧ x < _ + 18 + 4 ∨ _ + 7 ≤ x ∧ x < _ + 7 + 4 ↔ _
  omega

/-- **When the copy of the trampoline stays in its page.**  For every frame table, every
`trampoline.bin` that is found, and every MADT with a processor: when `Alloc` has a page for it and
the file is no larger. -/
theorem trampoline_in_page_iff {cpuCount : Word32} {code : Word64}
    (hcount : countProcessors s.mem fuel madt = some cpuCount) (hcpu : cpuCount ≠ 0)
    (hfile : findFile s.mem rd img.trampolineBin = some (code, some fileInfo)) :
    (parseMadtTrace img others fuel s rd madt).1 = parseMadt img others fuel s rd madt ∧
      (StaysInPage s (parseMadtTrace img others fuel s rd madt) ↔
        HasPage s.frame ∧ fileInfo.size.toNat ≤ 4096) := by
  refine ⟨parseMadtTrace_progress img others fuel s rd madt, ?_⟩
  have hrun : parseMadtTrace img others fuel s rd madt =
      (.returned (startProcessorsTrace img others s madt fileInfo).1,
        (startProcessorsTrace img others s madt fileInfo).2) := by
    unfold parseMadtTrace
    rw [hcount]
    dsimp only
    rw [if_neg hcpu, hfile]
  rw [hrun]
  constructor
  · intro hstays
    have hpage : HasPage s.frame := by
      by_contra hnone
      have hnull : trampolinePage s.frame = 0 := not_not.mp (mt hasPage_iff.mpr hnone)
      have hempty := (hstays.silent hnull).1
      rw [startProcessorsTrace_stores] at hempty
      unfold trampolineStores at hempty
      exact absurd (List.append_eq_nil_iff.mp hempty).2 (List.cons_ne_nil _ _)
    refine ⟨hpage, ?_⟩
    by_contra hlong
    -- the first byte behind the page
    have hbehind := hstays.inside (hasPage_iff.mp hpage)
      ((trampolinePage s.frame).toNat + 4096) ((covers_trampolineStores hpage.le).mpr (by omega))
    omega
  · rintro ⟨hpage, hsize⟩
    refine ⟨fun _ x hx => ?_, fun hnull => absurd hnull (hasPage_iff.mp hpage)⟩
    have hcovers := (covers_trampolineStores hpage.le).mp hx
    omega

end

/-! ## Three machines -/

deriving instance DecidableEq for RdFileInfo

/-- `m` with these bytes at `a`. -/
def withBytes (m : Mem) (a : Nat) (l : List Byte) : Mem := fun x =>
  if a ≤ x ∧ x < a + l.length then l.getD (x - a) 0 else m x

/-- `"trampoline.bin"`. -/
def trampolineName : List Byte :=
  [0x74, 0x72, 0x61, 0x6D, 0x70, 0x6F, 0x6C, 0x69, 0x6E, 0x65, 0x2E, 0x62, 0x69, 0x6E, 0]

/-- A MADT at `0x2000` with one processor, and an image at `0x4000` of the one file `trampoline.bin`
of this size. -/
def trampolineMachine (size : Nat) (frame : Frame.Table) : Machine :=
  let m := withBytes (fun _ => 0) 0x2004 [52, 0, 0, 0]
  let m := withBytes m 0x202C [0, 8, 0, 0, 1, 0, 0, 0]
  let m := withBytes m 0x3000 trampolineName
  let m := withBytes m 0x400C [1, 0, 0, 0, 15, 0, 0, 0]
  let m := withBytes m 0x4014 trampolineName
  ⟨(m.store 0x4023 4 51).store 0x4027 4 size, frame, 0x10000, []⟩

def trampolineImage : Image := ⟨0, 0, 0, 0x3000, 0x100000, 0⟩

def trampolineReader : Reader 32 := ⟨0x4000, 0x4014, 0x4023⟩

/-- 64 KB below 1 MB are free. -/
def lowFrames : Frame.Table := Frame.addRange Frame.empty 0x10000 0x10000

/-- Below 1 MB there is only page 0, which `kmain` has reserved. -/
def pageZeroOnly : Frame.Table :=
  Frame.reserveRange (Frame.addRange Frame.empty 0 0x1000) 0 4096 Frame.frameUsed

theorem hasPage_lowFrames : HasPage lowFrames := ⟨0, by decide +kernel, by decide +kernel⟩

theorem smallFile_in_page : StaysInPage (trampolineMachine 80 lowFrames)
    (parseMadtTrace trampolineImage (fun _ m => m) 2 (trampolineMachine 80 lowFrames)
      trampolineReader 0x2000) := by
  have hcount : countProcessors (trampolineMachine 80 lowFrames).mem 2 0x2000 = some 1 := by
    decide +kernel
  have hfile : findFile (trampolineMachine 80 lowFrames).mem trampolineReader 0x3000 =
      some (0, some ⟨0x4014, 80, 0x4033⟩) := by decide +kernel
  exact (@trampoline_in_page_iff trampolineImage (fun _ m => m) 2 _ _ _ _ 1 0 hcount (by decide)
    hfile).2.mpr ⟨hasPage_lowFrames, by decide⟩

/-- A file of one byte too many is copied over the end of its page; with no page at all a startup IPI
is sent for address 0, and page 0 is free afterwards. -/
theorem trampoline_leaves_page :
    ¬ StaysInPage (trampolineMachine 4097 lowFrames)
      (parseMadtTrace trampolineImage (fun _ m => m) 2 (trampolineMachine 4097 lowFrames)
        trampolineReader 0x2000) ∧
    let run := parseMadtTrace trampolineImage (fun _ m => m) 2
      (trampolineMachine 80 pageZeroOnly) trampolineReader 0x2000
    trampolinePage pageZeroOnly = 0 ∧ (0x300, 0xC4600) ∈ run.2.commands ∧
      pageZeroOnly.pageStatus 0 = some .used ∧
      run.1.machine.frame.pageStatus 0 = some .free ∧
      ¬ StaysInPage (trampolineMachine 80 pageZeroOnly) run := by
  have hnull : trampolinePage pageZeroOnly = 0 := by decide +kernel
  refine ⟨fun hstays => ?_, hnull, by decide +kernel, by decide +kernel, by decide +kernel,
    fun hstays => ?_⟩
  · have hpage : trampolinePage lowFrames = 0x10000 := by decide +kernel
    have hbehind := hstays.inside (hasPage_iff.mp hasPage_lowFrames) 0x11000
      ⟨(0x11000, 1), by decide +kernel, by decide, by decide⟩
    change (trampolinePage lowFrames).toNat ≤ _ ∧ _ < (trampolinePage lowFrames).toNat + _ at hbehind
    rw [hpage] at hbehind
    exact absurd hbehind.2 (by decide)
  · have hempty := (hstays.silent hnull).1
    exact absurd hempty (by decide +kernel)

end Acpi
end Loader
end ZineOS
