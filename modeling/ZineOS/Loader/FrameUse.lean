import ZineOS.Loader.Kmain
import ZineOS.Loader.MapRange
import ZineOS.Loader.FrameRuns
import ZineOS.Lib.Transition

/-!
# How the boot uses the frame allocator

Once the reservations are made, `kmain` changes the frame table by calls of `Alloc` and `Free` only,
and it frees only what it was given, where a failed `Alloc` has given it the null pointer.
`frameUser` is the system of all programs that do so; `asks` holds of the sizes they ask for.
`Uses.kmain` says that `kmain` is one of them, wherever it stops.  All its requests are for single
pages, except those that `Elf::Load` makes for a section.
-/

namespace ZineOS
namespace Loader

open Lib InitRd VirtualMemory

/-- A step of a program that uses the frame allocator. -/
inductive Use where
  | alloc (maxAddr size type : Word64)
  | free (frame : Word32)
  /-- anything that leaves the frame table alone -/
  | other

def frameUser (asks : Word64 → Prop) (start : Machine) : System Machine Use where
  init := fun s => s = start
  step := fun s use s' =>
    match use with
    | .alloc maxAddr size type =>
        asks size ∧ Frame.IsReserveType type ∧ s' = (s.alloc maxAddr size type).2
    | .free frame => (frame, 4096) ∈ s.allocs ∧ s' = { s with frame := Frame.free s.frame frame }
    | .other => s'.frame = s.frame ∧ s'.allocs = s.allocs

/-- Some program that uses the frame allocator leads from `s` to `s'`. -/
def Uses (asks : Word64 → Prop) (s s' : Machine) : Prop := (frameUser asks s).Reachable s'

namespace Uses

variable {asks : Word64 → Prop} {s s' s'' : Machine}

theorem refl (s : Machine) : Uses asks s s := .init rfl

theorem trans (h : Uses asks s s') (h' : Uses asks s' s'') : Uses asks s s'' := by
  unfold Uses at h'
  induction h' with
  | init heq =>
      cases heq
      exact h
  | step _ hstep ih => exact .step ih hstep

theorem alloc (h : Uses asks s s') {maxAddr size type : Word64} (hsize : asks size)
    (htype : Frame.IsReserveType type) : Uses asks s (s'.alloc maxAddr size type).2 :=
  .step (a := .alloc maxAddr size type) h ⟨hsize, htype, rfl⟩

theorem of_alloc {maxAddr size : Word64} {ptr : Word32} (hsize : asks size)
    (hptr : s.alloc maxAddr size Frame.frameUsed = (ptr, s')) : Uses asks s s' := by
  have halloc : Uses asks s (s.alloc maxAddr size Frame.frameUsed).2 :=
    (refl s).alloc hsize (Or.inl rfl)
  rwa [hptr] at halloc

theorem free (h : Uses asks s s') {frame : Word32} (hframe : (frame, 4096) ∈ s'.allocs) :
    Uses asks s { s' with frame := Frame.free s'.frame frame } :=
  .step (a := .free frame) h ⟨hframe, rfl⟩

theorem other (h : Uses asks s s') (hframe : s''.frame = s'.frame) (hlog : s''.allocs = s'.allocs) :
    Uses asks s s'' :=
  .step (a := .other) h ⟨hframe, hlog⟩

theorem write (h : Uses asks s s') (m : Mem) : Uses asks s { s' with mem := m } := h.other rfl rfl

/-- The log only grows. -/
theorem log (h : Uses asks s s') : s.allocs <+: s'.allocs := by
  refine h.invariant (I := fun s' => s.allocs <+: s'.allocs) ?_ ?_
  · rintro s' rfl
    exact List.prefix_rfl
  · intro s' use s'' _ hlog hstep
    cases use with
    | alloc maxAddr size type =>
        obtain ⟨-, -, rfl⟩ := hstep
        exact hlog.trans (List.prefix_append _ _)
    | free frame =>
        obtain ⟨-, rfl⟩ := hstep
        exact hlog
    | other => rwa [hstep.2]

/-- Everything in the log was asked for. -/
theorem sizes (h : Uses asks s s') (hs : ∀ r ∈ s.allocs, asks r.2) : ∀ r ∈ s'.allocs, asks r.2 := by
  refine h.invariant (I := fun s' => ∀ r ∈ s'.allocs, asks r.2) ?_ ?_
  · rintro s' rfl
    exact hs
  · intro s' use s'' _ hlog hstep
    cases use with
    | alloc maxAddr size type =>
        obtain ⟨hsize, -, rfl⟩ := hstep
        intro r hr
        rcases List.mem_append.mp hr with hold | hnew
        · exact hlog r hold
        · rw [List.mem_singleton.mp hnew]
          exact hsize
    | free frame =>
        obtain ⟨-, rfl⟩ := hstep
        exact hlog
    | other => rwa [hstep.2]

section

variable (hpage : asks 4096)

include hpage

/-! ## Page tables -/

/-- What `Map` does to the frame table is a run of `Alloc` for whole pages. -/
theorem logged {n : Nat} (h : Logged n s s') : Uses asks s s' := by
  obtain ⟨k, -, hlog, hframe⟩ := h
  induction k generalizing s with
  | zero => exact (refl s).other hframe (by simpa [pageRun] using hlog)
  | succ k ih =>
      have hfirst : Uses asks s (s.alloc Frame.frameNoLimit 4096 Frame.frameUsed).2 :=
        (refl s).alloc hpage (Or.inl rfl)
      refine hfirst.trans (ih ?_ hframe)
      rw [hlog]
      simp only [pageRun, Machine.alloc, List.append_assoc, List.singleton_append]

theorem mapRange (s : Machine) (phys virt size flags : Word64) :
    Uses asks s (mapRange s phys virt size flags) := by
  rw [mapRange_eq]
  exact logged hpage (logged_mapAll _ _)

theorem install (s : Machine) : Uses asks s (install s) := by
  unfold VirtualMemory.install
  cases hptr : s.alloc Frame.frameNoLimit 4096 Frame.frameUsed with
  | mk ptr s1 =>
      have hroot : Uses asks s { s1 with pml4Table := ptr } := (of_alloc hpage hptr).other rfl rfl
      exact hroot.trans (logged hpage (logged_mapAll _ _))

/-! ## The kernel image -/

theorem mapSection (s : Machine) (sh ptr : Word32) : Uses asks s (Elf.mapSection s sh ptr) :=
  (mapRange hpage ..).trans (mapRange hpage ..)

section

variable (hsection : ∀ size, asks size)

include hsection

theorem loadProgbits (s : Machine) (elf sh : Word32) (entry : Word64) :
    Uses asks s (Elf.loadProgbits s elf sh entry).2 := by
  unfold Elf.loadProgbits
  cases hptr : s.alloc Frame.frameSub4GB (Elf.shSize s.mem sh) Frame.frameUsed with
  | mk ptr s1 =>
      have halloc := of_alloc (hsection _) hptr
      dsimp only
      split
      · exact halloc
      · exact (halloc.write _).trans (mapSection hpage ..)

theorem loadNobits (s : Machine) (sh : Word32) (entry : Word64) :
    Uses asks s (Elf.loadNobits s sh entry).2 := by
  unfold Elf.loadNobits
  cases hptr : s.alloc Frame.frameSub4GB (Elf.shSize s.mem sh) Frame.frameUsed with
  | mk ptr s1 =>
      have halloc := of_alloc (hsection _) hptr
      dsimp only
      split
      · exact halloc
      · exact (halloc.write _).trans (mapSection hpage ..)

theorem loadSection (s : Machine) (elf sh : Word32) (entry : Word64) :
    Uses asks s (Elf.loadSection s elf sh entry).2 := by
  unfold Elf.loadSection
  split
  · exact loadProgbits hpage hsection ..
  split
  · exact loadNobits hpage hsection ..
  · exact refl s

end

/-- Without rounds for its loop, `Elf::Load` asks for nothing. -/
theorem loadLoop {fuel : Nat} (hsection : 0 < fuel → ∀ size, asks size) (s : Machine)
    (elf base i : Word32) (entry : Word64) :
    Uses asks s (Elf.loadLoop fuel s elf base i entry).2 := by
  induction fuel generalizing s i entry with
  | zero => exact refl s
  | succ fuel ih =>
      have hany := hsection fuel.succ_pos
      rw [Elf.loadLoop]
      split
      · exact refl s
      have hload := loadSection hpage hany s elf (Elf.sectionAt base i) entry
      cases hres : Elf.loadSection s elf (Elf.sectionAt base i) entry with
      | mk next s1 =>
          rw [hres] at hload
          cases next with
          | none => exact hload
          | some entry => exact hload.trans (ih (fun _ => hany) ..)

theorem elfLoad {fuel : Nat} (hsection : 0 < fuel → ∀ size, asks size) (s : Machine)
    (elf : Word32) : Uses asks s (Elf.load fuel s elf).2 := by
  unfold Elf.load
  split
  · exact refl s
  · exact loadLoop hpage hsection ..

/-! ## The initial RAM disk and ACPI -/

theorem loaderLoad (magic : Word32) (s : Machine) (initRd : Word64) (rd : Reader 32)
    (header : Word32) : Uses asks s (loaderLoad magic s initRd rd header).1 := by
  unfold InitRd.loaderLoad
  dsimp only
  split
  · exact mapRange hpage ..
  · exact refl s

variable (img : Image) (others : Word32 → Mem → Mem)

/-- The trampoline is freed whether `Alloc` has found a page for it or not. -/
theorem startProcessors (s : Machine) (madt : Word32) (fileInfo : RdFileInfo 32) :
    Uses asks s (Acpi.startProcessors img others s madt fileInfo) := by
  have halloc : Uses asks s (s.alloc Frame.frameSub1MB 4096 Frame.frameAvailable).2 :=
    (refl s).alloc hpage (Or.inr rfl)
  have hlogged : ((s.alloc Frame.frameSub1MB 4096 Frame.frameAvailable).1, 4096) ∈
      (s.alloc Frame.frameSub1MB 4096 Frame.frameAvailable).2.allocs :=
    List.mem_append_right _ (List.mem_singleton_self _)
  exact (halloc.free hlogged).write _

theorem parseMadt (fuel : Nat) (s : Machine) (rd : Reader 32) (madt : Word32) :
    Uses asks s (Acpi.parseMadt img others fuel s rd madt).machine := by
  unfold Acpi.parseMadt
  split
  · exact refl s
  split
  · exact refl s
  split
  · exact refl s
  · exact refl s
  · exact startProcessors hpage ..

theorem rsdtLoop (fuel : Nat) (rd : Reader 32) (offsetPtr : Word32) (n : Nat) (s : Machine)
    (i : Word32) : Uses asks s (Acpi.rsdtLoop img others fuel rd offsetPtr n s i).machine := by
  induction n generalizing s i with
  | zero => exact refl s
  | succ n ih =>
      rw [Acpi.rsdtLoop]
      split
      · have hmadt := parseMadt hpage img others fuel s rd (load32 s.mem (offsetPtr + 4 * i))
        cases hres : Acpi.parseMadt img others fuel s rd (load32 s.mem (offsetPtr + 4 * i)) with
        | returned s1 =>
            rw [hres] at hmadt
            exact hmadt.trans (ih ..)
        | running s1 =>
            rw [hres] at hmadt
            exact hmadt
      · exact ih ..

theorem acpiInstall (fuel : Nat) (s : Machine) (rd : Reader 32) :
    Uses asks s (Acpi.install img others fuel s rd).machine := by
  unfold Acpi.install
  dsimp only
  split
  · unfold Acpi.parseRsdp
    dsimp only
    split
    · exact refl s
    · exact rsdtLoop hpage ..
  · exact refl s

/-! ## `kmain` -/

variable {fuel : Nat} (hsection : 0 < fuel → ∀ size, asks size)

include hsection

theorem loadKernel (s : Machine) (rd : Reader 32) : Uses asks s (loadKernel img fuel s rd).2 := by
  unfold Loader.loadKernel
  split
  · exact refl s
  · exact refl s
  · exact elfLoad hpage hsection ..

theorem afterInstall (s : Machine) (info : Word32) :
    Uses asks s (afterInstall img others fuel s info).2 := by
  have himage := mapRange hpage s (ptrToU64 img.code) (ptrToU64 img.code)
    (ptrToU64 img.stop - ptrToU64 img.code) Elf.sectionFlags
  unfold Loader.afterInstall
  dsimp only
  generalize VirtualMemory.mapRange s (ptrToU64 img.code) (ptrToU64 img.code)
    (ptrToU64 img.stop - ptrToU64 img.code) Elf.sectionFlags = s1 at himage ⊢
  generalize MBoot.findModuleByCmdLine s1.mem info initrdName = initrdModule
  split
  · exact himage
  have hrd := himage.trans (loaderLoad hpage img.initrdMagic s1 0 ⟨0, 0, 0⟩
    (MBoot.modStart s1.mem initrdModule))
  generalize InitRd.loaderLoad img.initrdMagic s1 0 ⟨0, 0, 0⟩
    (MBoot.modStart s1.mem initrdModule) = loaded at hrd ⊢
  have hacpi := hrd.trans (acpiInstall hpage img others fuel loaded.1 loaded.2.2.1)
  cases hres : Acpi.install img others fuel loaded.1 loaded.2.2.1 with
  | running s2 =>
      rw [hres] at hacpi
      exact hacpi
  | returned s2 =>
      rw [hres] at hacpi
      exact hacpi.trans (loadKernel hpage img hsection ..)

/-- Up to `VirtualMemory::Install`, `kmain` has allocated nothing; from there on it uses the frame
allocator like everyone else. -/
theorem kmain (s : Machine) (magic info : Word32) :
    (kmain img others fuel s magic info).2.allocs = s.allocs ∨
      Uses asks { s with frame := bootTable img s.mem info s.frame }
        (kmain img others fuel s magic info).2 := by
  unfold Loader.kmain
  split
  · exact Or.inl rfl
  split
  · exact Or.inl rfl
  split
  · exact Or.inl rfl
  · exact Or.inr ((install hpage _).trans (afterInstall hpage img others hsection ..))

end

end Uses

end Loader
end ZineOS
