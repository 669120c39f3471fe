import ZineOS.Loader.BootTables
import ZineOS.Loader.RsdtWalk
import ZineOS.Loader.TrampolineCopy

/-!
# `Acpi::Install` in a boot

Every MADT with processors costs a trampoline page, which `ParseMadt` hands back at its end.
`installStarts` lists what `ParseMadt` starts processors with in the run of `Install`.  When no
trampoline is longer than its page and the commands go to devices, the run keeps the invariant of
the boot, and memory that the boot does not own stays as it is.
-/

namespace ZineOS
namespace Loader
namespace Acpi

open Lib InitRd VirtualMemory

/-- What processors are started with: the state of the machine, the MADT and the trampoline. -/
structure Start where
  machine : Machine
  madt : Word32
  file : RdFileInfo 32

section

variable (img : Image) (others : Word32 → Mem → Mem) (fuel : Nat)

/-- The start in a call of `ParseMadt`, if it comes to one. -/
def madtStart (s : Machine) (rd : Reader 32) (madt : Word32) : Option Start :=
  match countProcessors s.mem fuel madt with
  | none => none
  | some cpuCount =>
      if cpuCount = 0 then none
      else
        match findFile s.mem rd img.trampolineBin with
        | some (_, some fileInfo) => some ⟨s, madt, fileInfo⟩
        | _ => none

/-- The starts in `rsdtLoop`. -/
def rsdtStarts (rd : Reader 32) (offsetPtr : Word32) : Nat → Machine → Word32 → List Start
  | 0, _, _ => []
  | n + 1, s, i =>
      let tablePtr := load32 s.mem (offsetPtr + 4 * i)
      if memcmp s.mem madtSignature tablePtr = 0 then
        let start := (madtStart img fuel s rd tablePtr).toList
        match parseMadt img others fuel s rd tablePtr with
        | .returned s => start ++ rsdtStarts rd offsetPtr n s (i + 1)
        | .running _ => start
      else rsdtStarts rd offsetPtr n s (i + 1)

/-- The starts in `Install`. -/
def installStarts (s : Machine) (rd : Reader 32) : List Start :=
  let rsdp := findRsdp s.mem
  if rsdp = 0 then []
  else
    let rsdt := rsdtOf s.mem rsdp
    let length := rsdtLength s.mem rsdp
    if checkSum s.mem rsdt length ≠ 0 then []
    else rsdtStarts img others fuel rd (rsdt + 36) ((length - sizeofRsdt) / 4).toNat s 0

theorem machine_parseMadt (s : Machine) (rd : Reader 32) (madt : Word32) :
    (parseMadt img others fuel s rd madt).machine =
      match madtStart img fuel s rd madt with
      | none => s
      | some start => startProcessors img others s madt start.file := by
  unfold parseMadt madtStart
  cases countProcessors s.mem fuel madt with
  | none => rfl
  | some cpuCount =>
      dsimp only
      split
      · rfl
      · split <;> simp_all [Progress.machine]

/-- The trampoline fits into its page, and the commands go to `device`. -/
structure Start.Harmless (device : Nat → Prop) (start : Start) : Prop where
  size : start.file.size.toNat ≤ 4096
  commands : ∀ c ∈ (startProcessorsTrace img others start.machine start.madt start.file).2.commands,
    ∀ x, c.1 ≤ x → x < c.1 + 4 → device x

end

/-! ## One start -/

variable {img : Image} {others : Word32 → Mem → Mem} {fuel : Nat} {avail device : Nat → Prop}
  {n : Nat} {live : AllocLog} {tables : List Nat} {s : Machine}

/-- The other processors write to the trampoline and to devices only. -/
def Confines (others : Word32 → Mem → Mem) (device : Nat → Prop) : Prop :=
  ∀ (p : Word32) (m : Mem) (x : Nat), ¬ (p.toNat ≤ x ∧ x < p.toNat + 4096) → ¬ device x →
    others p m x = m x

theorem store32_of_not {m : Mem} {p v : Word32} {x : Nat} (h : ¬ (p.toNat ≤ x ∧ x < p.toNat + 4)) :
    store32 m p v x = m x := Mem.store_of_not h

/-- Nothing is written outside the trampoline and the devices. -/
theorem startProcessors_mem (hothers : Confines others device) {madt : Word32}
    {file : RdFileInfo 32} (hpage : HasPage s.frame)
    (hstart : Start.Harmless img others device ⟨s, madt, file⟩) {x : Nat}
    (hx : ¬ ((trampolinePage s.frame).toNat ≤ x ∧ x < (trampolinePage s.frame).toNat + 4096))
    (hdevice : ¬ device x) :
    (startProcessors img others s madt file).mem x = s.mem x := by
  have hle := hpage.le
  have hsize : file.size.toNat ≤ 4096 := hstart.size
  have hinit := hstart.commands _ List.mem_cons_self x
  have hstartup := hstart.commands _ (List.mem_cons_of_mem _ List.mem_cons_self) x
  -- a field in the first bytes of the trampoline lies in its page
  have hfield : ∀ d : Word32, d.toNat < 4000 → ∀ hin : (trampolinePage s.frame + d).toNat ≤ x ∧
      x < (trampolinePage s.frame + d).toNat + 4, False := by
    intro d hd hin
    rw [BitVec.toNat_add, Nat.mod_eq_of_lt (by omega)] at hin
    exact hx ⟨by omega, by omega⟩
  -- the two commands, the three fields of the trampoline, then the copy of the file
  refine (hothers _ _ _ hx hdevice).trans ?_
  refine (store32_of_not fun hin => hdevice (hstartup hin.1 hin.2)).trans ?_
  refine (store32_of_not fun hin => hdevice (hinit hin.1 hin.2)).trans ?_
  refine (store32_of_not (hfield 7 (by decide))).trans ?_
  refine (store32_of_not (hfield 18 (by decide))).trans ?_
  refine (store32_of_not (hfield 3 (by decide))).trans ?_
  have hcopy : ¬ ((trampolinePage s.frame).toNat ≤ x ∧
      x < (trampolinePage s.frame).toNat + file.size.toNat) :=
    fun hin => hx ⟨hin.1, lt_of_lt_of_le hin.2 (Nat.add_le_add_left hsize _)⟩
  exact memcpy_of_not hcopy

/-- **One start.**  The trampoline is handed out, written and handed back. -/
theorem startProcessors_booting (h : Booting avail n s live tables)
    (hdevices : ∀ x, device x → ¬ avail (x / 0x1000)) (hothers : Confines others device)
    {madt : Word32} {file : RdFileInfo 32}
    (hstart : Start.Harmless img others device ⟨s, madt, file⟩)
    (hample : Ample n (startProcessors img others s madt file).allocs) :
    Booting avail n (startProcessors img others s madt file) live tables ∧
      Preserves avail device s (startProcessors img others s madt file) := by
  have hlog : (startProcessors img others s madt file).allocs =
      s.allocs ++ [(trampolinePage s.frame, 4096)] := rfl
  have hrows := hample.rows
  rw [hlog, List.length_append, List.length_singleton] at hrows
  have hnull : trampolinePage s.frame ≠ 0 := by
    refine hample.nonNull (trampolinePage s.frame, 4096) ?_
    rw [hlog]
    exact List.mem_append_right _ (List.mem_singleton_self _)
  have hpage : HasPage s.frame := hasPage_iff.mpr hnull
  have howns := h.owns.alloc_page (by omega) Frame.frameSub1MB (Or.inr rfl) hnull
  have hblock : Frame.block (trampolinePage s.frame) 4096 =
      ((trampolinePage s.frame).toNat, (trampolinePage s.frame).toNat + 4096) := rfl
  have hin : ((trampolinePage s.frame, 4096) : Word32 × Word64) ∈
      ((s.pml4Table, 4096) :: live) ++ [(trampolinePage s.frame, 4096)] :=
    List.mem_append_right _ (List.mem_singleton_self _)
  -- the page may be handed out, and it is none of the tables
  have havail : ∀ x, (trampolinePage s.frame).toNat ≤ x →
      x < (trampolinePage s.frame).toNat + 4096 → avail (x / 0x1000) :=
    fun x hlo hhi => howns.avail_of_block hin hlo (by rw [hblock]; exact hhi)
  have htables : ∀ x, x / 0x1000 ∈ tables →
      (startProcessors img others s madt file).mem x = s.mem x := by
    intro x hx
    refine startProcessors_mem hothers hpage hstart (fun hpagex => ?_)
      fun hd => hdevices x hd (h.table_avail hx)
    have hapart := (List.pairwise_append.mp howns.apart).2.2
    refine h.inv.not_mem_of_disjoint (r := Frame.block (trampolinePage s.frame) 4096)
      (fun a ha => hapart a ha _ (List.mem_singleton_self _)) hpagex.1 hpagex.2 hx
  obtain ⟨hinv, htranslate⟩ :
      PageTables ((startProcessors img others s madt file).withLog live) tables ∧
        ∀ v, translate (startProcessors img others s madt file).mem s.pml4Table.toNat v =
          translate s.mem s.pml4Table.toNat v :=
    h.inv.congr rfl (List.Subset.refl _) htables
  constructor
  · refine ⟨?_, h.nonNull, ?_, hinv⟩
    · have hback := howns.release (by omega)
      rw [hlog, List.length_append, List.length_singleton, ← Nat.add_assoc]
      exact hback
    · rw [hlog, List.length_append]
      exact h.counted.trans (Nat.le_add_right _ _)
  · refine ⟨rfl, fun x hx hd => ?_, fun v _ hbefore => ?_⟩
    · exact startProcessors_mem hothers hpage hstart (fun hin => hx (havail x hin.1 hin.2)) hd
    · unfold physical at hbefore ⊢
      have hsame := htranslate v
      have hrefl : (startProcessors img others s madt file).pml4Table = s.pml4Table := rfl
      rw [hrefl]
      exact (congrArg (Option.map Prod.fst) hsame).trans hbefore

/-! ## All of them -/

theorem parseMadt_booting (h : Booting avail n s live tables)
    (hdevices : ∀ x, device x → ¬ avail (x / 0x1000)) (hothers : Confines others device)
    {rd : Reader 32} {madt : Word32}
    (hstart : ∀ a ∈ madtStart img fuel s rd madt, Start.Harmless img others device a)
    (hample : Ample n (parseMadt img others fuel s rd madt).machine.allocs) :
    Booting avail n (parseMadt img others fuel s rd madt).machine live tables ∧
      Preserves avail device s (parseMadt img others fuel s rd madt).machine := by
  rw [machine_parseMadt] at hample ⊢
  have hcases : madtStart img fuel s rd madt = none ∨
      ∃ file, madtStart img fuel s rd madt = some ⟨s, madt, file⟩ := by
    unfold madtStart
    split
    · exact Or.inl rfl
    · split_ifs
      · exact Or.inl rfl
      · split
        · exact Or.inr ⟨_, rfl⟩
        · exact Or.inl rfl
  rcases hcases with hnone | ⟨file, hsome⟩
  · rw [hnone] at hample ⊢
    exact ⟨h, .refl s⟩
  · rw [hsome] at hample ⊢
    exact startProcessors_booting h hdevices hothers (hstart _ hsome) hample

/-- The loop over the tables. -/
theorem rsdtLoop_booting (hdevices : ∀ x, device x → ¬ avail (x / 0x1000))
    (hothers : Confines others device) {rd : Reader 32} {offsetPtr : Word32} {count : Nat}
    {i : Word32} (h : Booting avail n s live tables)
    (hstarts : ∀ a ∈ rsdtStarts img others fuel rd offsetPtr count s i,
      Start.Harmless img others device a)
    (hample : Ample n (rsdtLoop img others fuel rd offsetPtr count s i).machine.allocs) :
    Booting avail n (rsdtLoop img others fuel rd offsetPtr count s i).machine live tables ∧
      Preserves avail device s (rsdtLoop img others fuel rd offsetPtr count s i).machine := by
  induction count generalizing s i with
  | zero => exact ⟨h, .refl s⟩
  | succ count ih =>
      unfold rsdtLoop at hample ⊢
      unfold rsdtStarts at hstarts
      dsimp only at hstarts hample ⊢
      split at hstarts
      · rename_i hmadt
        rw [if_pos hmadt] at hample ⊢
        have hmachine (hs : ∀ a ∈ madtStart img fuel s rd (load32 s.mem (offsetPtr + 4 * i)),
              Start.Harmless img others device a)
            (ha : Ample n (parseMadt img others fuel s rd
              (load32 s.mem (offsetPtr + 4 * i))).machine.allocs) :=
          parseMadt_booting h hdevices hothers hs ha
        cases hparse : parseMadt img others fuel s rd (load32 s.mem (offsetPtr + 4 * i)) with
        | running s1 =>
            rw [hparse] at hstarts hample hmachine
            exact hmachine (fun a ha => hstarts a (Option.mem_toList.mpr ha)) hample
        | returned s1 =>
            rw [hparse] at hstarts hample hmachine
            have huses : Uses (fun _ => True) s1
                (rsdtLoop img others fuel rd offsetPtr count s1 (i + 1)).machine :=
              Uses.rsdtLoop trivial img others fuel rd offsetPtr count s1 (i + 1)
            have hfirst := hmachine
              (fun a ha => hstarts a (List.mem_append_left _ (Option.mem_toList.mpr ha)))
              (hample.of_prefix huses.log)
            have hrest := ih hfirst.1 (fun a ha => hstarts a (List.mem_append_right _ ha)) hample
            exact ⟨hrest.1, hfirst.2.trans hrest.2⟩
      · rename_i hmadt
        rw [if_neg hmadt] at hample ⊢
        exact ih h hstarts hample

/-- **`Acpi::Install`.** -/
theorem install_booting (h : Booting avail n s live tables)
    (hdevices : ∀ x, device x → ¬ avail (x / 0x1000)) (hothers : Confines others device)
    {rd : Reader 32}
    (hstarts : ∀ a ∈ installStarts img others fuel s rd, Start.Harmless img others device a)
    (hample : Ample n (install img others fuel s rd).machine.allocs) :
    Booting avail n (install img others fuel s rd).machine live tables ∧
      Preserves avail device s (install img others fuel s rd).machine := by
  unfold install at hample ⊢
  unfold installStarts at hstarts
  dsimp only at hstarts hample ⊢
  by_cases hrsdp : findRsdp s.mem = 0
  · rw [if_neg (not_not.mpr hrsdp)] at hample ⊢
    exact ⟨h, .refl s⟩
  · rw [if_pos hrsdp] at hample ⊢
    rw [if_neg hrsdp] at hstarts
    unfold parseRsdp at hample ⊢
    unfold rsdtLength rsdtOf at hstarts
    dsimp only at hample ⊢
    split at hstarts
    · rename_i hsum
      rw [if_pos hsum] at hample ⊢
      exact ⟨h, .refl s⟩
    · rename_i hsum
      rw [if_neg hsum] at hample ⊢
      exact rsdtLoop_booting hdevices hothers h hstarts hample

end Acpi
end Loader
end ZineOS
