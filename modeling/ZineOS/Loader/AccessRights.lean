import ZineOS.Loader.PageMap

/-!
# Who gets which rights

`Map` writes its flags into the leaf and into every upper entry that it has to create.  An upper
entry that is there already keeps the flags of the call that created it, and the processor grants a
right only when all four entries on the walk do.  So the rights of a page are those of the last call
for it, cut down to those of the first call in each region around it: 512 GB, 1 GB and 2 MB.

`rights_as_asked_iff` says when nothing is lost.
-/

namespace ZineOS
namespace Loader
namespace VirtualMemory

open Lib

/-- The READWRITE and USER bits. -/
def accessBits : Word64 := flagReadWrite ||| flagUser

/-- The first call whose address has the same bits 47-`shift` as `v`. -/
def firstCall (calls : List MapCall) (shift : Nat) (v : Word64) : Option MapCall :=
  calls.find? fun c => c.virt.extractLsb' shift (48 - shift) = v.extractLsb' shift (48 - shift)

/-- Every mapped page has the READWRITE and USER rights of the last call for it. -/
def RightsAsAsked (s : Machine) (calls : List MapCall) : Prop :=
  ∀ v c, lastCall calls v = some c →
    (rights (mapAll s calls).mem s.pml4Table.toNat v).map (fun r => r &&& accessBits) =
      some (c.flags &&& accessBits)

/-- The last call for a page asks for no right that the first call in one of its regions did not ask
for. -/
def RegionsGrant (calls : List MapCall) : Prop :=
  ∀ v c, lastCall calls v = some c → ∀ shift ∈ [39, 30, 21], ∀ f, firstCall calls shift v = some f →
    c.flags &&& accessBits &&& ~~~f.flags = 0

/-! ## The flags of the upper entries -/

/-- An upper entry keeps the flags of the first call that came through it. -/
theorem linkFlags_mapAll {s : Machine} {tables : List Nat} (h : PageTables s tables)
    {calls : List MapCall} (hflags : ∀ c ∈ calls, IsMapFlags c.flags)
    (hsep : Separate s.pml4Table (mapAll s calls).allocs) {q : List (BitVec 9)} (hq : q.length < 3)
    (j : BitVec 9) :
    Machine.linkFlags pageFormat (mapAll s calls) q j = (Machine.linkFlags pageFormat s q j).or
      ((calls.find? fun c => OnPath c.virt q j).map MapCall.flags) := by
  obtain ⟨tables', hmapped⟩ := mapAllIn_spec h hsep fun c hc =>
    framesNamed_of_mapFlags (hflags c hc) _ _
  rw [hmapped.links q j hq]
  congr 1
  refine Option.map_congr fun c hc => ?_
  exact (hflags c (List.mem_of_find?_eq_some hc)).entryFlags_eq

/-- Nothing is linked below a zeroed PML4. -/
theorem linkFlags_of_zero {s : Machine}
    (hzero : ∀ i, entryAt s.mem (s.pml4Table.toNat / 0x1000) i = 0) (q : List (BitVec 9))
    (j : BitVec 9) : Machine.linkFlags pageFormat s q j = none := by
  unfold Machine.linkFlags RadixTree.linkAt
  cases q with
  | nil =>
      rw [RadixTree.follow_nil, Option.bind_some, hzero]
      rfl
  | cons i q =>
      rw [RadixTree.follow, hzero]
      rfl

/-! ## Regions -/

/-- The top bits of an address, down to bit 39, 30 or 21, are the table indices of a path. -/
theorem onPath_iff (virt v : Word64) :
    (OnPath virt [] (v.extractLsb' 39 9) ↔
      virt.extractLsb' 39 (48 - 39) = v.extractLsb' 39 (48 - 39)) ∧
    (OnPath virt [v.extractLsb' 39 9] (v.extractLsb' 30 9) ↔
      virt.extractLsb' 30 (48 - 30) = v.extractLsb' 30 (48 - 30)) ∧
    (OnPath virt [v.extractLsb' 39 9, v.extractLsb' 30 9] (v.extractLsb' 21 9) ↔
      virt.extractLsb' 21 (48 - 21) = v.extractLsb' 21 (48 - 21)) := by
  have hnat : ∀ (start len : Nat), virt.extractLsb' start len = v.extractLsb' start len ↔
      virt.toNat / 2 ^ start % 2 ^ len = v.toNat / 2 ^ start % 2 ^ len := by
    intro start len
    rw [← toNat_extractLsb', ← toNat_extractLsb', BitVec.toNat_inj]
  have hflip : ∀ start, v.extractLsb' start 9 = virt.extractLsb' start 9 ↔
      virt.extractLsb' start 9 = v.extractLsb' start 9 := fun _ => eq_comm
  unfold OnPath upperPath
  refine ⟨?_, ?_, ?_⟩
  · simp [hflip]
  · simp [hflip, hnat]
    omega
  · simp [hflip, hnat]
    omega

/-! ## The rights of a page -/

/-- A walk that ends goes through three links, and the rights are what all four entries grant. -/
theorem rights_of_walk {s : Machine} {v e1 : Word64}
    (h : walk s.mem s.pml4Table.toNat v = some e1) :
    ∃ e4 e3 e2,
      RadixTree.linkAt pageFormat (entryAt s.mem) (s.pml4Table.toNat / 0x1000) []
        (v.extractLsb' 39 9) = some e4 ∧
      RadixTree.linkAt pageFormat (entryAt s.mem) (s.pml4Table.toNat / 0x1000)
        [v.extractLsb' 39 9] (v.extractLsb' 30 9) = some e3 ∧
      RadixTree.linkAt pageFormat (entryAt s.mem) (s.pml4Table.toNat / 0x1000)
        [v.extractLsb' 39 9, v.extractLsb' 30 9] (v.extractLsb' 21 9) = some e2 ∧
      rights s.mem s.pml4Table.toNat v = some (e4 &&& e3 &&& e2 &&& e1) := by
  unfold walk at h
  simp only [Option.bind_eq_bind, Option.bind_eq_some_iff] at h
  obtain ⟨pml3, h3, pml2, h2, pml1, h1, hleaf⟩ := h
  -- a link for each table that the walk went through
  refine ⟨_, _, _, RadixTree.linkAt_eq_some_iff.mpr ⟨_, rfl, ?_, rfl⟩,
    RadixTree.linkAt_eq_some_iff.mpr ⟨pml3, ?_, ?_, rfl⟩,
    RadixTree.linkAt_eq_some_iff.mpr ⟨pml2, ?_, ?_, rfl⟩, ?_⟩
  · show (nextTable _).isSome = true
    rw [h3]
    rfl
  · simp only [RadixTree.follow, pageFormat, h3, Option.bind_some]
  · show (nextTable _).isSome = true
    rw [h2]
    rfl
  · simp only [RadixTree.follow, pageFormat, h3, h2, Option.bind_some]
  · show (nextTable _).isSome = true
    rw [h1]
    rfl
  · simp only [rights, h3, h2, h1, hleaf, Option.bind_eq_bind, Option.bind_some]

theorem and_accessBits (e : Word64) : e &&& accessBits = entryFlags e &&& accessBits := by
  unfold entryFlags
  rw [BitVec.and_assoc]
  congr 1

/-- The rights that come out for a page are those asked for if and only if no entry on the way lacks
one of them. -/
theorem rights_eq_iff (e4 e3 e2 e1 : Word64) :
    e4 &&& e3 &&& e2 &&& e1 &&& accessBits = entryFlags e1 &&& accessBits ↔
      entryFlags e1 &&& accessBits &&& ~~~entryFlags e4 = 0 ∧
        entryFlags e1 &&& accessBits &&& ~~~entryFlags e3 = 0 ∧
        entryFlags e1 &&& accessBits &&& ~~~entryFlags e2 = 0 := by
  have hown : ∀ e, entryFlags e1 &&& accessBits &&& e = entryFlags e1 &&& accessBits ↔
      entryFlags e1 &&& accessBits &&& entryFlags e = entryFlags e1 &&& accessBits := by
    intro e
    rw [BitVec.and_assoc, BitVec.and_assoc, BitVec.and_comm accessBits e, and_accessBits e,
      BitVec.and_comm (entryFlags e) accessBits]
  have hgather : e4 &&& e3 &&& e2 &&& e1 &&& accessBits =
      entryFlags e1 &&& accessBits &&& (e4 &&& (e3 &&& e2)) := by
    rw [BitVec.and_assoc, and_accessBits e1, BitVec.and_comm, BitVec.and_assoc e4]
  rw [hgather, Words.and_and_eq_self_iff, Words.and_and_eq_self_iff, hown e4, hown e3, hown e2,
    Words.and_eq_self_iff, Words.and_eq_self_iff, Words.and_eq_self_iff]

/-- **When every page gets the rights asked for.**  From a zeroed PML4 with fresh frames, the rights
of every mapped page are those of the last call for it if and only if no last call asks for a right
that the first call in one of the page's regions did not ask for. -/
theorem rights_as_asked_iff {s : Machine} (hpml4 : s.pml4Table.toNat % 0x1000 = 0)
    (hzero : ∀ i, entryAt s.mem (s.pml4Table.toNat / 0x1000) i = 0) (hlog : s.allocs = [])
    {calls : List MapCall} (hflags : ∀ c ∈ calls, IsMapFlags c.flags)
    (hfresh : FreshFrames s.pml4Table (mapAll s calls).allocs) :
    RightsAsAsked s calls ↔ RegionsGrant calls := by
  have hsep := separate_mapAll hpml4 hlog hfresh
  have htables := pageTables_init hpml4 hzero
  obtain ⟨tables, hmapped⟩ := mapAll_spec_trim htables hflags hsep
  unfold RightsAsAsked RegionsGrant
  refine forall_congr' fun v => forall_congr' fun c => imp_congr_right fun hlast => ?_
  -- the leaf on the walk has the flags of the last call
  obtain ⟨e1, hwalk, hown⟩ : ∃ e1, walk (mapAll s calls).mem s.pml4Table.toNat v = some e1 ∧
      entryFlags e1 = c.flags := by
    have htrans := hmapped.translate v
    rw [lastCall_trim, hlast] at htrans
    unfold translate at htrans
    cases hwalk : walk (mapAll s calls).mem s.pml4Table.toNat v with
    | none =>
        rw [hwalk] at htrans
        exact absurd htrans (by simp)
    | some e1 =>
        rw [hwalk] at htrans
        have hpair := Option.some.inj htrans
        exact ⟨e1, rfl, congrArg Prod.snd hpair⟩
  have hroot : (mapAll s calls).pml4Table = s.pml4Table := hmapped.pml4
  rw [← hroot] at hwalk
  obtain ⟨e4, e3, e2, h4, h3, h2, hrights⟩ := rights_of_walk hwalk
  rw [hroot] at hrights
  -- the links have the flags of the first calls
  have hfirst : ∀ (q : List (BitVec 9)) (j : BitVec 9) (e : Word64) (shift : Nat), q.length < 3 →
      (∀ virt, OnPath virt q j ↔ virt.extractLsb' shift (48 - shift) =
        v.extractLsb' shift (48 - shift)) →
      RadixTree.linkAt pageFormat (entryAt (mapAll s calls).mem)
        ((mapAll s calls).pml4Table.toNat / 0x1000) q j = some e →
      (firstCall calls shift v).map MapCall.flags = some (entryFlags e) := by
    intro q j e shift hq hpath hlink
    have hflagsOf := linkFlags_mapAll htables hflags hsep hq j
    rw [linkFlags_of_zero hzero, Option.none_or] at hflagsOf
    unfold Machine.linkFlags at hflagsOf
    rw [hlink] at hflagsOf
    unfold firstCall
    simp only [← hpath]
    exact hflagsOf.symm
  have hpaths := fun virt => onPath_iff virt v
  have hf4 := hfirst [] _ e4 39 (by simp) (fun virt => (hpaths virt).1) h4
  have hf3 := hfirst _ _ e3 30 (by simp) (fun virt => (hpaths virt).2.1) h3
  have hf2 := hfirst _ _ e2 21 (by simp) (fun virt => (hpaths virt).2.2) h2
  obtain ⟨f4, hcall4, hflags4⟩ := Option.map_eq_some_iff.mp hf4
  obtain ⟨f3, hcall3, hflags3⟩ := Option.map_eq_some_iff.mp hf3
  obtain ⟨f2, hcall2, hflags2⟩ := Option.map_eq_some_iff.mp hf2
  rw [hrights, Option.map_some, Option.some.injEq, ← hown, rights_eq_iff]
  simp only [List.forall_mem_cons, List.not_mem_nil, false_implies, implies_true, and_true, hcall4,
    hcall3, hcall2, Option.some.injEq, forall_eq', hflags4, hflags3, hflags2]

/-- Two writable pages of one region. -/
def writablePages : List MapCall :=
  [⟨0x200000, 0xFFFFFFFF80000000, flagPresent ||| flagReadWrite⟩,
    ⟨0x201000, 0xFFFFFFFF80001000, flagPresent ||| flagReadWrite⟩]

theorem writablePages_as_asked : RightsAsAsked emptyPml4 writablePages := by
  have hflags : ∀ c ∈ writablePages, IsMapFlags c.flags := by decide
  have hfresh : FreshFrames emptyPml4.pml4Table (mapAll emptyPml4 writablePages).allocs := by
    decide +kernel
  refine (rights_as_asked_iff (by decide) emptyPml4_zero rfl hflags hfresh).mpr ?_
  have hsame : ∀ c ∈ writablePages, ∀ f ∈ writablePages,
      c.flags &&& accessBits &&& ~~~f.flags = 0 := by decide
  intro v c hlast shift _ f hfirst
  refine hsame c ?_ f (List.mem_of_find?_eq_some hfirst)
  exact List.mem_reverse.mp (List.mem_of_find?_eq_some hlast)

/-- A read-only page and behind it a writable one. -/
def mixedPages : List MapCall :=
  [⟨0x200000, 0xFFFFFFFF80000000, flagPresent⟩,
    ⟨0x201000, 0xFFFFFFFF80001000, flagPresent ||| flagReadWrite⟩]

/-- The region was opened read-only, so the second page cannot be written. -/
theorem mixedPages_not_as_asked :
    (∀ c ∈ mixedPages, IsMapFlags c.flags) ∧
      FreshFrames emptyPml4.pml4Table (mapAll emptyPml4 mixedPages).allocs ∧
      ¬ RightsAsAsked emptyPml4 mixedPages := by
  refine ⟨by decide, by decide +kernel, fun hasked => ?_⟩
  have hpage := hasked 0xFFFFFFFF80001000
    ⟨0x201000, 0xFFFFFFFF80001000, flagPresent ||| flagReadWrite⟩ (by decide)
  have hrights : (rights (mapAll emptyPml4 mixedPages).mem emptyPml4.pml4Table.toNat
      0xFFFFFFFF80001000).map (fun r => r &&& accessBits) = some 0 := by decide +kernel
  rw [hrights] at hpage
  exact absurd hpage (by decide)

end VirtualMemory
end Loader
end ZineOS
