import ZineOS.Loader.PageMap

/-!
# Page tables built with any flags

`Map` ors the flags of a call into every entry it writes and never looks at them again, while the
processor reads three things from them: PRESENT, bit 7 in an upper entry, and bits 12-51 as part of
the base address.  So the two may see different tables.

* `Reached` — the machines that calls of `Map` with any flags reach, as long as the flags leave the
  base address of each new table as it is (`FrameKept`).  `Map` always finds a tree there.
* `walk_eq_some_iff` — the processor finds the leaf that `Map` wrote, if the leaf is present and each
  of the three entries above it can be entered (`Enters`).
* `translate_of_call`, `translate_of_no_call` — what calls with the same flags do to a page: a page
  that is mapped is found if its upper entries can be entered, those that are new with the flags of
  the call (`CanEnter`), and no other page changes.
-/

namespace ZineOS
namespace Loader
namespace VirtualMemory

open Lib
open Lib.RadixTree (follow lookup)

/-! ## Base addresses under flags -/

/-- Flags that leave the base address of `a` as it is. -/
def FrameKept (a flags : Word64) : Prop := entryFrame (a ||| flags) = entryFrame a

instance (a flags : Word64) : Decidable (FrameKept a flags) := inferInstanceAs (Decidable (_ = _))

/-- The flags leave the base address of every frame as it is that was handed out from `s` to `s'`. -/
def FramesKept (flags : Word64) (s s' : Machine) : Prop :=
  ∀ a ∈ s'.allocs.drop s.allocs.length, FrameKept (a.1.setWidth 64) flags

instance (flags : Word64) (s s' : Machine) : Decidable (FramesKept flags s s') :=
  inferInstanceAs (Decidable (∀ a ∈ _, _))

/-- Bits 12-51 of the flags decide alone. -/
theorem frameKept_congr {a b flags : Word64} (h : entryFrame a = entryFrame b) :
    FrameKept a flags ↔ FrameKept b flags := by
  have hor : entryFrame (a ||| flags) = entryFrame (b ||| flags) := by
    have hbits : a.extractLsb' 12 40 = b.extractLsb' 12 40 := BitVec.eq_of_toNat_eq h
    unfold entryFrame
    rw [BitVec.extractLsb'_or, BitVec.extractLsb'_or, hbits]
  unfold FrameKept
  rw [hor, h]

/-- Flags without bits 12-51 leave every address as it is. -/
theorem framesKept_of_and_mask {flags : Word64} (h : flags &&& addressMask = 0) (s s' : Machine) :
    FramesKept flags s s' := by
  intro a _
  have hnone : flags.extractLsb' 12 40 = 0 := by
    have hbits := congrArg (fun x => BitVec.extractLsb' 12 40 x) h
    simp only [BitVec.extractLsb'_and] at hbits
    rw [show addressMask.extractLsb' 12 40 = BitVec.allOnes 40 by decide, BitVec.and_allOnes]
      at hbits
    exact hbits
  unfold FrameKept entryFrame
  rw [BitVec.extractLsb'_or, hnone]
  exact congrArg BitVec.toNat BitVec.or_zero

/-- A run that hands out no frame moves none. -/
theorem framesKept_of_allocs_eq {flags : Word64} {s s' : Machine} (h : s'.allocs = s.allocs) :
    FramesKept flags s s' := by
  intro a ha
  rw [h, List.drop_length] at ha
  exact absurd ha (List.not_mem_nil)

/-- The leaf that a call writes names the frame that its flags make of the physical address. -/
theorem entryFrame_entry (c : MapCall) : entryFrame c.entry = entryFrame (c.phys ||| c.flags) := by
  have hmask : addressMask = BitVec.ofNat 64 (2 ^ 52 - 1) &&& ~~~BitVec.ofNat 64 (2 ^ 12 - 1) := by
    decide
  have hbits : (alignFloor c.phys 0x1000 &&& addressMask).extractLsb' 12 40 =
      c.phys.extractLsb' 12 40 := by
    apply BitVec.eq_of_toNat_eq
    rw [toNat_extractLsb', toNat_extractLsb', hmask, ← BitVec.and_assoc,
      Words.toNat_and_not_lowMask, Words.toNat_and_lowMask _ (by omega), toNat_alignFloor]
    unfold pageDown
    omega
  unfold entryFrame MapCall.entry
  rw [BitVec.extractLsb'_or, BitVec.extractLsb'_or, hbits]

theorem framesNamed_of_kept {flags : Word64} {s s' : Machine}
    (hsep : Separate s.pml4Table s'.allocs) (hkept : FramesKept flags s s') :
    FramesNamed mapFormat flags s s' := by
  intro a ha u hu
  have hlt := a.1.isLt
  have hvalue := toNat_frameAddress (show u < 2 ^ 20 by omega)
  have hne : a.1.setWidth 64 ||| flags ≠ 0 := by
    intro hzero
    refine hsep.1 a (List.mem_of_mem_drop ha) ?_
    have hnull := (BitVec.or_eq_zero_iff.mp hzero).1
    apply BitVec.eq_of_toNat_eq
    have hnat := congrArg BitVec.toNat hnull
    rw [BitVec.toNat_setWidth, Nat.mod_eq_of_lt (by omega)] at hnat
    exact hnat
  show (if a.1.setWidth 64 ||| flags = 0 then none else some _) = some u
  rw [if_neg hne, hkept a ha, setWidth_frameAddress hu, toNat_entryFrame, hvalue]
  congr 1
  omega

/-! ## The machines that calls of `Map` reach -/

/-- The machines whose page tables come from a zeroed PML4 by calls of `Map` with any flags that keep
the frames of the tables they add, whatever else has run in between without touching the PML4 or a
block that was handed out. -/
inductive Reached : Machine → Prop
  | start {s : Machine} (hpml4 : s.pml4Table.toNat % 0x1000 = 0)
      (hzero : ∀ i, entryAt s.mem (s.pml4Table.toNat / 0x1000) i = 0) : Reached s
  | map {s : Machine} (c : MapCall) (h : Reached s)
      (hsep : Separate s.pml4Table (map s c.phys c.virt c.flags).allocs)
      (hkept : FramesKept c.flags s (map s c.phys c.virt c.flags)) :
      Reached (map s c.phys c.virt c.flags)
  | other {s s' : Machine} (h : Reached s) (hpml4 : s'.pml4Table = s.pml4Table)
      (hlog : s.allocs ⊆ s'.allocs)
      (hmem : ∀ a ∈ (s.pml4Table, 4096) :: s.allocs, ∀ x, (Frame.block a.1 a.2).1 ≤ x →
        x < (Frame.block a.1 a.2).2 → s'.mem x = s.mem x) : Reached s'

/-- `Map` finds a tree. -/
theorem Reached.tablesIn {s : Machine} (h : Reached s) : ∃ tables, TablesIn mapFormat s tables := by
  induction h with
  | start hpml4 hzero => exact ⟨_, tablesIn_init hpml4 hzero⟩
  | map c _ hsep hkept ih =>
      obtain ⟨tables, htables⟩ := ih
      obtain ⟨tables', hmapped⟩ := mapIn_spec htables c hsep (framesNamed_of_kept hsep hkept)
      exact ⟨tables', hmapped.inv⟩
  | other _ hpml4 hlog hmem ih =>
      obtain ⟨tables, htables⟩ := ih
      exact ⟨tables, htables.of_agree hpml4 hlog fun x hx => htables.agree_of_blocks hmem hx⟩

/-! ## The processor's way through the tree -/

/-- The processor goes through an upper entry with these flags: present, and bit 7 clear. -/
def Enterable (flags : Word64) : Prop := flags.getLsbD 0 = true ∧ flags.getLsbD 7 = false

instance (flags : Word64) : Decidable (Enterable flags) := inferInstanceAs (Decidable (_ ∧ _))

/-- The three upper entries on the way to `v`, each as the path to its table and its index there. -/
def upperSlots (v : Word64) : List (List (BitVec 9) × BitVec 9) :=
  [([], v.extractLsb' 39 9), ([v.extractLsb' 39 9], v.extractLsb' 30 9),
    ([v.extractLsb' 39 9, v.extractLsb' 30 9], v.extractLsb' 21 9)]

/-- The upper entries on the way to `v` are all there, and the processor goes through them. -/
def Enters (s : Machine) (v : Word64) : Prop :=
  ∀ slot ∈ upperSlots v, ∃ f, Machine.linkFlags mapFormat s slot.1 slot.2 = some f ∧ Enterable f

/-- The processor will go through the upper entries on the way to `v`, if those that are missing are
linked with `flags`. -/
def CanEnter (s : Machine) (flags v : Word64) : Prop :=
  ∀ slot ∈ upperSlots v,
    Enterable ((Machine.linkFlags mapFormat s slot.1 slot.2).getD (entryFlags flags))

instance (s : Machine) (flags v : Word64) : Decidable (CanEnter s flags v) :=
  inferInstanceAs (Decidable (∀ slot ∈ _, _))

theorem length_of_upperSlots {v : Word64} {slot : List (BitVec 9) × BitVec 9}
    (h : slot ∈ upperSlots v) : slot.1.length < 3 := by
  simp only [upperSlots, List.mem_cons, List.not_mem_nil, or_false] at h
  rcases h with rfl | rfl | rfl <;> simp

/-- A call for the page of `v` comes through the upper entries of `v`. -/
theorem onPath_of_upperSlots {virt v : Word64} (hsame : SamePage virt v)
    {slot : List (BitVec 9) × BitVec 9} (h : slot ∈ upperSlots v) : OnPath virt slot.1 slot.2 := by
  have hpath := (samePage_iff.mp hsame).1
  have heq := hpath
  simp only [upperPath, List.cons.injEq, and_true] at heq
  simp only [upperSlots, List.mem_cons, List.not_mem_nil, or_false] at h
  unfold OnPath
  rcases h with rfl | rfl | rfl
  · left
    rw [heq.1]
    rfl
  · right
    left
    rw [heq.1, heq.2.1]
    rfl
  · right
    right
    exact hpath.symm

theorem canEnter_congr {s : Machine} {flags v w : Word64} (h : SamePage v w) :
    CanEnter s flags v ↔ CanEnter s flags w := by
  have hpath := (samePage_iff.mp h).1
  simp only [upperPath, List.cons.injEq, and_true] at hpath
  unfold CanEnter upperSlots
  rw [hpath.1, hpath.2.1, hpath.2.2]

theorem nextTable_eq_some_iff {e : Word64} {u : Nat} :
    nextTable e = some u ↔ mapFormat.next e = some u ∧ Enterable (entryFlags e) := by
  have hzero : (entryFlags e).getLsbD 0 = e.getLsbD 0 := by
    rw [entryFlags, BitVec.getLsbD_and, show (~~~addressMask).getLsbD 0 = true by decide,
      Bool.and_true]
  have hseven : (entryFlags e).getLsbD 7 = e.getLsbD 7 := by
    rw [entryFlags, BitVec.getLsbD_and, show (~~~addressMask).getLsbD 7 = true by decide,
      Bool.and_true]
  unfold Enterable
  rw [hzero, hseven]
  show _ ↔ (if e = 0 then none else some (entryFrame e)) = some u ∧ _
  unfold nextTable
  by_cases he : e = 0
  · rw [he]
    simp
  · rw [if_neg he]
    cases e.getLsbD 0 <;> cases e.getLsbD 7 <;> simp

/-- The link at the end of a path. -/
theorem linkFlags_of_follow {s : Machine} {p : List (BitVec 9)} {t u : Nat}
    (hp : Machine.followIn mapFormat s p = some t) {i : BitVec 9}
    (hnext : mapFormat.next (entryAt s.mem t i) = some u) :
    Machine.linkFlags mapFormat s p i = some (entryFlags (entryAt s.mem t i)) := by
  have hsome : (mapFormat.next (entryAt s.mem t i)).isSome := by
    rw [hnext]
    rfl
  have hlink := RadixTree.linkAt_eq_some_iff.mpr ⟨t, hp, hsome, rfl⟩
  unfold Machine.linkFlags
  rw [hlink]
  rfl

/-- The tables on the way down the upper levels. -/
theorem followIn_upperPath {s : Machine} {v : Word64} {t1 : Nat} :
    Machine.followIn mapFormat s (upperPath v) = some t1 ↔
      ∃ t3 t2,
        mapFormat.next (entryAt s.mem (s.pml4Table.toNat / 0x1000) (v.extractLsb' 39 9)) = some t3 ∧
          mapFormat.next (entryAt s.mem t3 (v.extractLsb' 30 9)) = some t2 ∧
            mapFormat.next (entryAt s.mem t2 (v.extractLsb' 21 9)) = some t1 := by
  simp only [Machine.followIn, upperPath, follow, Option.bind_eq_some_iff, Option.some.injEq]
  constructor
  · rintro ⟨t3, h3, t2, h2, t1', h1, rfl⟩
    exact ⟨t3, t2, h3, h2, h1⟩
  · rintro ⟨t3, t2, h3, h2, h1⟩
    exact ⟨t3, h3, t2, h2, t1, h1, rfl⟩

theorem followIn_upper {s : Machine} {v : Word64} {t3 t2 : Nat}
    (h3 : mapFormat.next (entryAt s.mem (s.pml4Table.toNat / 0x1000) (v.extractLsb' 39 9)) = some t3)
    (h2 : mapFormat.next (entryAt s.mem t3 (v.extractLsb' 30 9)) = some t2) :
    Machine.followIn mapFormat s [v.extractLsb' 39 9] = some t3 ∧
      Machine.followIn mapFormat s [v.extractLsb' 39 9, v.extractLsb' 30 9] = some t2 := by
  simp only [Machine.followIn, follow, h3, h2, Option.bind_some, and_self]

/-- The upper entries on the way to `v`, where the tables are there. -/
theorem enters_iff {s : Machine} {v : Word64} {t3 t2 t1 : Nat}
    (h3 : mapFormat.next (entryAt s.mem (s.pml4Table.toNat / 0x1000) (v.extractLsb' 39 9)) = some t3)
    (h2 : mapFormat.next (entryAt s.mem t3 (v.extractLsb' 30 9)) = some t2)
    (h1 : mapFormat.next (entryAt s.mem t2 (v.extractLsb' 21 9)) = some t1) :
    Enters s v ↔
      Enterable (entryFlags (entryAt s.mem (s.pml4Table.toNat / 0x1000) (v.extractLsb' 39 9))) ∧
        Enterable (entryFlags (entryAt s.mem t3 (v.extractLsb' 30 9))) ∧
          Enterable (entryFlags (entryAt s.mem t2 (v.extractLsb' 21 9))) := by
  obtain ⟨hp3, hp2⟩ := followIn_upper h3 h2
  have hlink4 := linkFlags_of_follow (s := s) (p := []) rfl h3
  have hlink3 := linkFlags_of_follow hp3 h2
  have hlink2 := linkFlags_of_follow hp2 h1
  unfold Enters upperSlots
  simp only [List.forall_mem_cons, List.not_mem_nil, false_implies, implies_true, and_true, hlink4,
    hlink3, hlink2, Option.some.injEq, exists_eq_left']

theorem mapFormat_leaf {e f : Word64} : mapFormat.leaf f = some e ↔ f = e ∧ e ≠ 0 := by
  show (if f = 0 then none else some f) = some e ↔ f = e ∧ e ≠ 0
  by_cases hf : f = 0
  · rw [if_pos hf]
    refine ⟨fun h => absurd h (by simp), fun h => absurd (h.1.symm.trans hf) h.2⟩
  · rw [if_neg hf, Option.some.injEq]
    exact ⟨fun heq => ⟨heq, heq ▸ hf⟩, fun h => h.1⟩

/-- The leaf that `Map` finds. -/
theorem lookupIn_eq_some_iff {s : Machine} {v e : Word64} :
    Machine.lookupIn mapFormat s (upperPath v) (v.extractLsb' 12 9) = some e ↔
      ∃ t1, Machine.followIn mapFormat s (upperPath v) = some t1 ∧
        entryAt s.mem t1 (v.extractLsb' 12 9) = e ∧ e ≠ 0 := by
  unfold Machine.lookupIn lookup
  rw [Option.bind_eq_some_iff]
  exact exists_congr fun t1 => and_congr_right fun _ => mapFormat_leaf

/-- **What the processor makes of `Map`'s tree.** -/
theorem walk_eq_some_iff {s : Machine} {v e : Word64} :
    walk s.mem s.pml4Table.toNat v = some e ↔
      Machine.lookupIn mapFormat s (upperPath v) (v.extractLsb' 12 9) = some e ∧
        e.getLsbD 0 = true ∧ Enters s v := by
  unfold walk
  simp only [Option.bind_eq_bind, Option.bind_eq_some_iff, nextTable_eq_some_iff]
  constructor
  · rintro ⟨t3, ⟨h3, he3⟩, t2, ⟨h2, he2⟩, t1, ⟨h1, he1⟩, hleaf⟩
    obtain ⟨hpresent, heq⟩ := Option.ite_none_right_eq_some.mp hleaf
    obtain rfl := Option.some.inj heq
    refine ⟨lookupIn_eq_some_iff.mpr ⟨t1, followIn_upperPath.mpr ⟨t3, t2, h3, h2, h1⟩, rfl, ?_⟩,
      hpresent, (enters_iff h3 h2 h1).mpr ⟨he3, he2, he1⟩⟩
    intro hzero
    rw [hzero] at hpresent
    exact absurd hpresent (by decide)
  · rintro ⟨hlookup, hpresent, henters⟩
    obtain ⟨t1, hpath, rfl, -⟩ := lookupIn_eq_some_iff.mp hlookup
    obtain ⟨t3, t2, h3, h2, h1⟩ := followIn_upperPath.mp hpath
    obtain ⟨he3, he2, he1⟩ := (enters_iff h3 h2 h1).mp henters
    exact ⟨t3, ⟨h3, he3⟩, t2, ⟨h2, he2⟩, t1, ⟨h1, he1⟩, if_pos hpresent⟩

/-! ## What calls with the same flags do -/

section

variable {s s' : Machine} {tables tables' : List Nat} {calls : List MapCall} {flags v : Word64}

/-- Where `Map` finds the table of the last level, it finds the upper entries. -/
theorem isSome_of_upperSlots {t1 : Nat}
    (hpath : Machine.followIn mapFormat s (upperPath v) = some t1) {slot : List (BitVec 9) × BitVec 9}
    (hslot : slot ∈ upperSlots v) : (Machine.linkFlags mapFormat s slot.1 slot.2).isSome := by
  obtain ⟨t3, t2, h3, h2, h1⟩ := followIn_upperPath.mp hpath
  simp only [upperSlots, List.mem_cons, List.not_mem_nil, or_false] at hslot
  rcases hslot with rfl | rfl | rfl
  · simp only [linkFlags_of_follow (s := s) (p := []) rfl h3, Option.isSome_some]
  · simp only [linkFlags_of_follow (followIn_upper h3 h2).1 h2, Option.isSome_some]
  · simp only [linkFlags_of_follow (followIn_upper h3 h2).2 h1, Option.isSome_some]

/-- A page that was not asked for is walked as before: what it has of tables keeps its flags. -/
theorem MappedIn.translate_of_no_call (h : MappedIn mapFormat s s' tables tables' calls)
    (hnone : lastCall calls v = none) :
    translate s'.mem s.pml4Table.toNat v = translate s.mem s.pml4Table.toNat v := by
  have hlookup : Machine.lookupIn mapFormat s' (upperPath v) (v.extractLsb' 12 9) =
      Machine.lookupIn mapFormat s (upperPath v) (v.extractLsb' 12 9) := by
    rw [h.leaf v, hnone, Option.elim_none]
  have hwalk : walk s'.mem s'.pml4Table.toNat v = walk s.mem s.pml4Table.toNat v := by
    ext e
    rw [walk_eq_some_iff, walk_eq_some_iff, hlookup]
    refine and_congr_right fun hleaf => and_congr_right fun _ => ?_
    -- the page has its tables already
    obtain ⟨t1, hpath, -, -⟩ := lookupIn_eq_some_iff.mp hleaf
    unfold Enters
    refine forall₂_congr fun slot hslot => ?_
    rw [h.links slot.1 slot.2 (length_of_upperSlots hslot),
      Option.or_of_isSome (isSome_of_upperSlots hpath hslot)]
  unfold translate
  rw [← h.pml4, hwalk, h.pml4]

/-- A page that was asked for has the leaf of the last call for it, and the processor finds it if it
can enter the tables. -/
theorem MappedIn.translate_of_call (h : MappedIn mapFormat s s' tables tables' calls)
    (hflags : ∀ c ∈ calls, c.flags = flags) (hpresent : flags.getLsbD 0 = true) {c : MapCall}
    (hlast : lastCall calls v = some c) (a : Nat) :
    (translate s'.mem s.pml4Table.toNat v).map Prod.fst = some a ↔
      CanEnter s flags v ∧ entryFrame (c.phys ||| flags) * 0x1000 + v.toNat % 0x1000 = a := by
  have hmem := lastCall_mem hlast
  have hsame := lastCall_samePage hlast
  have hc := hflags c hmem
  have hbit : c.entry.getLsbD 0 = true := by
    unfold MapCall.entry
    rw [BitVec.getLsbD_or, hc, hpresent, Bool.or_true]
  have hne : c.entry ≠ 0 := by
    intro hzero
    rw [hzero] at hbit
    exact absurd hbit (by decide)
  have hlookup : Machine.lookupIn mapFormat s' (upperPath v) (v.extractLsb' 12 9) = some c.entry := by
    rw [h.leaf v, hlast, Option.elim_some]
    exact mapFormat_leaf.mpr ⟨rfl, hne⟩
  -- every call for the page links the upper entries that are missing
  have hlinks : ∀ slot ∈ upperSlots v, Machine.linkFlags mapFormat s' slot.1 slot.2 =
      some ((Machine.linkFlags mapFormat s slot.1 slot.2).getD (entryFlags flags)) := by
    intro slot hslot
    have hfirst : firstFlags calls slot.1 slot.2 = some (entryFlags flags) :=
      firstFlags_of_mem hflags hmem (onPath_of_upperSlots hsame hslot)
    rw [h.links slot.1 slot.2 (length_of_upperSlots hslot), hfirst, Option.or_some]
  have henters : Enters s' v ↔ CanEnter s flags v := by
    refine forall₂_congr fun slot hslot => ?_
    rw [hlinks slot hslot]
    simp only [Option.some.injEq, exists_eq_left']
  rw [← henters, ← hc, ← entryFrame_entry]
  unfold translate
  rw [Option.map_map, Option.map_eq_some_iff, ← h.pml4]
  constructor
  · rintro ⟨e, hwalk, rfl⟩
    obtain ⟨hleaf, -, henter⟩ := walk_eq_some_iff.mp hwalk
    rw [hlookup] at hleaf
    obtain rfl := Option.some.inj hleaf
    exact ⟨henter, rfl⟩
  · rintro ⟨henter, rfl⟩
    exact ⟨c.entry, walk_eq_some_iff.mpr ⟨hlookup, hbit, henter⟩, rfl⟩

end

end VirtualMemory
end Loader
end ZineOS
