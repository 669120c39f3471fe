import ZineOS.Loader.PageTables

/-!
# The page map that `Map` builds

A sequence of `Map` calls asks for a page map: every page goes where the last call for it said.
`MappedIn F s s' tables tables' calls` says what the calls do to the tree, in either reading of the
entries: the leaf of a page is that of the last call for it, and a table that was missing is linked
with the flags of the first call that came through.  `mapIn_spec` proves it for one call,
`MappedIn.trans` composes, `mapAllIn_spec` is the run.

`Mapped` is what the processor sees of it: the page tables of `s'` are those of `s` with the page map
on top, and nothing but page tables has been written (`mapAll_spec`).

`maps_refine_pageMap` is the result for the loader's page tables, from an empty PML4.
-/

namespace ZineOS
namespace Loader
namespace VirtualMemory

open Lib
open Lib.RadixTree (follow lookup setEntry)

/-! ## The map that a sequence of calls asks for -/

/-- Two addresses on one page, by bits 47-12. -/
def SamePage (v w : Word64) : Prop := v.extractLsb' 12 36 = w.extractLsb' 12 36

instance (v w : Word64) : Decidable (SamePage v w) := inferInstanceAs (Decidable (_ = _))

/-- The last call for the page of `v`. -/
def lastCall (calls : List MapCall) (v : Word64) : Option MapCall :=
  calls.reverse.find? fun c => SamePage c.virt v

/-- Where a call sends an address of its page, and with which flags. -/
def MapCall.image (c : MapCall) (v : Word64) : Nat × Word64 :=
  (c.phys.toNat / 0x1000 * 0x1000 + v.toNat % 0x1000, c.flags)

/-- The calls the page map is specified for. -/
def MapCall.Ok (c : MapCall) : Prop := c.phys.toNat < 2 ^ 52 ∧ IsMapFlags c.flags

instance (c : MapCall) : Decidable c.Ok := inferInstanceAs (Decidable (_ ∧ _))

theorem samePage_iff {v w : Word64} :
    SamePage v w ↔ upperPath v = upperPath w ∧ v.extractLsb' 12 9 = w.extractLsb' 12 9 := by
  have hnat : ∀ (start len : Nat), v.extractLsb' start len = w.extractLsb' start len ↔
      v.toNat / 2 ^ start % 2 ^ len = w.toNat / 2 ^ start % 2 ^ len := by
    intro start len
    rw [← toNat_extractLsb', ← toNat_extractLsb', BitVec.toNat_inj]
  unfold SamePage upperPath
  simp only [List.cons.injEq, and_true, hnat]
  omega

theorem lastCall_mem {calls : List MapCall} {v : Word64} {c : MapCall}
    (h : lastCall calls v = some c) : c ∈ calls :=
  List.mem_reverse.mp (List.mem_of_find?_eq_some h)

theorem lastCall_samePage {calls : List MapCall} {v : Word64} {c : MapCall}
    (h : lastCall calls v = some c) : SamePage c.virt v := by
  simpa using List.find?_some h

theorem lastCall_append (calls more : List MapCall) (v : Word64) :
    lastCall (calls ++ more) v = (lastCall more v).or (lastCall calls v) := by
  unfold lastCall
  rw [List.reverse_append, List.find?_append]

/-- The leaf that a call writes. -/
def MapCall.entry (c : MapCall) : Word64 := (alignFloor c.phys 0x1000 &&& addressMask) ||| c.flags

/-- The links of the upper levels that a walk of `virt` goes through. -/
def OnPath (virt : Word64) (q : List (BitVec 9)) (j : BitVec 9) : Prop :=
  q ++ [j] = [virt.extractLsb' 39 9] ∨
    q ++ [j] = [virt.extractLsb' 39 9, virt.extractLsb' 30 9] ∨ q ++ [j] = upperPath virt

instance (virt : Word64) (q : List (BitVec 9)) (j : BitVec 9) : Decidable (OnPath virt q j) :=
  inferInstanceAs (Decidable (_ ∨ _))

/-- The flags of the first call that comes through a link. -/
def firstFlags (calls : List MapCall) (q : List (BitVec 9)) (j : BitVec 9) : Option Word64 :=
  (calls.find? fun c => OnPath c.virt q j).map fun c => entryFlags c.flags

theorem firstFlags_append (calls more : List MapCall) (q : List (BitVec 9)) (j : BitVec 9) :
    firstFlags (calls ++ more) q j = (firstFlags calls q j).or (firstFlags more q j) := by
  unfold firstFlags
  rw [List.find?_append, Option.map_or]

theorem firstFlags_of_mem {calls : List MapCall} {flags : Word64}
    (hflags : ∀ c ∈ calls, c.flags = flags) {c : MapCall} (hc : c ∈ calls) {q : List (BitVec 9)}
    {j : BitVec 9} (hpath : OnPath c.virt q j) : firstFlags calls q j = some (entryFlags flags) := by
  unfold firstFlags
  cases hfind : calls.find? fun c => OnPath c.virt q j with
  | none => exact absurd hpath (by simpa using List.find?_eq_none.mp hfind c hc)
  | some d => rw [Option.map_some, hflags d (List.mem_of_find?_eq_some hfind)]

/-! ## What the calls do to the tree -/

section

variable {F : EntryFormat Nat Word64 Word64}

/-- What a sequence of `Map` calls does: it may add tables, all of them allocated on the way, and
it writes the leaves it was asked to write. -/
structure MappedIn (F : EntryFormat Nat Word64 Word64) (s s' : Machine) (tables tables' : List Nat)
    (calls : List MapCall) : Prop where
  inv : TablesIn F s' tables'
  pml4 : s'.pml4Table = s.pml4Table
  kept : tables ⊆ tables'
  log : TablesLogged s s' tables tables'
  leaf : ∀ v : Word64, Machine.lookupIn F s' (upperPath v) (v.extractLsb' 12 9) =
    (lastCall calls v).elim (Machine.lookupIn F s (upperPath v) (v.extractLsb' 12 9)) fun c =>
      F.leaf c.entry
  links : ∀ (q : List (BitVec 9)) (j : BitVec 9), q.length < 3 →
    Machine.linkFlags F s' q j = (Machine.linkFlags F s q j).or (firstFlags calls q j)
  frame : ∀ x, x / 0x1000 ∉ tables' → s'.mem x = s.mem x

theorem MappedIn.refl {s : Machine} {tables : List Nat} (h : TablesIn F s tables) :
    MappedIn F s s tables tables [] where
  inv := h
  pml4 := rfl
  kept := List.Subset.refl _
  log := TablesLogged.refl s tables
  leaf := fun _ => rfl
  links := fun _ _ _ => Option.or_none.symm
  frame := fun _ _ => rfl

theorem MappedIn.trans {s s' s'' : Machine} {tables tables' tables'' : List Nat}
    {calls calls' : List MapCall} (h : MappedIn F s s' tables tables' calls)
    (h' : MappedIn F s' s'' tables' tables'' calls') :
    MappedIn F s s'' tables tables'' (calls ++ calls') where
  inv := h'.inv
  pml4 := h'.pml4.trans h.pml4
  kept := List.Subset.trans h.kept h'.kept
  log := h.log.trans h'.log h'.kept
  leaf := by
    intro v
    rw [h'.leaf v, h.leaf v, lastCall_append]
    cases lastCall calls' v <;> rfl
  links := by
    intro q j hq
    rw [h'.links q j hq, h.links q j hq, firstFlags_append, Option.or_assoc]
  frame := fun x hx => (h'.frame x hx).trans (h.frame x fun hin => hx (h'.kept hin))

/-- `Map` on its way down: the tables of the path are there, those that were missing are linked with
the call's flags, and what remains is the store into the leaf. -/
theorem map_descends [NamesFrames F] {s : Machine} {tables : List Nat} (h : TablesIn F s tables)
    (phys virt flags : Word64) (hsep : Separate s.pml4Table (map s phys virt flags).allocs)
    (hnamed : FramesNamed F flags s (map s phys virt flags)) :
    ∃ s1 p1 tables1 t1, Grows F s s1 tables tables1 ∧
      Machine.followIn F s1 (upperPath virt) = some t1 ∧ p1.toNat = t1 * 0x1000 ∧
      map s phys virt flags = { s1 with
        mem := store64 s1.mem (slot p1 (tableIndex (alignFloor virt 0x1000) 12))
          ((alignFloor phys 0x1000 &&& addressMask) ||| flags) } ∧
      ∀ (q : List (BitVec 9)) (j : BitVec 9), q.length < 3 → Machine.linkFlags F s1 q j =
        (Machine.linkFlags F s q j).or
          (if OnPath virt q j then some (entryFlags flags) else none) := by
  have hroot : s.pml4Table.toNat = s.pml4Table.toNat / 0x1000 * 0x1000 := by
    have hmod := h.aligned
    omega
  have hidx := fun shift (hs : 12 ≤ shift) => toNat_tableIndex virt hs
  cases h3 : descend s s.pml4Table (tableIndex (alignFloor virt 0x1000) 39) flags with
  | mk p3 s3 =>
  cases h2 : descend s3 p3 (tableIndex (alignFloor virt 0x1000) 30) flags with
  | mk p2 s2 =>
  cases h1 : descend s2 p2 (tableIndex (alignFloor virt 0x1000) 21) flags with
  | mk p1 s1 =>
  rw [map_eq h3 h2 h1] at hsep hnamed ⊢
  have hlog3 := (logged_descend h3).isPrefix
  have hlog2 := (logged_descend h2).isPrefix
  have hlog1 := (logged_descend h1).isPrefix
  have hsep1 : Separate s.pml4Table s1.allocs := hsep
  have hsep2 := hsep1.of_prefix hlog1
  have hsep3 := hsep2.of_prefix hlog2
  have hnamed1 : FramesNamed F flags s s1 := hnamed
  -- from the PML4 down to the table of the last level
  have hnew3 := h.freshAlloc hsep3 (hnamed1.mono (List.prefix_refl _) hlog3 (hlog2.trans hlog1))
  obtain ⟨tables3, t3, hg3, hp3, hptr3⟩ := descend_grows h h3 (p := []) (by simp) rfl hroot
    (hidx 39 (by omega)) hnew3
  have hnew2 := hg3.inv.freshAlloc (hg3.pml4 ▸ hsep2) (hnamed1.mono hlog3 hlog2 hlog1)
  obtain ⟨tables2, t2, hg2, hp2, hptr2⟩ := descend_grows hg3.inv h2 (by simp) hp3 hptr3
    (hidx 30 (by omega)) hnew2
  have hnew1 := hg2.inv.freshAlloc (hg2.pml4 ▸ hg3.pml4 ▸ hsep1)
    (hnamed1.mono (hlog3.trans hlog2) hlog1 (List.prefix_refl _))
  obtain ⟨tables1, t1, hg1, hp1, hptr1⟩ := descend_grows hg2.inv h1 (by simp) hp2 hptr2
    (hidx 21 (by omega)) hnew1
  refine ⟨s1, p1, tables1, t1, (hg3.trans hg2).trans hg1, hp1, hptr1, rfl, fun q j hq => ?_⟩
  rw [linkFlags_descend hg2.inv h1 (by simp) hp2 hptr2 (hidx 21 (by omega)) hnew1 hq,
    linkFlags_descend hg3.inv h2 (by simp) hp3 hptr3 (hidx 30 (by omega)) hnew2 hq,
    linkFlags_descend h h3 (p := []) (by simp) rfl hroot (hidx 39 (by omega)) hnew3 hq,
    Option.or_assoc, Option.or_assoc]
  congr 1
  unfold OnPath upperPath
  simp only [List.nil_append, List.cons_append]
  by_cases hA : q ++ [j] = [virt.extractLsb' 39 9]
  · simp [hA]
  by_cases hB : q ++ [j] = [virt.extractLsb' 39 9, virt.extractLsb' 30 9]
  · simp [hB]
  · simp only [hA, hB, if_false, false_or, Option.none_or]

/-- **One call of `Map`.** -/
theorem mapIn_spec [NamesFrames F] {s : Machine} {tables : List Nat} (h : TablesIn F s tables)
    (c : MapCall) (hsep : Separate s.pml4Table (map s c.phys c.virt c.flags).allocs)
    (hnamed : FramesNamed F c.flags s (map s c.phys c.virt c.flags)) :
    ∃ tables', MappedIn F s (map s c.phys c.virt c.flags) tables tables' [c] := by
  obtain ⟨phys, virt, flags⟩ := c
  obtain ⟨s1, p1, tables1, t1, hgrows, hp1, hptr1, heq, hlinks⟩ :=
    map_descends h phys virt flags hsep hnamed
  rw [heq]
  have hindex := toNat_tableIndex virt (show 12 ≤ 12 by omega)
  obtain ⟨hinv, hlookup, hframe⟩ := storeLeaf_spec hgrows.inv (by simp [upperPath]) hp1 hptr1
    hindex ((alignFloor phys 0x1000 &&& addressMask) ||| flags)
  refine ⟨tables1, hinv, hgrows.pml4, hgrows.kept, hgrows.log, ?_, ?_, ?_⟩
  · -- the leaf of the page is the new one, every other leaf is what it was
    intro v
    have hleaf := hlookup (upperPath v) (v.extractLsb' 12 9) (by simp [upperPath])
    rw [hgrows.lookup _ _ (by simp [upperPath])] at hleaf
    have hpage : SamePage virt v ↔
        upperPath v = upperPath virt ∧ v.extractLsb' 12 9 = virt.extractLsb' 12 9 := by
      rw [samePage_iff, eq_comm, eq_comm (b := v.extractLsb' 12 9)]
    refine hleaf.trans ?_
    by_cases hsame : SamePage virt v
    · rw [if_pos (hpage.mp hsame)]
      simp [lastCall, hsame, MapCall.entry]
    · rw [if_neg fun heq => hsame (hpage.mpr heq)]
      simp [lastCall, hsame]
  · intro q j hq
    rw [linkFlags_storeLeaf hgrows.inv (by simp [upperPath]) hp1 hptr1 hindex _ hq j, hlinks q j hq]
    unfold firstFlags
    by_cases hpath : OnPath virt q j
    · simp [hpath]
    · simp [hpath]
  · intro x hx
    rw [hframe x hx, hgrows.frame x hx]

/-! ## Sequences of calls -/

theorem mapAll_append (s : Machine) (calls more : List MapCall) :
    mapAll s (calls ++ more) = mapAll (mapAll s calls) more := List.foldl_append

theorem mapAll_cons (s : Machine) (c : MapCall) (calls : List MapCall) :
    mapAll s (c :: calls) = mapAll (map s c.phys c.virt c.flags) calls := rfl

theorem logged_mapAll (s : Machine) (calls : List MapCall) :
    Logged (3 * calls.length) s (mapAll s calls) := by
  induction calls generalizing s with
  | nil => exact Logged.refl s
  | cons c calls ih =>
      rw [mapAll_cons, List.length_cons, Nat.mul_succ, Nat.add_comm]
      exact (logged_map s c.phys c.virt c.flags).trans (ih _)

/-- **Any sequence of calls of `Map`.** -/
theorem mapAllIn_spec [NamesFrames F] {s : Machine} {tables : List Nat} (h : TablesIn F s tables)
    {calls : List MapCall} (hsep : Separate s.pml4Table (mapAll s calls).allocs)
    (hnamed : ∀ c ∈ calls, FramesNamed F c.flags s (mapAll s calls)) :
    ∃ tables', MappedIn F s (mapAll s calls) tables tables' calls := by
  induction calls generalizing s tables with
  | nil => exact ⟨tables, MappedIn.refl h⟩
  | cons c calls ih =>
      rw [mapAll_cons] at hsep hnamed ⊢
      have hlog := (logged_map s c.phys c.virt c.flags).isPrefix
      have hrest := (logged_mapAll (map s c.phys c.virt c.flags) calls).isPrefix
      obtain ⟨tables', hmapped⟩ := mapIn_spec h c (hsep.of_prefix hrest)
        ((hnamed c (List.mem_cons_self ..)).mono (List.prefix_refl _) hlog hrest)
      rw [← hmapped.pml4] at hsep
      obtain ⟨tables'', hlater⟩ := ih hmapped.inv hsep fun d hd =>
        (hnamed d (List.mem_cons_of_mem _ hd)).mono hlog hrest (List.prefix_refl _)
      exact ⟨tables'', hmapped.trans hlater⟩

end

/-! ## What the processor sees -/

/-- The page tables of `s'` are those of `s` with the page map of the calls on top. -/
structure Mapped (s s' : Machine) (tables tables' : List Nat) (calls : List MapCall) : Prop where
  inv : PageTables s' tables'
  pml4 : s'.pml4Table = s.pml4Table
  kept : tables ⊆ tables'
  log : TablesLogged s s' tables tables'
  translate : ∀ v, translate s'.mem s.pml4Table.toNat v =
    ((lastCall calls v).map fun c => c.image v).or (translate s.mem s.pml4Table.toNat v)
  frame : ∀ x, x / 0x1000 ∉ tables' → s'.mem x = s.mem x

theorem Mapped.trans {s s' s'' : Machine} {tables tables' tables'' : List Nat}
    {calls calls' : List MapCall} (h : Mapped s s' tables tables' calls)
    (h' : Mapped s' s'' tables' tables'' calls') :
    Mapped s s'' tables tables'' (calls ++ calls') where
  inv := h'.inv
  pml4 := h'.pml4.trans h.pml4
  kept := List.Subset.trans h.kept h'.kept
  log := h.log.trans h'.log h'.kept
  translate := by
    intro v
    have hlater := h'.translate v
    rw [h.pml4] at hlater
    rw [hlater, h.translate v, lastCall_append]
    cases lastCall calls' v <;> rfl
  frame := fun x hx => (h'.frame x hx).trans (h.frame x fun hin => hx (h'.kept hin))

/-- The page that the leaf written by a call stands for. -/
theorem image_eq {c : MapCall} (hc : c.Ok) (v : Word64) :
    (entryFrame c.entry * 0x1000 + v.toNat % 0x1000, entryFlags c.entry) = c.image v := by
  have hfloor := toNat_alignFloor c.phys
  have hdown := pageDown_le c.phys.toNat
  have hmod : (alignFloor c.phys 0x1000).toNat % 0x1000 = 0 := by
    rw [hfloor]
    exact pageDown_mod _
  have hlt : (alignFloor c.phys 0x1000).toNat < 2 ^ 52 := by
    rw [hfloor]
    exact lt_of_le_of_lt hdown hc.1
  unfold MapCall.entry
  rw [and_addressMask hmod hlt, entryFrame_or hmod hlt hc.2, entryFlags_or hmod hlt,
    hc.2.entryFlags_eq, hfloor]
  unfold MapCall.image pageDown
  rw [Nat.mul_div_cancel _ (by decide)]

theorem MappedIn.mapped {s s' : Machine} {tables tables' : List Nat} {calls : List MapCall}
    (h : MappedIn pageFormat s s' tables tables' calls) (hcalls : ∀ c ∈ calls, c.Ok) :
    Mapped s s' tables tables' calls where
  inv := h.inv
  pml4 := h.pml4
  kept := h.kept
  log := h.log
  translate := by
    intro v
    have hleaf := h.leaf v
    unfold Machine.lookupIn at hleaf
    rw [h.pml4] at hleaf
    unfold translate
    rw [walk_eq_lookup, walk_eq_lookup, hleaf]
    cases hlast : lastCall calls v with
    | none => rfl
    | some c =>
        have hc := hcalls c (lastCall_mem hlast)
        have hpresent : leafEntry c.entry = some c.entry := leafEntry_or _ hc.2
        show (leafEntry c.entry).map _ = _
        rw [hpresent, Option.map_some, image_eq hc]
        rfl
  frame := h.frame

theorem mapAll_spec {s : Machine} {tables : List Nat} (h : PageTables s tables)
    {calls : List MapCall} (hcalls : ∀ c ∈ calls, c.Ok)
    (hsep : Separate s.pml4Table (mapAll s calls).allocs) :
    ∃ tables', Mapped s (mapAll s calls) tables tables' calls := by
  obtain ⟨tables', hmapped⟩ := mapAllIn_spec h hsep fun c hc =>
    framesNamed_of_mapFlags (hcalls c hc).2 _ _
  exact ⟨tables', hmapped.mapped hcalls⟩

theorem map_spec {s : Machine} {tables : List Nat} (h : PageTables s tables) {c : MapCall}
    (hc : c.Ok) (hsep : Separate s.pml4Table (map s c.phys c.virt c.flags).allocs) :
    ∃ tables', Mapped s (map s c.phys c.virt c.flags) tables tables' [c] :=
  mapAll_spec h (List.forall_mem_singleton.mpr hc) hsep

/-! ## Physical addresses of more than 52 bits -/

/-- `Map` keeps bits 12-51 of the physical address. -/
def MapCall.trim (c : MapCall) : MapCall := { c with phys := c.phys &&& BitVec.ofNat 64 (2 ^ 52 - 1) }

theorem MapCall.toNat_trim_phys (c : MapCall) : c.trim.phys.toNat = c.phys.toNat % 2 ^ 52 :=
  Words.toNat_and_lowMask c.phys (by omega)

theorem MapCall.trim_ok {c : MapCall} (h : IsMapFlags c.flags) : c.trim.Ok := by
  refine ⟨?_, h⟩
  rw [c.toNat_trim_phys]
  exact Nat.mod_lt _ (by decide)

theorem map_trim (s : Machine) (c : MapCall) :
    map s c.trim.phys c.trim.virt c.trim.flags = map s c.phys c.virt c.flags := by
  have hmask : alignFloor c.trim.phys 0x1000 &&& addressMask =
      alignFloor c.phys 0x1000 &&& addressMask := by
    unfold alignFloor MapCall.trim
    simp only [BitVec.and_assoc]
    congr 1
  unfold map
  simp only [hmask]
  rfl

theorem mapAll_trim (s : Machine) (calls : List MapCall) :
    mapAll s (calls.map MapCall.trim) = mapAll s calls := by
  induction calls generalizing s with
  | nil => rfl
  | cons c calls ih =>
      rw [List.map_cons, mapAll_cons, mapAll_cons, map_trim, ih]

theorem lastCall_trim (calls : List MapCall) (v : Word64) :
    lastCall (calls.map MapCall.trim) v = (lastCall calls v).map MapCall.trim := by
  unfold lastCall
  rw [← List.map_reverse, List.find?_map]
  rfl

/-- The same for a physical address of any size. -/
theorem mapAll_spec_trim {s : Machine} {tables : List Nat} (h : PageTables s tables)
    {calls : List MapCall} (hflags : ∀ c ∈ calls, IsMapFlags c.flags)
    (hsep : Separate s.pml4Table (mapAll s calls).allocs) :
    ∃ tables', Mapped s (mapAll s calls) tables tables' (calls.map MapCall.trim) := by
  rw [← mapAll_trim] at hsep ⊢
  refine mapAll_spec h (fun c hc => ?_) hsep
  obtain ⟨d, hd, rfl⟩ := List.mem_map.mp hc
  exact MapCall.trim_ok (hflags d hd)

/-! ## The page tables from an empty PML4 -/

/-- What the caller of `Map` relies on: `Frame::Alloc` returned a frame each time, never the PML4 and
never the same frame twice. -/
def FreshFrames (pml4 : Word32) (log : List (Word32 × Word64)) : Prop :=
  0 ∉ log.map Prod.fst ∧ (pml4 :: log.map Prod.fst).Nodup

instance (pml4 : Word32) (log : List (Word32 × Word64)) : Decidable (FreshFrames pml4 log) :=
  inferInstanceAs (Decidable (_ ∧ _))

/-- Two different pages are disjoint blocks. -/
theorem disjoint_pages {p q : Word32} (hp : p.toNat % 0x1000 = 0) (hq : q.toNat % 0x1000 = 0)
    (hne : p ≠ q) : Frame.Range.Disjoint (Frame.block p 4096) (Frame.block q 4096) := by
  have hneNat : p.toNat ≠ q.toNat := fun heq => hne (BitVec.eq_of_toNat_eq heq)
  have hpage : pageUp (4096 : Word64).toNat = 0x1000 := by decide
  intro x h1 h2 h3 h4
  simp only [Frame.block, hpage] at h1 h2 h3 h4
  omega

/-- Distinct whole pages are separate blocks. -/
theorem FreshFrames.separate {pml4 : Word32} {log : List (Word32 × Word64)}
    (h : FreshFrames pml4 log) (hpml4 : pml4.toNat % 0x1000 = 0)
    (hlog : ∀ a ∈ log, a.1.toNat % 0x1000 = 0 ∧ a.2 = 4096) : Separate pml4 log := by
  refine ⟨fun a ha hnull => h.1 (hnull ▸ List.mem_map_of_mem ha), ?_⟩
  have hpages : ∀ a ∈ (pml4, (4096 : Word64)) :: log, a.1.toNat % 0x1000 = 0 ∧ a.2 = 4096 := by
    intro a ha
    rcases List.mem_cons.mp ha with rfl | ha
    · exact ⟨hpml4, rfl⟩
    · exact hlog a ha
  have hdistinct : ((pml4, (4096 : Word64)) :: log).Pairwise fun a b => a.1 ≠ b.1 :=
    List.pairwise_map.mp h.2
  refine hdistinct.imp_of_mem fun {a b} ha hb hne => ?_
  rw [(hpages a ha).2, (hpages b hb).2]
  exact disjoint_pages (hpages a ha).1 (hpages b hb).1 hne

/-- `Map` allocates whole pages only. -/
theorem mapAll_pages {s : Machine} (hlog : s.allocs = []) (calls : List MapCall) :
    ∀ a ∈ (mapAll s calls).allocs, a.1.toNat % 0x1000 = 0 ∧ a.2 = 4096 := by
  obtain ⟨k, -, hnew, -⟩ := logged_mapAll s calls
  rw [hlog, List.nil_append] at hnew
  rw [hnew]
  exact fun a ha => pageRun_pages ha

theorem separate_mapAll {s : Machine} (hpml4 : s.pml4Table.toNat % 0x1000 = 0)
    (hlog : s.allocs = []) {calls : List MapCall}
    (hfresh : FreshFrames s.pml4Table (mapAll s calls).allocs) :
    Separate s.pml4Table (mapAll s calls).allocs :=
  hfresh.separate hpml4 (mapAll_pages hlog calls)

/-- A zeroed PML4 maps nothing. -/
theorem tablesIn_init {F : EntryFormat Nat Word64 Word64} [NamesFrames F] {s : Machine}
    (hpml4 : s.pml4Table.toNat % 0x1000 = 0)
    (hzero : ∀ i, entryAt s.mem (s.pml4Table.toNat / 0x1000) i = 0) :
    TablesIn F s [s.pml4Table.toNat / 0x1000] where
  aligned := hpml4
  tree := RadixTree.Tree.init fun i => (hzero i).trans NamesFrames.empty_eq.symm
  owned := by
    intro t ht
    rw [List.mem_singleton] at ht
    subst ht
    exact ⟨(s.pml4Table, 4096), List.mem_cons_self .., by show s.pml4Table.toNat = _; omega, rfl⟩

theorem pageTables_init {s : Machine} (hpml4 : s.pml4Table.toNat % 0x1000 = 0)
    (hzero : ∀ i, entryAt s.mem (s.pml4Table.toNat / 0x1000) i = 0) :
    PageTables s [s.pml4Table.toNat / 0x1000] := tablesIn_init hpml4 hzero

/-- What leaves the PML4 and the blocks alone leaves the tables alone. -/
theorem TablesIn.agree_of_blocks {F : EntryFormat Nat Word64 Word64} {s : Machine} {m : Mem}
    {tables : List Nat} (h : TablesIn F s tables)
    (hmem : ∀ a ∈ (s.pml4Table, 4096) :: s.allocs, ∀ x, (Frame.block a.1 a.2).1 ≤ x →
      x < (Frame.block a.1 a.2).2 → m x = s.mem x) {x : Nat} (hx : x / 0x1000 ∈ tables) :
    m x = s.mem x := by
  obtain ⟨a, ha, haddr, hsize⟩ := h.owned _ hx
  obtain ⟨h1, h2⟩ := mem_block_of_frame haddr hsize rfl
  exact hmem a ha x h1 h2

theorem translate_of_zero {s : Machine}
    (hzero : ∀ i, entryAt s.mem (s.pml4Table.toNat / 0x1000) i = 0) (v : Word64) :
    translate s.mem s.pml4Table.toNat v = none := by
  unfold translate walk
  rw [hzero]
  rfl

/-- The machines whose page tables come from a zeroed PML4 by calls of `Map`, whatever else has run
in between without touching the PML4 or a block that was handed out. -/
inductive Built : Machine → Prop
  | start {s : Machine} (hpml4 : s.pml4Table.toNat % 0x1000 = 0)
      (hzero : ∀ i, entryAt s.mem (s.pml4Table.toNat / 0x1000) i = 0) : Built s
  | map {s : Machine} {c : MapCall} (h : Built s) (hc : c.Ok)
      (hsep : Separate s.pml4Table (map s c.phys c.virt c.flags).allocs) :
      Built (map s c.phys c.virt c.flags)
  | other {s s' : Machine} (h : Built s) (hpml4 : s'.pml4Table = s.pml4Table)
      (hlog : s.allocs ⊆ s'.allocs)
      (hmem : ∀ a ∈ (s.pml4Table, 4096) :: s.allocs, ∀ x, (Frame.block a.1 a.2).1 ≤ x →
        x < (Frame.block a.1 a.2).2 → s'.mem x = s.mem x) : Built s'

/-- A machine that has just zeroed its PML4, at 64 KB. -/
theorem built_zeroed (mem : Mem) (frame : Frame.Table) :
    Built ⟨memzero mem 0x10000 4096, frame, 0x10000, []⟩ := by
  refine .start (by decide : (0x10000 : Word32).toNat % 0x1000 = 0) fun i => ?_
  have hroot : (0x10000 : Word32).toNat / 0x1000 = 0x10 := by decide
  show entryAt (memzero mem 0x10000 4096) ((0x10000 : Word32).toNat / 0x1000) i = 0
  rw [hroot, entryAt_memzero _ (u := 0x10) (by decide), if_pos rfl]

/-- The tables of a built machine.  Frame 0 is not one of them, unless the PML4 is there. -/
theorem Built.pageTables_nonNull {s : Machine} (h : Built s) :
    ∃ tables, PageTables s tables ∧ (s.pml4Table ≠ 0 → 0 ∉ tables) := by
  induction h with
  | start hpml4 hzero =>
      refine ⟨_, pageTables_init hpml4 hzero, fun hroot hmem => hroot ?_⟩
      have hnull := List.mem_singleton.mp hmem
      apply BitVec.eq_of_toNat_eq
      show _ = 0
      omega
  | map _ hc hsep ih =>
      obtain ⟨tables, htables, hnonNull⟩ := ih
      obtain ⟨tables', hmapped⟩ := map_spec htables hc hsep
      refine ⟨tables', hmapped.inv, fun hroot hmem => ?_⟩
      rw [hmapped.pml4] at hroot
      obtain ⟨new, hnew, -, hadded⟩ := hmapped.log
      rcases hadded 0 hmem with hold | ⟨a, ha, haddr, -⟩
      · exact hnonNull hroot hold
      · refine hsep.1 a ?_ (BitVec.eq_of_toNat_eq haddr)
        rw [hnew]
        exact List.mem_append_right _ ha
  | other _ hpml4 hlog hmem ih =>
      -- what else runs leaves the blocks of the tables alone
      obtain ⟨tables, htables, hnonNull⟩ := ih
      exact ⟨tables, htables.of_agree hpml4 hlog fun x hx => htables.agree_of_blocks hmem hx,
        hpml4 ▸ hnonNull⟩

theorem Built.pageTables {s : Machine} (h : Built s) : ∃ tables, PageTables s tables := by
  obtain ⟨tables, htables, -⟩ := h.pageTables_nonNull
  exact ⟨tables, htables⟩

/-- The tables of the upper three levels: the PML4, the PML3s and the PML2s. -/
def IsUpperTable (s : Machine) (t : Nat) : Prop := ∃ p, p.length < 3 ∧ Machine.follow s p = some t

/-- **The page tables refine the page map.**  From a zeroed PML4, after any sequence of calls the
processor sends an address to the frame of the last call for its page, at the same offset and with
that call's flags, and maps no other address; and every frame that was allocated for a table is named
by exactly one entry of an upper-level table. -/
theorem maps_refine_pageMap {s : Machine} (hpml4 : s.pml4Table.toNat % 0x1000 = 0)
    (hzero : ∀ i, entryAt s.mem (s.pml4Table.toNat / 0x1000) i = 0) (hlog : s.allocs = [])
    {calls : List MapCall} (hcalls : ∀ c ∈ calls, c.Ok)
    (hfresh : FreshFrames s.pml4Table (mapAll s calls).allocs) :
    (∀ v, translate (mapAll s calls).mem s.pml4Table.toNat v =
      (lastCall calls v).map fun c => (c.phys.toNat / 0x1000 * 0x1000 + v.toNat % 0x1000, c.flags)) ∧
    (∀ a ∈ (mapAll s calls).allocs, ∃! slot : Nat × BitVec 9,
      IsUpperTable (mapAll s calls) slot.1 ∧
        nextTable (entryAt (mapAll s calls).mem slot.1 slot.2) = some (a.1.toNat / 0x1000)) := by
  have hpages := mapAll_pages hlog calls
  have hsep := separate_mapAll hpml4 hlog hfresh
  obtain ⟨tables, hmapped⟩ := mapAll_spec (pageTables_init hpml4 hzero) hcalls hsep
  constructor
  · intro v
    rw [hmapped.translate v, translate_of_zero hzero, Option.or_none]
    rfl
  · -- every frame that was handed out is a table, and the root is not one of them
    intro a ha
    have hmem : a.1.toNat / 0x1000 ∈ tables := by
      obtain ⟨new', hnew', hin, -⟩ := hmapped.log
      rw [hlog, List.nil_append] at hnew'
      exact hin a (hnew' ▸ ha)
    have hne : a.1.toNat / 0x1000 ≠ (mapAll s calls).pml4Table.toNat / 0x1000 := by
      rw [hmapped.pml4]
      intro heq
      have hpage := (hpages a ha).1
      have hsame : a.1 = s.pml4Table := BitVec.eq_of_toNat_eq (by omega)
      exact (List.nodup_cons.mp hfresh.2).1 (hsame ▸ List.mem_map_of_mem ha)
    exact hmapped.inv.tree.existsUnique_slot hmem hne

/-- A machine with one megabyte of free frames and a zeroed PML4 at 64 KB. -/
def emptyPml4 : Machine := ⟨memzero (fun _ => 0xff) 0x10000 4096, Frame.oneRange, 0x10000, []⟩

theorem emptyPml4_zero : ∀ i, entryAt emptyPml4.mem (emptyPml4.pml4Table.toNat / 0x1000) i = 0 :=
  fun i => (entryAt_memzero _ rfl _ i).trans (if_pos rfl)

/-- The kernel's first page, mapped to 2 MB. -/
def kernelPage : MapCall := ⟨0x200000, 0xFFFFFFFF80000000, flagPresent ||| flagReadWrite⟩

/-- Two pages behind the same tables, then the first one again, elsewhere and read-only. -/
def kernelPages : List MapCall :=
  [kernelPage, ⟨0x201000, 0xFFFFFFFF80001000, flagPresent ||| flagReadWrite⟩,
    ⟨0x300000, 0xFFFFFFFF80000000, flagPresent⟩]

theorem kernelPages_mapped :
    translate (mapAll emptyPml4 kernelPages).mem 0x10000 0xFFFFFFFF80000123 =
      some (0x300123, flagPresent) ∧
    translate (mapAll emptyPml4 kernelPages).mem 0x10000 0xFFFFFFFF80001123 =
      some (0x201123, flagPresent ||| flagReadWrite) ∧
    translate (mapAll emptyPml4 kernelPages).mem 0x10000 0xFFFFFFFF80002123 = none ∧
    ∃! slot : Nat × BitVec 9, IsUpperTable (mapAll emptyPml4 kernelPages) slot.1 ∧
      nextTable (entryAt (mapAll emptyPml4 kernelPages).mem slot.1 slot.2) = some 0x1002 := by
  have hcalls : ∀ c ∈ kernelPages, c.Ok := by decide
  have hlog : (mapAll emptyPml4 kernelPages).allocs =
      [(0x1000000, 4096), (0x1001000, 4096), (0x1002000, 4096)] := by decide +kernel
  have hfresh : FreshFrames emptyPml4.pml4Table (mapAll emptyPml4 kernelPages).allocs := by
    rw [hlog]
    decide
  obtain ⟨hpages, hslots⟩ :=
    maps_refine_pageMap (s := emptyPml4) (by decide) emptyPml4_zero rfl hcalls hfresh
  refine ⟨(hpages _).trans (by decide), (hpages _).trans (by decide), (hpages _).trans (by decide),
    hslots (0x1002000, 4096) ?_⟩
  rw [hlog]
  decide

end VirtualMemory
end Loader
end ZineOS
