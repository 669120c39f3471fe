import ZineOS.Loader.ElfLoad

/-!
# The entry point that `Elf::Load` returns

`Load` recomputes the entry point in every round whose section passes the test
`sh_addr <= e_entry <= sh_addr + sh_size`, so the last such section decides.  The end of the section
is included, the carry of the sum is lost, and the pointer to the block is sign-extended.

* `before` and `entryAfter` are the machine and the local `entry` before a round;
  `loadLoop_entry` says that the loop computes them, `entryAfter_cases` that the last accepted
  section decides.
* **`load_entry_iff`** — when the entry point is the right one.
-/

namespace ZineOS
namespace Loader
namespace Elf

open Lib VirtualMemory

/-! ## The sections and the entry point -/

/-- The address range of a section. -/
def addresses (m : Mem) (sh : Word32) : Frame.Range :=
  ((shAddr m sh).toNat, (shAddr m sh).toNat + (shSize m sh).toNat)

/-- The address ranges of the loaded sections are disjoint. -/
def DisjointSections (m : Mem) (elf : Word32) : Prop :=
  ∀ i j, i < j → j < (eShnum m elf).toNat → IsLoaded m (shdr m elf i) →
    IsLoaded m (shdr m elf j) →
    Frame.Range.Disjoint (addresses m (shdr m elf i)) (addresses m (shdr m elf j))

/-- Section `i` is a PROGBITS section that contains `e_entry`. -/
structure HoldsEntry (m : Mem) (elf : Word32) (i : Nat) : Prop where
  lt : i < (eShnum m elf).toNat
  progbits : shType m (shdr m elf i) = shtProgbits
  start_le : (addresses m (shdr m elf i)).1 ≤ (eEntry m elf).toNat
  lt_stop : (eEntry m elf).toNat < (addresses m (shdr m elf i)).2

/-- Section `i` is a PROGBITS section that passes the test of `Load`. -/
structure Accepted (m : Mem) (elf : Word32) (i : Nat) : Prop where
  lt : i < (eShnum m elf).toNat
  progbits : shType m (shdr m elf i) = shtProgbits
  start_le : shAddr m (shdr m elf i) ≤ eEntry m elf
  le_stop : eEntry m elf ≤ shAddr m (shdr m elf i) + shSize m (shdr m elf i)

/-- The last section that passes it. -/
def LastAccepted (m : Mem) (elf : Word32) (i : Nat) : Prop :=
  Accepted m elf i ∧ ∀ j, i < j → ¬ Accepted m elf j

theorem HoldsEntry.isLoaded {m : Mem} {elf : Word32} {i : Nat} (h : HoldsEntry m elf i) :
    IsLoaded m (shdr m elf i) := Or.inl h.progbits

theorem Accepted.isLoaded {m : Mem} {elf : Word32} {i : Nat} (h : Accepted m elf i) :
    IsLoaded m (shdr m elf i) := Or.inl h.progbits

/-- Only one section contains the entry point. -/
theorem HoldsEntry.unique {m : Mem} {elf : Word32} (hdisjoint : DisjointSections m elf) {i j : Nat}
    (hi : HoldsEntry m elf i) (hj : HoldsEntry m elf j) : i = j := by
  rcases Nat.lt_trichotomy i j with hlt | heq | hgt
  · exact (hdisjoint i j hlt hj.lt hi.isLoaded hj.isLoaded _ hi.start_le hi.lt_stop hj.start_le
      hj.lt_stop).elim
  · exact heq
  · exact (hdisjoint j i hgt hi.lt hj.isLoaded hi.isLoaded _ hj.start_le hj.lt_stop hi.start_le
      hi.lt_stop).elim

/-! ## The run of the loop -/

/-- The machine before round `i`. -/
def before (s : Machine) (elf : Word32) : Nat → Machine
  | 0 => s
  | i + 1 => (loadSection (before s elf i) elf (shdr s.mem elf i) 0).2

/-- The frame block allocated for section `i`. -/
def sectionBlock (s : Machine) (elf : Word32) (i : Nat) : Word32 :=
  (allocated (before s elf i) (shdr s.mem elf i)).1

/-- The local `entry` before round `i`. -/
def entryAfter (s : Machine) (elf : Word32) : Nat → Word64
  | 0 => 0
  | i + 1 =>
      if shType s.mem (shdr s.mem elf i) = shtProgbits then
        updateEntry s.mem elf (shdr s.mem elf i) (sectionBlock s elf i) (entryAfter s elf i)
      else entryAfter s elf i

/-- What the allocator owes: blocks that end below 4 GB, apart from one another, from the PML4 and
from the file. -/
structure BlocksApart (pml4 elf : Word32) (len : Nat) (log : List (Word32 × Word64)) : Prop where
  separate : Separate pml4 log
  fits : ∀ a ∈ log, (Frame.block a.1 a.2).2 < 2 ^ 32
  image : ∀ a ∈ (pml4, 4096) :: log,
    Frame.Range.Disjoint (Frame.block a.1 a.2) (elf.toNat, elf.toNat + len)

theorem BlocksApart.of_prefix {pml4 elf : Word32} {len : Nat} {log log' : List (Word32 × Word64)}
    (h : BlocksApart pml4 elf len log') (hlog : log <+: log') : BlocksApart pml4 elf len log where
  separate := h.separate.of_prefix hlog
  fits := fun a ha => h.fits a (hlog.subset ha)
  image := fun a ha => h.image a (((List.prefix_cons_inj _).mpr hlog).subset ha)

/-- Blocks that are apart by their bounds. -/
theorem blocksApart_of_bounds {pml4 elf : Word32} {len : Nat} {log : List (Word32 × Word64)}
    (hnull : 0 ∉ log.map Prod.fst)
    (hpairs : ((pml4, 4096) :: log).Pairwise fun a b => BoundsApart a b)
    (hfits : log.all fun a => (Frame.block a.1 a.2).2 < 2 ^ 32)
    (himage : ((pml4, 4096) :: log).all fun a => (Frame.block a.1 a.2).2 ≤ elf.toNat ∨
      elf.toNat + len ≤ (Frame.block a.1 a.2).1) : BlocksApart pml4 elf len log where
  separate := separate_of_bounds hnull hpairs
  fits := by simpa using hfits
  image := image_of_bounds himage

/-- The machine holds page tables and still has the file. -/
structure Kept (m : Mem) (elf : Word32) (len : Nat) (pml4 : Word32) (s : Machine)
    (tables : List Nat) : Prop where
  inv : PageTables s tables
  pml4 : s.pml4Table = pml4
  file : Mem.AgreeOn s.mem m elf.toNat len

section Round

variable {m : Mem} {elf : Word32} {len : Nat} {pml4 : Word32} {s : Machine} {tables : List Nat}

theorem mapRange_kept (hs : Kept m elf len pml4 s tables) (phys virt size : Word64)
    (hblocks : BlocksApart pml4 elf len (mapRange s phys virt size sectionFlags).allocs) :
    ∃ tables', Kept m elf len pml4 (mapRange s phys virt size sectionFlags) tables' := by
  have hpml4 := hs.pml4
  subst hpml4
  rw [mapRange_eq] at hblocks ⊢
  have hflags : ∀ c ∈ pageCalls (alignFloor phys 0x1000) (alignFloor virt 0x1000)
      ((align size 0x1000).toNat / 0x1000) sectionFlags, IsMapFlags c.flags := by
    intro c hc
    obtain ⟨k, -, rfl⟩ := List.mem_map.mp hc
    show IsMapFlags sectionFlags
    decide
  obtain ⟨tables', hmapped⟩ := mapAll_spec_trim hs.inv hflags hblocks.separate
  exact ⟨tables', hmapped.inv, hmapped.pml4,
    image_of_mapped hmapped (hmapped.pml4 ▸ hblocks.image) hs.file⟩

theorem mapSection_kept (hs : Kept m elf len pml4 s tables) (sh p : Word32)
    (hblocks : BlocksApart pml4 elf len (mapSection s sh p).allocs) :
    ∃ tables', Kept m elf len pml4 (mapSection s sh p) tables' := by
  unfold mapSection at hblocks ⊢
  obtain ⟨tables1, hs1⟩ :=
    mapRange_kept hs _ _ _ (hblocks.of_prefix (prefix_mapRange ..))
  exact mapRange_kept hs1 _ _ _ hblocks

/-- Filling a new block writes into no page table. -/
theorem filled_tables (hs : Kept m elf len pml4 s tables) {sh : Word32}
    (hblocks : BlocksApart pml4 elf len (allocated s sh).2.allocs) {x : Nat}
    (hx : x / 0x1000 ∈ tables) : filled s.mem elf sh (allocated s sh).1 x = s.mem x := by
  have hlog : (allocated s sh).2.allocs = s.allocs ++ [((allocated s sh).1, shSize s.mem sh)] := rfl
  have hseparate := hblocks.separate
  rw [hlog, ← hs.pml4] at hseparate
  have hfresh : ∀ a ∈ (s.pml4Table, 4096) :: s.allocs, Frame.Range.Disjoint
      (Frame.block a.1 a.2) (Frame.block (allocated s sh).1 (shSize s.mem sh)) :=
    fun a ha => hseparate.later ha (List.mem_singleton_self _)
  refine filled_of_not fun hin => ?_
  exact hs.inv.not_mem_of_disjoint hfresh hin.1 hin.2 hx

/-- Handing out and filling a block of its own keeps the tables and the file. -/
theorem filled_kept (hs : Kept m elf len pml4 s tables) (sh : Word32)
    (hblocks : BlocksApart pml4 elf len (allocated s sh).2.allocs) :
    Kept m elf len pml4
      { (allocated s sh).2 with mem := filled s.mem elf sh (allocated s sh).1 } tables := by
  have hfile := hblocks.image ((allocated s sh).1, shSize s.mem sh)
    (List.mem_cons_of_mem _ (logged_allocated s sh))
  -- the block meets neither a table nor the file
  constructor
  · have hcongr := @PageTables.congr s
      { (allocated s sh).2 with mem := filled s.mem elf sh (allocated s sh).1 } tables hs.inv rfl
      (List.subset_append_left _ _) fun x hx => filled_tables hs hblocks hx
    exact hcongr.1
  · exact hs.pml4
  · intro x hlo hhi
    show filled s.mem elf sh (allocated s sh).1 x = m x
    rw [filled_of_not fun hin => hfile x hin.1 hin.2 hlo hhi]
    exact hs.file x hlo hhi

/-- The local `entry` decides nothing but itself. -/
theorem loadSection_machine (s : Machine) (elf sh : Word32) (entry : Word64) :
    (loadSection s elf sh entry).2 = (loadSection s elf sh 0).2 := by
  unfold loadSection
  split_ifs
  · unfold loadProgbits
    dsimp only
    split_ifs <;> rfl
  · unfold loadNobits
    dsimp only
    split_ifs <;> rfl
  · rfl

theorem prefix_allocated {sh : Word32} (hloaded : IsLoaded s.mem sh) (entry : Word64) :
    (allocated s sh).2.allocs <+: (loadSection s elf sh entry).2.allocs := by
  rcases loadSection_cases s elf sh entry with ⟨hskip, -⟩ | ⟨-, -, heq⟩ | ⟨-, -, s', rfl, heq⟩
  · exact absurd hloaded hskip
  · rw [heq]
  · rw [heq]
    exact prefix_mapSection
      { (allocated s sh).2 with mem := filled s.mem elf sh (allocated s sh).1 } sh (allocated s sh).1

/-- **One round.** -/
theorem loadSection_entry (hfile : ElfFile m elf len) {i : Nat} (hi : i < (eShnum m elf).toNat)
    (hs : Kept m elf len pml4 s tables) (entry : Word64)
    (hblocks : BlocksApart pml4 elf len (loadSection s elf (shdr m elf i) entry).2.allocs) :
    ∃ s' tables', loadSection s elf (shdr m elf i) entry =
        (some (if shType m (shdr m elf i) = shtProgbits then updateEntry m elf (shdr m elf i)
          (allocated s (shdr m elf i)).1 entry else entry), s') ∧
      Kept m elf len pml4 s' tables' := by
  obtain ⟨htype, -, -, -⟩ := hfile.fields hs.file hi
  rcases loadSection_cases s elf (shdr m elf i) entry with
    ⟨hskip, heq⟩ | ⟨-, hnull, heq⟩ | ⟨hload, -, s', rfl, heq⟩
  · have hother : shType m (shdr m elf i) ≠ shtProgbits :=
      fun hprog => hskip (Or.inl (htype.trans hprog))
    rw [if_neg hother]
    exact ⟨s, tables, heq, hs⟩
  · -- `Alloc` does not fail
    rw [heq] at hblocks
    exact absurd hnull (hblocks.separate.1 _ (logged_allocated ..))
  · -- the headers are read again after the block is filled and mapped, with the same words
    have hblocksMid := hblocks.of_prefix (prefix_allocated hload entry)
    rw [heq] at hblocks
    obtain ⟨tables', hkept⟩ := mapSection_kept (filled_kept hs _ hblocksMid) _ _ hblocks
    obtain ⟨-, haddr, -, hsize⟩ := hfile.fields hkept.file hi
    refine ⟨_, tables', heq.trans ?_, hkept⟩
    unfold updateEntry
    rw [htype, haddr, hsize, hfile.entry hkept.file]

end Round

section Loop

variable {s : Machine} {elf : Word32} {len : Nat}

theorem before_succ (s : Machine) (elf : Word32) (i : Nat) (entry : Word64) :
    before s elf (i + 1) = (loadSection (before s elf i) elf (shdr s.mem elf i) entry).2 :=
  (loadSection_machine _ _ _ entry).symm

theorem prefix_before {i j : Nat} (hij : i ≤ j) :
    (before s elf i).allocs <+: (before s elf j).allocs := by
  induction hij with
  | refl => exact List.prefix_rfl
  | step _ ih => exact ih.trans (prefix_loadSection ..)

/-- **The loop.**  With enough rounds it returns the local `entry` after the last one. -/
theorem loadLoop_entry (hfile : ElfFile s.mem elf len) {fuel i : Nat}
    (hfuel : (eShnum s.mem elf).toNat - i < fuel) (hi : i ≤ (eShnum s.mem elf).toNat)
    {tables : List Nat} (hs : Kept s.mem elf len s.pml4Table (before s elf i) tables)
    (hblocks : BlocksApart s.pml4Table elf len (loadLoop fuel (before s elf i) elf
      (sectionHeader s.mem elf) (BitVec.ofNat 32 i) (entryAfter s elf i)).2.allocs) :
    loadLoop fuel (before s elf i) elf (sectionHeader s.mem elf) (BitVec.ofNat 32 i)
      (entryAfter s elf i) =
        (.returned (entryAfter s elf (eShnum s.mem elf).toNat),
          before s elf (eShnum s.mem elf).toNat) := by
  induction fuel generalizing i tables with
  | zero => omega
  | succ fuel ih =>
      have hshnum := hfile.shnum hs.file
      by_cases hlast : i = (eShnum s.mem elf).toNat
      · rw [loadLoop, hshnum, if_pos ((ofNat_eq_shnum hi).mpr hlast), ← hlast]
      · have hlt : i < (eShnum s.mem elf).toNat := by omega
        have hmore : BitVec.ofNat 32 i ≠ (eShnum (before s elf i).mem elf).setWidth 32 := by
          rw [hshnum]
          exact fun heq => hlast ((ofNat_eq_shnum hi).mp heq)
        have hthis : BlocksApart s.pml4Table elf len (loadSection (before s elf i) elf
            (shdr s.mem elf i) (entryAfter s elf i)).2.allocs :=
          hblocks.of_prefix (prefix_round fuel _ _ hmore)
        obtain ⟨s', tables', heq, hkept⟩ := loadSection_entry hfile hlt hs _ hthis
        -- the state after the round does not depend on the entry point so far
        have hs' : s' = before s elf (i + 1) := by
          rw [before_succ s elf i (entryAfter s elf i), heq]
        subst hs'
        unfold shdr at heq
        have hindex : BitVec.ofNat 32 i + 1 = BitVec.ofNat 32 (i + 1) := (BitVec.ofNat_add ..).symm
        rw [loadLoop, if_neg hmore, heq, hindex] at hblocks ⊢
        exact ih (by omega) hlt hkept hblocks

/-- The last accepted section decides. -/
theorem entryAfter_cases {i : Nat} (hi : i ≤ (eShnum s.mem elf).toNat) :
    (entryAfter s elf i = 0 ∧ ∀ j < i, ¬ Accepted s.mem elf j) ∨
      ∃ j < i, Accepted s.mem elf j ∧ (∀ k, j < k → k < i → ¬ Accepted s.mem elf k) ∧
        entryAfter s elf i = castU64 (sectionBlock s elf j) + eEntry s.mem elf -
          shAddr s.mem (shdr s.mem elf j) := by
  induction i with
  | zero => exact Or.inl ⟨rfl, fun j hj => absurd hj (Nat.not_lt_zero j)⟩
  | succ i ih =>
      by_cases haccepted : Accepted s.mem elf i
      · -- the last match wins
        refine Or.inr ⟨i, Nat.lt_succ_self i, haccepted, fun k hik hki => by omega, ?_⟩
        rw [entryAfter, if_pos haccepted.progbits]
        exact if_pos ⟨haccepted.start_le, haccepted.le_stop⟩
      · -- a section that is not accepted leaves the value alone
        have hsame : entryAfter s elf (i + 1) = entryAfter s elf i := by
          rw [entryAfter]
          by_cases hprog : shType s.mem (shdr s.mem elf i) = shtProgbits
          · rw [if_pos hprog]
            exact if_neg fun htest => haccepted ⟨hi, hprog, htest.1, htest.2⟩
          · rw [if_neg hprog]
        rw [hsame]
        rcases ih (by omega) with ⟨hzero, hnone⟩ | ⟨j, hj, hjacc, hlast, hentry⟩
        · refine Or.inl ⟨hzero, fun j hj => ?_⟩
          rcases Nat.lt_succ_iff_lt_or_eq.mp hj with hlt | rfl
          · exact hnone j hlt
          · exact haccepted
        · refine Or.inr ⟨j, by omega, hjacc, fun k hjk hk => ?_, hentry⟩
          rcases Nat.lt_succ_iff_lt_or_eq.mp hk with hlt | rfl
          · exact hlast k hjk hlt
          · exact haccepted

/-- The same after the last round. -/
theorem entryAfter_shnum (s : Machine) (elf : Word32) :
    (entryAfter s elf (eShnum s.mem elf).toNat = 0 ∧ ∀ j, ¬ Accepted s.mem elf j) ∨
      ∃ j, LastAccepted s.mem elf j ∧ entryAfter s elf (eShnum s.mem elf).toNat =
        castU64 (sectionBlock s elf j) + eEntry s.mem elf - shAddr s.mem (shdr s.mem elf j) := by
  have hcases := @entryAfter_cases s elf _ le_rfl
  rcases hcases with ⟨hzero, hnone⟩ | ⟨j, -, hj, hlast, heq⟩
  · exact Or.inl ⟨hzero, fun j hj => hnone j hj.lt hj⟩
  · exact Or.inr ⟨j, ⟨hj, fun k hjk hk => hlast k hjk hk.lt hk⟩, heq⟩

/-- While the loop runs the machine keeps the file. -/
theorem before_kept (hfile : ElfFile s.mem elf len) {tables : List Nat} (hs : PageTables s tables)
    {n : Nat} (hn : n ≤ (eShnum s.mem elf).toNat)
    (hblocks : BlocksApart s.pml4Table elf len (before s elf n).allocs) :
    ∃ tables', Kept s.mem elf len s.pml4Table (before s elf n) tables' := by
  induction n with
  | zero => exact ⟨tables, hs, rfl, fun _ _ _ => rfl⟩
  | succ n ih =>
      obtain ⟨tables1, hkept⟩ :=
        ih (by omega) (hblocks.of_prefix (prefix_before (Nat.le_succ n)))
      obtain ⟨s', tables', heq, hnext⟩ := loadSection_entry hfile hn hkept 0 hblocks
      have hs' : before s elf (n + 1) = s' := by
        rw [before_succ s elf n 0, heq]
      exact ⟨tables', hs' ▸ hnext⟩

/-- The block of a section is not null and ends below 4 GB. -/
theorem sectionBlock_bounds (hfile : ElfFile s.mem elf len) {tables : List Nat}
    (hs : PageTables s tables)
    (hblocks : BlocksApart s.pml4Table elf len
      (before s elf (eShnum s.mem elf).toNat).allocs) {i : Nat} (hi : i < (eShnum s.mem elf).toNat)
    (hloaded : IsLoaded s.mem (shdr s.mem elf i)) :
    sectionBlock s elf i ≠ 0 ∧ (sectionBlock s elf i).toNat +
      (shSize s.mem (shdr s.mem elf i)).toNat < 2 ^ 32 := by
  obtain ⟨tables', hkept⟩ := before_kept hfile hs hi.le (hblocks.of_prefix (prefix_before hi.le))
  obtain ⟨htype, -, -, hsize⟩ := hfile.fields hkept.file hi
  have hloaded' : IsLoaded (before s elf i).mem (shdr s.mem elf i) := by
    unfold IsLoaded
    rwa [htype]
  have hlogged : (sectionBlock s elf i, shSize s.mem (shdr s.mem elf i)) ∈
      (before s elf (eShnum s.mem elf).toNat).allocs := by
    refine (prefix_before hi).subset ((prefix_allocated hloaded' 0).subset ?_)
    rw [← hsize]
    exact logged_allocated _ _
  have hfits := hblocks.fits _ hlogged
  have hup := le_pageUp (shSize s.mem (shdr s.mem elf i)).toNat
  simp only [Frame.block] at hfits
  exact ⟨hblocks.separate.1 _ hlogged, by omega⟩

end Loop

/-! ## The result -/

/-- The result that is asked for: the address of the entry point inside the block of the section that
contains it, and 0 when no section does. -/
def RightEntry (s : Machine) (elf : Word32) (result : Outcome) : Prop :=
  ∃ entry, result = .returned entry ∧
    (∀ i, HoldsEntry s.mem elf i → entry.toNat = (sectionBlock s elf i).toNat +
      ((eEntry s.mem elf).toNat - (shAddr s.mem (shdr s.mem elf i)).toNat)) ∧
    ((∀ i, ¬ HoldsEntry s.mem elf i) → entry = 0)

/-- When the last accepted section gives the right entry point. -/
structure EntryDecided (s : Machine) (elf : Word32) : Prop where
  /-- a section that contains the entry point is not refused for ending at 2^64 -/
  found : (∀ j, ¬ Accepted s.mem elf j) → ∀ i, ¬ HoldsEntry s.mem elf i
  /-- the block lies where the pointer is not sign-extended -/
  low : ∀ j, LastAccepted s.mem elf j → (sectionBlock s elf j).toNat < 2 ^ 31
  /-- the section contains the entry point, or it ends there and its block ends exactly where the
  entry point is in the block of the section that does contain it -/
  inside : ∀ j, LastAccepted s.mem elf j → HoldsEntry s.mem elf j ∨
    ∃ i, HoldsEntry s.mem elf i ∧
      (sectionBlock s elf j).toNat + (shSize s.mem (shdr s.mem elf j)).toNat =
        (sectionBlock s elf i).toNat +
          ((eEntry s.mem elf).toNat - (shAddr s.mem (shdr s.mem elf i)).toNat)

/-- `(uint64_t)ptr + e_entry - sh_addr`, when the address lies below 4 GB. -/
theorem toNat_entry {p : Word32} {e a : Word64} (hle : a.toNat ≤ e.toNat)
    (hfits : p.toNat + (e.toNat - a.toNat) < 2 ^ 32) :
    (castU64 p + e - a).toNat = p.toNat + (e.toNat - a.toNat) +
      (if p.toNat < 2 ^ 31 then 0 else 2 ^ 64 - 2 ^ 32) := by
  have hp := p.isLt
  have he := e.isLt
  have hcast : (castU64 p).toNat =
      p.toNat + (if p.toNat < 2 ^ 31 then 0 else 2 ^ 64 - 2 ^ 32) := by
    by_cases hlow : p.toNat < 2 ^ 31
    · rw [if_pos hlow, toNat_castU64 hlow, Nat.add_zero]
    · have hmsb : p.msb = true := by
        rw [BitVec.msb_eq_decide]
        simp only [decide_eq_true_eq]
        omega
      unfold castU64
      rw [BitVec.toNat_signExtend, BitVec.toNat_setWidth, hmsb, if_neg hlow,
        Nat.mod_eq_of_lt (by omega)]
      rfl
  rw [BitVec.toNat_sub, BitVec.toNat_add, hcast]
  split <;> omega

/-- An accepted section starts at or below the entry point and ends at or above it. -/
theorem Accepted.bounds {m : Mem} {elf : Word32} {i : Nat} (h : Accepted m elf i)
    (hsize : (shSize m (shdr m elf i)).toNat < 2 ^ 32) :
    (shAddr m (shdr m elf i)).toNat ≤ (eEntry m elf).toNat ∧
      (eEntry m elf).toNat ≤ (addresses m (shdr m elf i)).2 := by
  have hstart : (shAddr m (shdr m elf i)).toNat ≤ (eEntry m elf).toNat := h.start_le
  have hstop : (eEntry m elf).toNat ≤
      (shAddr m (shdr m elf i) + shSize m (shdr m elf i)).toNat := h.le_stop
  have haddr := (shAddr m (shdr m elf i)).isLt
  rw [BitVec.toNat_add] at hstop
  simp only [addresses]
  omega

theorem LastAccepted.unique {m : Mem} {elf : Word32} {i j : Nat} (hi : LastAccepted m elf i)
    (hj : LastAccepted m elf j) : i = j := by
  rcases Nat.lt_trichotomy i j with hlt | heq | hgt
  · exact absurd hj.1 (hi.2 j hlt)
  · exact heq
  · exact absurd hi.1 (hj.2 i hgt)

section Result

variable {s : Machine} {elf : Word32}

/-- Every loaded section has a block, which ends below 4 GB. -/
def BlocksBounded (s : Machine) (elf : Word32) : Prop :=
  ∀ i, i < (eShnum s.mem elf).toNat → IsLoaded s.mem (shdr s.mem elf i) →
    sectionBlock s elf i ≠ 0 ∧
      (sectionBlock s elf i).toNat + (shSize s.mem (shdr s.mem elf i)).toNat < 2 ^ 32

/-- `Load` returns the local `entry` after the last round, with the machine after it. -/
theorem load_run (hbuilt : Built s) {len : Nat} (hfile : ElfFile s.mem elf len) {fuel : Nat}
    (hfuel : (eShnum s.mem elf).toNat < fuel)
    (hblocks : BlocksApart s.pml4Table elf len (load fuel s elf).2.allocs) :
    load fuel s elf = (.returned (entryAfter s elf (eShnum s.mem elf).toNat),
      before s elf (eShnum s.mem elf).toNat) := by
  obtain ⟨tables, htables⟩ := hbuilt.pageTables
  have hstart : Kept s.mem elf len s.pml4Table (before s elf 0) tables :=
    ⟨htables, rfl, fun _ _ _ => rfl⟩
  have hload : load fuel s elf = loadLoop fuel (before s elf 0) elf (sectionHeader s.mem elf)
      (BitVec.ofNat 32 0) (entryAfter s elf 0) := by
    unfold load
    rw [hfile.accepted]
    rfl
  rw [hload] at hblocks ⊢
  exact loadLoop_entry hfile (i := 0) (by omega) (Nat.zero_le _) hstart hblocks

/-- The result, and what the allocator's promises say about the blocks. -/
theorem load_returns (hbuilt : Built s) {len : Nat} (hfile : ElfFile s.mem elf len) {fuel : Nat}
    (hfuel : (eShnum s.mem elf).toNat < fuel)
    (hblocks : BlocksApart s.pml4Table elf len (load fuel s elf).2.allocs) :
    (load fuel s elf).1 = .returned (entryAfter s elf (eShnum s.mem elf).toNat) ∧
      BlocksBounded s elf := by
  obtain ⟨tables, htables⟩ := hbuilt.pageTables
  have hrun := load_run hbuilt hfile hfuel hblocks
  rw [hrun] at hblocks ⊢
  exact ⟨rfl, fun i hi hloaded => sectionBlock_bounds hfile htables hblocks hi hloaded⟩

/-- Without an accepted section the result is 0. -/
theorem rightEntry_zero_iff (hbounds : BlocksBounded s elf)
    (hnone : ∀ j, ¬ Accepted s.mem elf j) :
    RightEntry s elf (.returned 0) ↔ EntryDecided s elf := by
  constructor
  · intro hright
    obtain ⟨entry, hreturned, hinside, -⟩ := hright
    obtain rfl := Outcome.returned.inj hreturned
    refine ⟨fun _ i hi => ?_, fun j hj => absurd hj.1 (hnone j), fun j hj => absurd hj.1 (hnone j)⟩
    have hvalue := hinside i hi
    have hzero : (0 : Word64).toNat = 0 := rfl
    refine (hbounds i hi.lt hi.isLoaded).1 (BitVec.eq_of_toNat_eq ?_)
    show _ = 0
    omega
  · intro h
    exact ⟨0, rfl, fun i hi => absurd hi (h.found hnone i), fun _ => rfl⟩

/-- The value that the last accepted section gives. -/
theorem toNat_lastEntry (hbounds : BlocksBounded s elf) {j : Nat} (hj : Accepted s.mem elf j) :
    (castU64 (sectionBlock s elf j) + eEntry s.mem elf - shAddr s.mem (shdr s.mem elf j)).toNat =
      (sectionBlock s elf j).toNat +
        ((eEntry s.mem elf).toNat - (shAddr s.mem (shdr s.mem elf j)).toNat) +
          (if (sectionBlock s elf j).toNat < 2 ^ 31 then 0 else 2 ^ 64 - 2 ^ 32) := by
  obtain ⟨-, hfits⟩ := hbounds j hj.lt hj.isLoaded
  obtain ⟨hle, hstop⟩ := hj.bounds (by omega)
  simp only [addresses] at hstop
  exact toNat_entry hle (by omega)

/-- If it is right, it is so for one of the reasons of `EntryDecided`. -/
theorem entryDecided_of_right (hbounds : BlocksBounded s elf) {j : Nat}
    (hj : LastAccepted s.mem elf j)
    (hright : RightEntry s elf (.returned
      (castU64 (sectionBlock s elf j) + eEntry s.mem elf - shAddr s.mem (shdr s.mem elf j)))) :
    EntryDecided s elf := by
  obtain ⟨entry, hreturned, hinside, hzero⟩ := hright
  obtain rfl := Outcome.returned.inj hreturned
  have hvalue := toNat_lastEntry hbounds hj.1
  obtain ⟨hnonNull, hfits⟩ := hbounds j hj.1.lt hj.1.isLoaded
  obtain ⟨hle, hstop⟩ := hj.1.bounds (by omega)
  have hpos : 0 < (sectionBlock s elf j).toNat :=
    Nat.pos_of_ne_zero fun h0 => hnonNull (BitVec.eq_of_toNat_eq h0)
  -- the value is not 0, so some section contains the entry point
  obtain ⟨i, hi⟩ : ∃ i, HoldsEntry s.mem elf i := by
    by_contra hno
    have hnull := congrArg BitVec.toNat (hzero fun i hi => hno ⟨i, hi⟩)
    rw [hvalue] at hnull
    simp at hnull
    omega
  have hrightValue := hinside i hi
  obtain ⟨-, hfitsI⟩ := hbounds i hi.lt hi.isLoaded
  have hin := hi.lt_stop
  simp only [addresses] at hin hstop
  rw [hvalue] at hrightValue
  have hlow : (sectionBlock s elf j).toNat < 2 ^ 31 := by
    by_contra hhigh
    rw [if_neg hhigh] at hrightValue
    omega
  rw [if_pos hlow] at hrightValue
  constructor
  · exact fun hno => absurd hj.1 (hno j)
  · exact fun k hk => hk.unique hj ▸ hlow
  · intro k hk
    rw [hk.unique hj]
    by_cases hend : (eEntry s.mem elf).toNat < (addresses s.mem (shdr s.mem elf j)).2
    · exact Or.inl ⟨hj.1.lt, hj.1.progbits, hle, hend⟩
    · right
      simp only [addresses] at hend
      exact ⟨i, hi, by omega⟩

theorem right_of_entryDecided (hdisjoint : DisjointSections s.mem elf)
    (hbounds : BlocksBounded s elf) {j : Nat} (hj : LastAccepted s.mem elf j)
    (h : EntryDecided s elf) :
    RightEntry s elf (.returned
      (castU64 (sectionBlock s elf j) + eEntry s.mem elf - shAddr s.mem (shdr s.mem elf j))) := by
  have hvalue := toNat_lastEntry hbounds hj.1
  obtain ⟨-, hfits⟩ := hbounds j hj.1.lt hj.1.isLoaded
  obtain ⟨hle, hstop⟩ := hj.1.bounds (by omega)
  rw [if_pos (h.low j hj), Nat.add_zero] at hvalue
  by_cases hend : (eEntry s.mem elf).toNat < (addresses s.mem (shdr s.mem elf j)).2
  · have hholds : HoldsEntry s.mem elf j := ⟨hj.1.lt, hj.1.progbits, hle, hend⟩
    refine ⟨_, rfl, fun k hk => ?_, fun hno => absurd hholds (hno j)⟩
    rw [hk.unique hdisjoint hholds]
    exact hvalue
  · -- the section ends at the entry point
    rcases h.inside j hj with hholds | ⟨i, hi, heq⟩
    · exact absurd hholds.lt_stop hend
    · simp only [addresses] at hend hstop
      refine ⟨_, rfl, fun k hk => ?_, fun hno => absurd hi (hno i)⟩
      rw [hk.unique hdisjoint hi, hvalue]
      omega

end Result

/-- **When the entry point is right.**  For every file whose sections have disjoint address ranges,
in any order, that is when the last accepted section contains the entry point. -/
theorem load_entry_iff {s : Machine} (hbuilt : Built s) {elf : Word32} {len : Nat}
    (hfile : ElfFile s.mem elf len) (hdisjoint : DisjointSections s.mem elf) {fuel : Nat}
    (hfuel : (eShnum s.mem elf).toNat < fuel)
    (hblocks : BlocksApart s.pml4Table elf len (load fuel s elf).2.allocs) :
    RightEntry s elf (load fuel s elf).1 ↔ EntryDecided s elf := by
  obtain ⟨hreturned, hbounds⟩ := load_returns hbuilt hfile hfuel hblocks
  rw [hreturned]
  rcases entryAfter_shnum s elf with ⟨hzero, hnone⟩ | ⟨j, hj, hentry⟩
  · rw [hzero]
    exact rightEntry_zero_iff hbounds hnone
  · rw [hentry]
    exact ⟨entryDecided_of_right hbounds hj, right_of_entryDecided hdisjoint hbounds hj⟩

/-- An image whose code starts at its third byte, with a section of zeros behind it. -/
theorem codeAndBss_right :
    RightEntry (kernelMachine codeAndBss) 0x200000
      (load 3 (kernelMachine codeAndBss) 0x200000).1 := by
  have hfile : ElfFile (kernelMachine codeAndBss).mem 0x200000 196 :=
    ⟨by decide, by decide, by decide +kernel, by decide +kernel⟩
  have htwo : (eShnum (kernelMachine codeAndBss).mem 0x200000).toNat = 2 := by decide +kernel
  have hdisjoint : DisjointSections (kernelMachine codeAndBss).mem 0x200000 := by
    intro i j hij hj _ _ x h1 h2 h3 h4
    obtain rfl : i = 0 := by omega
    obtain rfl : j = 1 := by omega
    have hfirst : (addresses (kernelMachine codeAndBss).mem
        (shdr (kernelMachine codeAndBss).mem 0x200000 0)).2 = 0xFFFFFFFF80000004 := by
      decide +kernel
    have hsecond : (addresses (kernelMachine codeAndBss).mem
        (shdr (kernelMachine codeAndBss).mem 0x200000 1)).1 = 0xFFFFFFFF80001000 := by
      decide +kernel
    omega
  have hblocks : BlocksApart (kernelMachine codeAndBss).pml4Table 0x200000 196
      (load 3 (kernelMachine codeAndBss) 0x200000).2.allocs := by
    rw [codeAndBss_log]
    exact blocksApart_of_bounds (by decide +kernel) (by decide +kernel) (by decide +kernel)
      (by decide +kernel)
  have hbuilt : Built (kernelMachine codeAndBss) := built_zeroed _ _
  refine (load_entry_iff hbuilt hfile hdisjoint (by omega) hblocks).mpr ?_
  have hholds : HoldsEntry (kernelMachine codeAndBss).mem 0x200000 0 :=
    ⟨by decide +kernel, by decide +kernel, by decide +kernel, by decide +kernel⟩
  have haccepted : Accepted (kernelMachine codeAndBss).mem 0x200000 0 :=
    ⟨by decide +kernel, by decide +kernel, by decide +kernel, by decide +kernel⟩
  -- the section of zeros has no bytes in the file and is never accepted
  have honly : ∀ j, LastAccepted (kernelMachine codeAndBss).mem 0x200000 j → j = 0 := by
    intro j hj
    have hlt := hj.1.lt
    have hbss : shType (kernelMachine codeAndBss).mem
        (shdr (kernelMachine codeAndBss).mem 0x200000 1) ≠ shtProgbits := by decide +kernel
    rcases (show j = 0 ∨ j = 1 by omega) with rfl | rfl
    · rfl
    · exact absurd hj.1.progbits hbss
  constructor
  · exact fun hno => absurd haccepted (hno 0)
  · intro j hj
    rw [honly j hj]
    decide +kernel
  · intro j hj
    rw [honly j hj]
    exact Or.inl hholds

/-- An image of two adjacent sections.  The first one starts at `e_entry`, where the second one
ends. -/
def adjacentKernel : Mem :=
  [(0x200000, 4, 0x464c457f), (0x200010, 2, 2), (0x200012, 2, 62), (0x200018, 8, 0xFFFFFFFF80001000),
    (0x200028, 8, 64), (0x20003a, 2, 64), (0x20003c, 2, 2),
    (0x200044, 4, 1), (0x200050, 8, 0xFFFFFFFF80001000), (0x200058, 8, 192), (0x200060, 8, 4),
    (0x200084, 4, 1), (0x200090, 8, 0xFFFFFFFF80000FFC), (0x200098, 8, 196), (0x2000a0, 8, 4)].foldl
      (fun m w => m.store w.1 w.2.1 w.2.2) fun _ => 0

/-- The second section overrides the entry point with the end of its block, 0x1007004 instead of
0x1000000. -/
theorem adjacentKernel_not_right :
    ElfFile (kernelMachine adjacentKernel).mem 0x200000 200 ∧
      DisjointSections (kernelMachine adjacentKernel).mem 0x200000 ∧
      BlocksApart 0x10000 0x200000 200 (load 3 (kernelMachine adjacentKernel) 0x200000).2.allocs ∧
      (load 3 (kernelMachine adjacentKernel) 0x200000).1 = .returned 0x1007004 ∧
      ¬ RightEntry (kernelMachine adjacentKernel) 0x200000
        (load 3 (kernelMachine adjacentKernel) 0x200000).1 := by
  have htwo : (eShnum (kernelMachine adjacentKernel).mem 0x200000).toNat = 2 := by decide +kernel
  have hresult : (load 3 (kernelMachine adjacentKernel) 0x200000).1 = .returned 0x1007004 := by
    decide +kernel
  refine ⟨⟨by decide, by decide, by decide +kernel, by decide +kernel⟩, ?_, ?_, hresult, ?_⟩
  · -- the second section ends where the first one starts
    intro i j hij hj _ _ x h1 h2 h3 h4
    obtain rfl : i = 0 := by omega
    obtain rfl : j = 1 := by omega
    have hfirst : (addresses (kernelMachine adjacentKernel).mem
        (shdr (kernelMachine adjacentKernel).mem 0x200000 0)).1 = 0xFFFFFFFF80001000 := by
      decide +kernel
    have hsecond : (addresses (kernelMachine adjacentKernel).mem
        (shdr (kernelMachine adjacentKernel).mem 0x200000 1)).2 = 0xFFFFFFFF80001000 := by
      decide +kernel
    omega
  · have hlog : (load 3 (kernelMachine adjacentKernel) 0x200000).2.allocs =
        [(0x1000000, 4), (0x1001000, 4096), (0x1002000, 4096), (0x1003000, 4096),
          (0x1004000, 4096), (0x1005000, 4096), (0x1006000, 4096), (0x1007000, 4)] := by
      decide +kernel
    rw [hlog]
    exact blocksApart_of_bounds (by decide +kernel) (by decide +kernel) (by decide +kernel)
      (by decide +kernel)
  · -- the first section contains the entry point, and its block starts at 16 MB
    rw [hresult]
    intro hright
    obtain ⟨entry, hreturned, hinside, -⟩ := hright
    obtain rfl := Outcome.returned.inj hreturned
    have hholds : HoldsEntry (kernelMachine adjacentKernel).mem 0x200000 0 :=
      ⟨by decide +kernel, by decide +kernel, by decide +kernel, by decide +kernel⟩
    have hvalue := hinside 0 hholds
    have hblock : (sectionBlock (kernelMachine adjacentKernel) 0x200000 0).toNat +
        ((eEntry (kernelMachine adjacentKernel).mem 0x200000).toNat -
          (shAddr (kernelMachine adjacentKernel).mem
            (shdr (kernelMachine adjacentKernel).mem 0x200000 0)).toNat) = 0x1000000 := by
      decide +kernel
    rw [hblock] at hvalue
    exact absurd hvalue (by decide)

end Elf
end Loader
end ZineOS
