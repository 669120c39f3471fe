import ZineOS.Loader.Virtual
import ZineOS.Loader.FrameOwnership
import ZineOS.Lib.RadixTree

/-!
# The page tables as a radix tree

The tables that `Map` builds are a radix tree of three upper levels stored in physical memory: the
frames are the tables, the nine-bit indices of a virtual address are a path.

Two parties read the entries, each in its own format.  The processor follows an entry that is present
and has bit 7 clear (`pageFormat`), `Map` follows any entry that is not zero (`mapFormat`).  For both
an entry names the frame of its bits 12-51 (`NamesFrames`), and the tree is theirs alike; with the
flags that the loader passes the two agree.

* `TablesIn F s tables` ties the machine to the tree library: `tables` are the frame numbers in use
  as tables, all of them the PML4 or frames that `Frame::Alloc` handed out.  `PageTables` is the
  processor's.
* `Grows` is what any step of `Map` before its last store does: it may add tables, and it changes no
  leaf and no byte outside the tables.
* `descend_grows` proves it for one level, `storeLeaf_spec` says what the store into the leaf does.
-/

namespace ZineOS
namespace Loader
namespace VirtualMemory

open Lib
open Lib.RadixTree (follow lookup setEntry)

/-- The page-table entries as an entry format of the tree library. -/
def pageFormat : EntryFormat Nat Word64 Word64 where
  next := nextTable
  leaf := leafEntry
  empty := 0
  next_empty := by decide
  leaf_empty := by decide

/-- The entries as `Map` takes them: any entry that is not zero is used. -/
def mapFormat : EntryFormat Nat Word64 Word64 where
  next := fun e => if e = 0 then none else some (entryFrame e)
  leaf := fun e => if e = 0 then none else some e
  empty := 0
  next_empty := if_pos rfl
  leaf_empty := if_pos rfl

/-- A format in which zero is the empty entry and every other table is named by bits 12-51. -/
class NamesFrames (F : EntryFormat Nat Word64 Word64) : Prop where
  empty_eq : F.empty = 0
  next_eq : ∀ {e u}, F.next e = some u → entryFrame e = u

instance : NamesFrames pageFormat where
  empty_eq := rfl
  next_eq := by
    intro e u h
    change nextTable e = some u at h
    unfold nextTable at h
    split at h
    · exact Option.some.inj h
    · exact absurd h (by simp)

instance : NamesFrames mapFormat where
  empty_eq := rfl
  next_eq := by
    intro e u h
    by_cases he : e = 0
    · exact absurd ((if_pos he).symm.trans h) (by simp)
    · exact Option.some.inj ((if_neg he).symm.trans h)

/-- The path through the upper levels that a virtual address selects. -/
def upperPath (v : Word64) : List (BitVec 9) :=
  [v.extractLsb' 39 9, v.extractLsb' 30 9, v.extractLsb' 21 9]

/-- The processor's walk is a lookup in the tree. -/
theorem walk_eq_lookup (m : Mem) (cr3 : Nat) (v : Word64) :
    walk m cr3 v =
      lookup pageFormat (entryAt m) (cr3 / 0x1000) (upperPath v) (v.extractLsb' 12 9) := by
  simp only [walk, lookup, upperPath, follow, pageFormat, Option.bind_eq_bind, Option.bind_assoc]
  rfl

/-! ## Entries -/

/-- Flags made of PRESENT and any of bits 1-6 and 8. -/
def IsMapFlags (flags : Word64) : Prop := flags &&& 1 = 1 ∧ flags &&& ~~~0x17f = 0

instance (flags : Word64) : Decidable (IsMapFlags flags) := inferInstanceAs (Decidable (_ ∧ _))

theorem IsMapFlags.getLsbD_zero {flags : Word64} (h : IsMapFlags flags) :
    flags.getLsbD 0 = true := by
  have hbit := congrArg (fun x => BitVec.getLsbD x 0) h.1
  simpa using hbit

theorem IsMapFlags.and_mask {flags : Word64} (h : IsMapFlags flags) : flags &&& 0x17f = flags :=
  Words.and_eq_self_of_and_not h.2

theorem IsMapFlags.getLsbD_seven {flags : Word64} (h : IsMapFlags flags) :
    flags.getLsbD 7 = false := by
  rw [← h.and_mask, BitVec.getLsbD_and, show (0x17f : Word64).getLsbD 7 = false by decide,
    Bool.and_false]

theorem IsMapFlags.toNat_lt {flags : Word64} (h : IsMapFlags flags) : flags.toNat < 2 ^ 12 := by
  rw [← h.and_mask, BitVec.toNat_and]
  exact lt_of_le_of_lt Nat.and_le_right (by decide)

theorem toNat_extractLsb' {w : Nat} (x : BitVec w) (start len : Nat) :
    (x.extractLsb' start len).toNat = x.toNat / 2 ^ start % 2 ^ len := by
  rw [BitVec.extractLsb'_toNat, Nat.shiftRight_eq_div_pow]

theorem toNat_entryFrame (e : Word64) : entryFrame e = e.toNat / 0x1000 % 2 ^ 40 :=
  toNat_extractLsb' e 12 40

/-- An address with flags in its low bits, as an entry: frame, flags and presence. -/
theorem entryFrame_or {a flags : Word64} (ha : a.toNat % 0x1000 = 0) (hlt : a.toNat < 2 ^ 52)
    (hflags : IsMapFlags flags) : entryFrame (a ||| flags) = a.toNat / 0x1000 := by
  have hsmall := hflags.toNat_lt
  rw [toNat_entryFrame, Words.toNat_or_of_aligned (k := 12) ha hsmall]
  omega

theorem and_addressMask {a : Word64} (ha : a.toNat % 0x1000 = 0) (hlt : a.toNat < 2 ^ 52) :
    a &&& addressMask = a := by
  have hmask : addressMask = BitVec.ofNat 64 (2 ^ 52 - 1) &&& ~~~BitVec.ofNat 64 (2 ^ 12 - 1) := by
    decide
  have hlow : a &&& BitVec.ofNat 64 (2 ^ 52 - 1) = a := by
    apply BitVec.eq_of_toNat_eq
    rw [Words.toNat_and_lowMask a (by omega), Nat.mod_eq_of_lt hlt]
  rw [hmask, ← BitVec.and_assoc, hlow]
  apply BitVec.eq_of_toNat_eq
  rw [Words.toNat_and_not_lowMask]
  omega

theorem entryFlags_or {a : Word64} (ha : a.toNat % 0x1000 = 0) (hlt : a.toNat < 2 ^ 52)
    (flags : Word64) : entryFlags (a ||| flags) = entryFlags flags := by
  have haddr : a &&& ~~~addressMask = 0 := by
    rw [← and_addressMask ha hlt, BitVec.and_assoc, show addressMask &&& ~~~addressMask = 0 by decide]
    exact BitVec.and_zero
  unfold entryFlags
  rw [BitVec.and_or_distrib_right, haddr]
  exact BitVec.zero_or

theorem IsMapFlags.entryFlags_eq {flags : Word64} (h : IsMapFlags flags) :
    entryFlags flags = flags := by
  unfold entryFlags
  rw [← h.and_mask, BitVec.and_assoc]
  congr 1

theorem getLsbD_zero_or (a : Word64) {flags : Word64} (hflags : IsMapFlags flags) :
    (a ||| flags).getLsbD 0 = true := by
  rw [BitVec.getLsbD_or, hflags.getLsbD_zero, Bool.or_true]

theorem nextTable_or {a flags : Word64} (ha : a.toNat % 0x1000 = 0) (hlt : a.toNat < 2 ^ 52)
    (hflags : IsMapFlags flags) : nextTable (a ||| flags) = some (a.toNat / 0x1000) := by
  have hseven : (a ||| flags).getLsbD 7 = false := by
    rw [BitVec.getLsbD_or, hflags.getLsbD_seven, Words.getLsbD_of_aligned (k := 12) ha (by omega)]
    rfl
  unfold nextTable
  rw [getLsbD_zero_or a hflags, hseven, entryFrame_or ha hlt hflags]
  rfl

/-- The address of a frame below 4 GB. -/
theorem toNat_frameAddress {u : Nat} (hu : u < 2 ^ 20) :
    (BitVec.ofNat 64 (u * 0x1000)).toNat = u * 0x1000 := by
  rw [BitVec.toNat_ofNat]
  omega

theorem setWidth_frameAddress {ptr : Word32} {u : Nat} (hptr : ptr.toNat = u * 0x1000) :
    ptr.setWidth 64 = BitVec.ofNat 64 (u * 0x1000) := by
  have hlt := ptr.isLt
  apply BitVec.eq_of_toNat_eq
  rw [BitVec.toNat_setWidth, BitVec.toNat_ofNat, hptr]

theorem nextTable_frame {u : Nat} (hu : u < 2 ^ 20) {flags : Word64} (hflags : IsMapFlags flags) :
    nextTable (BitVec.ofNat 64 (u * 0x1000) ||| flags) = some u := by
  have hvalue := toNat_frameAddress hu
  rw [nextTable_or (by rw [hvalue]; omega) (by rw [hvalue]; omega) hflags, hvalue,
    Nat.mul_div_cancel _ (by decide)]

theorem leafEntry_or (a : Word64) {flags : Word64} (hflags : IsMapFlags flags) :
    leafEntry (a ||| flags) = some (a ||| flags) := by
  unfold leafEntry
  rw [getLsbD_zero_or a hflags]
  rfl

/-! ## Stores into a table -/

/-- Two entries are the same or share no byte. -/
theorem entryAt_store (m : Mem) (t : Nat) (i : BitVec 9) (v : Word64) :
    entryAt (m.store (t * 0x1000 + 8 * i.toNat) 8 v.toNat) = setEntry (entryAt m) t i v := by
  funext u j
  have hi := i.isLt
  have hj := j.isLt
  unfold entryAt setEntry
  by_cases hslot : u = t ∧ j = i
  · obtain ⟨rfl, rfl⟩ := hslot
    rw [if_pos ⟨rfl, rfl⟩, Mem.load_store_same]
    show BitVec.ofNat 64 (v.toNat % 2 ^ 64) = v
    rw [Nat.mod_eq_of_lt v.isLt, BitVec.ofNat_toNat, BitVec.setWidth_eq]
  · have hother : u ≠ t ∨ j.toNat ≠ i.toNat := by
      by_contra hsame
      push Not at hsame
      exact hslot ⟨hsame.1, BitVec.eq_of_toNat_eq hsame.2⟩
    rw [if_neg hslot, Mem.load_store_of_disjoint]
    omega

/-- A zeroed frame is an empty table, and no other table sees the zeroing. -/
theorem entryAt_memzero (m : Mem) {ptr : Word32} {u : Nat} (hptr : ptr.toNat = u * 0x1000) (t : Nat)
    (i : BitVec 9) :
    entryAt (memzero m ptr 4096) t i = if t = u then 0 else entryAt m t i := by
  have hi := i.isLt
  unfold entryAt memzero
  rw [hptr]
  by_cases ht : t = u
  · rw [if_pos ht, Mem.load_fill_zero (by omega)]
    rfl
  · rw [if_neg ht, Mem.load_fill_of_disjoint (by omega)]

theorem toNat_slot {table index : Word32} {t : Nat} {i : BitVec 9} (htable : table.toNat = t * 0x1000)
    (hindex : index.toNat = i.toNat) : (slot table index).toNat = t * 0x1000 + 8 * i.toNat := by
  have hi := i.isLt
  have hlt := table.isLt
  have height : (8 * index).toNat = 8 * i.toNat := by
    rw [BitVec.toNat_mul, hindex]
    exact Nat.mod_eq_of_lt (by simp; omega)
  unfold slot
  rw [BitVec.toNat_add, height, htable, Nat.mod_eq_of_lt (by omega)]

theorem load64_slot {m : Mem} {table index : Word32} {t : Nat} {i : BitVec 9}
    (htable : table.toNat = t * 0x1000) (hindex : index.toNat = i.toNat) :
    load64 m (slot table index) = entryAt m t i := by
  unfold load64 entryAt
  rw [toNat_slot htable hindex]

theorem entryAt_store64 {m : Mem} {table index : Word32} {t : Nat} {i : BitVec 9} (v : Word64)
    (htable : table.toNat = t * 0x1000) (hindex : index.toNat = i.toNat) :
    entryAt (store64 m (slot table index) v) = setEntry (entryAt m) t i v := by
  unfold store64
  rw [toNat_slot htable hindex, entryAt_store]

/-- The nine bits that `Map` extracts from the floored address are those of the address itself. -/
theorem toNat_tableIndex (virt : Word64) {shift : Nat} (h : 12 ≤ shift) :
    (tableIndex (alignFloor virt 0x1000) shift).toNat = (virt.extractLsb' shift 9).toNat := by
  have hmask := Words.toNat_and_lowMask (alignFloor virt 0x1000 >>> shift) (k := 9) (by omega)
  obtain ⟨d, rfl⟩ := Nat.exists_eq_add_of_le h
  have hfloor : virt.toNat / 2 ^ 12 * 2 ^ 12 / 2 ^ (12 + d) = virt.toNat / 2 ^ (12 + d) := by
    rw [pow_add, ← Nat.div_div_eq_div_mul, Nat.mul_div_cancel _ (by decide),
      Nat.div_div_eq_div_mul]
  unfold tableIndex
  rw [BitVec.toNat_setWidth, show (0x1ff : Word64) = BitVec.ofNat 64 (2 ^ 9 - 1) by decide, hmask,
    BitVec.toNat_ushiftRight, Nat.shiftRight_eq_div_pow, toNat_alignFloor, toNat_extractLsb']
  have hlt := Nat.mod_lt (virt.toNat / 2 ^ (12 + d)) (show 0 < 2 ^ 9 by decide)
  rw [show pageDown virt.toNat = virt.toNat / 2 ^ 12 * 2 ^ 12 from rfl, hfloor,
    Nat.mod_eq_of_lt (by omega)]

/-- `Frame::Alloc` hands out page-aligned addresses. -/
theorem alloc_aligned (t : Frame.Table) (maxAddr size type : Word64) :
    (Frame.alloc t maxAddr size type).1.toNat % 0x1000 = 0 := by
  rcases Frame.alloc_cases t maxAddr size type with ⟨i, -, -, -, heq⟩ | ⟨-, heq⟩
  · rw [heq]
    exact Frame.toNat_allocStart_mod t i
  · rw [heq]
    rfl

theorem frame_of_alloc {t t' : Frame.Table} {maxAddr size type : Word64} {ptr : Word32}
    (halloc : Frame.alloc t maxAddr size type = (ptr, t')) : ∃ u, ptr.toNat = u * 0x1000 := by
  have hmod : ptr.toNat % 0x1000 = 0 := by
    have haligned := alloc_aligned t maxAddr size type
    rwa [halloc] at haligned
  exact ⟨ptr.toNat / 0x1000, by omega⟩

/-! ## The invariant -/

/-- The blocks handed out since the PML4: none is null, and they are disjoint from one another and
from the PML4. -/
def Separate (pml4 : Word32) (log : List (Word32 × Word64)) : Prop :=
  (∀ a ∈ log, a.1 ≠ 0) ∧
    ((pml4, 4096) :: log).Pairwise fun a b =>
      Frame.Range.Disjoint (Frame.block a.1 a.2) (Frame.block b.1 b.2)

theorem Separate.of_prefix {pml4 : Word32} {log log' : List (Word32 × Word64)}
    (h : Separate pml4 log') (hlog : log <+: log') : Separate pml4 log := by
  obtain ⟨more, rfl⟩ := hlog
  refine ⟨fun a ha => h.1 a (List.mem_append_left _ ha), ?_⟩
  have hpair := h.2
  rw [← List.cons_append] at hpair
  exact (List.pairwise_append.mp hpair).1

/-- Blocks handed out later are disjoint from the PML4 and from the earlier ones. -/
theorem Separate.later {pml4 : Word32} {log new : List (Word32 × Word64)}
    (h : Separate pml4 (log ++ new)) {a b : Word32 × Word64} (ha : a ∈ (pml4, 4096) :: log)
    (hb : b ∈ new) : Frame.Range.Disjoint (Frame.block a.1 a.2) (Frame.block b.1 b.2) := by
  have hpair := h.2
  rw [← List.cons_append] at hpair
  exact (List.pairwise_append.mp hpair).2.2 a ha b hb

/-- The page tables of a machine: a tree whose tables are the PML4 and blocks of `Alloc`. -/
structure TablesIn (F : EntryFormat Nat Word64 Word64) (s : Machine) (tables : List Nat) :
    Prop where
  aligned : s.pml4Table.toNat % 0x1000 = 0
  tree : RadixTree.Tree F (entryAt s.mem) (s.pml4Table.toNat / 0x1000) 3 tables
  owned : ∀ t ∈ tables, ∃ a ∈ (s.pml4Table, 4096) :: s.allocs, a.1.toNat = t * 0x1000 ∧ a.2 = 4096

/-- The page tables as the processor reads them. -/
abbrev PageTables (s : Machine) (tables : List Nat) : Prop := TablesIn pageFormat s tables

/-- The table a path leads to. -/
abbrev Machine.followIn (F : EntryFormat Nat Word64 Word64) (s : Machine) (p : List (BitVec 9)) :
    Option Nat :=
  RadixTree.follow F (entryAt s.mem) (s.pml4Table.toNat / 0x1000) p

/-- The leaf entry at the end of a path. -/
abbrev Machine.lookupIn (F : EntryFormat Nat Word64 Word64) (s : Machine) (p : List (BitVec 9))
    (i : BitVec 9) : Option Word64 :=
  RadixTree.lookup F (entryAt s.mem) (s.pml4Table.toNat / 0x1000) p i

/-- The table the processor finds at the end of a path. -/
abbrev Machine.follow (s : Machine) (p : List (BitVec 9)) : Option Nat :=
  RadixTree.follow pageFormat (entryAt s.mem) (s.pml4Table.toNat / 0x1000) p

section

variable {F : EntryFormat Nat Word64 Word64}

/-- From `s` to `s'`, the frames allocated and the tables added are the same ones. -/
def TablesLogged (s s' : Machine) (tables tables' : List Nat) : Prop :=
  ∃ new, s'.allocs = s.allocs ++ new ∧ (∀ a ∈ new, a.1.toNat / 0x1000 ∈ tables') ∧
    ∀ t ∈ tables', t ∈ tables ∨ ∃ a ∈ new, a.1.toNat = t * 0x1000 ∧ a.2 = 4096

theorem TablesLogged.refl (s : Machine) (tables : List Nat) : TablesLogged s s tables tables :=
  ⟨[], by simp, by simp, fun _ ht => Or.inl ht⟩

theorem TablesLogged.trans {s s' s'' : Machine} {tables tables' tables'' : List Nat}
    (h : TablesLogged s s' tables tables') (h' : TablesLogged s' s'' tables' tables'')
    (hkept : tables' ⊆ tables'') : TablesLogged s s'' tables tables'' := by
  obtain ⟨new, hnew, hin, hadded⟩ := h
  obtain ⟨new', hnew', hin', hadded'⟩ := h'
  refine ⟨new ++ new', by rw [hnew', hnew, List.append_assoc], fun a ha => ?_, fun t ht => ?_⟩
  · rcases List.mem_append.mp ha with ha | ha
    · exact hkept (hin a ha)
    · exact hin' a ha
  · rcases hadded' t ht with hold | ⟨a, ha, hblock⟩
    · rcases hadded t hold with hfirst | ⟨a, ha, hblock⟩
      · exact Or.inl hfirst
      · exact Or.inr ⟨a, List.mem_append_left _ ha, hblock⟩
    · exact Or.inr ⟨a, List.mem_append_right _ ha, hblock⟩

theorem next_zero [NamesFrames F] : F.next 0 = none := by
  rw [← NamesFrames.empty_eq (F := F)]
  exact F.next_empty

/-- An entry of an upper table that names no table is zero. -/
theorem TablesIn.empty_of_next [NamesFrames F] {s : Machine} {tables : List Nat}
    (h : TablesIn F s tables) {p : List (BitVec 9)} (hlen : p.length < 3) {t : Nat}
    (hp : Machine.followIn F s p = some t) {i : BitVec 9} (hnext : F.next (entryAt s.mem t i) = none) :
    entryAt s.mem t i = 0 :=
  (h.tree.absent p t i hlen hp hnext).trans NamesFrames.empty_eq

theorem mem_block_of_frame {a : Word32 × Word64} {t x : Nat} (haddr : a.1.toNat = t * 0x1000)
    (hsize : a.2 = 4096) (hx : x / 0x1000 = t) :
    (Frame.block a.1 a.2).1 ≤ x ∧ x < (Frame.block a.1 a.2).2 := by
  have hpage : pageUp (4096 : Word64).toNat = 0x1000 := by decide
  simp only [Frame.block, hsize, haddr, hpage]
  omega

/-- Addresses outside the PML4 and every block lie in no table. -/
theorem TablesIn.not_mem_of_disjoint {s : Machine} {tables : List Nat} (h : TablesIn F s tables)
    {r : Frame.Range}
    (hr : ∀ a ∈ (s.pml4Table, 4096) :: s.allocs, Frame.Range.Disjoint (Frame.block a.1 a.2) r)
    {x : Nat} (hlo : r.1 ≤ x) (hhi : x < r.2) : x / 0x1000 ∉ tables := by
  intro ht
  obtain ⟨a, ha, haddr, hsize⟩ := h.owned _ ht
  obtain ⟨h1, h2⟩ := mem_block_of_frame haddr hsize rfl
  exact hr a ha x h1 h2 hlo hhi

/-- Addresses that lie in no table and in no new block lie in no new table. -/
theorem TablesLogged.not_mem {s s' : Machine} {tables tables' : List Nat}
    (h : TablesLogged s s' tables tables') {r : Frame.Range}
    (hr : ∀ new, s'.allocs = s.allocs ++ new → ∀ a ∈ new,
      Frame.Range.Disjoint (Frame.block a.1 a.2) r)
    {x : Nat} (hlo : r.1 ≤ x) (hhi : x < r.2) (hx : x / 0x1000 ∉ tables) :
    x / 0x1000 ∉ tables' := by
  obtain ⟨new, hnew, -, hadded⟩ := h
  intro ht
  rcases hadded _ ht with hold | ⟨a, ha, haddr, hsize⟩
  · exact hx hold
  · obtain ⟨h1, h2⟩ := mem_block_of_frame haddr hsize rfl
    exact hr new hnew a ha x h1 h2 hlo hhi

theorem entryAt_congr {m m' : Mem} {t : Nat} (h : ∀ x, x / 0x1000 = t → m x = m' x)
    (i : BitVec 9) : entryAt m t i = entryAt m' t i := by
  have hi := i.isLt
  have hagree : Mem.AgreeOn m m' (t * 0x1000 + 8 * i.toNat) 8 := fun x hlo hhi => h x (by omega)
  unfold entryAt
  rw [Mem.load_congr hagree]

/-- Writes outside the tables change no entry of them. -/
theorem entryAt_congr_of_tables {s s' : Machine} {tables : List Nat}
    (hmem : ∀ x, x / 0x1000 ∈ tables → s'.mem x = s.mem x) :
    ∀ t ∈ tables, ∀ i, entryAt s'.mem t i = entryAt s.mem t i :=
  fun _ ht i => entryAt_congr (fun x hx => hmem x (hx ▸ ht)) i

/-- Writes outside the tables leave the tables as they are. -/
theorem TablesIn.of_agree {s s' : Machine} {tables : List Nat} (h : TablesIn F s tables)
    (hpml4 : s'.pml4Table = s.pml4Table) (hlog : s.allocs ⊆ s'.allocs)
    (hmem : ∀ x, x / 0x1000 ∈ tables → s'.mem x = s.mem x) : TablesIn F s' tables := by
  refine ⟨hpml4 ▸ h.aligned, ?_, ?_⟩
  · rw [hpml4]
    exact h.tree.congr (entryAt_congr_of_tables hmem)
  · intro t ht
    obtain ⟨a, ha, hblock⟩ := h.owned t ht
    refine ⟨a, ?_, hblock⟩
    rw [hpml4]
    rcases List.mem_cons.mp ha with rfl | ha
    · exact List.mem_cons_self ..
    · exact List.mem_cons_of_mem _ (hlog ha)

/-- Writes outside the tables change neither the tables nor the translations. -/
theorem PageTables.congr {s s' : Machine} {tables : List Nat} (h : PageTables s tables)
    (hpml4 : s'.pml4Table = s.pml4Table) (hlog : s.allocs ⊆ s'.allocs)
    (hmem : ∀ x, x / 0x1000 ∈ tables → s'.mem x = s.mem x) :
    PageTables s' tables ∧ ∀ v, translate s'.mem s.pml4Table.toNat v =
      translate s.mem s.pml4Table.toNat v := by
  refine ⟨h.of_agree hpml4 hlog hmem, fun v => ?_⟩
  unfold translate
  rw [walk_eq_lookup, walk_eq_lookup,
    h.tree.lookup_congr (entryAt_congr_of_tables hmem) (by simp [upperPath])]

/-- What `Map` does on its way to the leaf. -/
structure Grows (F : EntryFormat Nat Word64 Word64) (s s' : Machine) (tables tables' : List Nat) :
    Prop where
  inv : TablesIn F s' tables'
  pml4 : s'.pml4Table = s.pml4Table
  kept : tables ⊆ tables'
  /-- every frame that was allocated has become a table, and there are no other new tables -/
  log : TablesLogged s s' tables tables'
  follow : ∀ q t, q.length ≤ 3 → Machine.followIn F s q = some t → Machine.followIn F s' q = some t
  lookup : ∀ q i, q.length = 3 → Machine.lookupIn F s' q i = Machine.lookupIn F s q i
  frame : ∀ x, x / 0x1000 ∉ tables' → s'.mem x = s.mem x

theorem Grows.refl {s : Machine} {tables : List Nat} (h : TablesIn F s tables) :
    Grows F s s tables tables where
  inv := h
  pml4 := rfl
  kept := List.Subset.refl _
  log := TablesLogged.refl s tables
  follow := fun _ _ _ h => h
  lookup := fun _ _ _ => rfl
  frame := fun _ _ => rfl

theorem Grows.trans {s s' s'' : Machine} {tables tables' tables'' : List Nat}
    (h : Grows F s s' tables tables') (h' : Grows F s' s'' tables' tables'') :
    Grows F s s'' tables tables'' where
  inv := h'.inv
  pml4 := h'.pml4.trans h.pml4
  kept := List.Subset.trans h.kept h'.kept
  log := h.log.trans h'.log h'.kept
  follow := fun q t hlen hq => h'.follow q t hlen (h.follow q t hlen hq)
  lookup := fun q i hq => (h'.lookup q i hq).trans (h.lookup q i hq)
  frame := fun x hx => (h'.frame x hx).trans (h.frame x fun hin => hx (h'.kept hin))

/-! ## One level -/

/-- The next `n` whole pages that `Frame::Alloc` returns, and the frame table after them. -/
def pageRun : Nat → Frame.Table → List (Word32 × Word64) × Frame.Table
  | 0, t => ([], t)
  | n + 1, t =>
      let r := Frame.alloc t Frame.frameNoLimit 4096 Frame.frameUsed
      let rest := pageRun n r.2
      ((r.1, 4096) :: rest.1, rest.2)

theorem pageRun_add (m n : Nat) (t : Frame.Table) :
    pageRun (m + n) t =
      ((pageRun m t).1 ++ (pageRun n (pageRun m t).2).1, (pageRun n (pageRun m t).2).2) := by
  induction m generalizing t with
  | zero => simp [pageRun]
  | succ m ih =>
      rw [Nat.succ_add, pageRun, ih]
      rfl

theorem pageRun_pages {n : Nat} {t : Frame.Table} {a : Word32 × Word64}
    (ha : a ∈ (pageRun n t).1) : a.1.toNat % 0x1000 = 0 ∧ a.2 = 4096 := by
  induction n generalizing t with
  | zero => simp [pageRun] at ha
  | succ n ih =>
      rcases List.mem_cons.mp ha with rfl | ha
      · exact ⟨alloc_aligned .., rfl⟩
      · exact ih ha

/-- From `s` to `s'`, at most `n` whole pages have been allocated and nothing else. -/
def Logged (n : Nat) (s s' : Machine) : Prop :=
  ∃ k ≤ n, s'.allocs = s.allocs ++ (pageRun k s.frame).1 ∧ s'.frame = (pageRun k s.frame).2

theorem Logged.refl (s : Machine) : Logged 0 s s := ⟨0, le_rfl, by simp [pageRun]⟩

theorem Logged.trans {m n : Nat} {s s' s'' : Machine} (h : Logged m s s') (h' : Logged n s' s'') :
    Logged (m + n) s s'' := by
  obtain ⟨j, hj, hlog, hframe⟩ := h
  obtain ⟨k, hk, hlog', hframe'⟩ := h'
  refine ⟨j + k, by omega, ?_, ?_⟩
  · rw [hlog', hlog, hframe, pageRun_add, List.append_assoc]
  · rw [hframe', hframe, pageRun_add]

theorem Logged.isPrefix {n : Nat} {s s' : Machine} (h : Logged n s s') : s.allocs <+: s'.allocs := by
  obtain ⟨k, -, hlog, -⟩ := h
  exact ⟨_, hlog.symm⟩

theorem logged_descend {s s' : Machine} {table index ptr : Word32} {flags : Word64}
    (h : descend s table index flags = (ptr, s')) : Logged 1 s s' := by
  have hs' : s' = (descend s table index flags).2 := by rw [h]
  rw [hs']
  unfold descend
  by_cases hzero : load64 s.mem (slot table index) = 0
  · simp only [if_pos hzero, Machine.alloc]
    exact ⟨1, le_rfl, rfl, rfl⟩
  · simp only [if_neg hzero]
    exact ⟨0, Nat.zero_le _, by simp [pageRun]⟩

theorem pml4Table_descend {s s' : Machine} {table index ptr : Word32} {flags : Word64}
    (h : descend s table index flags = (ptr, s')) : s'.pml4Table = s.pml4Table := by
  have hs' : s' = (descend s table index flags).2 := by rw [h]
  rw [hs']
  unfold descend
  by_cases hzero : load64 s.mem (slot table index) = 0
  · rw [if_pos hzero]
    rfl
  · rw [if_neg hzero]

/-- A frame disjoint from the PML4 and every earlier block is none of the tables made of them. -/
theorem Separate.fresh {pml4 : Word32} {log : List (Word32 × Word64)} {tables : List Nat}
    {ptr : Word32} {u : Nat} (hsep : Separate pml4 (log ++ [(ptr, 4096)]))
    (howned : ∀ t ∈ tables, ∃ a ∈ (pml4, 4096) :: log, a.1.toNat = t * 0x1000 ∧ a.2 = 4096)
    (hptr : ptr.toNat = u * 0x1000) : u ∉ tables := by
  intro hu
  obtain ⟨a, ha, haddr, hsize⟩ := howned u hu
  have hapart := hsep.later ha (List.mem_singleton_self _) ptr.toNat
  simp only [Frame.block, haddr, hptr, hsize] at hapart
  have hpage : 0 < pageUp (4096 : Word64).toNat := by decide
  exact hapart le_rfl (Nat.lt_add_of_pos_right hpage) le_rfl (Nat.lt_add_of_pos_right hpage)

/-- The frame that was handed out from `s` to `s'`, if any, is not one of the tables, and with these
flags an entry names it. -/
def FreshAlloc (F : EntryFormat Nat Word64 Word64) (flags : Word64) (s s' : Machine)
    (tables : List Nat) : Prop :=
  ∀ ptr u, s'.allocs = s.allocs ++ [(ptr, 4096)] → ptr.toNat = u * 0x1000 →
    u ∉ tables ∧ F.next (ptr.setWidth 64 ||| flags) = some u

/-- With these flags an entry names the frame of each block that was handed out from `s` to `s'`. -/
def FramesNamed (F : EntryFormat Nat Word64 Word64) (flags : Word64) (s s' : Machine) : Prop :=
  ∀ a ∈ s'.allocs.drop s.allocs.length, ∀ u, a.1.toNat = u * 0x1000 →
    F.next (a.1.setWidth 64 ||| flags) = some u

theorem FramesNamed.mono {s s' r r' : Machine} {flags : Word64} (h : FramesNamed F flags s s')
    (hfirst : s.allocs <+: r.allocs) (hstep : r.allocs <+: r'.allocs)
    (hlast : r'.allocs <+: s'.allocs) : FramesNamed F flags r r' := by
  obtain ⟨before, hbefore⟩ := hfirst
  obtain ⟨new, hnew⟩ := hstep
  obtain ⟨after, hafter⟩ := hlast
  intro a ha u hu
  rw [← hnew, List.drop_left] at ha
  refine h a ?_ u hu
  rw [← hafter, ← hnew, ← hbefore, List.append_assoc, List.append_assoc, List.drop_left]
  exact List.mem_append_right _ (List.mem_append_left _ ha)

/-- With the flags that the loader passes the processor follows every new entry. -/
theorem framesNamed_of_mapFlags {flags : Word64} (hflags : IsMapFlags flags) (s s' : Machine) :
    FramesNamed pageFormat flags s s' := by
  intro a _ u hu
  have hlt := a.1.isLt
  rw [setWidth_frameAddress hu]
  exact nextTable_frame (by omega) hflags

theorem TablesIn.freshAlloc {s s' : Machine} {tables : List Nat} {flags : Word64}
    (h : TablesIn F s tables) (hsep : Separate s.pml4Table s'.allocs)
    (hnamed : FramesNamed F flags s s') : FreshAlloc F flags s s' tables := by
  intro ptr u hlog hptr
  rw [hlog] at hsep
  refine ⟨hsep.fresh h.owned hptr, hnamed (ptr, 4096) ?_ u hptr⟩
  rw [hlog, List.drop_left]
  exact List.mem_singleton_self _

/-- The pointer of a level that already has its table. -/
theorem descend_of_ne_zero {s : Machine} {table index : Word32} {flags : Word64}
    (h : load64 s.mem (slot table index) ≠ 0) :
    descend s table index flags =
      ((load64 s.mem (slot table index) &&& addressMask).setWidth 32, s) := by
  unfold descend
  rw [if_neg h]

/-- The machine after a level has been given a new table. -/
def linked (s : Machine) (table index : Word32) (flags : Word64) : Machine :=
  let r := s.alloc Frame.frameNoLimit 4096 Frame.frameUsed
  { r.2 with mem := store64 (memzero s.mem r.1 4096) (slot table index) (r.1.setWidth 64 ||| flags) }

theorem linked_eq {s : Machine} {table index ptr : Word32} {flags : Word64} {frame : Frame.Table}
    (halloc : Frame.alloc s.frame Frame.frameNoLimit 4096 Frame.frameUsed = (ptr, frame)) :
    linked s table index flags =
      { s with
        mem := store64 (memzero s.mem ptr 4096) (slot table index) (ptr.setWidth 64 ||| flags)
        frame := frame
        allocs := s.allocs ++ [(ptr, 4096)] } := by
  simp only [linked, Machine.alloc, halloc]

theorem descend_of_eq_zero {s : Machine} {table index : Word32} {flags : Word64}
    (h : load64 s.mem (slot table index) = 0) :
    descend s table index flags =
      ((load64 (linked s table index flags).mem (slot table index) &&& addressMask).setWidth 32,
        linked s table index flags) := by
  unfold descend
  rw [if_pos h]
  rfl

/-- The pointer read back from an entry that names a table. -/
theorem toNat_pointer [NamesFrames F] {e : Word64} {u : Nat} (h : F.next e = some u)
    (hu : u < 2 ^ 20) : ((e &&& addressMask).setWidth 32).toNat = u * 0x1000 := by
  have hframe : entryFrame e = u := NamesFrames.next_eq h
  rw [toNat_entryFrame] at hframe
  have hmask : addressMask = BitVec.ofNat 64 (2 ^ 52 - 1) &&& ~~~BitVec.ofNat 64 (2 ^ 12 - 1) := by
    decide
  rw [BitVec.toNat_setWidth, hmask, ← BitVec.and_assoc, Words.toNat_and_not_lowMask,
    Words.toNat_and_lowMask e (by omega)]
  omega

/-- Zeroing frame `u`. -/
def zeroTable (c : Nat → BitVec 9 → Word64) (u : Nat) : Nat → BitVec 9 → Word64 :=
  fun t i => if t = u then 0 else c t i

/-- A level that is missing gets the next frame, zeroed, and its entry names it. -/
theorem descend_missing {s : Machine} {table index ptr : Word32} {frame : Frame.Table} {t u : Nat}
    {i : BitVec 9} {flags : Word64} (htable : table.toNat = t * 0x1000)
    (hindex : index.toNat = i.toNat) (hflags : IsMapFlags flags)
    (halloc : Frame.alloc s.frame Frame.frameNoLimit 4096 Frame.frameUsed = (ptr, frame))
    (hptr : ptr.toNat = u * 0x1000) (hzero : entryAt s.mem t i = 0) :
    ∃ p s', descend s table index flags = (p, s') ∧ p.toNat = u * 0x1000 ∧
      s'.pml4Table = s.pml4Table ∧ s'.frame = frame ∧
      entryAt s'.mem =
        setEntry (zeroTable (entryAt s.mem) u) t i (BitVec.ofNat 64 (u * 0x1000) ||| flags) := by
  have hlt := ptr.isLt
  have hload : load64 s.mem (slot table index) = 0 := (load64_slot htable hindex).trans hzero
  have hentries : entryAt (linked s table index flags).mem =
      setEntry (zeroTable (entryAt s.mem) u) t i (BitVec.ofNat 64 (u * 0x1000) ||| flags) := by
    rw [linked_eq halloc, entryAt_store64 _ htable hindex, setWidth_frameAddress hptr]
    refine congrArg (fun c => setEntry c t i _) ?_
    funext v j
    exact entryAt_memzero s.mem hptr v j
  have hnext : nextTable (entryAt (linked s table index flags).mem t i) = some u := by
    rw [hentries, RadixTree.setEntry_same]
    exact nextTable_frame (by omega) hflags
  -- `Map` reads the slot back, and finds the frame it has just written
  refine ⟨_, _, descend_of_eq_zero hload, ?_, rfl, ?_, hentries⟩
  · rw [load64_slot htable hindex]
    exact toNat_pointer (F := pageFormat) hnext (by omega)
  · rw [linked_eq halloc]

/-- A level that is there is followed. -/
theorem descend_present {s : Machine} {table index : Word32} {t u : Nat} {i : BitVec 9}
    (flags : Word64) (htable : table.toNat = t * 0x1000) (hindex : index.toNat = i.toNat)
    (hnext : nextTable (entryAt s.mem t i) = some u) (hu : u < 2 ^ 20) :
    ∃ p, descend s table index flags = (p, s) ∧ p.toNat = u * 0x1000 := by
  have hload : load64 s.mem (slot table index) = entryAt s.mem t i := load64_slot htable hindex
  have hne : load64 s.mem (slot table index) ≠ 0 := by
    rw [hload]
    intro hzero
    rw [hzero, show nextTable 0 = none by decide] at hnext
    exact absurd hnext (by simp)
  refine ⟨_, descend_of_ne_zero hne, ?_⟩
  rw [hload]
  exact toNat_pointer (F := pageFormat) hnext hu

/-- How a level is filled: the fresh frame `u` is zeroed, and entry `i` of table `t` names it. -/
structure Filled (F : EntryFormat Nat Word64 Word64) (s s' : Machine) (tables : List Nat) (t : Nat)
    (i : BitVec 9) (flags : Word64) (ptr : Word32) (u : Nat) : Prop where
  frame : ptr.toNat = u * 0x1000
  log : s'.allocs = s.allocs ++ [(ptr, 4096)]
  fresh : u ∉ tables
  entries : entryAt s'.mem =
    setEntry (entryAt (memzero s.mem ptr 4096)) t i (ptr.setWidth 64 ||| flags)
  /-- zeroing the fresh frame does not touch the tables -/
  old : ∀ v ∈ tables, ∀ j, entryAt (memzero s.mem ptr 4096) v j = entryAt s.mem v j
  empty : ∀ j, entryAt (memzero s.mem ptr 4096) u j = F.empty
  next : F.next (ptr.setWidth 64 ||| flags) = some u

theorem linked_filled [NamesFrames F] {s : Machine} {tables : List Nat}
    {table index : Word32} {t : Nat} (htable : table.toNat = t * 0x1000) {i : BitVec 9}
    (hindex : index.toNat = i.toNat) {flags : Word64}
    (hfresh : FreshAlloc F flags s (linked s table index flags) tables) :
    ∃ ptr u, Filled F s (linked s table index flags) tables t i flags ptr u ∧
      (linked s table index flags).mem =
        store64 (memzero s.mem ptr 4096) (slot table index) (ptr.setWidth 64 ||| flags) := by
  cases halloc : Frame.alloc s.frame Frame.frameNoLimit 4096 Frame.frameUsed with
  | mk ptr frame =>
  obtain ⟨u, hu⟩ := frame_of_alloc halloc
  have hlog : (linked s table index flags).allocs = s.allocs ++ [(ptr, 4096)] := by
    rw [linked_eq halloc]
  obtain ⟨hu', hnext⟩ := hfresh ptr u hlog hu
  have hmem : (linked s table index flags).mem =
      store64 (memzero s.mem ptr 4096) (slot table index) (ptr.setWidth 64 ||| flags) := by
    rw [linked_eq halloc]
  refine ⟨ptr, u, ⟨hu, hlog, hu', ?_, ?_, ?_, hnext⟩, hmem⟩
  · rw [hmem, entryAt_store64 _ htable hindex]
  · intro v hv j
    rw [entryAt_memzero s.mem hu, if_neg (ne_of_mem_of_not_mem hv hu')]
  · intro j
    rw [entryAt_memzero s.mem hu, if_pos rfl, NamesFrames.empty_eq]

/-- A missing level is filled with a fresh empty table. -/
theorem linked_grows [NamesFrames F] {s : Machine} {tables : List Nat} (h : TablesIn F s tables)
    {p : List (BitVec 9)} (hlen : p.length < 3) {t : Nat} (hp : Machine.followIn F s p = some t)
    {table index : Word32} (htable : table.toNat = t * 0x1000) {i : BitVec 9}
    (hindex : index.toNat = i.toNat) {flags : Word64} (hzero : entryAt s.mem t i = 0)
    (hnew : FreshAlloc F flags s (linked s table index flags) tables) :
    ∃ u, u < 2 ^ 20 ∧ Grows F s (linked s table index flags) tables (u :: tables) ∧
      Machine.followIn F (linked s table index flags) (p ++ [i]) = some u ∧
      F.next (entryAt (linked s table index flags).mem t i) = some u := by
  obtain ⟨ptr, u, ⟨hu, hlog, hfresh, hentries, hold, hempty, hnext⟩, hmem⟩ :=
    linked_filled htable hindex hnew
  have hlt := ptr.isLt
  have ht : t ∈ tables := h.tree.mem_of_follow hlen.le hp
  have htree := h.tree.congr hold
  have hp' := (h.tree.follow_congr hold hlen.le).trans hp
  have hnone : F.next (entryAt (memzero s.mem ptr 4096) t i) = none := by
    rw [hold t ht, hzero]
    exact next_zero
  have hroot : (linked s table index flags).pml4Table = s.pml4Table := rfl
  refine ⟨u, by omega, ⟨⟨h.aligned, ?_, ?_⟩, hroot, fun v hv => List.mem_cons_of_mem _ hv, ?_, ?_,
    ?_, ?_⟩, ?_, ?_⟩
  · rw [hentries]
    exact htree.link hlen hp' hnone hnext hfresh hempty
  · -- every table is a block of its own, the new one too
    intro v hv
    rw [hlog]
    rcases List.mem_cons.mp hv with rfl | hv
    · exact ⟨(ptr, 4096), by simp, hu, rfl⟩
    · obtain ⟨a, ha, hblock⟩ := h.owned v hv
      refine ⟨a, ?_, hblock⟩
      rw [← List.cons_append]
      exact List.mem_append_left _ ha
  · refine ⟨_, hlog, fun a ha => ?_, fun v hv => ?_⟩
    · rw [List.mem_singleton.mp ha, hu, Nat.mul_div_cancel _ (by decide)]
      exact List.mem_cons_self ..
    · rcases List.mem_cons.mp hv with rfl | hv
      · exact Or.inr ⟨(ptr, 4096), List.mem_singleton_self _, hu, rfl⟩
      · exact Or.inl hv
  · -- the paths there were still lead where they led
    intro q v hlenq hq
    unfold Machine.followIn
    rw [hentries, hroot]
    exact RadixTree.Tree.follow_link_of_some hnone ((h.tree.follow_congr hold hlenq).trans hq)
  · intro q j hq
    unfold Machine.lookupIn
    rw [hentries, hroot, htree.lookup_link hlen hp' hnone hnext hfresh hempty hq]
    exact h.tree.lookup_congr hold hq.le
  · -- only the new table and the linked slot are written
    intro x hx
    have hi := i.isLt
    rw [List.mem_cons, not_or] at hx
    have hxt : x / 0x1000 ≠ t := fun heq => hx.2 (heq ▸ ht)
    rw [hmem]
    unfold store64 memzero
    rw [Mem.store_of_not, Mem.fill_of_not]
    · rw [hu]
      omega
    · rw [toNat_slot htable hindex]
      omega
  · refine RadixTree.follow_concat_eq_some.mpr ⟨t, ?_, ?_⟩
    · rw [hentries]
      exact RadixTree.Tree.follow_link_of_some hnone hp'
    · rw [hentries, RadixTree.setEntry_same, hnext]
  · rw [hentries, RadixTree.setEntry_same]
    exact hnext

/-- **One level.**  `descend` from the table of a path leads to the table of the path one step
longer, which it creates when it is missing. -/
theorem descend_grows [NamesFrames F] {s s' : Machine} {tables : List Nat} (h : TablesIn F s tables)
    {table index ptr : Word32} {flags : Word64} (hd : descend s table index flags = (ptr, s'))
    {p : List (BitVec 9)} (hlen : p.length < 3) {t : Nat} (hp : Machine.followIn F s p = some t)
    (htable : table.toNat = t * 0x1000) {i : BitVec 9} (hindex : index.toNat = i.toNat)
    (hnew : FreshAlloc F flags s s' tables) :
    ∃ tables' u, Grows F s s' tables tables' ∧ Machine.followIn F s' (p ++ [i]) = some u ∧
      ptr.toNat = u * 0x1000 := by
  have hread := load64_slot (m := s.mem) htable hindex
  by_cases hzero : load64 s.mem (slot table index) = 0
  · rw [descend_of_eq_zero hzero, Prod.mk.injEq] at hd
    obtain ⟨rfl, rfl⟩ := hd
    rw [hread] at hzero
    obtain ⟨u, hu, hgrows, hpath, hnext⟩ := linked_grows h hlen hp htable hindex hzero hnew
    refine ⟨u :: tables, u, hgrows, hpath, ?_⟩
    rw [load64_slot htable hindex]
    exact toNat_pointer hnext hu
  · -- the entry names a table already
    rw [descend_of_ne_zero hzero, Prod.mk.injEq] at hd
    obtain ⟨rfl, rfl⟩ := hd
    rw [hread] at hzero ⊢
    cases hnext : F.next (entryAt s.mem t i) with
    | none => exact absurd (h.empty_of_next hlen hp hnext) hzero
    | some u =>
        have hpath : Machine.followIn F s (p ++ [i]) = some u :=
          RadixTree.follow_concat_eq_some.mpr ⟨t, hp, hnext⟩
        have hmem : u ∈ tables := h.tree.mem_of_follow (by simpa using hlen) hpath
        obtain ⟨a, -, haddr, -⟩ := h.owned u hmem
        have hlt := a.1.isLt
        exact ⟨tables, u, Grows.refl h, hpath, toNat_pointer hnext (by omega)⟩

/-! ## One call of `Map` -/

/-- The flags of the entry of index `i` at the end of a path of the upper levels. -/
def Machine.linkFlags (F : EntryFormat Nat Word64 Word64) (s : Machine) (p : List (BitVec 9))
    (i : BitVec 9) : Option Word64 :=
  (RadixTree.linkAt F (entryAt s.mem) (s.pml4Table.toNat / 0x1000) p i).map entryFlags

/-- Linking a new table adds one entry, with the flags of the call. -/
theorem linkFlags_linked [NamesFrames F] {s : Machine} {tables : List Nat} (h : TablesIn F s tables)
    {p : List (BitVec 9)} (hlen : p.length < 3) {t : Nat} (hp : Machine.followIn F s p = some t)
    {table index : Word32} (htable : table.toNat = t * 0x1000) {i : BitVec 9}
    (hindex : index.toNat = i.toNat) {flags : Word64} (hzero : entryAt s.mem t i = 0)
    (hnew : FreshAlloc F flags s (linked s table index flags) tables) {q : List (BitVec 9)}
    (hq : q.length < 3) (j : BitVec 9) :
    Machine.linkFlags F (linked s table index flags) q j = (Machine.linkFlags F s q j).or
      (if q ++ [j] = p ++ [i] then some (entryFlags flags) else none) := by
  obtain ⟨frame, u, ⟨hu, -, hfresh, hentries, hold, hempty, hnext⟩, -⟩ :=
    linked_filled htable hindex hnew
  have ht : t ∈ tables := h.tree.mem_of_follow hlen.le hp
  have hnone : F.next (entryAt (memzero s.mem frame 4096) t i) = none := by
    rw [hold t ht, hzero]
    exact next_zero
  have hlink := (h.tree.congr hold).linkAt_link hlen
    ((h.tree.follow_congr hold hlen.le).trans hp) hnone hnext hfresh hempty (j := j) hq
  have hlt := frame.isLt
  have hvalue := toNat_frameAddress (show u < 2 ^ 20 by omega)
  have hown : entryFlags (frame.setWidth 64 ||| flags) = entryFlags flags := by
    rw [setWidth_frameAddress hu]
    exact entryFlags_or (by rw [hvalue]; omega) (by rw [hvalue]; omega) flags
  unfold Machine.linkFlags
  rw [hentries, show (linked s table index flags).pml4Table = s.pml4Table from rfl, hlink,
    h.tree.linkAt_congr hold hq.le, Option.map_or]
  congr 1
  split
  · rw [Option.map_some, hown]
  · rfl

/-- A slot in use is a link. -/
theorem isSome_linkFlags [NamesFrames F] {s : Machine} {tables : List Nat} (h : TablesIn F s tables)
    {p : List (BitVec 9)} (hlen : p.length < 3) {t : Nat} (hp : Machine.followIn F s p = some t)
    {i : BitVec 9} (hslot : entryAt s.mem t i ≠ 0) : (Machine.linkFlags F s p i).isSome := by
  have hsome : (F.next (entryAt s.mem t i)).isSome := by
    by_contra hnot
    exact hslot (h.empty_of_next hlen hp (Option.not_isSome_iff_eq_none.mp hnot))
  have hlink := RadixTree.linkAt_eq_some_iff.mpr ⟨t, hp, hsome, rfl⟩
  unfold Machine.linkFlags
  rw [hlink]
  rfl

/-- A level that is missing is linked with the flags of the call, a level that is there keeps its
own. -/
theorem linkFlags_descend [NamesFrames F] {s s' : Machine} {tables : List Nat}
    (h : TablesIn F s tables) {table index ptr : Word32} {flags : Word64}
    (hd : descend s table index flags = (ptr, s')) {p : List (BitVec 9)} (hlen : p.length < 3)
    {t : Nat} (hp : Machine.followIn F s p = some t) (htable : table.toNat = t * 0x1000) {i : BitVec 9}
    (hindex : index.toNat = i.toNat) (hnew : FreshAlloc F flags s s' tables) {q : List (BitVec 9)}
    (hq : q.length < 3) (j : BitVec 9) :
    Machine.linkFlags F s' q j = (Machine.linkFlags F s q j).or
      (if q ++ [j] = p ++ [i] then some (entryFlags flags) else none) := by
  have hread := load64_slot (m := s.mem) htable hindex
  by_cases hzero : load64 s.mem (slot table index) = 0
  · rw [descend_of_eq_zero hzero, Prod.mk.injEq] at hd
    obtain ⟨rfl, rfl⟩ := hd
    rw [hread] at hzero
    exact linkFlags_linked h hlen hp htable hindex hzero hnew hq j
  · rw [descend_of_ne_zero hzero, Prod.mk.injEq] at hd
    obtain ⟨rfl, rfl⟩ := hd
    by_cases hslot : q ++ [j] = p ++ [i]
    · -- the link is there already
      obtain ⟨rfl, hji⟩ := List.append_inj' hslot rfl
      obtain rfl := List.head_eq_of_cons_eq hji
      rw [hread] at hzero
      rw [Option.or_of_isSome (isSome_linkFlags h hlen hp hzero)]
    · rw [if_neg hslot, Option.or_none]

theorem linkFlags_storeLeaf {s : Machine} {tables : List Nat} (h : TablesIn F s tables)
    {p : List (BitVec 9)} (hlen : p.length = 3) {t : Nat} (hp : Machine.followIn F s p = some t)
    {table index : Word32} (htable : table.toNat = t * 0x1000) {i : BitVec 9}
    (hindex : index.toNat = i.toNat) (e : Word64) {q : List (BitVec 9)} (hq : q.length < 3)
    (j : BitVec 9) :
    Machine.linkFlags F { s with mem := store64 s.mem (slot table index) e } q j =
      Machine.linkFlags F s q j := by
  have hentries : entryAt (store64 s.mem (slot table index) e) = setEntry (entryAt s.mem) t i e :=
    entryAt_store64 _ htable hindex
  unfold Machine.linkFlags
  rw [hentries, h.tree.linkAt_setLeaf hlen hp hq]

/-- The last store of `Map`, into the leaf of a path. -/
theorem storeLeaf_spec {s : Machine} {tables : List Nat} (h : TablesIn F s tables)
    {p : List (BitVec 9)} (hlen : p.length = 3) {t : Nat} (hp : Machine.followIn F s p = some t)
    {table index : Word32} (htable : table.toNat = t * 0x1000) {i : BitVec 9}
    (hindex : index.toNat = i.toNat) (e : Word64) :
    let s' := { s with mem := store64 s.mem (slot table index) e }
    TablesIn F s' tables ∧
      (∀ q j, q.length = 3 → Machine.lookupIn F s' q j =
        if q = p ∧ j = i then F.leaf e else Machine.lookupIn F s q j) ∧
      ∀ x, x / 0x1000 ∉ tables → s'.mem x = s.mem x := by
  intro s'
  have hentries : entryAt s'.mem = setEntry (entryAt s.mem) t i e :=
    entryAt_store64 _ htable hindex
  refine ⟨⟨h.aligned, ?_, h.owned⟩, ?_, ?_⟩
  · rw [hentries]
    exact h.tree.setLeaf hlen hp
  · intro q j hq
    unfold Machine.lookupIn
    rw [hentries, h.tree.lookup_setLeaf hlen hp hq]
  · intro x hx
    have hi := i.isLt
    have ht : t ∈ tables := h.tree.mem_of_follow hlen.le hp
    have hxt : x / 0x1000 ≠ t := fun heq => hx (heq ▸ ht)
    refine Mem.store_of_not ?_
    rw [toNat_slot htable hindex]
    omega

end

/-- `Map` as its four steps. -/
theorem map_eq {s s3 s2 s1 : Machine} {phys virt flags : Word64} {p3 p2 p1 : Word32}
    (h3 : descend s s.pml4Table (tableIndex (alignFloor virt 0x1000) 39) flags = (p3, s3))
    (h2 : descend s3 p3 (tableIndex (alignFloor virt 0x1000) 30) flags = (p2, s2))
    (h1 : descend s2 p2 (tableIndex (alignFloor virt 0x1000) 21) flags = (p1, s1)) :
    map s phys virt flags =
      { s1 with
        mem := store64 s1.mem (slot p1 (tableIndex (alignFloor virt 0x1000) 12))
          ((alignFloor phys 0x1000 &&& addressMask) ||| flags) } := by
  unfold map
  simp only [h3, h2, h1]

theorem logged_map (s : Machine) (phys virt flags : Word64) :
    Logged 3 s (map s phys virt flags) := by
  cases h3 : descend s s.pml4Table (tableIndex (alignFloor virt 0x1000) 39) flags with
  | mk p3 s3 =>
  cases h2 : descend s3 p3 (tableIndex (alignFloor virt 0x1000) 30) flags with
  | mk p2 s2 =>
  cases h1 : descend s2 p2 (tableIndex (alignFloor virt 0x1000) 21) flags with
  | mk p1 s1 =>
  rw [map_eq h3 h2 h1]
  show Logged (1 + 1 + 1) s s1
  exact ((logged_descend h3).trans (logged_descend h2)).trans (logged_descend h1)

end VirtualMemory
end Loader
end ZineOS
