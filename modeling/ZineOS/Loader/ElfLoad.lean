import ZineOS.Loader.Elf
import ZineOS.Loader.MapRange

/-!
# The kernel image after `Elf::Load`

What a well-formed kernel image looks like in memory once it has been loaded.

* `Image` is the file: it passes the checks, and its PROGBITS and NOBITS sections have disjoint
  page ranges in the upper half.
* `BlocksOk` is what the frame allocator owes `Load`.
* `Placed` says of one section that its block holds the contents and is mapped twice;
  `Placed.frame` is the frame rule, `loadSection_placed` one round of the loop.
* `load_places_sections` is the result.
-/

namespace ZineOS
namespace Loader
namespace Elf

open Lib VirtualMemory

/-! ## The file -/

/-- The header of section `i`. -/
def shdr (m : Mem) (elf : Word32) (i : Nat) : Word32 :=
  sectionAt (sectionHeader m elf) (BitVec.ofNat 32 i)

/-- The sections that are given memory. -/
def IsLoaded (m : Mem) (sh : Word32) : Prop := shType m sh = shtProgbits ∨ shType m sh = shtNobits

instance (m : Mem) (sh : Word32) : Decidable (IsLoaded m sh) := inferInstanceAs (Decidable (_ ∨ _))

/-- The page range of a section. -/
def pages (m : Mem) (sh : Word32) : Frame.Range :=
  ((shAddr m sh).toNat, (shAddr m sh).toNat + pageUp (shSize m sh).toNat)

/-- A file of `len` bytes at `elf` that passes the checks of `Load` and contains its section table. -/
structure ElfFile (m : Mem) (elf : Word32) (len : Nat) : Prop where
  fits : elf.toNat + len ≤ 2 ^ 32
  ehdr : 64 ≤ len
  accepted : check m elf = none
  shdrs : (eShoff m elf).toNat + 64 * (eShnum m elf).toNat ≤ len

/-- An ELF64 file of `len` bytes at `elf` that passes the checks of `Load`. -/
structure Image (m : Mem) (elf : Word32) (len : Nat) : Prop where
  fits : elf.toNat + len ≤ 2 ^ 32
  ehdr : 64 ≤ len
  accepted : check m elf = none
  shentsize : eShentsize m elf = 64
  shdrs : (eShoff m elf).toNat + 64 * (eShnum m elf).toNat ≤ len
  nonempty : ∀ i < (eShnum m elf).toNat, IsLoaded m (shdr m elf i) →
    0 < (shSize m (shdr m elf i)).toNat
  aligned : ∀ i < (eShnum m elf).toNat, IsLoaded m (shdr m elf i) →
    (shAddr m (shdr m elf i)).toNat % 0x1000 = 0
  upper : ∀ i < (eShnum m elf).toNat, IsLoaded m (shdr m elf i) →
    0xFFFF800000000000 ≤ (shAddr m (shdr m elf i)).toNat ∧ (pages m (shdr m elf i)).2 ≤ 2 ^ 64
  disjoint : ∀ i j, i < j → j < (eShnum m elf).toNat → IsLoaded m (shdr m elf i) →
    IsLoaded m (shdr m elf j) → Frame.Range.Disjoint (pages m (shdr m elf i)) (pages m (shdr m elf j))

theorem castU64_setWidth (p : Word32) (x : Word64) :
    (castU64 p + x).setWidth 32 = p + x.setWidth 32 := by
  apply BitVec.eq_of_toNat_eq
  have hp := p.isLt
  unfold castU64
  rw [BitVec.toNat_setWidth, BitVec.toNat_add, BitVec.toNat_add, BitVec.toNat_signExtend,
    BitVec.toNat_setWidth, BitVec.toNat_setWidth]
  split <;> omega

theorem toNat_castU64 {p : Word32} (h : p.toNat < 2 ^ 31) : (castU64 p).toNat = p.toNat := by
  have hmsb : p.msb = false := by
    rw [BitVec.msb_eq_decide]
    simp only [decide_eq_false_iff_not]
    omega
  unfold castU64
  rw [BitVec.toNat_signExtend, BitVec.toNat_setWidth, hmsb, Nat.mod_eq_of_lt (by omega)]
  rfl

theorem ElfFile.toNat_shdr {m : Mem} {elf : Word32} {len : Nat} (h : ElfFile m elf len) {i : Nat}
    (hi : i < (eShnum m elf).toNat) :
    (shdr m elf i).toNat = elf.toNat + (eShoff m elf).toNat + 64 * i := by
  have hfits := h.fits
  have htable := h.shdrs
  have hbase : (sectionHeader m elf).toNat = elf.toNat + (eShoff m elf).toNat := by
    unfold sectionHeader
    rw [castU64_setWidth, BitVec.toNat_add, BitVec.toNat_setWidth]
    omega
  have hoffset : (64 * BitVec.ofNat 32 i).toNat = 64 * i := by
    rw [BitVec.toNat_mul, BitVec.toNat_ofNat]
    show 64 * (i % 2 ^ 32) % 2 ^ 32 = 64 * i
    omega
  unfold shdr sectionAt
  rw [BitVec.toNat_add, hbase, hoffset, Nat.mod_eq_of_lt (by omega)]

/-- The fields that the loop reads, in any memory that still holds the file. -/
theorem ElfFile.fields {m m' : Mem} {elf : Word32} {len : Nat} (h : ElfFile m elf len)
    (hsame : Mem.AgreeOn m' m elf.toNat len) {i : Nat} (hi : i < (eShnum m elf).toNat) :
    shType m' (shdr m elf i) = shType m (shdr m elf i) ∧
      shAddr m' (shdr m elf i) = shAddr m (shdr m elf i) ∧
      shOffset m' (shdr m elf i) = shOffset m (shdr m elf i) ∧
      shSize m' (shdr m elf i) = shSize m (shdr m elf i) := by
  have hsh := h.toNat_shdr hi
  have hfits := h.fits
  have htable := h.shdrs
  have hfield : ∀ d : Nat, d < 64 →
      (shdr m elf i + BitVec.ofNat 32 d).toNat = elf.toNat + (eShoff m elf).toNat + 64 * i + d := by
    intro d hd
    rw [BitVec.toNat_add, hsh, BitVec.toNat_ofNat]
    omega
  have hagree : ∀ d n : Nat, d + n ≤ 64 → d < 64 →
      Mem.AgreeOn m' m (shdr m elf i + BitVec.ofNat 32 d).toNat n := by
    intro d n hdn hd x hlo hhi
    rw [hfield d hd] at hlo hhi
    exact hsame x (by omega) (by omega)
  exact ⟨load32_congr (hagree 4 4 (by omega) (by omega)),
    load64_congr (hagree 16 8 (by omega) (by omega)),
    load64_congr (hagree 24 8 (by omega) (by omega)),
    load64_congr (hagree 32 8 (by omega) (by omega))⟩

theorem ElfFile.shnum {m m' : Mem} {elf : Word32} {len : Nat} (h : ElfFile m elf len)
    (hsame : Mem.AgreeOn m' m elf.toNat len) : eShnum m' elf = eShnum m elf := by
  have hfits := h.fits
  have hlen := h.ehdr
  refine load16_congr fun x hlo hhi => hsame x ?_ ?_
  · rw [BitVec.toNat_add] at hlo
    simp at hlo
    omega
  · rw [BitVec.toNat_add] at hhi
    simp at hhi
    omega

theorem ElfFile.entry {m m' : Mem} {elf : Word32} {len : Nat} (h : ElfFile m elf len)
    (hsame : Mem.AgreeOn m' m elf.toNat len) : eEntry m' elf = eEntry m elf := by
  have hfits := h.fits
  have hlen := h.ehdr
  have hfield : (elf + 24).toNat = elf.toNat + 24 := by
    rw [BitVec.toNat_add]
    simp
    omega
  refine load64_congr fun x hlo hhi => hsame x ?_ ?_
  · omega
  · omega

theorem Image.file {m : Mem} {elf : Word32} {len : Nat} (h : Image m elf len) :
    ElfFile m elf len := ⟨h.fits, h.ehdr, h.accepted, h.shdrs⟩

/-! ## Pages of the two halves -/

/-- The upper canonical half and the memory below 2 GB share no page number, and within each of them
different pages have different numbers. -/
theorem pageNumber_upper_low {v : Word64} (hv : 0xFFFF800000000000 ≤ v.toNat) {a n k : Nat}
    (ha : a + n * 0x1000 ≤ 2 ^ 31) (hk : k < n) : pageNumber v ≠ (a / 0x1000 + k) % 2 ^ 36 := by
  have hlt := v.isLt
  unfold pageNumber
  omega

theorem pageNumber_low_upper {v : Word64} (hv : v.toNat < 2 ^ 31) {a n k : Nat}
    (ha : 0xFFFF800000000000 ≤ a) (hend : a + n * 0x1000 ≤ 2 ^ 64) (hk : k < n) :
    pageNumber v ≠ (a / 0x1000 + k) % 2 ^ 36 := by
  unfold pageNumber
  omega

theorem pageNumber_upper {v : Word64} (hv : 0xFFFF800000000000 ≤ v.toNat) {a n k : Nat}
    (ha : 0xFFFF800000000000 ≤ a) (hend : a + n * 0x1000 ≤ 2 ^ 64) (hmod : a % 0x1000 = 0)
    (hout : ¬ (a ≤ v.toNat ∧ v.toNat < a + n * 0x1000)) (hk : k < n) :
    pageNumber v ≠ (a / 0x1000 + k) % 2 ^ 36 := by
  have hlt := v.isLt
  unfold pageNumber
  omega

theorem pageNumber_low {v : Word64} (hv : v.toNat < 2 ^ 31) {a n k : Nat}
    (hend : a + n * 0x1000 ≤ 2 ^ 31) (hmod : a % 0x1000 = 0)
    (hout : ¬ (a ≤ v.toNat ∧ v.toNat < a + n * 0x1000)) (hk : k < n) :
    pageNumber v ≠ (a / 0x1000 + k) % 2 ^ 36 := by
  unfold pageNumber
  omega

/-! ## What the allocator owes -/

/-- The blocks handed out are separate, lie below 2 GB and leave the image alone. -/
structure BlocksOk (pml4 elf : Word32) (len : Nat) (log : List (Word32 × Word64)) : Prop where
  separate : Separate pml4 log
  low : ∀ a ∈ log, (Frame.block a.1 a.2).2 ≤ 2 ^ 31
  image : ∀ a ∈ (pml4, 4096) :: log,
    Frame.Range.Disjoint (Frame.block a.1 a.2) (elf.toNat, elf.toNat + len)

theorem BlocksOk.of_prefix {pml4 elf : Word32} {len : Nat} {log log' : List (Word32 × Word64)}
    (h : BlocksOk pml4 elf len log') (hlog : log <+: log') : BlocksOk pml4 elf len log where
  separate := h.separate.of_prefix hlog
  low := fun a ha => h.low a (hlog.subset ha)
  image := fun a ha => h.image a (((List.prefix_cons_inj _).mpr hlog).subset ha)

theorem prefix_mapRange (s : Machine) (phys virt size flags : Word64) :
    s.allocs <+: (mapRange s phys virt size flags).allocs := by
  rw [mapRange_eq]
  exact (logged_mapAll _ _).isPrefix

theorem prefix_mapSection (s : Machine) (sh ptr : Word32) :
    s.allocs <+: (mapSection s sh ptr).allocs :=
  (prefix_mapRange ..).trans (prefix_mapRange ..)

/-- The machine after the block of a section has been handed out. -/
def allocated (s : Machine) (sh : Word32) : Word32 × Machine :=
  s.alloc Frame.frameSub4GB (shSize s.mem sh) Frame.frameUsed

theorem logged_allocated (s : Machine) (sh : Word32) :
    ((allocated s sh).1, shSize s.mem sh) ∈ (allocated s sh).2.allocs :=
  List.mem_append_right _ (List.mem_singleton_self _)

/-- The memory after the block has been given its contents. -/
def filled (m : Mem) (elf sh ptr : Word32) : Mem :=
  if shType m sh = shtProgbits then
    memcpy m ptr ((shOffset m sh + castU64 elf).setWidth 32) ((shSize m sh).setWidth 32)
  else memzero m ptr ((shSize m sh).setWidth 32).toNat

/-- Filling a block writes nothing outside of it. -/
theorem filled_of_not {m : Mem} {elf sh p : Word32} {x : Nat}
    (hx : ¬ (p.toNat ≤ x ∧ x < (Frame.block p (shSize m sh)).2)) : filled m elf sh p x = m x := by
  have hup := le_pageUp (shSize m sh).toNat
  have hcount : ((shSize m sh).setWidth 32).toNat ≤ (shSize m sh).toNat := by
    rw [BitVec.toNat_setWidth]
    exact Nat.mod_le _ _
  simp only [Frame.block] at hx
  unfold filled
  by_cases hprog : shType m sh = shtProgbits
  · rw [if_pos hprog, memcpy_of_not (by omega)]
  · rw [if_neg hprog]
    exact Mem.fill_of_not (by omega)

/-- Everything one round of the loop can do. -/
theorem loadSection_cases (s : Machine) (elf sh : Word32) (entry : Word64) :
    (¬ IsLoaded s.mem sh ∧ loadSection s elf sh entry = (some entry, s)) ∨
    (IsLoaded s.mem sh ∧ (allocated s sh).1 = 0 ∧
      loadSection s elf sh entry = (none, (allocated s sh).2)) ∨
    (IsLoaded s.mem sh ∧ (allocated s sh).1 ≠ 0 ∧ ∃ s', s' = mapSection
        { (allocated s sh).2 with mem := filled s.mem elf sh (allocated s sh).1 } sh
        (allocated s sh).1 ∧
      loadSection s elf sh entry = (some (if shType s.mem sh = shtProgbits then
        updateEntry s'.mem elf sh (allocated s sh).1 entry else entry), s')) := by
  by_cases hprog : shType s.mem sh = shtProgbits
  · refine Or.inr ?_
    unfold loadSection
    rw [if_pos hprog]
    by_cases hnull : (allocated s sh).1 = 0
    · refine Or.inl ⟨Or.inl hprog, hnull, ?_⟩
      unfold loadProgbits
      exact if_pos hnull
    · refine Or.inr ⟨Or.inl hprog, hnull, ?_⟩
      unfold loadProgbits filled
      rw [if_pos hprog]
      refine ⟨_, rfl, (if_neg hnull).trans ?_⟩
      rw [if_pos hprog]
      rfl
  · by_cases hnobits : shType s.mem sh = shtNobits
    · refine Or.inr ?_
      unfold loadSection
      rw [if_neg hprog, if_pos hnobits]
      by_cases hnull : (allocated s sh).1 = 0
      · refine Or.inl ⟨Or.inr hnobits, hnull, ?_⟩
        unfold loadNobits
        exact if_pos hnull
      · refine Or.inr ⟨Or.inr hnobits, hnull, ?_⟩
        unfold loadNobits filled
        rw [if_neg hprog]
        refine ⟨_, rfl, (if_neg hnull).trans ?_⟩
        rw [if_neg hprog]
        rfl
    · refine Or.inl ⟨fun h => h.elim hprog hnobits, ?_⟩
      unfold loadSection
      rw [if_neg hprog, if_neg hnobits]

theorem prefix_loadSection (s : Machine) (elf sh : Word32) (entry : Word64) :
    s.allocs <+: (loadSection s elf sh entry).2.allocs := by
  have halloc : s.allocs <+: (allocated s sh).2.allocs := List.prefix_append _ _
  rcases loadSection_cases s elf sh entry with ⟨-, heq⟩ | ⟨-, -, heq⟩ | ⟨-, -, s', rfl, heq⟩
  · rw [heq]
  · rw [heq]
    exact halloc
  · have hmap := prefix_mapSection
      { (allocated s sh).2 with mem := filled s.mem elf sh (allocated s sh).1 } sh (allocated s sh).1
    rw [heq]
    exact halloc.trans hmap

theorem prefix_loadLoop (fuel : Nat) (s : Machine) (elf base i : Word32) (entry : Word64) :
    s.allocs <+: (loadLoop fuel s elf base i entry).2.allocs := by
  induction fuel generalizing s i entry with
  | zero => exact List.prefix_rfl
  | succ fuel ih =>
      have hround := prefix_loadSection s elf (sectionAt base i) entry
      rw [loadLoop]
      split_ifs
      · exact List.prefix_rfl
      · split
        · rename_i s' heq
          rw [heq] at hround
          exact hround
        · rename_i entry' s' heq
          rw [heq] at hround
          exact hround.trans (ih ..)

/-- What a round allocates stays in the log of the loop. -/
theorem prefix_round (fuel : Nat) {s : Machine} {elf i : Word32} (base : Word32) (entry : Word64)
    (hi : i ≠ (eShnum s.mem elf).setWidth 32) :
    (loadSection s elf (sectionAt base i) entry).2.allocs <+:
      (loadLoop (fuel + 1) s elf base i entry).2.allocs := by
  rw [loadLoop, if_neg hi]
  cases loadSection s elf (sectionAt base i) entry with
  | mk result s1 =>
      cases result with
      | none => exact List.prefix_rfl
      | some entry1 => exact prefix_loadLoop ..

/-! ## A section in place -/

theorem lt_block_end (p : Word32) {size : Word64} {k : Nat} (hk : k < size.toNat) :
    p.toNat + k < (Frame.block p size).2 := by
  have hup := le_pageUp size.toNat
  simp only [Frame.block]
  omega

/-- The block at `p`, whatever it held in `mem`, has the contents of the section in `mem'`. -/
structure FilledBlock (m : Mem) (elf : Word32) (len : Nat) (sh p : Word32) (mem mem' : Mem) :
    Prop where
  keep : ∀ x, ¬ (p.toNat ≤ x ∧ x < (Frame.block p (shSize m sh)).2) → mem' x = mem x
  progbits : shType m sh = shtProgbits → ∀ k < (shSize m sh).toNat,
    (shOffset m sh).toNat + k < len →
    mem' (p.toNat + k) = m (elf.toNat + (shOffset m sh).toNat + k)
  nobits : shType m sh = shtNobits → ∀ k < (shSize m sh).toNat, mem' (p.toNat + k) = 0

/-- The section with header `sh` has the block at `p`, with its contents, mapped at its address and
at `p` itself. -/
structure Placed (m : Mem) (elf : Word32) (len : Nat) (sh p : Word32) (s : Machine)
    (tables : List Nat) : Prop where
  logged : (p, shSize m sh) ∈ s.allocs
  unshared : ∀ x, p.toNat ≤ x → x < (Frame.block p (shSize m sh)).2 → x / 0x1000 ∉ tables
  progbits : shType m sh = shtProgbits → ∀ k < (shSize m sh).toNat,
    (shOffset m sh).toNat + k < len →
    s.mem (p.toNat + k) = m (elf.toNat + (shOffset m sh).toNat + k)
  nobits : shType m sh = shtNobits → ∀ k < (shSize m sh).toNat, s.mem (p.toNat + k) = 0
  virt : ∀ v : Word64, (pages m sh).1 ≤ v.toNat → v.toNat < (pages m sh).2 →
    translate s.mem s.pml4Table.toNat v =
      some (p.toNat + (v.toNat - (pages m sh).1), sectionFlags)
  ident : ∀ v : Word64, p.toNat ≤ v.toNat → v.toNat < (Frame.block p (shSize m sh)).2 →
    translate s.mem s.pml4Table.toNat v = some (v.toNat, sectionFlags)

/-- A section stays in place when its block and its pages are left alone. -/
theorem Placed.frame {m : Mem} {elf : Word32} {len : Nat} {sh p : Word32} {s s' : Machine}
    {tables tables' : List Nat} (h : Placed m elf len sh p s tables)
    (hlog : s.allocs ⊆ s'.allocs) (hpml4 : s'.pml4Table = s.pml4Table)
    (hmem : ∀ x, p.toNat ≤ x → x < (Frame.block p (shSize m sh)).2 → s'.mem x = s.mem x)
    (hunshared : ∀ x, p.toNat ≤ x → x < (Frame.block p (shSize m sh)).2 → x / 0x1000 ∉ tables')
    (hvirt : ∀ v : Word64, (pages m sh).1 ≤ v.toNat → v.toNat < (pages m sh).2 →
      translate s'.mem s.pml4Table.toNat v = translate s.mem s.pml4Table.toNat v)
    (hident : ∀ v : Word64, p.toNat ≤ v.toNat → v.toNat < (Frame.block p (shSize m sh)).2 →
      translate s'.mem s.pml4Table.toNat v = translate s.mem s.pml4Table.toNat v) :
    Placed m elf len sh p s' tables' := by
  refine ⟨hlog h.logged, hunshared, ?_, ?_, ?_, ?_⟩
  · intro htype k hk hfile
    rw [hmem _ (Nat.le_add_right _ _) (lt_block_end p hk)]
    exact h.progbits htype k hk hfile
  · intro htype k hk
    rw [hmem _ (Nat.le_add_right _ _) (lt_block_end p hk)]
    exact h.nobits htype k hk
  · intro v hlo hhi
    rw [hpml4, hvirt v hlo hhi]
    exact h.virt v hlo hhi
  · intro v hlo hhi
    rw [hpml4, hident v hlo hhi]
    exact h.ident v hlo hhi

/-! ## One section -/

/-- Before round `i`: the file is intact and the sections before `i` are in place. -/
structure Loading (m : Mem) (elf : Word32) (len : Nat) (pml4 : Word32) (i : Nat) (s : Machine)
    (tables : List Nat) : Prop where
  inv : PageTables s tables
  pml4 : s.pml4Table = pml4
  image : Mem.AgreeOn s.mem m elf.toNat len
  placed : ∀ j < i, j < (eShnum m elf).toNat → IsLoaded m (shdr m elf j) →
    ∃ p, Placed m elf len (shdr m elf j) p s tables

section Round

variable {m : Mem} {elf : Word32} {len : Nat} {pml4 : Word32}

/-- The memory of a machine outside its tables is untouched by mapping, so the file stays. -/
theorem image_of_mapped {s s' : Machine} {tables tables' : List Nat} {calls : List MapCall}
    (hmapped : Mapped s s' tables tables' calls)
    (hapart : ∀ a ∈ (s'.pml4Table, 4096) :: s'.allocs,
      Frame.Range.Disjoint (Frame.block a.1 a.2) (elf.toNat, elf.toNat + len))
    (hsame : Mem.AgreeOn s.mem m elf.toNat len) : Mem.AgreeOn s'.mem m elf.toNat len := by
  intro x hlo hhi
  rw [hmapped.frame x (hmapped.inv.not_mem_of_disjoint hapart hlo hhi)]
  exact hsame x hlo hhi

/-- The sizes that occur: a block below 2 GB is a whole number of pages. -/
theorem toNat_align_size {size : Word64} {p : Word32} (hlow : (Frame.block p size).2 ≤ 2 ^ 31) :
    (align size 0x1000).toNat = pageUp size.toNat ∧
      (align size 0x1000).toNat / 0x1000 * 0x1000 = pageUp size.toNat := by
  have hup := le_pageUp size.toNat
  have hmod := pageUp_mod size.toNat
  simp only [Frame.block] at hlow
  have hround : (align size 0x1000).toNat = pageUp size.toNat := toNat_align (by omega)
  exact ⟨hround, by omega⟩

theorem alignFloor_of_mod {a : Word64} (h : a.toNat % 0x1000 = 0) : alignFloor a 0x1000 = a := by
  apply BitVec.eq_of_toNat_eq
  rw [toNat_alignFloor, pageDown_of_mod h]

/-- The calls of `Map` for the pages of a section. -/
def virtCalls (m : Mem) (sh p : Word32) : List MapCall :=
  pageCalls (castU64 p) (shAddr m sh) ((align (shSize m sh) 0x1000).toNat / 0x1000) sectionFlags

/-- The calls of `Map` for its block. -/
def identCalls (m : Mem) (sh p : Word32) : List MapCall :=
  pageCalls (castU64 p) (castU64 p) ((align (shSize m sh) 0x1000).toNat / 0x1000) sectionFlags

/-- Where a section and its block lie. -/
structure Laid (m : Mem) (sh p : Word32) : Prop where
  block_aligned : p.toNat % 0x1000 = 0
  block_low : (Frame.block p (shSize m sh)).2 ≤ 2 ^ 31
  aligned : (shAddr m sh).toNat % 0x1000 = 0
  upper : 0xFFFF800000000000 ≤ (shAddr m sh).toNat ∧ (pages m sh).2 ≤ 2 ^ 64

theorem Laid.toNat_ptr {sh p : Word32} (h : Laid m sh p) (hpos : 0 < (shSize m sh).toNat) :
    (castU64 p).toNat = p.toNat := by
  have hlow := h.block_low
  have hup := le_pageUp (shSize m sh).toNat
  simp only [Frame.block] at hlow
  exact toNat_castU64 (by omega)

theorem Laid.virtRange {sh p : Word32} (h : Laid m sh p) (hpos : 0 < (shSize m sh).toNat) :
    PageRange (castU64 p) (shAddr m sh) ((align (shSize m sh) 0x1000).toNat / 0x1000) := by
  obtain ⟨-, hpages⟩ := toNat_align_size h.block_low
  have hptr := h.toNat_ptr hpos
  have hlow := h.block_low
  have hupper := h.upper.2
  simp only [Frame.block, pages] at hlow hupper
  exact ⟨by rw [hptr, h.block_aligned], h.aligned, by omega, by omega, by omega⟩

theorem Laid.identRange {sh p : Word32} (h : Laid m sh p) (hpos : 0 < (shSize m sh).toNat) :
    PageRange (castU64 p) (castU64 p) ((align (shSize m sh) 0x1000).toNat / 0x1000) := by
  obtain ⟨-, hpages⟩ := toNat_align_size h.block_low
  have hptr := h.toNat_ptr hpos
  have hlow := h.block_low
  simp only [Frame.block] at hlow
  have haligned : (castU64 p).toNat % 0x1000 = 0 := by rw [hptr, h.block_aligned]
  exact ⟨haligned, haligned, by omega, by omega, by omega⟩

/-- Mapping a section is a sequence of calls of `Map`. -/
theorem mapSection_spec {s : Machine} {tables : List Nat} (hs : PageTables s tables)
    {sh p : Word32} (hlaid : Laid m sh p) (hpos : 0 < (shSize m sh).toNat)
    (hfields : ∀ m', Mem.AgreeOn m' m elf.toNat len →
      shAddr m' sh = shAddr m sh ∧ shSize m' sh = shSize m sh)
    (hsame : Mem.AgreeOn s.mem m elf.toNat len)
    (hblocks : BlocksOk s.pml4Table elf len (mapSection s sh p).allocs) :
    ∃ tables', Mapped s (mapSection s sh p) tables tables'
      (virtCalls m sh p ++ identCalls m sh p) := by
  have hflags : IsMapFlags sectionFlags := by decide
  have hptr := alignFloor_of_mod (hlaid.identRange hpos).phys_aligned
  have hvirt : mapRange s (castU64 p) (shAddr m sh) (shSize m sh) sectionFlags =
      mapAll s (virtCalls m sh p) := by
    rw [mapRange_eq, hptr, alignFloor_of_mod hlaid.aligned]
    rfl
  have hident : ∀ s', mapRange s' (castU64 p) (castU64 p) (shSize m sh) sectionFlags =
      mapAll s' (identCalls m sh p) := by
    intro s'
    rw [mapRange_eq, hptr]
    rfl
  obtain ⟨haddr, hsize⟩ := hfields s.mem hsame
  unfold mapSection at hblocks ⊢
  simp only [haddr, hsize] at hblocks ⊢
  generalize hmid : mapRange s (castU64 p) (shAddr m sh) (shSize m sh) sectionFlags = mid
    at hblocks ⊢
  rw [hvirt] at hmid
  -- the pages of the section
  have hblocksMid := hblocks.of_prefix (prefix_mapRange ..)
  have hvirtOk : ∀ c ∈ virtCalls m sh p, c.Ok := (hlaid.virtRange hpos).ok hflags
  obtain ⟨tables1, hmapped1⟩ := mapAll_spec hs hvirtOk (hmid ▸ hblocksMid.separate)
  rw [hmid] at hmapped1
  rw [← hmapped1.pml4] at hblocks hblocksMid
  -- the block at its own address
  obtain ⟨-, hsizeMid⟩ := hfields mid.mem (image_of_mapped hmapped1 hblocksMid.image hsame)
  rw [hsizeMid, hident] at hblocks ⊢
  have hidentOk : ∀ c ∈ identCalls m sh p, c.Ok := (hlaid.identRange hpos).ok hflags
  obtain ⟨tables2, hmapped2⟩ := mapAll_spec hmapped1.inv hidentOk hblocks.separate
  exact ⟨tables2, hmapped1.trans hmapped2⟩

/-- Where the calls for a section send the addresses of its pages and of its block. -/
theorem sectionCalls_virt {sh p : Word32} (hlaid : Laid m sh p) (hpos : 0 < (shSize m sh).toNat)
    {v : Word64} (hlo : (pages m sh).1 ≤ v.toNat) (hhi : v.toNat < (pages m sh).2) :
    (lastCall (virtCalls m sh p ++ identCalls m sh p) v).map (fun c => c.image v) =
      some (p.toNat + (v.toNat - (pages m sh).1), sectionFlags) := by
  obtain ⟨-, hpages⟩ := toNat_align_size hlaid.block_low
  have hptr := hlaid.toNat_ptr hpos
  have hlow := hlaid.block_low
  have hupper := hlaid.upper.1
  simp only [Frame.block, pages] at hlow hlo hhi
  have hnone : lastCall (identCalls m sh p) v = none :=
    (hlaid.identRange hpos).lastCall_outside fun k hk =>
      pageNumber_upper_low (by omega) (by rw [hptr]; omega) hk
  have hinside : (lastCall (virtCalls m sh p) v).map (fun c => c.image v) = _ :=
    (hlaid.virtRange hpos).lastCall_inside hlo (by omega)
  rw [lastCall_append, hnone, Option.none_or, hinside, hptr]
  rfl

theorem sectionCalls_ident {sh p : Word32} (hlaid : Laid m sh p) (hpos : 0 < (shSize m sh).toNat)
    {v : Word64} (hlo : p.toNat ≤ v.toNat) (hhi : v.toNat < (Frame.block p (shSize m sh)).2) :
    (lastCall (virtCalls m sh p ++ identCalls m sh p) v).map (fun c => c.image v) =
      some (v.toNat, sectionFlags) := by
  obtain ⟨-, hpages⟩ := toNat_align_size hlaid.block_low
  have hptr := hlaid.toNat_ptr hpos
  have hlow := hlaid.block_low
  simp only [Frame.block] at hlow hhi
  have hinside : (lastCall (identCalls m sh p) v).map (fun c => c.image v) = _ :=
    (hlaid.identRange hpos).lastCall_inside (by omega) (by omega)
  have heq : p.toNat + (v.toNat - p.toNat) = v.toNat := by omega
  rw [hptr, heq] at hinside
  rw [lastCall_append]
  cases hlast : lastCall (identCalls m sh p) v with
  | none =>
      rw [hlast] at hinside
      exact absurd hinside (by simp)
  | some c =>
      rw [hlast] at hinside
      exact hinside

/-- Addresses of the upper half outside the pages, and addresses below 2 GB outside the block, are
left alone. -/
theorem sectionCalls_none {sh p : Word32} (hlaid : Laid m sh p) (hpos : 0 < (shSize m sh).toNat)
    {v : Word64} (hv : (0xFFFF800000000000 ≤ v.toNat ∧
        ¬ ((pages m sh).1 ≤ v.toNat ∧ v.toNat < (pages m sh).2)) ∨
      (v.toNat < 2 ^ 31 ∧ ¬ (p.toNat ≤ v.toNat ∧ v.toNat < (Frame.block p (shSize m sh)).2))) :
    lastCall (virtCalls m sh p ++ identCalls m sh p) v = none := by
  obtain ⟨-, hpages⟩ := toNat_align_size hlaid.block_low
  have hptr := hlaid.toNat_ptr hpos
  have hlow := hlaid.block_low
  have hblock := hlaid.block_aligned
  have hupper := hlaid.upper
  have haligned := hlaid.aligned
  simp only [Frame.block, pages] at hlow hupper hv
  rw [lastCall_append]
  unfold identCalls virtCalls
  rw [(hlaid.identRange hpos).lastCall_outside, (hlaid.virtRange hpos).lastCall_outside]
  · rfl
  · -- the pages of the section lie in the upper half
    intro k hk
    rcases hv with ⟨hhigh, hout⟩ | ⟨hlowv, hout⟩
    · exact pageNumber_upper hhigh hupper.1 (by omega) haligned (by omega) hk
    · exact pageNumber_low_upper hlowv hupper.1 (by omega) hk
  · -- the pages of the block lie below 2 GB
    intro k hk
    rw [hptr]
    rcases hv with ⟨hhigh, hout⟩ | ⟨hlowv, hout⟩
    · exact pageNumber_upper_low hhigh (by omega) hk
    · exact pageNumber_low hlowv (by omega) hblock (by omega) hk

/-- What a round has done once the block at `p` is filled and mapped. -/
structure MappedSection (m : Mem) (elf : Word32) (len : Nat) (sh p : Word32) (s s' : Machine)
    (tables tables' : List Nat) : Prop where
  inv : PageTables s' tables'
  pml4 : s'.pml4Table = s.pml4Table
  log : s.allocs ⊆ s'.allocs
  logged : (p, shSize m sh) ∈ s'.allocs
  image : Mem.AgreeOn s'.mem m elf.toNat len
  laid : Laid m sh p
  nonempty : 0 < (shSize m sh).toNat
  /-- the new block is disjoint from the earlier ones -/
  apart : ∀ a ∈ s.allocs,
    Frame.Range.Disjoint (Frame.block a.1 a.2) (Frame.block p (shSize m sh))
  unshared : ∀ x, p.toNat ≤ x → x < (Frame.block p (shSize m sh)).2 → x / 0x1000 ∉ tables'
  /-- an earlier block that was no table has not become one -/
  later : ∀ a ∈ s.allocs,
    (∀ x, a.1.toNat ≤ x → x < (Frame.block a.1 a.2).2 → x / 0x1000 ∉ tables) →
    ∀ x, a.1.toNat ≤ x → x < (Frame.block a.1 a.2).2 → x / 0x1000 ∉ tables'
  progbits : shType m sh = shtProgbits → ∀ k < (shSize m sh).toNat,
    (shOffset m sh).toNat + k < len →
    s'.mem (p.toNat + k) = m (elf.toNat + (shOffset m sh).toNat + k)
  nobits : shType m sh = shtNobits → ∀ k < (shSize m sh).toNat, s'.mem (p.toNat + k) = 0
  frame : ∀ x, x / 0x1000 ∉ tables' →
    ¬ (p.toNat ≤ x ∧ x < (Frame.block p (shSize m sh)).2) → s'.mem x = s.mem x
  translate : ∀ v, translate s'.mem s.pml4Table.toNat v =
    ((lastCall (virtCalls m sh p ++ identCalls m sh p) v).map fun c => c.image v).or
      (translate s.mem s.pml4Table.toNat v)

/-- Mapping a section whose block was handed out and filled. -/
theorem mappedSection_of_filled {i : Nat} {s : Machine} {tables : List Nat}
    (himage : Image m elf len) (hi : i < (eShnum m elf).toNat)
    (hloaded : IsLoaded m (shdr m elf i)) (hs : PageTables s tables)
    (hsame : Mem.AgreeOn s.mem m elf.toNat len) {p : Word32} {f : Frame.Table} {mem : Mem}
    (hp : p.toNat % 0x1000 = 0) (hfilled : FilledBlock m elf len (shdr m elf i) p s.mem mem)
    (hblocks : BlocksOk s.pml4Table elf len (mapSection
      ⟨mem, f, s.pml4Table, s.allocs ++ [(p, shSize m (shdr m elf i))]⟩ (shdr m elf i) p).allocs) :
    ∃ tables', MappedSection m elf len (shdr m elf i) p s (mapSection
      ⟨mem, f, s.pml4Table, s.allocs ++ [(p, shSize m (shdr m elf i))]⟩ (shdr m elf i) p)
      tables tables' := by
  have hblocksMid := hblocks.of_prefix (prefix_mapSection _ _ _)
  simp only at hblocksMid
  set sh := shdr m elf i with hsh
  have hlow : (Frame.block p (shSize m sh)).2 ≤ 2 ^ 31 :=
    hblocksMid.low (p, shSize m sh) (by simp)
  have hpos := himage.nonempty i hi hloaded
  have hlaid : Laid m sh p := ⟨hp, hlow, himage.aligned i hi hloaded, himage.upper i hi hloaded⟩
  -- the new block is disjoint from the tables, from the file and from the earlier blocks
  have hfresh : ∀ a ∈ (s.pml4Table, 4096) :: s.allocs,
      Frame.Range.Disjoint (Frame.block a.1 a.2) (Frame.block p (shSize m sh)) :=
    fun a ha => hblocksMid.separate.later ha (List.mem_singleton_self _)
  have hnotTable : ∀ x, p.toNat ≤ x → x < (Frame.block p (shSize m sh)).2 → x / 0x1000 ∉ tables :=
    fun x hlo hhi => hs.not_mem_of_disjoint hfresh hlo hhi
  have hfile := hblocksMid.image (p, shSize m sh) (by simp)
  generalize hmid : (⟨mem, f, s.pml4Table, s.allocs ++ [(p, shSize m sh)]⟩ : Machine) = mid
    at hblocks ⊢
  have hmidMem : mid.mem = mem := by rw [← hmid]
  have hmidPml4 : mid.pml4Table = s.pml4Table := by rw [← hmid]
  have hmidAllocs : mid.allocs = s.allocs ++ [(p, shSize m sh)] := by rw [← hmid]
  have hmidLog : s.allocs ⊆ mid.allocs := hmidAllocs ▸ List.subset_append_left _ _
  have hlogged : (p, shSize m sh) ∈ mid.allocs :=
    hmidAllocs ▸ List.mem_append_right _ (List.mem_singleton_self _)
  -- filling the block leaves the tables and the file as they were
  obtain ⟨hinv, htranslate⟩ := hs.congr hmidPml4 hmidLog fun x hx => by
    rw [hmidMem]
    exact hfilled.keep x fun hin => hnotTable x hin.1 hin.2 hx
  have hsameMid : Mem.AgreeOn mid.mem m elf.toNat len := by
    intro x hlo hhi
    rw [hmidMem, hfilled.keep x fun hin => hfile x hin.1 hin.2 hlo hhi]
    exact hsame x hlo hhi
  have hfields : ∀ m', Mem.AgreeOn m' m elf.toNat len →
      shAddr m' sh = shAddr m sh ∧ shSize m' sh = shSize m sh := by
    intro m' hm'
    obtain ⟨-, haddr, -, hsize⟩ := himage.file.fields hm' hi
    exact ⟨haddr, hsize⟩
  rw [← hmidPml4] at hblocks
  obtain ⟨tables', hmapped⟩ := mapSection_spec hinv hlaid hpos hfields hsameMid hblocks
  -- a block handed out before the mapping does not become a table
  have hlater : ∀ a ∈ mid.allocs, (∀ x, a.1.toNat ≤ x → x < (Frame.block a.1 a.2).2 →
      x / 0x1000 ∉ tables) → ∀ x, a.1.toNat ≤ x → x < (Frame.block a.1 a.2).2 →
      x / 0x1000 ∉ tables' := by
    intro a ha hold x hlo hhi
    refine hmapped.log.not_mem (r := Frame.block a.1 a.2) ?_ hlo hhi (hold x hlo hhi)
    intro new hnew b hb
    have hsep := hblocks.separate
    rw [hnew] at hsep
    exact (hsep.later (List.mem_cons_of_mem _ ha) hb).symm
  have hunshared := hlater _ hlogged hnotTable
  have hcontents : ∀ k < (shSize m sh).toNat,
      (mapSection mid sh p).mem (p.toNat + k) = mem (p.toNat + k) := by
    intro k hk
    rw [hmapped.frame _ (hunshared _ (Nat.le_add_right _ _) (lt_block_end p hk)), hmidMem]
  have hlog : mid.allocs ⊆ (mapSection mid sh p).allocs := (prefix_mapSection mid sh p).subset
  refine ⟨tables', hmapped.inv, hmapped.pml4.trans hmidPml4, fun a ha => hlog (hmidLog ha),
    hlog hlogged, image_of_mapped hmapped (hmapped.pml4 ▸ hblocks.image) hsameMid, hlaid, hpos,
    fun a ha => hfresh a (List.mem_cons_of_mem _ ha), hunshared,
    fun a ha => hlater a (hmidLog ha), ?_, ?_, ?_, ?_⟩
  · intro htype k hk hlen
    rw [hcontents k hk]
    exact hfilled.progbits htype k hk hlen
  · intro htype k hk
    rw [hcontents k hk]
    exact hfilled.nobits htype k hk
  · intro x hx hout
    rw [hmapped.frame x hx, hmidMem]
    exact hfilled.keep x hout
  · intro v
    rw [← htranslate v, ← hmidPml4]
    exact hmapped.translate v

/-- The section is in place. -/
theorem MappedSection.placed {sh p : Word32} {s s' : Machine} {tables tables' : List Nat}
    (h : MappedSection m elf len sh p s s' tables tables') :
    Placed m elf len sh p s' tables' where
  logged := h.logged
  unshared := h.unshared
  progbits := h.progbits
  nobits := h.nobits
  virt := by
    intro v hlo hhi
    rw [h.pml4, h.translate, sectionCalls_virt h.laid h.nonempty hlo hhi]
    rfl
  ident := by
    intro v hlo hhi
    rw [h.pml4, h.translate, sectionCalls_ident h.laid h.nonempty hlo hhi]
    rfl

/-- Another section, with pages of its own in the upper half, stays in place. -/
theorem MappedSection.keeps {sh p : Word32} {s s' : Machine} {tables tables' : List Nat}
    (h : MappedSection m elf len sh p s s' tables tables') {sh' q : Word32}
    (hq : Placed m elf len sh' q s tables) (hlow : (Frame.block q (shSize m sh')).2 ≤ 2 ^ 31)
    (hupper : 0xFFFF800000000000 ≤ (pages m sh').1)
    (hpages : ∀ x, (pages m sh').1 ≤ x → x < (pages m sh').2 →
      ¬ ((pages m sh).1 ≤ x ∧ x < (pages m sh).2)) :
    Placed m elf len sh' q s' tables' := by
  have hapart := h.apart _ hq.logged
  have hlater := h.later _ hq.logged hq.unshared
  refine hq.frame h.log h.pml4 ?_ hlater ?_ ?_
  · intro x hlo hhi
    exact h.frame x (hlater x hlo hhi) fun hin => hapart x hlo hhi hin.1 hin.2
  · intro v hlo hhi
    rw [h.translate, sectionCalls_none h.laid h.nonempty
      (Or.inl ⟨hupper.trans hlo, hpages v.toNat hlo hhi⟩)]
    rfl
  · intro v hlo hhi
    have hout : ¬ (p.toNat ≤ v.toNat ∧ v.toNat < (Frame.block p (shSize m sh)).2) :=
      fun hin => hapart v.toNat hlo hhi hin.1 hin.2
    rw [h.translate, sectionCalls_none h.laid h.nonempty
      (Or.inr ⟨lt_of_lt_of_le hhi hlow, hout⟩)]
    rfl

/-- **One section.**  When its block has been handed out and filled, mapping it puts the section in
place and leaves the earlier ones in place. -/
theorem place_section {i : Nat} {s : Machine} {tables : List Nat} (himage : Image m elf len)
    (hi : i < (eShnum m elf).toNat) (hloaded : IsLoaded m (shdr m elf i))
    (hs : Loading m elf len pml4 i s tables) {p : Word32} {f : Frame.Table} {mem : Mem}
    (hp : p.toNat % 0x1000 = 0) (hfilled : FilledBlock m elf len (shdr m elf i) p s.mem mem)
    (hblocks : BlocksOk pml4 elf len (mapSection
      ⟨mem, f, s.pml4Table, s.allocs ++ [(p, shSize m (shdr m elf i))]⟩ (shdr m elf i) p).allocs) :
    ∃ tables', Loading m elf len pml4 (i + 1) (mapSection
      ⟨mem, f, s.pml4Table, s.allocs ++ [(p, shSize m (shdr m elf i))]⟩ (shdr m elf i) p)
      tables' := by
  obtain rfl := hs.pml4
  obtain ⟨tables', hmapped⟩ :=
    mappedSection_of_filled himage hi hloaded hs.inv hs.image hp hfilled hblocks
  refine ⟨tables', hmapped.inv, hmapped.pml4, hmapped.image, ?_⟩
  intro j hj hjn hjloaded
  rcases Nat.lt_succ_iff_lt_or_eq.mp hj with hlt | rfl
  · -- an earlier section
    obtain ⟨q, hq⟩ := hs.placed j hlt hjn hjloaded
    have hlow := hblocks.low _ (hmapped.log hq.logged)
    have hapart := himage.disjoint j i hlt hi hjloaded hloaded
    exact ⟨q, hmapped.keeps hq hlow (himage.upper j hjn hjloaded).1
      fun x hlo hhi hin => hapart x hlo hhi hin.1 hin.2⟩
  · exact ⟨p, hmapped.placed⟩

end Round

/-! ## The loop -/

section Loop

variable {m : Mem} {elf : Word32} {len : Nat} {pml4 : Word32}

/-- The block of a section is filled before it is mapped. -/
theorem filled_spec {s : Machine} {i : Nat} (himage : Image m elf len)
    (hi : i < (eShnum m elf).toNat) (hsame : Mem.AgreeOn s.mem m elf.toNat len) {p : Word32}
    (hlow : (Frame.block p (shSize m (shdr m elf i))).2 ≤ 2 ^ 31)
    (hfile : Frame.Range.Disjoint (Frame.block p (shSize m (shdr m elf i)))
      (elf.toNat, elf.toNat + len))
    (hloaded : IsLoaded m (shdr m elf i)) :
    FilledBlock m elf len (shdr m elf i) p s.mem (filled s.mem elf (shdr m elf i) p) := by
  obtain ⟨htype, -, hoffset, hsize⟩ := himage.file.fields hsame hi
  have hup := le_pageUp (shSize m (shdr m elf i)).toNat
  simp only [Frame.block] at hlow
  have hcount : ((shSize m (shdr m elf i)).setWidth 32).toNat = (shSize m (shdr m elf i)).toNat := by
    rw [BitVec.toNat_setWidth, Nat.mod_eq_of_lt (by omega)]
  have hkeep : ∀ x, ¬ (p.toNat ≤ x ∧ x < (Frame.block p (shSize m (shdr m elf i))).2) →
      filled s.mem elf (shdr m elf i) p x = s.mem x :=
    fun x hout => filled_of_not (by rwa [hsize])
  unfold filled at hkeep ⊢
  rw [htype, hoffset, hsize] at hkeep ⊢
  simp only [Frame.block] at hfile
  rcases hloaded with hprog | hnobits
  · rw [if_pos hprog] at hkeep ⊢
    refine ⟨hkeep, fun _ k hk hlen => ?_,
      fun hother => absurd (hprog.symm.trans hother) (by decide)⟩
    have hfits := himage.fits
    have hsrc : ((shOffset m (shdr m elf i) + castU64 elf).setWidth 32).toNat =
        elf.toNat + (shOffset m (shdr m elf i)).toNat := by
      rw [BitVec.add_comm, castU64_setWidth, BitVec.toNat_add, BitVec.toNat_setWidth]
      omega
    -- a byte of the file lies outside the block, so it is copied before anything overwrites it
    have hsafe : elf.toNat + (shOffset m (shdr m elf i)).toNat + k < p.toNat ∨
        p.toNat + pageUp (shSize m (shdr m elf i)).toNat ≤
          elf.toNat + (shOffset m (shdr m elf i)).toNat + k := by
      by_contra hin
      push Not at hin
      exact hfile _ hin.1 hin.2 (by omega) (by omega)
    rw [memcpy_apply (by rw [hcount]; exact hk) (by rw [hsrc]; omega), hsrc]
    exact hsame _ (by omega) (by omega)
  · have hprog : shType m (shdr m elf i) ≠ shtProgbits :=
      fun hother => absurd (hnobits.symm.trans hother) (by decide)
    rw [if_neg hprog, hcount] at hkeep ⊢
    refine ⟨hkeep, fun hother => absurd hother hprog, fun _ k hk => ?_⟩
    exact Mem.fill_of_mem ⟨by omega, by omega⟩

/-- **One round.** -/
theorem loadSection_placed {i : Nat} {s : Machine} {tables : List Nat} (himage : Image m elf len)
    (hi : i < (eShnum m elf).toNat) (hs : Loading m elf len pml4 i s tables) (entry : Word64)
    (hblocks : BlocksOk pml4 elf len (loadSection s elf (shdr m elf i) entry).2.allocs) :
    ∃ entry' s' tables', loadSection s elf (shdr m elf i) entry = (some entry', s') ∧
      Loading m elf len pml4 (i + 1) s' tables' := by
  obtain ⟨htype, -, -, hsize⟩ := himage.file.fields hs.image hi
  have hloadedIff : IsLoaded s.mem (shdr m elf i) ↔ IsLoaded m (shdr m elf i) := by
    unfold IsLoaded
    rw [htype]
  rcases loadSection_cases s elf (shdr m elf i) entry with
    ⟨hskip, heq⟩ | ⟨-, hnull, heq⟩ | ⟨hload, -, s', rfl, heq⟩
  · -- a section of another type
    refine ⟨entry, s, tables, heq, hs.inv, hs.pml4, hs.image, fun j hj hjn hjloaded => ?_⟩
    rcases Nat.lt_succ_iff_lt_or_eq.mp hj with hlt | rfl
    · exact hs.placed j hlt hjn hjloaded
    · exact absurd (hloadedIff.mpr hjloaded) hskip
  · -- `Alloc` does not fail
    rw [heq] at hblocks
    exact absurd hnull (hblocks.separate.1 _ (logged_allocated ..))
  · -- the block is handed out, filled and mapped
    rw [heq] at hblocks
    have hload' := hloadedIff.mp hload
    cases halloc : Frame.alloc s.frame Frame.frameSub4GB (shSize m (shdr m elf i))
        Frame.frameUsed with
    | mk p f =>
    have haligned : p.toNat % 0x1000 = 0 := by
      have hmod := alloc_aligned s.frame Frame.frameSub4GB (shSize m (shdr m elf i)) Frame.frameUsed
      rwa [halloc] at hmod
    simp only [allocated, Machine.alloc, hsize, halloc] at hblocks heq
    have hmid := hblocks.of_prefix (prefix_mapSection _ _ _)
    simp only at hmid
    have hlow := hmid.low (p, shSize m (shdr m elf i)) (by simp)
    have hfile := hmid.image (p, shSize m (shdr m elf i)) (by simp)
    have hfilled := filled_spec himage hi hs.image hlow hfile hload'
    obtain ⟨tables', hplaced⟩ := place_section himage hi hload' hs haligned hfilled hblocks
    exact ⟨_, _, tables', heq, hplaced⟩

/-- The loop's test for its end. -/
theorem ofNat_eq_shnum {shnum : Word16} {i : Nat} (hi : i ≤ shnum.toNat) :
    BitVec.ofNat 32 i = shnum.setWidth 32 ↔ i = shnum.toNat := by
  have hlt := shnum.isLt
  rw [← BitVec.toNat_inj, BitVec.toNat_ofNat, BitVec.toNat_setWidth]
  omega

/-- **The loop.**  With enough rounds it returns, and every section is in place. -/
theorem loadLoop_placed (himage : Image m elf len) {fuel i : Nat}
    (hfuel : (eShnum m elf).toNat - i < fuel) (hi : i ≤ (eShnum m elf).toNat) {s : Machine}
    {tables : List Nat} (hs : Loading m elf len pml4 i s tables) (entry : Word64)
    (hblocks : BlocksOk pml4 elf len
      (loadLoop fuel s elf (sectionHeader m elf) (BitVec.ofNat 32 i) entry).2.allocs) :
    ∃ entry' s' tables', loadLoop fuel s elf (sectionHeader m elf) (BitVec.ofNat 32 i) entry =
      (.returned entry', s') ∧ Loading m elf len pml4 (eShnum m elf).toNat s' tables' := by
  induction fuel generalizing i s tables entry with
  | zero => omega
  | succ fuel ih =>
      have hshnum := himage.file.shnum hs.image
      by_cases hlast : i = (eShnum m elf).toNat
      · rw [loadLoop, hshnum, if_pos ((ofNat_eq_shnum hi).mpr hlast)]
        exact ⟨entry, s, tables, rfl, hlast ▸ hs⟩
      · have hlt : i < (eShnum m elf).toNat := by omega
        have hmore : BitVec.ofNat 32 i ≠ (eShnum s.mem elf).setWidth 32 := by
          rw [hshnum]
          exact fun heq => hlast ((ofNat_eq_shnum hi).mp heq)
        have hthis : BlocksOk pml4 elf len (loadSection s elf (shdr m elf i) entry).2.allocs :=
          hblocks.of_prefix (prefix_round fuel _ entry hmore)
        obtain ⟨entry1, s1, tables1, heq, hnext⟩ := loadSection_placed himage hlt hs entry hthis
        unfold shdr at heq
        have hindex : BitVec.ofNat 32 i + 1 = BitVec.ofNat 32 (i + 1) := (BitVec.ofNat_add ..).symm
        rw [loadLoop, if_neg hmore, heq, hindex] at hblocks ⊢
        exact ih (by omega) hlt hnext entry1 hblocks

end Loop

/-- **The kernel image is loaded.**  When the page tables were built by `Map` and the allocator keeps
its promises, `Load` returns, and every byte of every PROGBITS and NOBITS section is mapped to a
physical byte with the section's contents that is also mapped at its own address. -/
theorem load_places_sections {s : Machine} (hbuilt : Built s) {elf : Word32} {len : Nat}
    (himage : Image s.mem elf len) {fuel : Nat} (hfuel : (eShnum s.mem elf).toNat < fuel)
    (hblocks : BlocksOk s.pml4Table elf len (load fuel s elf).2.allocs) :
    ∃ entry s', load fuel s elf = (.returned entry, s') ∧
      ∀ i < (eShnum s.mem elf).toNat, IsLoaded s.mem (shdr s.mem elf i) →
        ∀ k < (shSize s.mem (shdr s.mem elf i)).toNat, ∃ phys flags flags',
          translate s'.mem s'.pml4Table.toNat
            (shAddr s.mem (shdr s.mem elf i) + BitVec.ofNat 64 k) = some (phys, flags) ∧
          (shType s.mem (shdr s.mem elf i) = shtProgbits →
            (shOffset s.mem (shdr s.mem elf i)).toNat + k < len →
            s'.mem phys = s.mem (elf.toNat + (shOffset s.mem (shdr s.mem elf i)).toNat + k)) ∧
          (shType s.mem (shdr s.mem elf i) = shtNobits → s'.mem phys = 0) ∧
          phys < 2 ^ 31 ∧
          translate s'.mem s'.pml4Table.toNat (BitVec.ofNat 64 phys) = some (phys, flags') := by
  obtain ⟨tables, htables⟩ := hbuilt.pageTables
  have hstart : Loading s.mem elf len s.pml4Table 0 s tables :=
    ⟨htables, rfl, fun _ _ _ => rfl, fun j hj => absurd hj (Nat.not_lt_zero j)⟩
  have hload : load fuel s elf =
      loadLoop fuel s elf (sectionHeader s.mem elf) (BitVec.ofNat 32 0) 0 := by
    unfold load
    rw [himage.accepted]
    rfl
  rw [hload] at hblocks
  obtain ⟨entry, s', tables', heq, hdone⟩ :=
    loadLoop_placed himage (i := 0) (by omega) (Nat.zero_le _) hstart 0 hblocks
  rw [heq] at hblocks
  refine ⟨entry, s', hload.trans heq, fun i hi hloaded k hk => ?_⟩
  obtain ⟨p, hp⟩ := hdone.placed i hi hi hloaded
  have hup := le_pageUp (shSize s.mem (shdr s.mem elf i)).toNat
  have hlow := hblocks.low _ hp.logged
  have hupper := (himage.upper i hi hloaded).2
  simp only [Frame.block] at hlow
  simp only [pages] at hupper
  have hv : (shAddr s.mem (shdr s.mem elf i) + BitVec.ofNat 64 k).toNat =
      (shAddr s.mem (shdr s.mem elf i)).toNat + k := by
    rw [BitVec.toNat_add, BitVec.toNat_ofNat]
    omega
  have hw : (BitVec.ofNat 64 (p.toNat + k)).toNat = p.toNat + k := by
    rw [BitVec.toNat_ofNat, Nat.mod_eq_of_lt (by omega)]
  -- the byte is mapped at its address and at its place in the block
  have hvirt := hp.virt (shAddr s.mem (shdr s.mem elf i) + BitVec.ofNat 64 k)
    (by rw [hv]; exact Nat.le_add_right _ _) (by rw [hv]; simp only [pages]; omega)
  have hident := hp.ident (BitVec.ofNat 64 (p.toNat + k)) (by omega)
    (by rw [hw]; simp only [Frame.block]; omega)
  rw [hv, show (shAddr s.mem (shdr s.mem elf i)).toNat + k -
    (pages s.mem (shdr s.mem elf i)).1 = k from Nat.add_sub_cancel_left ..] at hvirt
  rw [hw] at hident
  exact ⟨p.toNat + k, sectionFlags, sectionFlags, hvirt,
    fun htype hlen => hp.progbits htype k hk hlen, fun htype => hp.nobits htype k hk, by omega, hident⟩

/-- An image at 2 MB, in memory that is full of 0xff above 16 MB: four bytes of code, which start at
the third one, and behind them 6 KB that are to be zero. -/
def codeAndBss : Mem :=
  [(0x200000, 4, 0x464c457f), (0x200010, 2, 2), (0x200012, 2, 62), (0x200018, 8, 0xFFFFFFFF80000002),
    (0x200028, 8, 64), (0x20003a, 2, 64), (0x20003c, 2, 2),
    (0x200044, 4, 1), (0x200050, 8, 0xFFFFFFFF80000000), (0x200058, 8, 192), (0x200060, 8, 4),
    (0x200084, 4, 8), (0x200090, 8, 0xFFFFFFFF80001000), (0x2000a0, 8, 0x1800),
    (0x2000c0, 4, 0xfcebf4fa)].foldl (fun m w => m.store w.1 w.2.1 w.2.2)
      fun x => if 0x1000000 ≤ x then 0xff else 0

/-- The loader with an image, a zeroed PML4 at 64 KB and one megabyte of free frames. -/
def kernelMachine (image : Mem) : Machine := ⟨memzero image 0x10000 4096, Frame.oneRange, 0x10000, []⟩

theorem codeAndBss_image : Image (kernelMachine codeAndBss).mem 0x200000 196 where
  fits := by decide
  ehdr := by decide
  accepted := by decide +kernel
  shentsize := by decide +kernel
  shdrs := by decide +kernel
  nonempty := by decide +kernel
  aligned := by decide +kernel
  upper := by decide +kernel
  disjoint := by
    intro i j hij hj _ _ x h1 h2 h3 h4
    have htwo : (eShnum (kernelMachine codeAndBss).mem 0x200000).toNat = 2 := by decide +kernel
    obtain rfl : i = 0 := by omega
    obtain rfl : j = 1 := by omega
    -- the first section is one page
    have hfirst : (pages (kernelMachine codeAndBss).mem
        (shdr (kernelMachine codeAndBss).mem 0x200000 0)).2 = 0xFFFFFFFF80001000 := by
      decide +kernel
    have hsecond : (pages (kernelMachine codeAndBss).mem
        (shdr (kernelMachine codeAndBss).mem 0x200000 1)).1 = 0xFFFFFFFF80001000 := by
      decide +kernel
    omega

/-- Two blocks of which one ends before the other starts. -/
abbrev BoundsApart (a b : Word32 × Word64) : Prop :=
  (Frame.block a.1 a.2).2 ≤ (Frame.block b.1 b.2).1 ∨
    (Frame.block b.1 b.2).2 ≤ (Frame.block a.1 a.2).1

theorem separate_of_bounds {pml4 : Word32} {log : List (Word32 × Word64)}
    (hnull : 0 ∉ log.map Prod.fst)
    (hpairs : ((pml4, 4096) :: log).Pairwise fun a b => BoundsApart a b) : Separate pml4 log := by
  refine ⟨fun a ha hzero => hnull (hzero ▸ List.mem_map_of_mem ha), ?_⟩
  refine hpairs.imp fun {a b} hab x h1 h2 h3 h4 => ?_
  rcases hab with hab | hba
  · omega
  · omega

/-- The blocks leave the file alone, by their bounds. -/
theorem image_of_bounds {elf : Word32} {len : Nat} {log : List (Word32 × Word64)}
    (himage : log.all fun a => (Frame.block a.1 a.2).2 ≤ elf.toNat ∨
      elf.toNat + len ≤ (Frame.block a.1 a.2).1) :
    ∀ a ∈ log, Frame.Range.Disjoint (Frame.block a.1 a.2) (elf.toNat, elf.toNat + len) := by
  intro a ha x h1 h2 h3 h4
  have hbounds := List.all_eq_true.mp himage a ha
  simp only [Bool.decide_or, Bool.or_eq_true, decide_eq_true_eq] at hbounds
  omega

/-- The blocks handed out while it is loaded: the code's, six page tables, and that of the zeros. -/
theorem codeAndBss_log : (load 3 (kernelMachine codeAndBss) 0x200000).2.allocs =
    [(0x1000000, 4), (0x1001000, 4096), (0x1002000, 4096), (0x1003000, 4096), (0x1004000, 4096),
      (0x1005000, 4096), (0x1006000, 4096), (0x1007000, 0x1800)] := by decide +kernel

theorem codeAndBss_blocks :
    BlocksOk 0x10000 0x200000 196 (load 3 (kernelMachine codeAndBss) 0x200000).2.allocs := by
  have hlog := codeAndBss_log
  generalize (load 3 (kernelMachine codeAndBss) 0x200000).2.allocs = log at hlog
  have hlow : log.all (fun a => (Frame.block a.1 a.2).2 ≤ 2 ^ 31) = true := by
    rw [hlog]
    decide +kernel
  constructor
  · rw [hlog]
    exact separate_of_bounds (by decide +kernel) (by decide +kernel)
  · intro a ha
    simpa using List.all_eq_true.mp hlow a ha
  · rw [hlog]
    exact image_of_bounds (by decide +kernel)

/-- A byte of the code and one of the second page behind it. -/
theorem codeAndBss_loaded : ∃ entry s',
    load 3 (kernelMachine codeAndBss) 0x200000 = (.returned entry, s') ∧
      (∃ phys flags, translate s'.mem s'.pml4Table.toNat 0xFFFFFFFF80000002 = some (phys, flags) ∧
        s'.mem phys = 0xeb) ∧
      ∃ phys flags, translate s'.mem s'.pml4Table.toNat 0xFFFFFFFF80002000 = some (phys, flags) ∧
        s'.mem phys = 0 := by
  have hbuilt : Built (kernelMachine codeAndBss) := built_zeroed _ _
  have hcount : (eShnum (kernelMachine codeAndBss).mem 0x200000).toNat < 3 := by decide +kernel
  obtain ⟨entry, s', heq, hall⟩ :=
    load_places_sections hbuilt codeAndBss_image hcount codeAndBss_blocks
  obtain ⟨code, flags, -, hcode, hbyte, -⟩ := hall 0 (by decide +kernel) (by decide +kernel) 2
    (by decide +kernel)
  obtain ⟨bss, flags', -, hbss, -, hzero, -⟩ := hall 1 (by decide +kernel) (by decide +kernel) 0x1000
    (by decide +kernel)
  have haddr : shAddr (kernelMachine codeAndBss).mem
      (shdr (kernelMachine codeAndBss).mem 0x200000 0) + BitVec.ofNat 64 2 = 0xFFFFFFFF80000002 := by
    decide +kernel
  have haddrBss : shAddr (kernelMachine codeAndBss).mem
      (shdr (kernelMachine codeAndBss).mem 0x200000 1) + BitVec.ofNat 64 0x1000 =
        0xFFFFFFFF80002000 := by decide +kernel
  have hread : (kernelMachine codeAndBss).mem ((0x200000 : Word32).toNat +
      (shOffset (kernelMachine codeAndBss).mem
        (shdr (kernelMachine codeAndBss).mem 0x200000 0)).toNat + 2) = 0xeb := by decide +kernel
  rw [haddr] at hcode
  rw [haddrBss] at hbss
  exact ⟨entry, s', heq, ⟨code, flags, hcode, (hbyte (by decide +kernel) (by decide +kernel)).trans
    hread⟩, bss, flags', hbss, hzero (by decide +kernel)⟩

end Elf
end Loader
end ZineOS
