import ZineOS.Loader.BootTables
import ZineOS.Loader.ElfEntry

/-!
# The kernel is loaded in a boot

`Elf::Load` with what the boot knows about its frames.  That blocks and tables keep apart is not
asked of the allocator here, it follows from what the boot owns.  The invariant of the loop over the
sections has all of it together: the book, the tables, the sections in place and what stays as it
was.
-/

namespace ZineOS
namespace Loader
namespace Elf

open Lib VirtualMemory

variable {avail : Nat → Prop} {n : Nat} {tables : List Nat} {s : Machine} {elf : Word32} {len : Nat}

/-- What may be handed out lies below 2 GB. -/
def BelowTwoGB (avail : Nat → Prop) : Prop := ∀ q, avail q → q * 0x1000 + 0x1000 ≤ 2 ^ 31

/-- The file lies where nothing is handed out. -/
def FileKept (avail : Nat → Prop) (elf : Word32) (len : Nat) : Prop :=
  ∀ x, elf.toNat ≤ x → x < elf.toNat + len → ¬ avail (x / 0x1000)

/-- A block ends with a page that may be handed out. -/
theorem block_end_le {t : Frame.Table} {log : AllocLog} (h : Frame.Owns avail n t log)
    (hlow : BelowTwoGB avail) {a : Word32 × Word64} (ha : a ∈ log) :
    (Frame.block a.1 a.2).2 ≤ 2 ^ 31 := by
  obtain ⟨hlt, hmod⟩ := h.block_pages ha
  have hup := pageUp_mod a.2.toNat
  simp only [Frame.block] at hlt hmod ⊢
  have hlast := hlow _ (h.blocks a ha ((a.1.toNat + pageUp a.2.toNat) / 0x1000 - 1)
    ⟨by simp only [Frame.block]; omega, by simp only [Frame.block]; omega⟩)
  omega

/-- **Owned blocks are what `Load` needs.** -/
theorem blocksOk_of_owns {t : Frame.Table} {pml4 : Word32} {log : AllocLog}
    (h : Frame.Owns avail n t ((pml4, 4096) :: log)) (hnull : ∀ a ∈ log, a.1 ≠ 0)
    (hlow : BelowTwoGB avail) (hkept : FileKept avail elf len) : BlocksOk pml4 elf len log where
  separate := ⟨hnull, h.apart⟩
  low := fun _ ha => block_end_le h hlow (List.mem_cons_of_mem _ ha)
  image := fun _ ha x hlo hhi hfile hend => hkept x hfile hend (h.avail_of_block ha hlo hhi)

theorem BlocksOk.blocksApart {pml4 : Word32} {log : AllocLog} (h : BlocksOk pml4 elf len log) :
    BlocksApart pml4 elf len log where
  separate := h.separate
  fits := fun a ha => lt_of_le_of_lt (h.low a ha) (by decide)
  image := h.image

theorem logged_mapSection (s : Machine) (sh ptr : Word32) :
    ∃ k, Logged k s (mapSection s sh ptr) := by
  rw [mapSection_eq, mapRange_eq, mapRange_eq]
  exact ⟨_, (logged_mapAll s _).trans (logged_mapAll _ _)⟩

/-- The state before round `i` of the loop that started at `s`. -/
structure KernelLoad (avail : Nat → Prop) (n : Nat) (s : Machine) (elf : Word32) (len i : Nat)
    (tables : List Nat) : Prop where
  booting : Booting avail n (before s elf i) (before s elf i).allocs tables
  preserves : Preserves avail (fun _ => False) s (before s elf i)
  placed : ∀ j < i, j < (eShnum s.mem elf).toNat → IsLoaded s.mem (shdr s.mem elf j) →
    Placed s.mem elf len (shdr s.mem elf j) (sectionBlock s elf j) (before s elf i) tables

theorem KernelLoad.file {i : Nat} (h : KernelLoad avail n s elf len i tables)
    (hkept : FileKept avail elf len) : Mem.AgreeOn (before s elf i).mem s.mem elf.toNat len :=
  fun x hlo hhi => h.preserves.mem x (hkept x hlo hhi) id

/-- The size of a section is one that `Alloc` can round up. -/
theorem sane_shSize (himage : Image s.mem elf len) {i : Nat} (hi : i < (eShnum s.mem elf).toNat)
    (hloaded : IsLoaded s.mem (shdr s.mem elf i)) :
    Frame.SaneSize (shSize s.mem (shdr s.mem elf i)) := by
  obtain ⟨hlo, hhi⟩ := himage.upper i hi hloaded
  have hup := le_pageUp (shSize s.mem (shdr s.mem elf i)).toNat
  unfold Frame.SaneSize
  simp only [pages] at hhi
  omega

/-- The addresses below 2 GB that a section is not mapped at are left alone, and its block is mapped
to itself. -/
theorem MappedSection.identity {sh p : Word32} {s' : Machine} {m : Mem} {tables' : List Nat}
    (h : MappedSection m elf len sh p s s' tables tables') {v : Word64} (hv : v.toNat < 2 ^ 31)
    (hbefore : physical s v = some v.toNat) : physical s' v = some v.toNat := by
  unfold physical
  rw [h.pml4, h.translate]
  by_cases hin : p.toNat ≤ v.toNat ∧ v.toNat < (Frame.block p (shSize m sh)).2
  · rw [sectionCalls_ident h.laid h.nonempty hin.1 hin.2]
    rfl
  · rw [sectionCalls_none h.laid h.nonempty (Or.inr ⟨hv, hin⟩)]
    exact hbefore

/-- What a placed section is for the boot. -/
theorem MappedSection.preserves {sh p : Word32} {s' : Machine} {m : Mem} {tables' : List Nat}
    (h : MappedSection m elf len sh p s s' tables tables')
    (hbooting : Booting avail n s' s'.allocs tables') :
    Preserves avail (fun _ => False) s s' where
  pml4 := h.pml4
  mem := by
    intro x hx _
    refine h.frame x (fun hmem => hx (hbooting.table_avail hmem)) fun hin => hx ?_
    exact hbooting.owns.avail_of_block (List.mem_cons_of_mem _ h.logged) hin.1 hin.2
  identity := fun _ hv hbefore => h.identity hv hbefore

/-- The block of a section is new, and so are the pages for its tables. -/
theorem KernelLoad.place (himage : Image s.mem elf len) (hkept : FileKept avail elf len)
    (hlow : BelowTwoGB avail) {i : Nat} (hi : i < (eShnum s.mem elf).toNat)
    (hloaded : IsLoaded s.mem (shdr s.mem elf i)) (h : KernelLoad avail n s elf len i tables)
    {p : Word32} {f : Frame.Table} (halloc : Frame.alloc (before s elf i).frame Frame.frameSub4GB
      (shSize s.mem (shdr s.mem elf i)) Frame.frameUsed = (p, f)) (hp : p ≠ 0) {mid s' : Machine}
    (hmid : mid = ⟨filled (before s elf i).mem elf (shdr s.mem elf i) p, f,
      (before s elf i).pml4Table, (before s elf i).allocs ++ [(p, shSize s.mem (shdr s.mem elf i))]⟩)
    (hs' : s' = mapSection mid (shdr s.mem elf i) p) (hample : Ample n s'.allocs) :
    ∃ tables', MappedSection s.mem elf len (shdr s.mem elf i) p (before s elf i) s' tables tables' ∧
      Booting avail n s' s'.allocs tables' := by
  obtain ⟨k, hlogged⟩ := logged_mapSection mid (shdr s.mem elf i) p
  rw [← hs'] at hlogged
  have hmidLog : mid.allocs =
      (before s elf i).allocs ++ [(p, shSize s.mem (shdr s.mem elf i))] := by rw [hmid]
  have hmidFrame : mid.frame = f := by rw [hmid]
  have hmidLength : mid.allocs.length = (before s elf i).allocs.length + 1 := by
    rw [hmidLog, List.length_append, List.length_singleton]
  have hrows := (hample.of_prefix hlogged.isPrefix).rows
  rw [hmidLength] at hrows
  have hblock := h.booting.owns.alloc (by omega) (himage.nonempty i hi hloaded)
    (sane_shSize himage hi hloaded) (Or.inl rfl) halloc hp
  have howns : Frame.Owns avail (n + mid.allocs.length) mid.frame
      (((before s elf i).pml4Table, 4096) :: mid.allocs) := by
    rw [hmidLength, hmidFrame, hmidLog, ← Nat.add_assoc]
    exact hblock
  obtain ⟨new, hlog, -, hall⟩ := howns.logged hlogged hample
  rw [List.cons_append, ← hlog] at hall
  have hblocks := blocksOk_of_owns hall hample.nonNull hlow hkept
  have hin : (p, shSize s.mem (shdr s.mem elf i)) ∈ s'.allocs := by
    rw [hlog, hmidLog]
    simp
  have hbelow := hblocks.low _ hin
  have hapart := hblocks.image _ (List.mem_cons_of_mem _ hin)
  have hfilled := filled_spec himage hi (h.file hkept) hbelow hapart hloaded
  have haligned : p.toNat % 0x1000 = 0 := by
    have hmod := alloc_aligned (before s elf i).frame Frame.frameSub4GB
      (shSize s.mem (shdr s.mem elf i)) Frame.frameUsed
    rwa [halloc] at hmod
  rw [hs', hmid] at hblocks
  obtain ⟨tables', hplaced⟩ := mappedSection_of_filled himage hi hloaded h.booting.inv
    (h.file hkept) haligned hfilled hblocks
  have hmapped : MappedSection s.mem elf len (shdr s.mem elf i) p (before s elf i) s' tables
      tables' := by
    rw [hs', hmid]
    exact hplaced
  refine ⟨tables', hmapped, ?_, hample.nonNull, le_rfl, hmapped.inv⟩
  rw [hmapped.pml4]
  exact hall

/-- **One section.**  It is placed in a new block, and the earlier ones stay in place. -/
theorem KernelLoad.next (himage : Image s.mem elf len) (hkept : FileKept avail elf len)
    (hlow : BelowTwoGB avail) {i : Nat} (hi : i < (eShnum s.mem elf).toNat)
    (h : KernelLoad avail n s elf len i tables) (hample : Ample n (before s elf (i + 1)).allocs) :
    ∃ tables', KernelLoad avail n s elf len (i + 1) tables' := by
  obtain ⟨htype, -, -, hsize⟩ := himage.file.fields (h.file hkept) hi
  have hloadedIff : IsLoaded (before s elf i).mem (shdr s.mem elf i) ↔
      IsLoaded s.mem (shdr s.mem elf i) := by
    unfold IsLoaded
    rw [htype]
  have hnext := before_succ s elf i 0
  rcases loadSection_cases (before s elf i) elf (shdr s.mem elf i) 0 with
    ⟨hskip, heq⟩ | ⟨-, hnull, heq⟩ | ⟨hload, hnonNull, s', hs', heq⟩
  · -- a section of another type
    have hstay : before s elf (i + 1) = before s elf i := hnext.trans (congrArg Prod.snd heq)
    refine ⟨tables, ?_, ?_, ?_⟩
    · rw [hstay]
      exact h.booting
    · rw [hstay]
      exact h.preserves
    · intro j hj hjn hjloaded
      rw [hstay]
      rcases Nat.lt_succ_iff_lt_or_eq.mp hj with hlt | rfl
      · exact h.placed j hlt hjn hjloaded
      · exact absurd (hloadedIff.mpr hjloaded) hskip
  · -- `Alloc` does not fail
    rw [hnext, heq] at hample
    exact absurd hnull (hample.nonNull _ (logged_allocated ..))
  · have hloaded := hloadedIff.mp hload
    have hstate : before s elf (i + 1) = s' := hnext.trans (congrArg Prod.snd heq)
    obtain ⟨p, f, halloc⟩ : ∃ p f, Frame.alloc (before s elf i).frame Frame.frameSub4GB
        (shSize s.mem (shdr s.mem elf i)) Frame.frameUsed = (p, f) := ⟨_, _, rfl⟩
    have hblock : allocated (before s elf i) (shdr s.mem elf i) = (p, { before s elf i with
        frame := f
        allocs := (before s elf i).allocs ++ [(p, shSize s.mem (shdr s.mem elf i))] }) := by
      simp only [allocated, Machine.alloc, hsize, halloc]
    have hp : sectionBlock s elf i = p := congrArg Prod.fst hblock
    rw [hblock] at hs' hnonNull
    rw [hstate] at hample
    obtain ⟨tables', hmapped, hbooting⟩ :=
      h.place himage hkept hlow hi hloaded halloc hnonNull rfl hs' hample
    refine ⟨tables', ?_, ?_, ?_⟩
    · rw [hstate]
      exact hbooting
    · rw [hstate]
      exact h.preserves.trans (hmapped.preserves hbooting)
    · intro j hj hjn hjloaded
      rw [hstate]
      rcases Nat.lt_succ_iff_lt_or_eq.mp hj with hlt | rfl
      · -- an earlier section
        have hq := h.placed j hlt hjn hjloaded
        have hqlow := block_end_le hbooting.owns hlow
          (List.mem_cons_of_mem _ (hmapped.log hq.logged))
        have hapart := himage.disjoint j i hlt hi hjloaded hloaded
        exact hmapped.keeps hq hqlow (himage.upper j hjn hjloaded).1
          fun x hlo hhi hin => hapart x hlo hhi hin.1 hin.2
      · rw [hp]
        exact hmapped.placed

/-- The start of the loop. -/
theorem kernelLoad_zero (h : Booting avail n s s.allocs tables) :
    KernelLoad avail n s elf len 0 tables :=
  ⟨h, .refl s, fun j hj => absurd hj (Nat.not_lt_zero j)⟩

theorem KernelLoad.kept {i : Nat} (h : KernelLoad avail n s elf len i tables)
    (hkept : FileKept avail elf len) :
    Kept s.mem elf len s.pml4Table (before s elf i) tables where
  inv := h.booting.inv
  pml4 := h.preserves.pml4
  file := h.file hkept

/-- **The loop over the sections.**  Either record will do. -/
theorem KernelLoad.loop (himage : Image s.mem elf len) (hkept : FileKept avail elf len)
    (hlow : BelowTwoGB avail) {fuel i : Nat} (hfuel : (eShnum s.mem elf).toNat - i < fuel)
    (hi : i ≤ (eShnum s.mem elf).toNat) (h : KernelLoad avail n s elf len i tables)
    (hample : Ample n (loadLoop fuel (before s elf i) elf (sectionHeader s.mem elf)
        (BitVec.ofNat 32 i) (entryAfter s elf i)).2.allocs ∨
      Ample n (before s elf (eShnum s.mem elf).toNat).allocs) :
    loadLoop fuel (before s elf i) elf (sectionHeader s.mem elf) (BitVec.ofNat 32 i)
        (entryAfter s elf i) =
          (.returned (entryAfter s elf (eShnum s.mem elf).toNat),
            before s elf (eShnum s.mem elf).toNat) ∧
      ∃ tables', KernelLoad avail n s elf len (eShnum s.mem elf).toNat tables' := by
  induction fuel generalizing i tables with
  | zero => omega
  | succ fuel ih =>
      have hshnum := himage.file.shnum (h.file hkept)
      by_cases hlast : i = (eShnum s.mem elf).toNat
      · rw [loadLoop, hshnum, if_pos ((ofNat_eq_shnum hi).mpr hlast), ← hlast]
        exact ⟨rfl, tables, h⟩
      · have hlt : i < (eShnum s.mem elf).toNat := by omega
        have hmore : BitVec.ofNat 32 i ≠ (eShnum (before s elf i).mem elf).setWidth 32 := by
          rw [hshnum]
          exact fun heq => hlast ((ofNat_eq_shnum hi).mp heq)
        have hstate := before_succ s elf i (entryAfter s elf i)
        unfold shdr at hstate
        have hround : Ample n (before s elf (i + 1)).allocs := by
          rcases hample with hloop | hend
          · rw [hstate]
            exact hloop.of_prefix (prefix_round fuel _ _ hmore)
          · exact hend.of_prefix (prefix_before hlt)
        obtain ⟨tables', hnext⟩ := h.next himage hkept hlow hlt hround
        -- what the round returns
        have hblocks := blocksOk_of_owns hnext.booting.owns hnext.booting.nonNull hlow hkept
        rw [hnext.preserves.pml4] at hblocks
        have hapart := hblocks.blocksApart
        rw [hstate] at hapart
        obtain ⟨s', -, heq, -⟩ := loadSection_entry himage.file hlt (h.kept hkept) _ hapart
        have hs' : s' = before s elf (i + 1) := by
          rw [before_succ s elf i (entryAfter s elf i), heq]
        subst hs'
        unfold shdr at heq
        have hindex : BitVec.ofNat 32 i + 1 = BitVec.ofNat 32 (i + 1) := (BitVec.ofNat_add ..).symm
        rw [loadLoop, if_neg hmore, heq, hindex] at hample ⊢
        exact ih (by omega) hlt hnext hample

/-- **`Elf::Load` in a boot.** -/
theorem load_booting (himage : Image s.mem elf len) (hkept : FileKept avail elf len)
    (hlow : BelowTwoGB avail) {fuel : Nat} (hfuel : (eShnum s.mem elf).toNat < fuel)
    (h : Booting avail n s s.allocs tables)
    (hample : Ample n (load fuel s elf).2.allocs ∨
      Ample n (before s elf (eShnum s.mem elf).toNat).allocs) :
    load fuel s elf = (.returned (entryAfter s elf (eShnum s.mem elf).toNat),
        before s elf (eShnum s.mem elf).toNat) ∧
      ∃ tables', KernelLoad avail n s elf len (eShnum s.mem elf).toNat tables' := by
  have hload : load fuel s elf = loadLoop fuel (before s elf 0) elf (sectionHeader s.mem elf)
      (BitVec.ofNat 32 0) (entryAfter s elf 0) := by
    unfold load
    rw [himage.accepted]
    rfl
  rw [hload] at hample ⊢
  exact (kernelLoad_zero h).loop himage hkept hlow (by omega) (Nat.zero_le _) hample

/-! ## The entry point -/

/-- **The entry point.**  When the last section that takes it contains it, the address that `Load`
returns is mapped to itself, and the entry point of the file is mapped there too. -/
theorem KernelLoad.entry (hlow : BelowTwoGB avail)
    (h : KernelLoad avail n s elf len (eShnum s.mem elf).toNat tables) {i : Nat}
    (hholds : HoldsEntry s.mem elf i) (hlast : LastAccepted s.mem elf i) :
    entryAfter s elf (eShnum s.mem elf).toNat ≠ 0 ∧
      physical (before s elf (eShnum s.mem elf).toNat)
          (entryAfter s elf (eShnum s.mem elf).toNat) =
        some (entryAfter s elf (eShnum s.mem elf).toNat).toNat ∧
      physical (before s elf (eShnum s.mem elf).toNat) (eEntry s.mem elf) =
        some (entryAfter s elf (eShnum s.mem elf).toNat).toNat := by
  have hplaced := h.placed i hholds.lt hholds.lt hholds.isLoaded
  have hbound := block_end_le h.booting.owns hlow (List.mem_cons_of_mem _ hplaced.logged)
  have hnull := h.booting.nonNull _ hplaced.logged
  have hstart : (shAddr s.mem (shdr s.mem elf i)).toNat ≤ (eEntry s.mem elf).toNat :=
    hholds.start_le
  have hstop : (eEntry s.mem elf).toNat <
      (shAddr s.mem (shdr s.mem elf i)).toNat + (shSize s.mem (shdr s.mem elf i)).toNat :=
    hholds.lt_stop
  have hup := le_pageUp (shSize s.mem (shdr s.mem elf i)).toNat
  have hpos : 0 < (sectionBlock s elf i).toNat :=
    Nat.pos_of_ne_zero fun h0 => hnull (BitVec.eq_of_toNat_eq h0)
  simp only [Frame.block] at hbound
  -- the last match decides
  have hentry : entryAfter s elf (eShnum s.mem elf).toNat = castU64 (sectionBlock s elf i) +
      eEntry s.mem elf - shAddr s.mem (shdr s.mem elf i) := by
    rcases entryAfter_shnum s elf with ⟨-, hnone⟩ | ⟨j, hj, heq⟩
    · exact absurd hlast.1 (hnone i)
    · rwa [hj.unique hlast] at heq
  have hvalue : (entryAfter s elf (eShnum s.mem elf).toNat).toNat =
      (sectionBlock s elf i).toNat +
        ((eEntry s.mem elf).toNat - (shAddr s.mem (shdr s.mem elf i)).toNat) := by
    rw [hentry, toNat_entry hstart (by omega), if_pos (by omega)]
    exact Nat.add_zero _
  refine ⟨?_, ?_, ?_⟩
  · intro hzero
    rw [hzero] at hvalue
    have hzeroNat : (0 : Word64).toNat = 0 := rfl
    omega
  · have hident := hplaced.ident (entryAfter s elf (eShnum s.mem elf).toNat) (by omega)
      (by simp only [Frame.block]; omega)
    exact congrArg (Option.map Prod.fst) hident
  · have hvirt := hplaced.virt (eEntry s.mem elf) hstart (by simp only [pages]; omega)
    rw [hvalue]
    exact congrArg (Option.map Prod.fst) hvirt

/-! ## The file in another memory -/

section Congr

variable {m m' : Mem} (hsame : Mem.AgreeOn m' m elf.toNat len)

include hsame

theorem header_word (hfits : elf.toNat + len ≤ 2 ^ 32) (hlen : 64 ≤ len) {d k : Nat}
    (hd : d + k ≤ 64) (hk : 0 < k) :
    Mem.AgreeOn m' m (elf + BitVec.ofNat 32 d).toNat k := by
  have hfield : (elf + BitVec.ofNat 32 d).toNat = elf.toNat + d := by
    rw [BitVec.toNat_add, BitVec.toNat_ofNat]
    omega
  intro x hlo hhi
  exact hsame x (by omega) (by omega)

theorem check_congr (hfits : elf.toNat + len ≤ 2 ^ 32) (hlen : 64 ≤ len) :
    check m' elf = check m elf := by
  have hident : ∀ i < 4, eIdent m' elf i = eIdent m elf i := fun i hi =>
    header_word hsame hfits hlen (d := i) (k := 1) (by omega) (by decide) _ le_rfl
      (Nat.lt_succ_self _)
  have htype : eType m' elf = eType m elf :=
    load16_congr (header_word hsame hfits hlen (d := 16) (by decide) (by decide))
  have hmachine : eMachine m' elf = eMachine m elf :=
    load16_congr (header_word hsame hfits hlen (d := 18) (by decide) (by decide))
  have hfirst : load64 m' elf = load64 m elf := by
    have hword := load64_congr (header_word hsame hfits hlen (d := 0) (by decide) (by decide))
    rwa [BitVec.add_zero] at hword
  unfold check
  rw [hident 0 (by decide), hident 1 (by decide), hident 2 (by decide), hident 3 (by decide), htype,
    hmachine, hfirst]

theorem shdr_congr (hfits : elf.toNat + len ≤ 2 ^ 32) (hlen : 64 ≤ len) (i : Nat) :
    shdr m' elf i = shdr m elf i := by
  have hoffset : eShoff m' elf = eShoff m elf :=
    load64_congr (header_word hsame hfits hlen (d := 40) (by decide) (by decide))
  unfold shdr sectionHeader
  rw [hoffset]

/-- A file that is kept is the same image. -/
theorem Image.congr (h : Image m elf len) : Image m' elf len := by
  have hfile := h.file
  have hshdr := shdr_congr hsame h.fits h.ehdr
  have hshnum := hfile.shnum hsame
  have hentsize : eShentsize m' elf = eShentsize m elf :=
    load16_congr (header_word hsame h.fits h.ehdr (d := 58) (by decide) (by decide))
  have hoffset : eShoff m' elf = eShoff m elf :=
    load64_congr (header_word hsame h.fits h.ehdr (d := 40) (by decide) (by decide))
  have hloaded : ∀ i < (eShnum m elf).toNat, IsLoaded m' (shdr m elf i) →
      IsLoaded m (shdr m elf i) := by
    intro i hi hl
    unfold IsLoaded at hl ⊢
    rwa [(hfile.fields hsame hi).1] at hl
  have hpages : ∀ i < (eShnum m elf).toNat, pages m' (shdr m elf i) = pages m (shdr m elf i) := by
    intro i hi
    obtain ⟨-, haddr, -, hsize⟩ := hfile.fields hsame hi
    unfold pages
    rw [haddr, hsize]
  constructor
  · exact h.fits
  · exact h.ehdr
  · rw [check_congr hsame h.fits h.ehdr]
    exact h.accepted
  · rw [hentsize]
    exact h.shentsize
  · rw [hoffset, hshnum]
    exact h.shdrs
  · intro i hi hl
    rw [hshnum] at hi
    rw [hshdr] at hl ⊢
    rw [(hfile.fields hsame hi).2.2.2]
    exact h.nonempty i hi (hloaded i hi hl)
  · intro i hi hl
    rw [hshnum] at hi
    rw [hshdr] at hl ⊢
    rw [(hfile.fields hsame hi).2.1]
    exact h.aligned i hi (hloaded i hi hl)
  · intro i hi hl
    rw [hshnum] at hi
    rw [hshdr] at hl ⊢
    rw [(hfile.fields hsame hi).2.1, hpages i hi]
    exact h.upper i hi (hloaded i hi hl)
  · intro i j hij hj hl hl'
    rw [hshnum] at hj
    rw [hshdr] at hl hl' ⊢
    rw [hshdr, hpages i (hij.trans hj), hpages j hj]
    exact h.disjoint i j hij hj (hloaded i (hij.trans hj) hl) (hloaded j hj hl')

/-- Which sections take the entry point. -/
theorem accepted_congr (h : ElfFile m elf len) (j : Nat) :
    Accepted m' elf j ↔ Accepted m elf j := by
  have hshdr := shdr_congr hsame h.fits h.ehdr j
  have hshnum := h.shnum hsame
  have hentry := h.entry hsame
  constructor
  · rintro ⟨hlt, htype, hstart, hstop⟩
    rw [hshnum] at hlt
    obtain ⟨htype', haddr, -, hsize⟩ := h.fields hsame hlt
    rw [hshdr] at htype hstart hstop
    rw [htype'] at htype
    rw [haddr, hentry] at hstart
    rw [haddr, hentry, hsize] at hstop
    exact ⟨hlt, htype, hstart, hstop⟩
  · rintro ⟨hlt, htype, hstart, hstop⟩
    obtain ⟨htype', haddr, -, hsize⟩ := h.fields hsame hlt
    refine ⟨by rw [hshnum]; exact hlt, ?_, ?_, ?_⟩
    · rw [hshdr, htype']
      exact htype
    · rw [hshdr, haddr, hentry]
      exact hstart
    · rw [hshdr, haddr, hentry, hsize]
      exact hstop

theorem lastAccepted_congr (h : ElfFile m elf len) {j : Nat} (hlast : LastAccepted m elf j) :
    LastAccepted m' elf j :=
  ⟨(accepted_congr hsame h j).mpr hlast.1,
    fun k hk hacc => hlast.2 k hk ((accepted_congr hsame h k).mp hacc)⟩

theorem holdsEntry_congr (h : ElfFile m elf len) {j : Nat} (hholds : HoldsEntry m elf j) :
    HoldsEntry m' elf j := by
  obtain ⟨hlt, htype, hstart, hstop⟩ := hholds
  obtain ⟨htype', haddr, -, hsize⟩ := h.fields hsame hlt
  have hshdr := shdr_congr hsame h.fits h.ehdr j
  have haddresses : addresses m' (shdr m' elf j) = addresses m (shdr m elf j) := by
    unfold addresses
    rw [hshdr, haddr, hsize]
  refine ⟨by rw [h.shnum hsame]; exact hlt, ?_, ?_, ?_⟩
  · rw [hshdr, htype']
    exact htype
  · rw [haddresses, h.entry hsame]
    exact hstart
  · rw [haddresses, h.entry hsame]
    exact hstop

end Congr

/-! ## What the kernel finds -/

/-- The bytes of a section in the block at `p`: mapped at the section's addresses and at their own,
with the contents of the file. -/
structure SectionAt (m : Mem) (elf : Word32) (len : Nat) (sh p : Word32) (s : Machine) : Prop where
  mapped : ∀ k < (shSize m sh).toNat,
    physical s (shAddr m sh + BitVec.ofNat 64 k) = some (p.toNat + k)
  ident : ∀ k < (shSize m sh).toNat,
    physical s (BitVec.ofNat 64 (p.toNat + k)) = some (p.toNat + k)
  progbits : shType m sh = shtProgbits → ∀ k < (shSize m sh).toNat,
    (shOffset m sh).toNat + k < len →
    s.mem (p.toNat + k) = m (elf.toNat + (shOffset m sh).toNat + k)
  nobits : shType m sh = shtNobits → ∀ k < (shSize m sh).toNat, s.mem (p.toNat + k) = 0

theorem Placed.sectionAt {m : Mem} {sh p : Word32} (h : Placed m elf len sh p s tables)
    (hlow : (Frame.block p (shSize m sh)).2 ≤ 2 ^ 31) (hupper : (pages m sh).2 ≤ 2 ^ 64) :
    SectionAt m elf len sh p s := by
  have hup := le_pageUp (shSize m sh).toNat
  simp only [Frame.block] at hlow
  simp only [pages] at hupper
  constructor
  · intro k hk
    have hv : (shAddr m sh + BitVec.ofNat 64 k).toNat = (shAddr m sh).toNat + k := by
      rw [BitVec.toNat_add, BitVec.toNat_ofNat]
      omega
    have hvirt := h.virt (shAddr m sh + BitVec.ofNat 64 k) (by simp only [pages]; omega)
      (by simp only [pages]; omega)
    rw [hv, show (pages m sh).1 = (shAddr m sh).toNat from rfl, Nat.add_sub_cancel_left] at hvirt
    exact congrArg (Option.map Prod.fst) hvirt
  · intro k hk
    have hv : (BitVec.ofNat 64 (p.toNat + k)).toNat = p.toNat + k := by
      rw [BitVec.toNat_ofNat]
      omega
    have hident := h.ident (BitVec.ofNat 64 (p.toNat + k)) (by omega)
      (by simp only [Frame.block]; omega)
    rw [hv] at hident
    exact congrArg (Option.map Prod.fst) hident
  · exact h.progbits
  · exact h.nobits

/-- The result of loading the file at `elf` from `s`: the address to jump to, and the machine. -/
structure KernelAt (avail : Nat → Prop) (m : Mem) (elf : Word32) (len : Nat) (s s' : Machine)
    (e : Word64) : Prop where
  nonNull : e ≠ 0
  ident : physical s' e = some e.toNat
  entry : physical s' (eEntry m elf) = some e.toNat
  sections : ∀ i < (eShnum m elf).toNat, IsLoaded m (shdr m elf i) →
    ∃ p, SectionAt m elf len (shdr m elf i) p s'
  preserves : Preserves avail (fun _ => False) s s'

theorem SectionAt.twins {m : Mem} {sh p : Word32} {old old' : AllocLog} {s t : Machine}
    (h : SectionAt m elf len sh p t) (htwins : Twins old old' s t) : SectionAt m elf len sh p s := by
  obtain ⟨hmapped, hident, hprog, hnobits⟩ := h
  simp only [htwins.physical, htwins.mem] at hmapped hident hprog hnobits
  exact ⟨hmapped, hident, hprog, hnobits⟩

/-- Whatever the records of `Alloc` start with. -/
theorem KernelAt.twins {m : Mem} {e : Word64} {old old' : AllocLog} {s t s' t' : Machine}
    (h : KernelAt avail m elf len t t' e) (hstart : Twins old old' s t)
    (hend : Twins old old' s' t') : KernelAt avail m elf len s s' e := by
  obtain ⟨hne, hident, hentry, hsections, hpml4, hmem, hidentity⟩ := h
  simp only [hend.physical] at hident hentry
  simp only [hstart.physical, hend.physical] at hidentity
  rw [hstart.pml4Table, hend.pml4Table] at hpml4
  simp only [hstart.mem, hend.mem] at hmem
  refine ⟨hne, hident, hentry, fun i hi hloaded => ?_, hpml4, hmem, hidentity⟩
  obtain ⟨p, hp⟩ := hsections i hi hloaded
  exact ⟨p, hp.twins hend⟩

/-- **The kernel is loaded**, from a file that `m` holds as well. -/
theorem load_kernel {m : Mem} (hsame : Mem.AgreeOn s.mem m elf.toNat len)
    (himage : Image m elf len) (hkept : FileKept avail elf len) (hlow : BelowTwoGB avail) {i : Nat}
    (hholds : HoldsEntry m elf i) (hlast : LastAccepted m elf i) {fuel : Nat}
    (hfuel : (eShnum m elf).toNat < fuel) (h : Booting avail n s s.allocs tables)
    (hample : Ample n (load fuel s elf).2.allocs) :
    ∃ e s', load fuel s elf = (.returned e, s') ∧ KernelAt avail m elf len s s' e := by
  have hfile := himage.file
  have hshnum := hfile.shnum hsame
  obtain ⟨heq, tables', hdone⟩ := load_booting (himage.congr hsame) hkept hlow
    (hshnum ▸ hfuel) h (Or.inl hample)
  obtain ⟨hne, hident, hentry⟩ := hdone.entry hlow (holdsEntry_congr hsame hfile hholds)
    (lastAccepted_congr hsame hfile hlast)
  rw [hfile.entry hsame] at hentry
  refine ⟨_, _, heq, hne, hident, hentry, fun j hj hloaded => ?_, hdone.preserves⟩
  have hshdr := shdr_congr hsame himage.fits himage.ehdr j
  obtain ⟨htype, haddr, hoffset, hsize⟩ := hfile.fields hsame hj
  have hj' : j < (eShnum s.mem elf).toNat := hshnum ▸ hj
  have hloaded' : IsLoaded s.mem (shdr s.mem elf j) := by
    unfold IsLoaded at hloaded ⊢
    rwa [hshdr, htype]
  have hplaced := hdone.placed j hj' hj' hloaded'
  have hsection := hplaced.sectionAt
    (block_end_le hdone.booting.owns hlow (List.mem_cons_of_mem _ hplaced.logged))
    ((himage.congr hsame).upper j hj' hloaded').2
  rw [hshdr] at hsection
  obtain ⟨hmapped, hself, hprog, hnobits⟩ := hsection
  rw [hsize] at hmapped hself hprog hnobits
  rw [haddr] at hmapped
  rw [htype, hoffset] at hprog
  rw [htype] at hnobits
  refine ⟨_, hmapped, hself, fun ht k hk hlen => ?_, hnobits⟩
  rw [hprog ht k hk hlen]
  exact hsame _ (by omega) (by omega)

end Elf
end Loader
end ZineOS
