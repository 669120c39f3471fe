import ZineOS.Loader.KernelLoad
import ZineOS.Loader.LowIdentityMap

/-!
# What a boot takes from the frame allocator

`Map` takes a page for every table that is missing, three at most.  `VirtualMemory::Install` takes
four pages for the whole first megabyte.  A section of the kernel takes its block, and three pages at
most for every page in each of the two places where it is mapped.
-/

namespace ZineOS
namespace Loader

open Lib VirtualMemory

/-! ## Page tables -/

namespace VirtualMemory

variable {s : Machine} {t4 t3 t2 t1 : Nat} {c : Nat → BitVec 9 → Word64}

theorem Logged.mono {j k : Nat} {s' : Machine} (h : Logged j s s') (hjk : j ≤ k) :
    Logged k s s' := by
  obtain ⟨r, hr, hlog⟩ := h
  exact ⟨r, hr.trans hjk, hlog⟩

/-- `Map` takes nothing when the three upper tables are there. -/
theorem logged_map_present (hroot : s.pml4Table.toNat = t4 * 0x1000) (phys virt flags : Word64)
    (h4 : nextTable (entryAt s.mem t4 (virt.extractLsb' 39 9)) = some t3) (ht3 : t3 < 2 ^ 20)
    (h3 : nextTable (entryAt s.mem t3 (virt.extractLsb' 30 9)) = some t2) (ht2 : t2 < 2 ^ 20)
    (h2 : nextTable (entryAt s.mem t2 (virt.extractLsb' 21 9)) = some t1) (ht1 : t1 < 2 ^ 20) :
    Logged 0 s (map s phys virt flags) := by
  have hidx := fun shift (hshift : 12 ≤ shift) => toNat_tableIndex virt hshift
  obtain ⟨p3, hd3, hp3⟩ := descend_present flags hroot (hidx 39 (by omega)) h4 ht3
  obtain ⟨p2, hd2, hp2⟩ := descend_present flags hp3 (hidx 30 (by omega)) h3 ht2
  obtain ⟨p1, hd1, -⟩ := descend_present flags hp2 (hidx 21 (by omega)) h2 ht1
  rw [map_eq hd3 hd2 hd1]
  exact ⟨0, le_rfl, (List.append_nil _).symm, rfl⟩

/-- Another page of the first megabyte. -/
theorem logged_map_next (h : FourFrames t4 t3 t2 t1) (hroot : s.pml4Table.toNat = t4 * 0x1000)
    {n : Nat} (hn : n < 256) (hs : entryAt s.mem = lowEntries c t4 t3 t2 t1 n) :
    Logged 0 s (map s (lowPage n) (lowPage n) lowFlags) := by
  obtain ⟨hx4, hx3, hx2, -⟩ := lowPage_index hn
  obtain ⟨hn4, hn3, hn2⟩ := next_lowEntries (c := c) h n
  obtain ⟨hb3, hb2, hb1⟩ := h.below
  rw [← hs] at hn4 hn3 hn2
  exact logged_map_present hroot _ _ _ (by rw [hx4]; exact hn4) hb3 (by rw [hx3]; exact hn3) hb2
    (by rw [hx2]; exact hn2) hb1

/-- The first `n + 1` pages of the first megabyte. -/
theorem logged_lowPages (h : FourFrames t4 t3 t2 t1) (hroot : s.pml4Table.toNat = t4 * 0x1000)
    (hfirst : entryAt (map s (lowPage 0) (lowPage 0) lowFlags).mem = lowEntries c t4 t3 t2 t1 1 ∧
      (map s (lowPage 0) (lowPage 0) lowFlags).pml4Table = s.pml4Table) {n : Nat} (hn : n < 256) :
    Logged 3 s (mapAll s ((List.range (n + 1)).map fun n => ⟨lowPage n, lowPage n, lowFlags⟩)) ∧
      entryAt (mapAll s ((List.range (n + 1)).map fun n => ⟨lowPage n, lowPage n, lowFlags⟩)).mem =
        lowEntries c t4 t3 t2 t1 (n + 1) ∧
      (mapAll s ((List.range (n + 1)).map fun n => ⟨lowPage n, lowPage n, lowFlags⟩)).pml4Table =
        s.pml4Table := by
  induction n with
  | zero => exact ⟨logged_map s _ _ _, hfirst⟩
  | succ n ih =>
      obtain ⟨hlogged, hs, hpml4⟩ := ih (by omega)
      rw [List.range_succ, List.map_append, mapAll_append]
      have hroot' := hroot
      rw [← hpml4] at hroot'
      obtain ⟨hs', hpml4'⟩ := entryAt_map_next h hroot' hn hs
      exact ⟨hlogged.trans (logged_map_next h hroot' hn hs), hs', hpml4'.trans hpml4⟩

/-- **`Install` takes four pages.** -/
theorem logged_install (h : InstallFrames s t4 t3 t2 t1) (hzero : entryAt s.mem t4 0 = 0) :
    Logged 4 s (install s) := by
  obtain ⟨hframes, -, -⟩ := entryAt_install h hzero
  have hallocs := h.allocs
  cases h4 : Frame.alloc s.frame Frame.frameNoLimit 4096 Frame.frameUsed with
  | mk f4 fr4 =>
  cases h3 : Frame.alloc fr4 Frame.frameNoLimit 4096 Frame.frameUsed with
  | mk f3 fr3 =>
  cases h2 : Frame.alloc fr3 Frame.frameNoLimit 4096 Frame.frameUsed with
  | mk f2 fr2 =>
  cases h1 : Frame.alloc fr2 Frame.frameNoLimit 4096 Frame.frameUsed with
  | mk f1 fr1 =>
  simp only [pageRun, h4, h3, h2, h1, List.map_cons, List.map_nil, List.cons.injEq, and_true]
    at hallocs
  obtain ⟨hf4, hf3, hf2, hf1⟩ := hallocs
  have hroot : Logged 1 s
      { s with frame := fr4, allocs := s.allocs ++ [(f4, 4096)], pml4Table := f4 } := by
    refine ⟨1, le_rfl, ?_, ?_⟩
    · simp only [pageRun, h4]
    · simp only [pageRun, h4]
  have hinstall : install s =
      mapAll { s with frame := fr4, allocs := s.allocs ++ [(f4, 4096)], pml4Table := f4 }
        installCalls := by
    unfold install Machine.alloc
    rw [h4]
  rw [hinstall, installCalls_eq]
  have hpages := logged_lowPages
    (s := { s with frame := fr4, allocs := s.allocs ++ [(f4, 4096)], pml4Table := f4 }) hframes hf4
    (entryAt_map_first hframes hf4 h3 h2 h1 hf3 hf2 hf1 hzero) (show 255 < 256 by omega)
  exact hroot.trans hpages.1

/-- `MapRange`, by the pages of the range. -/
theorem logged_mapRange (s : Machine) (phys virt size flags : Word64) :
    Logged (3 * ((align size 0x1000).toNat / 0x1000)) s (mapRange s phys virt size flags) := by
  have hlogged := logged_mapAll s (rangeCalls phys virt size flags)
  rw [mapRange_eq]
  rwa [rangeCalls, pageCalls, List.length_map, List.length_range] at hlogged

end VirtualMemory

/-! ## A free stretch -/

namespace Frame

variable {t : Table} {k j : Nat}

/-- Some free row has room for `k` pages, and no row reaches the end of the 32-bit addresses. -/
structure Room (k : Nat) (t : Table) : Prop where
  row : 0 < k → ∃ e ∈ t.spans, e.label = .free ∧ e.lo ≠ 0 ∧ e.lo + k * 0x1000 ≤ e.hi
  bound : ∀ e ∈ t.spans, e.lo < 2 ^ 32 ∧ e.hi < 2 ^ 32

theorem Room.mono (h : Room k t) (hjk : j ≤ k) : Room j t := by
  refine ⟨fun hpos => ?_, h.bound⟩
  obtain ⟨e, he, hfree, hlo, hend⟩ := h.row (by omega)
  exact ⟨e, he, hfree, hlo,
    (Nat.add_le_add_left (Nat.mul_le_mul_right 0x1000 hjk) e.lo).trans hend⟩

/-- What is cut off a free row leaves room for the rest. -/
theorem Room.cutAt (h : Room k t) {t' : Table} {addr length : Word64} {st : Status}
    {i : Nat} (hcut : CutAt t t' addr length st i)
    (hstart : (alignFloor addr 0x1000).toNat = (t.gMem i).span.lo)
    (hstop : (align (addr + length) 0x1000).toNat = (t.gMem i).span.lo + j * 0x1000) (hj : 0 < j) :
    Room (k - j) t' := by
  have hmem : (t.gMem i).span ∈ t.spans := List.mem_map_of_mem (t.gMem_mem_live hcut.live)
  have hperm := hcut.perm
  have hle := hcut.le_hi
  have hbound := h.bound _ hmem
  rw [hstart, hstop] at hperm
  rw [hstop] at hle
  constructor
  · intro hpos
    obtain ⟨e, he, hfree, hlo, hend⟩ := h.row (by omega)
    by_cases hsame : e = (t.gMem i).span
    · -- the rest of the row
      subst hsame
      refine ⟨⟨(t.gMem i).span.lo + j * 0x1000, (t.gMem i).span.hi, (t.gMem i).span.label⟩, ?_, hfree,
        ?_, ?_⟩
      · rw [hperm.mem_iff, List.mem_append]
        exact Or.inl (Span.tail_mem_cut st (by omega))
      · dsimp only
        omega
      · dsimp only
        omega
    · obtain ⟨row, hrow, rfl⟩ := List.mem_map.mp he
      obtain ⟨r, hr, rfl⟩ := List.mem_map.mp hrow
      have hne : r ≠ i := fun heq => hsame (by rw [heq])
      have hmul := Nat.mul_le_mul_right 0x1000 (Nat.sub_le k j)
      have hroom := (Nat.add_le_add_left hmul (t.gMem r).span.lo).trans hend
      exact ⟨(t.gMem r).span, hcut.mem_of_ne (List.mem_range.mp hr) hne, hfree, hlo, hroom⟩
  · intro u hu
    rw [hperm.mem_iff, List.mem_append] at hu
    rcases hu with hpiece | hold
    · rcases Span.mem_cut hpiece with rfl | rfl | rfl
      · exact ⟨hbound.1, by dsimp only; omega⟩
      · exact ⟨hbound.1, hbound.1⟩
      · exact ⟨by dsimp only; omega, hbound.2⟩
    · exact h.bound u (List.mem_of_mem_eraseIdx hold)

/-- **`Alloc` with room** does not fail, and leaves room for the rest. -/
theorem Room.alloc (h : Room k t) (hinv : t.Inv) (hn : t.memIndex.toNat ≤ 253)
    (hzero : t.pageStatus 0 ≠ some .free) {size maxAddr : Word64} (hpos : 0 < size.toNat)
    (hsize : pageUp size.toNat = j * 0x1000) (hjk : j ≤ k) (hmax : 2 ^ 32 - 1 ≤ maxAddr.toNat)
    (st : Status) :
    (Frame.alloc t maxAddr size st.flag).1 ≠ 0 ∧
      Room (k - j) (Frame.alloc t maxAddr size st.flag).2 := by
  have hup := le_pageUp size.toNat
  have hj : 0 < j := by omega
  obtain ⟨e, he, hfree, hlo, hend⟩ := h.row (by omega)
  have hbig := h.bound e he
  have hrounded : (align size 0x1000).toNat = pageUp size.toNat := toNat_align (by omega)
  rcases alloc_cases t maxAddr size st.flag with ⟨i, hi, -, hfit, heq⟩ | ⟨hnone, -⟩
  · have hmem := t.gMem_mem_live hi
    have hspan : (t.gMem i).span ∈ t.spans := List.mem_map_of_mem hmem
    have hbound := h.bound _ hspan
    have hstart : (allocStart t i).toNat = (t.gMem i).span.lo := by
      rw [toNat_allocStart, Nat.mod_eq_of_lt hbound.1]
    obtain ⟨hrowFree, -, hstop⟩ := (allocFits_iff (hinv.ok _ hmem) (by omega)).mp hfit
    rw [toNat_allocEnd, Nat.mod_eq_of_lt hbound.2, hrounded, hsize] at hstop
    have hcovers : (t.gMem i).span.Covers (t.gMem i).span.lo := ⟨le_rfl, by omega⟩
    rw [heq]
    constructor
    · intro hnull
      dsimp only at hnull
      rw [hnull] at hstart
      have hlow : (t.gMem i).span.lo = 0 := hstart.symm
      refine hzero ?_
      rw [hlow] at hcovers
      rw [Table.pageStatus, Nat.zero_mul, Span.lookup_of_mem hinv.apart hspan hcovers]
      exact congrArg some hrowFree
    · have hwide : ((allocStart t i).setWidth 64).toNat = (t.gMem i).span.lo := by
        rw [BitVec.toNat_setWidth, hstart, Nat.mod_eq_of_lt (by omega)]
      have haligned : (t.gMem i).span.lo % 0x1000 = 0 := lo_mod_of_mem_spans hspan
      have hfloor : (alignFloor ((allocStart t i).setWidth 64) 0x1000).toNat =
          (t.gMem i).span.lo := by
        rw [toNat_alignFloor, hwide, pageDown_of_mod haligned]
      have hceil : (align ((allocStart t i).setWidth 64 + align size 0x1000) 0x1000).toNat =
          (t.gMem i).span.lo + j * 0x1000 := by
        have hsum : ((allocStart t i).setWidth 64 + align size 0x1000).toNat =
            (t.gMem i).span.lo + j * 0x1000 := by
          rw [BitVec.toNat_add, hwide, hrounded, hsize, Nat.mod_eq_of_lt (by omega)]
        rw [toNat_align (by omega), hsum, pageUp_of_mod (by omega)]
      rcases reserveRange_outcome hinv.ok ((allocStart t i).setWidth 64) (align size 0x1000) st with
        ⟨hno, -⟩ | ⟨r, -, -, -, hcut⟩ | ⟨hfull, -, -⟩
      · -- the row that was found serves the nested request
        have hserved := hno.resolve_left (by omega)
        have hfits := List.find?_eq_none.mp hserved i (List.mem_range.mpr hi)
        refine absurd (reserveFits_iff.mpr ⟨(hinv.ok _ hmem).isFree_iff.mpr hrowFree, ?_, ?_⟩) hfits
        · exact hfloor.ge
        · rw [hceil, ← hstart]
          exact hstop
      · -- and it is the one that is cut
        have hmemr : (t.gMem r).span ∈ t.spans := List.mem_map_of_mem (t.gMem_mem_live hcut.live)
        have hlor := hcut.lo_le
        have hler := hcut.le_hi
        rw [hfloor] at hlor
        rw [hceil] at hler
        have hsame := Span.eq_of_covers hinv.apart hspan hmemr hcovers ⟨hlor, by omega⟩
        exact h.cutAt hcut (by rw [hfloor, hsame]) (by rw [hceil, hsame]) hj
      · omega
  · have hmul := Nat.mul_le_mul_right 0x1000 hjk
    have hroom : e.lo + pageUp size.toNat ≤ e.hi := by
      rw [hsize]
      exact (Nat.add_le_add_left hmul e.lo).trans hend
    have hmaxAddr : e.lo + pageUp size.toNat ≤ maxAddr.toNat :=
      hroom.trans ((Nat.le_sub_one_of_lt hbig.2).trans hmax)
    exact absurd hnone
      (allocFind_ne_none hinv (by omega) he ⟨hfree, hlo, hroom, hmaxAddr⟩ hbig.2)

end Frame

/-! ## Memory enough -/

variable {avail : Nat → Prop} {n k : Nat} {live : AllocLog} {tables : List Nat} {s s' : Machine}

theorem pageRun_initial {j : Nat} (hjk : j ≤ k) (t : Frame.Table) :
    (pageRun j t).1 <+: (pageRun k t).1 := by
  rw [← Nat.add_sub_cancel' hjk, pageRun_add]
  exact List.prefix_append _ _

/-- Nothing fails while the next `k` pages are there. -/
theorem Ample.logged (h : Ample n s.allocs) (hlogged : Logged k s s')
    (hnull : ∀ a ∈ (pageRun k s.frame).1, a.1 ≠ 0) (hrows : n + s.allocs.length + k ≤ 253) :
    Ample n s'.allocs := by
  obtain ⟨j, hj, hlog, -⟩ := hlogged
  rw [hlog]
  constructor
  · intro a ha
    rcases List.mem_append.mp ha with hold | hnew
    · exact h.nonNull a hold
    · exact hnull a ((pageRun_initial hj _).subset hnew)
  · rw [List.length_append, length_pageRun]
    omega

/-- With room for `k` pages the next `j` of them are handed out. -/
theorem Frame.Owns.pageRun_room {t : Frame.Table} {log : AllocLog} (h : Frame.Owns avail n t log)
    (hzero : ¬ avail 0) {j : Nat} (hroom : Frame.Room k t) (hjk : j ≤ k) (hrows : n + j ≤ 253) :
    (∀ a ∈ (VirtualMemory.pageRun j t).1, a.1 ≠ 0) ∧
      Frame.Room (k - j) (VirtualMemory.pageRun j t).2 := by
  induction j generalizing n k t log with
  | zero => exact ⟨fun a ha => absurd ha List.not_mem_nil, hroom⟩
  | succ j ih =>
      obtain ⟨g, hreach, rfl, -⟩ := h.ledger
      have hinv := (Frame.Ledger.inv_of_reachable hreach).table
      have hmemIndex := h.rows
      obtain ⟨hnull, hrest⟩ := hroom.alloc (j := 1) hinv (by omega)
        (fun hfree => hzero (h.free 0 hfree)) (show 0 < (4096 : Word64).toNat by decide) (by decide)
        (by omega) (show 2 ^ 32 - 1 ≤ Frame.frameNoLimit.toNat by decide) .used
      have hnext := h.alloc_page (by omega) Frame.frameNoLimit (Or.inl rfl) hnull
      obtain ⟨hnulls, hlast⟩ := ih hnext hrest (by omega) (by omega)
      refine ⟨?_, ?_⟩
      · intro a ha
        rcases List.mem_cons.mp ha with rfl | htail
        · exact hnull
        · exact hnulls a htail
      · rwa [show k - (j + 1) = k - 1 - j by omega]

/-- Four pages that are handed out are four different frames. -/
theorem Frame.Owns.installFrames (h : Frame.Owns avail n s.frame []) (hrows : n + 4 ≤ 253)
    (hnull : ∀ a ∈ (VirtualMemory.pageRun 4 s.frame).1, a.1 ≠ 0) :
    ∃ t4 t3 t2 t1, InstallFrames s t4 t3 t2 t1 ∧ avail t4 := by
  have howns := h.pageRun (by omega) hnull
  rw [List.nil_append] at howns
  have hpage : ∀ a ∈ (VirtualMemory.pageRun 4 s.frame).1,
      a.1.toNat = a.1.toNat / 0x1000 * 0x1000 ∧ a.2 = 4096 := fun a ha => by
    obtain ⟨hmod, hsize⟩ := pageRun_pages ha
    exact ⟨by omega, hsize⟩
  have havail : ∀ a ∈ (VirtualMemory.pageRun 4 s.frame).1, avail (a.1.toNat / 0x1000) := by
    intro a ha
    refine howns.avail_of_block ha (x := a.1.toNat) le_rfl ?_
    rw [(hpage a ha).2]
    exact Nat.lt_add_of_pos_right (by decide)
  have hdistinct : ((VirtualMemory.pageRun 4 s.frame).1.map fun a => a.1.toNat / 0x1000).Nodup := by
    rw [List.nodup_iff_pairwise_ne, List.pairwise_map]
    refine howns.apart.imp_of_mem fun {a b} ha hb hapart heq => ?_
    have hsame : a.1.toNat = b.1.toNat := by
      rw [(hpage a ha).1, (hpage b hb).1, heq]
    refine hapart a.1.toNat le_rfl ?_ hsame.ge ?_
    · rw [(hpage a ha).2]
      exact Nat.lt_add_of_pos_right (by decide)
    · rw [(hpage b hb).2, hsame]
      exact Nat.lt_add_of_pos_right (by decide)
  obtain ⟨a4, a3, a2, a1, heq⟩ : ∃ a4 a3 a2 a1,
      (VirtualMemory.pageRun 4 s.frame).1 = [a4, a3, a2, a1] := ⟨_, _, _, _, rfl⟩
  rw [heq] at hdistinct hpage havail
  refine ⟨_, _, _, _, ⟨hdistinct, ?_⟩, havail a4 List.mem_cons_self⟩
  rw [heq]
  simp only [List.map_cons, List.map_nil]
  rw [← (hpage a4 (by simp)).1, ← (hpage a3 (by simp)).1, ← (hpage a2 (by simp)).1,
    ← (hpage a1 (by simp)).1]

/-- A block is handed out and filled. -/
theorem Booting.filled (h : Booting avail n s live tables) {maxAddr size : Word64} {p : Word32}
    {f : Frame.Table} (hrows : n + s.allocs.length ≤ 253) (hpos : 0 < size.toNat)
    (hsize : Frame.SaneSize size)
    (halloc : Frame.alloc s.frame maxAddr size Frame.frameUsed = (p, f)) (hp : p ≠ 0) {m : Mem}
    (hm : ∀ x, ¬ ((Frame.block p size).1 ≤ x ∧ x < (Frame.block p size).2) → m x = s.mem x) :
    Booting avail n ⟨m, f, s.pml4Table, s.allocs ++ [(p, size)]⟩ (live ++ [(p, size)]) tables := by
  have howns := h.owns.alloc hrows hpos hsize (Or.inl rfl) halloc hp
  have hapart := (List.pairwise_append.mp howns.apart).2.2
  have htables : ∀ x, x / 0x1000 ∈ tables → m x = s.mem x := fun x hx => hm x fun hin =>
    h.inv.not_mem_of_disjoint (r := Frame.block p size)
      (fun a ha => hapart a ha _ (List.mem_singleton_self _)) hin.1 hin.2 hx
  have hinv : PageTables (Machine.withLog ⟨m, f, s.pml4Table, s.allocs ++ [(p, size)]⟩
        (live ++ [(p, size)])) tables ∧ ∀ v, translate m s.pml4Table.toNat v =
      translate s.mem s.pml4Table.toNat v :=
    h.inv.congr rfl (List.subset_append_left _ _) htables
  refine ⟨?_, ?_, ?_, hinv.1⟩
  · rw [List.length_append, List.length_singleton, ← Nat.add_assoc]
    exact howns
  · intro a ha
    rcases List.mem_append.mp ha with hold | hnew
    · exact h.nonNull a hold
    · rw [List.mem_singleton.mp hnew]
      exact hp
  · rw [List.length_append, List.length_append]
    exact Nat.add_le_add_right h.counted _

/-! ## A section -/

namespace Elf

/-- The pages that mapping a section at one place can take. -/
def mapCost (m : Mem) (sh : Word32) : Nat := 3 * ((align (shSize m sh) 0x1000).toNat / 0x1000)

/-- Mapping a section, when no page that may be handed out holds its header. -/
theorem ample_mapSection {sh p : Word32} (h : Booting avail n s live tables)
    (hheader : ∀ m : Mem, (∀ x, ¬ avail (x / 0x1000) → m x = s.mem x) → shSize m sh = shSize s.mem sh)
    (hcalls : ∀ c ∈ rangeCalls (castU64 p) (shAddr s.mem sh) (shSize s.mem sh) sectionFlags, c.Ok)
    (hample : Ample n s.allocs)
    (hnull : ∀ a ∈ (pageRun (mapCost s.mem sh + mapCost s.mem sh) s.frame).1, a.1 ≠ 0)
    (hrows : n + s.allocs.length + (mapCost s.mem sh + mapCost s.mem sh) ≤ 253) :
    Ample n (mapSection s sh p).allocs := by
  have hfirst : Logged (mapCost s.mem sh) s
      (mapRange s (castU64 p) (shAddr s.mem sh) (shSize s.mem sh) sectionFlags) :=
    logged_mapRange s _ _ _ _
  have hample1 := hample.logged hfirst
    (fun a ha => hnull a ((pageRun_initial (Nat.le_add_right _ _) _).subset ha)) (by omega)
  have hmap : mapRange s (castU64 p) (shAddr s.mem sh) (shSize s.mem sh) sectionFlags =
      mapAll s (rangeCalls (castU64 p) (shAddr s.mem sh) (shSize s.mem sh) sectionFlags) :=
    mapRange_eq s _ _ _ _
  rw [hmap] at hfirst hample1
  -- the header is still there when its size is read for the second time
  obtain ⟨live', tables', hbooting, hmapped⟩ := h.mapAll hcalls hample1
  have hsize := hheader _ fun x hx => hmapped.frame x fun hmem => hx (hbooting.table_avail hmem)
  have hboth : Logged (mapCost s.mem sh + mapCost s.mem sh) s (mapSection s sh p) := by
    rw [mapSection_eq, hmap]
    change shSize (mapAll s _).mem sh = _ at hsize
    rw [hsize]
    exact hfirst.trans (logged_mapRange _ _ _ _ _)
  exact hample.logged hboth hnull hrows

variable {elf : Word32} {len : Nat}

/-- **A loaded section**, by what is free when its turn comes. -/
theorem KernelLoad.ample_next (himage : Image s.mem elf len) (hkept : FileKept avail elf len)
    (hlow : BelowTwoGB avail) {i : Nat} (hi : i < (eShnum s.mem elf).toNat)
    (hloaded : IsLoaded s.mem (shdr s.mem elf i)) (h : KernelLoad avail n s elf len i tables)
    {p : Word32} {f : Frame.Table} (halloc : Frame.alloc (before s elf i).frame Frame.frameSub4GB
      (shSize s.mem (shdr s.mem elf i)) Frame.frameUsed = (p, f)) (hp : p ≠ 0)
    (hnull : ∀ a ∈ (pageRun (mapCost s.mem (shdr s.mem elf i) + mapCost s.mem (shdr s.mem elf i))
      f).1, a.1 ≠ 0)
    (hrows : n + (before s elf i).allocs.length + 1 +
      (mapCost s.mem (shdr s.mem elf i) + mapCost s.mem (shdr s.mem elf i)) ≤ 253) :
    Ample n (before s elf (i + 1)).allocs := by
  have hfile := himage.file
  have hsame := h.file hkept
  obtain ⟨htype, -, -, hsize⟩ := hfile.fields hsame hi
  have hbooting := h.booting
  have hnext := before_succ s elf i 0
  have hpos := himage.nonempty i hi hloaded
  have hsane := sane_shSize himage hi hloaded
  have hcalls : ∀ {p : Word32} {c : MapCall}, p.toNat % 0x1000 = 0 →
      (Frame.block p (shSize s.mem (shdr s.mem elf i))).2 ≤ 2 ^ 31 →
      c ∈ rangeCalls (castU64 p) (shAddr s.mem (shdr s.mem elf i)) (shSize s.mem (shdr s.mem elf i))
        sectionFlags → c.Ok := by
    intro p c haligned hend hc
    have hlaid : Laid s.mem (shdr s.mem elf i) p :=
      ⟨haligned, hend, himage.aligned i hi hloaded, himage.upper i hi hloaded⟩
    have hrange := hlaid.virtRange hpos
    rw [rangeCalls, alignFloor_of_mod hrange.phys_aligned, alignFloor_of_mod hlaid.aligned] at hc
    exact hrange.ok isMapFlags_sectionFlags c hc
  have hfields : ∀ m : Mem, Mem.AgreeOn m s.mem elf.toNat len →
      shAddr m (shdr s.mem elf i) = shAddr s.mem (shdr s.mem elf i) ∧
        shSize m (shdr s.mem elf i) = shSize s.mem (shdr s.mem elf i) := by
    intro m hm
    obtain ⟨-, haddr, -, hsize'⟩ := hfile.fields hm hi
    exact ⟨haddr, hsize'⟩
  have htypes : IsLoaded (before s elf i).mem (shdr s.mem elf i) := by
    unfold IsLoaded at hloaded ⊢
    rwa [htype]
  generalize before s elf i = b at halloc hrows hsame hsize hbooting hnext htypes
  generalize shdr s.mem elf i = sh at halloc hnull hrows hsize hnext hpos hsane hcalls hfields htypes
  have hblock : allocated b sh = (p, { b with
      frame := f
      allocs := b.allocs ++ [(p, shSize s.mem sh)] }) := by
    simp only [allocated, Machine.alloc, hsize, halloc]
  rcases loadSection_cases b elf sh 0 with ⟨hskip, -⟩ | ⟨-, hzero, -⟩ | ⟨-, -, s', hs', heq⟩
  · exact absurd htypes hskip
  · rw [hblock] at hzero
    exact absurd hzero hp
  rw [hblock] at hs'
  rw [hnext, heq, hs']
  -- the block, filled
  have hfilled := hbooting.filled (by omega) hpos hsane halloc hp (m := filled b.mem elf sh p)
    fun x hx => filled_of_not (by rw [hsize]; exact hx)
  have hin : (p, shSize s.mem sh) ∈ (b.pml4Table, 4096) :: (b.allocs ++ [(p, shSize s.mem sh)]) :=
    List.mem_cons_of_mem _ (List.mem_append_right _ (List.mem_singleton_self _))
  have hmid : Mem.AgreeOn (filled b.mem elf sh p) s.mem elf.toNat len := by
    intro x hlo hhi
    rw [filled_of_not, hsame x hlo hhi]
    rw [hsize]
    exact fun hx => hkept x hlo hhi (hfilled.owns.avail_of_block hin hx.1 hx.2)
  obtain ⟨hmidAddr, hmidSize⟩ := hfields _ hmid
  have hcost : mapCost (filled b.mem elf sh p) sh = mapCost s.mem sh := by
    unfold mapCost
    rw [hmidSize]
  have haligned := (hfilled.owns.block_pages hin).2
  refine ample_mapSection hfilled ?_ ?_ ?_ ?_ ?_
  · intro m hm
    refine (hfields m fun x hlo hhi => ?_).2.trans hmidSize.symm
    rw [hm x (hkept x hlo hhi)]
    exact hmid x hlo hhi
  · intro c hc
    dsimp only at hc
    rw [hmidAddr, hmidSize] at hc
    exact hcalls haligned (block_end_le hfilled.owns hlow hin) hc
  · constructor
    · intro a ha
      exact hfilled.nonNull a ha
    · simp only [List.length_append, List.length_singleton]
      omega
  · dsimp only
    rw [hcost]
    exact hnull
  · simp only [List.length_append, List.length_singleton]
    rw [hcost]
    omega

end Elf

end Loader
end ZineOS
