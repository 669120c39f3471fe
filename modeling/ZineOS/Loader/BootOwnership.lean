import ZineOS.Loader.BootData
import ZineOS.Loader.FrameAccounts

/-!
# Who owns the frames of a boot

The book of the frame allocator, `Ledger`, kept for the calls that `kmain` makes.  `Owns` is what
the boot knows at any time: the table is that of a run of the ledger, the blocks in a list are still
out and pairwise disjoint, at most so many rows are in use, and no page is free or handed out that
was not free when `VirtualMemory::Install` was called.

`Owns.alloc` and `Owns.release` are its rules for the two calls, `booked_bootTable` is the start.  The
trampoline page goes back to the allocator in the middle of the boot and may be handed out again at
once, so that the record of all calls has overlapping blocks; the list here leaves the page out when
it is freed.
-/

namespace ZineOS
namespace Loader
namespace Frame

open Lib

/-- The blocks of `log` are out, the table has at most `n` rows in use, and `avail` holds of the
pages that are free or handed out. -/
structure Owns (avail : Nat → Prop) (n : Nat) (t : Table) (log : List (Word32 × Word64)) : Prop where
  ledger : ∃ g, ledgerSystem.Reachable g ∧ g.table = t ∧ ∀ r ∈ log, block r.1 r.2 ∈ g.out
  rows : t.memIndex.toNat ≤ n
  apart : log.Pairwise fun a b => Range.Disjoint (block a.1 a.2) (block b.1 b.2)
  free : ∀ q, t.pageStatus q = some .free → avail q
  blocks : ∀ r ∈ log, ∀ q, Range.HasPage (block r.1 r.2) q → avail q

variable {avail : Nat → Prop} {n : Nat} {t t' : Table} {log : List (Word32 × Word64)}

/-- A block that is out has whole pages, and some. -/
theorem Owns.block_pages (h : Owns avail n t log) {r : Word32 × Word64} (hr : r ∈ log) :
    (block r.1 r.2).1 < (block r.1 r.2).2 ∧ (block r.1 r.2).1 % 0x1000 = 0 := by
  obtain ⟨g, hreach, -, hout⟩ := h.ledger
  obtain ⟨hpos, e, he, -, hlo, -⟩ := (Ledger.inv_of_reachable hreach).out _ (hout r hr)
  exact ⟨hpos, hlo ▸ lo_mod_of_mem_spans he⟩

/-- Every byte of a block that is out lies in a page that may be handed out. -/
theorem Owns.avail_of_block (h : Owns avail n t log) {r : Word32 × Word64} (hr : r ∈ log) {x : Nat}
    (hlo : (block r.1 r.2).1 ≤ x) (hhi : x < (block r.1 r.2).2) : avail (x / 0x1000) := by
  have hmod := (h.block_pages hr).2
  refine h.blocks r hr _ ⟨?_, ?_⟩
  · omega
  · omega

/-- A block can only be handed out if its size is sane and it fits below 4 GB. -/
theorem Ledger.Inv.size_le {g : Ledger} (hg : g.Inv) {maxAddr size type : Word64}
    (hsize : SaneSize size) {p : Word32} (halloc : Frame.alloc g.table maxAddr size type = (p, t'))
    (hp : p ≠ 0) : size.toNat ≤ 2 ^ 32 := by
  unfold SaneSize at hsize
  rcases alloc_cases g.table maxAddr size type with ⟨i, hi, -, hfit, heq⟩ | ⟨-, heq⟩
  · rw [heq, Prod.mk.injEq] at halloc
    obtain ⟨rfl, -⟩ := halloc
    have hmem := g.table.gMem_mem_live hi
    have hneNat : (allocStart g.table i).toNat ≠ 0 := fun h0 => hp (BitVec.eq_of_toNat_eq h0)
    have hrounded : (align size 0x1000).toNat = pageUp size.toNat := toNat_align (by omega)
    have hup := le_pageUp size.toNat
    have hlt := (allocStart g.table i).isLt
    have hupLe : pageUp size.toNat + 2 ^ 32 ≤ 2 ^ 64 := by
      unfold pageUp
      omega
    have hbound := hg.bound _ (List.mem_map_of_mem hmem)
    obtain ⟨-, -, hend, -⟩ :=
      span_of_allocFits (hg.table.ok _ hmem) (by omega) hbound.1 hneNat hfit
    have hhi : (g.table.gMem i).span.hi ≤ 2 ^ 32 := hbound.2
    omega
  · rw [heq, Prod.mk.injEq] at halloc
    exact absurd halloc.1.symm hp

/-- `Alloc` takes the front of a free row, which costs one row at most. -/
theorem memIndex_reserveAt_front {i : Nat} (hn : t.memIndex.toNat < 255) {start stop type : Word64}
    (hstart : start = frameClearFlags (t.gMem i).start) :
    (reserveAt t i start stop type).memIndex.toNat ≤ t.memIndex.toNat + 1 := by
  unfold reserveAt
  dsimp only
  split
  · exact Nat.le_succ _
  · exact (t.toNat_memIndex_push ⟨start ||| type, stop⟩ hn).le

/-- The pages of a free row. -/
theorem Table.Inv.pageStatus_of_row (h : t.Inv) {e : Span Nat Status} (he : e ∈ t.spans) {q : Nat}
    (hq : e.Covers (q * 0x1000)) : t.pageStatus q = some e.label :=
  Span.lookup_of_mem h.apart he hq

/-- **`Alloc`.**  The new block is disjoint from all that are out. -/
theorem Owns.alloc (h : Owns avail n t log) (hn : n ≤ 253) {maxAddr size type : Word64}
    (hpos : 0 < size.toNat) (hsize : SaneSize size) (htype : IsReserveType type) {p : Word32}
    (halloc : Frame.alloc t maxAddr size type = (p, t')) (hp : p ≠ 0) :
    Owns avail (n + 1) t' (log ++ [(p, size)]) := by
  obtain ⟨g, hreach, rfl, hout⟩ := h.ledger
  have hg := Ledger.inv_of_reachable hreach
  have hle := hg.size_le hsize halloc hp
  have hfull : g.table.memIndex.toNat ≤ 253 := h.rows.trans hn
  have hc : g.Allowed (.alloc maxAddr size type) := ⟨hfull, hpos, hle, htype⟩
  have hrun : g.run (.alloc maxAddr size type) =
      { g with table := t', out := block p size :: g.out } := by
    simp only [Ledger.run, Call.run, halloc, if_neg hp]
  have hnext : ledgerSystem.Reachable (g.run (.alloc maxAddr size type)) := hreach.call hc
  rw [hrun] at hnext
  obtain ⟨st, hst, rfl⟩ := htype.exists_status
  obtain ⟨e, he, hfree, hlo, hhi, -, -, hcut⟩ := hg.alloc_ne_zero hfull hle st halloc hp
  have hnew := (hg.piece_unowned he hfree hlo hhi).1
  refine ⟨⟨_, hnext, rfl, ?_⟩, ?_, ?_, ?_, ?_⟩
  · intro r hr
    rcases List.mem_append.mp hr with hold | hlast
    · exact List.mem_cons_of_mem _ (hout r hold)
    · rw [List.mem_singleton.mp hlast]
      exact List.mem_cons_self
  · obtain ⟨i, -, -, hfits, -, hrow, rfl⟩ := hg.alloc_row hfull hpos hle halloc hp
    have hstart : p.setWidth 64 = frameClearFlags (g.table.gMem i).start := by
      rw [hrow]
      refine (frameClearFlags_or_flag ?_ .free).symm
      rw [hfits.toNat_start]
      exact hfits.start_mod
    exact (memIndex_reserveAt_front (by omega) hstart).trans (Nat.succ_le_succ h.rows)
  · refine List.pairwise_append.mpr ⟨h.apart, List.pairwise_singleton _ _, ?_⟩
    intro a ha b hb
    rw [List.mem_singleton.mp hb]
    exact (hnew _ (hout a ha)).symm
  · exact fun q hq => h.free q ((hcut.free_iff hg.table.apart hst q).mp hq).1
  · intro r hr q hq
    rcases List.mem_append.mp hr with hold | hlast
    · exact h.blocks r hold q hq
    · -- the page was free in the row that the block is cut from
      rw [List.mem_singleton.mp hlast] at hq
      have hcov : e.Covers (q * 0x1000) := ⟨hlo.trans hq.1, lt_of_lt_of_le hq.2 hhi⟩
      exact h.free q (hfree ▸ hg.table.pageStatus_of_row he hcov)

/-- `Alloc` of one page. -/
theorem Owns.alloc_page (h : Owns avail n t log) (hn : n ≤ 253) (maxAddr : Word64) {type : Word64}
    (htype : IsReserveType type) (hp : (Frame.alloc t maxAddr 4096 type).1 ≠ 0) :
    Owns avail (n + 1) (Frame.alloc t maxAddr 4096 type).2
      (log ++ [((Frame.alloc t maxAddr 4096 type).1, 4096)]) := by
  have hsize : SaneSize 4096 := by
    unfold SaneSize
    decide
  exact h.alloc hn (by decide) hsize htype rfl hp

theorem memIndex_free (t : Table) (frame : Word32) : (Frame.free t frame).memIndex = t.memIndex := by
  unfold Frame.free
  dsimp only
  split
  · rfl
  · rfl

/-- What `Free` makes free lies in the block at its pointer, whatever row it meets. -/
theorem Ledger.Inv.pageStatus_free {g : Ledger} (hg : g.Inv) {p : Word32} {b : Range}
    (hb : b ∈ g.out) (hstart : b.1 = p.toNat) {q : Nat}
    (hq : (Frame.free g.table p).pageStatus q = some .free) :
    g.table.pageStatus q = some .free ∨ b.HasPage q := by
  rcases free_cases hg.table p with ⟨e, he, hlo, -, hcut⟩ | ⟨-, heq⟩
  · rw [hcut.pageStatus hg.table.apart] at hq
    split at hq
    · rename_i hin
      right
      obtain ⟨hlt, u, hu, -, huLo, huHi⟩ := hg.out b hb
      have hbound := (hg.bound e he).1
      have heLo : e.lo = p.toNat := by
        rw [hlo] at hbound ⊢
        exact toNat_signExtend_of_le hbound
      -- a row with pages that starts with the block is the block's row
      have hsame : e = u := Span.eq_of_covers hg.table.apart he hu (x := p.toNat)
        ⟨heLo.le, by omega⟩ ⟨by omega, by omega⟩
      rw [hsame, huLo, huHi] at hin
      exact hin
    · exact Or.inl hq
  · rw [heq] at hq
    exact Or.inl hq

/-- **`Free`** of a block that is out.  The others still are. -/
theorem Owns.release {p : Word32} {size : Word64} (h : Owns avail n t (log ++ [(p, size)]))
    (hn : n ≤ 253) : Owns avail n (Frame.free t p) log := by
  have hothers := h.apart
  obtain ⟨g, hreach, rfl, hout⟩ := h.ledger
  have hmem : (p, size) ∈ log ++ [(p, size)] := List.mem_append_right _ (List.mem_singleton_self _)
  have hc : g.Allowed (.free p) := ⟨h.rows.trans hn, block p size, hout _ hmem, rfl⟩
  have hnext : ledgerSystem.Reachable (g.run (.free p)) := hreach.call hc
  refine ⟨⟨_, hnext, rfl, ?_⟩, ?_, (List.pairwise_append.mp hothers).1, ?_, ?_⟩
  · intro r hr
    refine List.mem_filter.mpr ⟨hout r (List.mem_append_left _ hr), decide_eq_true fun heq => ?_⟩
    -- two blocks with bytes that start together are not disjoint
    have hapart := (List.pairwise_append.mp hothers).2.2 r hr _ (List.mem_singleton_self _)
    have hlt := (h.block_pages (List.mem_append_left _ hr)).1
    have hltp := (h.block_pages hmem).1
    rw [heq] at hlt
    exact hapart _ heq.le hlt le_rfl hltp
  · rw [memIndex_free]
    exact h.rows
  · intro q hq
    rcases (Ledger.inv_of_reachable hreach).pageStatus_free (hout _ hmem) rfl hq with hold | hblock
    · exact h.free q hold
    · exact h.blocks _ hmem q hblock
  · exact fun r hr => h.blocks r (List.mem_append_left _ hr)

/-! ## Before anything is handed out -/

/-- The table of a run of the ledger with at most `n` rows in use, to which only `ranges` were
added. -/
structure Booked (ranges : List (Word64 × Word64)) (n : Nat) (t : Table) : Prop where
  ledger : ∃ g, ledgerSystem.Reachable g ∧ g.table = t ∧
    ∀ r ∈ g.given, ∃ a ∈ ranges, r = (a.1.toNat, a.2.toNat)
  rows : t.memIndex.toNat ≤ n

variable {ranges : List (Word64 × Word64)}

theorem length_cut_le (e : Span Nat Status) (s stop : Nat) (st : Status) :
    (e.cut s stop st).length ≤ 3 := by
  unfold Span.cut
  split_ifs <;> simp

/-- A reservation costs two rows at most. -/
theorem memIndex_reserveRange_le (hok : t.RowsOk) (hn : t.memIndex.toNat ≤ 253)
    (addr length : Word64) (st : Status) :
    (reserveRange t addr length st.flag).memIndex.toNat ≤ t.memIndex.toNat + 2 := by
  rcases reserveRange_outcome hok addr length st with ⟨-, heq⟩ | ⟨i, -, -, -, hcut⟩ | ⟨hfull, -, -⟩
  · rw [heq]
    exact Nat.le_add_right _ _
  · have hlen := hcut.perm.length_eq
    have hthree := length_cut_le (t.gMem i).span (alignFloor addr 0x1000).toNat
      (align (addr + length) 0x1000).toNat st
    have hlive := hcut.live
    rw [List.length_append, List.length_eraseIdx_of_lt (by simpa using hlive), Table.length_spans,
      Table.length_spans] at hlen
    omega
  · omega

theorem Booked.reserveRange (h : Booked ranges n t) (hn : n ≤ 253) {addr length type : Word64}
    (hwrap : addr.toNat + length.toNat + 0xfff < 2 ^ 64) (htype : IsReserveType type) :
    Booked ranges (n + 2) (Frame.reserveRange t addr length type) := by
  obtain ⟨g, hreach, rfl, hgiven⟩ := h.ledger
  have hc : g.Allowed (.reserveRange addr length type) := ⟨h.rows.trans hn, hwrap, htype⟩
  have hnext : ledgerSystem.Reachable (g.run (.reserveRange addr length type)) := hreach.call hc
  refine ⟨⟨_, hnext, Ledger.table_run g _, ?_⟩, ?_⟩
  · intro r hr
    simp only [Ledger.run] at hr
    split at hr
    · exact hgiven r hr
    · exact hgiven r hr
  · obtain ⟨st, -, rfl⟩ := htype.exists_status
    have hg := Ledger.inv_of_reachable hreach
    have hrows := memIndex_reserveRange_le hg.table.ok (h.rows.trans hn) addr length st
    exact hrows.trans (Nat.add_le_add_right h.rows 2)

/-- The memory map loop, for ranges of different pages. -/
theorem booked_addRanges (ranges : List (Word64 × Word64))
    (hlow : ∀ r ∈ ranges, r.1.toNat + r.2.toNat ≤ 2 ^ 32)
    (hapart : ranges.Pairwise fun a b => ∀ p, Inside a.1.toNat a.2.toNat p →
      ¬ Inside b.1.toNat b.2.toNat p) (hlen : ranges.length ≤ 253) :
    Booked ranges ranges.length (ranges.foldl (fun t r => addRange t r.1 r.2) empty) := by
  induction ranges using List.reverseRecOn with
  | nil => exact ⟨⟨.start, .init rfl, rfl, fun r hr => absurd hr List.not_mem_nil⟩, le_rfl⟩
  | append_singleton ranges a ih =>
      rw [List.length_append, List.length_singleton] at hlen
      obtain ⟨hbefore, -, hlast⟩ := List.pairwise_append.mp hapart
      obtain ⟨⟨g, hreach, htable, hgiven⟩, hrows⟩ :=
        ih (fun r hr => hlow r (List.mem_append_left _ hr)) hbefore (by omega)
      rw [← htable] at hrows
      have hend := hlow a (List.mem_append_right _ (List.mem_singleton_self _))
      have hlength := a.2.isLt
      have hc : g.Allowed (.addRange a.1 a.2) := by
        refine ⟨by omega, hend, fun r hr p hin => ?_⟩
        obtain ⟨b, hb, rfl⟩ := hgiven r hr
        exact fun hother => hlast b hb a (List.mem_singleton_self _) p hother hin
      have hspans : (addRange g.table a.1 a.2).spans.length = g.table.spans.length + 1 := by
        rw [spans_addRange (by omega) (by omega) (by omega)]
        exact List.length_append
      rw [List.foldl_append, ← htable]
      refine ⟨⟨g.run (.addRange a.1 a.2), hreach.call hc, rfl, ?_⟩, ?_⟩
      · intro r hr
        rcases List.mem_cons.mp hr with rfl | hold
        · exact ⟨a, List.mem_append_right _ (List.mem_singleton_self _), rfl⟩
        · obtain ⟨b, hb, heq⟩ := hgiven r hold
          exact ⟨b, List.mem_append_left _ hb, heq⟩
      · rw [Table.length_spans, Table.length_spans] at hspans
        show (addRange g.table a.1 a.2).memIndex.toNat ≤ _
        rw [List.length_append, List.length_singleton]
        omega

/-- Whoever starts with a booked table owns nothing yet. -/
theorem Booked.owns (h : Booked ranges n t) :
    Owns (fun q => t.pageStatus q = some .free) n t [] := by
  obtain ⟨g, hreach, htable, -⟩ := h.ledger
  exact ⟨⟨g, hreach, htable, fun r hr => absurd hr List.not_mem_nil⟩, h.rows, .nil, fun _ hq => hq,
    fun r hr => absurd hr List.not_mem_nil⟩

/-- A free page lies in one of the ranges. -/
theorem Booked.inside (h : Booked ranges n t) {q : Nat} (hq : t.pageStatus q = some .free) :
    ∃ a ∈ ranges, Inside a.1.toNat a.2.toNat q := by
  obtain ⟨g, hreach, rfl, hgiven⟩ := h.ledger
  have htracked : (g.table.pageStatus q).isSome := by rw [hq]; rfl
  obtain ⟨r, hr, hin⟩ := (Ledger.inv_of_reachable hreach).tracked q htracked
  obtain ⟨a, ha, rfl⟩ := hgiven r hr
  exact ⟨a, ha, hin⟩

end Frame

open Lib MBoot ZineOS.Loader.Frame

/-! ## The table at `VirtualMemory::Install` -/

/-- The memory map, the number of modules and the loader's image as `kmain` needs them: ranges of
different pages below 4 GB, and as many of both as the frame table has rows for, `rows` of which
stay free. -/
structure BootFits (img : Image) (m : Mem) (info : Word32) (rows : Nat) : Prop where
  low : ∀ r ∈ availableRanges m info, r.1.toNat + r.2.toNat ≤ 2 ^ 32
  apart : (availableRanges m info).Pairwise fun a b => ∀ p, Inside a.1.toNat a.2.toNat p →
    ¬ Inside b.1.toNat b.2.toNat p
  image : img.code.toNat ≤ img.stop.toNat
  rows : (availableRanges m info).length + 2 * (getModuleCount m info).toNat + 8 + rows ≤ 253

theorem toNat_ptrToU64 (p : Word32) : (ptrToU64 p).toNat = p.toNat := by
  have hlt := p.isLt
  unfold ptrToU64
  rw [BitVec.toNat_setWidth, Nat.mod_eq_of_lt (by omega)]

/-- A reservation at a 32-bit address for a 32-bit length does not wrap. -/
theorem reserve_noWrap (p length : Word32) :
    (ptrToU64 p).toNat + (length.setWidth 64).toNat + 0xfff < 2 ^ 64 := by
  have hp := p.isLt
  have hlength := length.isLt
  rw [toNat_ptrToU64, BitVec.toNat_setWidth, Nat.mod_eq_of_lt (by omega)]
  omega

/-- The loop over the modules. -/
theorem Frame.Booked.foldl_modules {ranges : List (Word64 × Word64)} {n : Nat} {t : Frame.Table}
    (h : Booked ranges n t) (m : Mem) (info : Word32) (l : List Nat)
    (hn : n + 2 * l.length ≤ 255) :
    Booked ranges (n + 2 * l.length) (l.foldl (fun t i =>
      let module := getModule m info (BitVec.ofNat 32 i)
      Frame.reserveRange t (ptrToU64 (modStart m module)) ((getSize m module).setWidth 64)
        Frame.frameUsed) t) := by
  induction l generalizing n t with
  | nil => exact h
  | cons i l ih =>
      rw [List.length_cons] at hn ⊢
      have hnext := ih (h.reserveRange (by omega)
        (reserve_noWrap (modStart m (getModule m info (BitVec.ofNat 32 i)))
          (getSize m (getModule m info (BitVec.ofNat 32 i)))) (Or.inl rfl)) (by omega)
      rw [show n + 2 * (l.length + 1) = n + 2 + 2 * l.length by omega]
      exact hnext

/-- **The start of the book.** -/
theorem booked_bootTable {img : Image} {m : Mem} {info : Word32} {rows : Nat}
    (h : BootFits img m info rows) : Booked (availableRanges m info)
      ((availableRanges m info).length + 2 * (getModuleCount m info).toNat + 8)
      (bootTable img m info Frame.empty) := by
  have hrows := h.rows
  have hmap : Booked (availableRanges m info) (availableRanges m info).length
      (addMemoryMap m info Frame.empty) := booked_addRanges _ h.low h.apart (by omega)
  have hlower : Booked (availableRanges m info) ((availableRanges m info).length + 2)
      (Frame.reserveRange (addMemoryMap m info Frame.empty) 0 4096 frameUsed) :=
    hmap.reserveRange (by omega) (by decide) (Or.inl rfl)
  have hinfo := hlower.reserveRange (by omega) (reserve_noWrap info 88) (Or.inr rfl)
  have hmodules := hinfo.foldl_modules m info (List.range (getModuleCount m info).toNat)
    (by rw [List.length_range]; omega)
  rw [List.length_range] at hmodules
  have htable := hmodules.reserveRange (by omega)
    (reserve_noWrap (modsAddr m info) (getModsTableSize m info)) (Or.inr rfl)
  have himage : (ptrToU64 img.code).toNat + (ptrToU64 img.stop - ptrToU64 img.code).toNat + 0xfff <
      2 ^ 64 := by
    have hstop := img.stop.isLt
    have hle := h.image
    rw [BitVec.toNat_sub, toNat_ptrToU64, toNat_ptrToU64]
    omega
  have hlast := htable.reserveRange (by omega) himage (Or.inr rfl)
  rw [show (availableRanges m info).length + 2 * (getModuleCount m info).toNat + 8 =
    (availableRanges m info).length + 2 + 2 + 2 * (getModuleCount m info).toNat + 2 + 2 by omega]
  exact hlast

end Loader
end ZineOS
