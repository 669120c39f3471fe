import ZineOS.Loader.FrameTable

/-!
# Row by row

A property of single rows that holds of every row in use, and of every row that an operation can
write, holds of every row in use afterwards.  Nothing is assumed about how the rows lie to each
other or how many there are; a page counts as free when *some* free row has it.

`reserveRange_outcome` is everything `ReserveRange` can do to such a table, and
`reserveRange_cases` what is left of it in a coherent table with room for two more rows.
-/

namespace ZineOS
namespace Loader
namespace Frame

open Lib

section

variable {t : Table} {P : Entry → Prop}

theorem forall_live_addRange (h : ∀ e ∈ t.live, P e) {addr length : Word64}
    (hnew : P ⟨align addr 0x1000 ||| frameFree, alignFloor (addr + length) 0x1000⟩) :
    ∀ e ∈ (addRange t addr length).live, P e := by
  unfold addRange
  dsimp only
  split
  · exact Table.forall_live_push h hnew
  · exact h

theorem forall_live_reserveRange (h : ∀ e ∈ t.live, P e) {addr length type : Word64}
    (hcut : ∀ e ∈ t.live, e.isFree = true → e.span.lo ≤ (alignFloor addr 0x1000).toNat →
      (align (addr + length) 0x1000).toNat ≤ e.span.hi →
      P ⟨alignFloor addr 0x1000 ||| type, align (addr + length) 0x1000⟩ ∧
        P ⟨align (addr + length) 0x1000 ||| frameFree, e.stop⟩ ∧
        P ⟨e.start, alignFloor addr 0x1000⟩) :
    ∀ e ∈ (reserveRange t addr length type).live, P e := by
  unfold reserveRange
  dsimp only
  split
  · exact h
  · rename_i hroom
    split
    · rename_i i hfind
      have hi : i < t.memIndex.toNat := List.mem_range.mp (List.mem_of_find?_eq_some hfind)
      obtain ⟨hfree, hlo, hhi⟩ := reserveFits_iff.mp (List.find?_some hfind)
      obtain ⟨hpiece, hright, hleft⟩ := hcut _ (t.gMem_mem_live hi) hfree hlo hhi
      have hlt := t.memIndex.isLt
      have hne : t.memIndex.toNat ≠ 255 := fun heq => hroom (BitVec.eq_of_toNat_eq heq)
      exact forall_live_reserveAt h hi (by omega) hpiece hright hleft
    · exact h

/-- `Free` rewrites one row, which starts at the pointer. -/
theorem forall_live_free (h : ∀ e ∈ t.live, P e) {frame : Word32}
    (hfree : ∀ e ∈ t.live, e.span.lo = (frame.signExtend 64).toNat →
      P ⟨frameClearFlags e.start ||| frameFree, e.stop⟩) :
    ∀ e ∈ (free t frame).live, P e := by
  unfold free
  dsimp only
  split
  · rename_i i hfind
    have hi : i < t.memIndex.toNat := List.mem_range.mp (List.mem_of_find?_eq_some hfind)
    have hloc : frameClearFlags (t.gMem i).start = frame.signExtend 64 := by
      simpa using List.find?_some hfind
    have hrow := hfree _ (t.gMem_mem_live hi) (congrArg BitVec.toNat hloc)
    exact Table.forall_live_setEntry h i hrow
  · exact h

end

/-- Every row in use is well formed. -/
def Table.RowsOk (t : Table) : Prop := ∀ e ∈ t.live, e.Ok

theorem Table.RowsOk.addRange {t : Table} (h : t.RowsOk) (addr length : Word64) :
    (Frame.addRange t addr length).RowsOk :=
  forall_live_addRange h
    (Entry.ok_mk (toNat_align_mod addr) (toNat_alignFloor_mod (addr + length)) .free)

theorem Table.RowsOk.reserveRange {t : Table} (h : t.RowsOk) (addr length : Word64) (st : Status) :
    (Frame.reserveRange t addr length st.flag).RowsOk := by
  refine forall_live_reserveRange h fun e he _ _ _ => ⟨?_, ?_, ?_⟩
  · exact Entry.ok_mk (toNat_alignFloor_mod addr) (toNat_align_mod (addr + length)) st
  · exact Entry.ok_mk (toNat_align_mod (addr + length)) (h e he).stop_aligned .free
  · exact (h e he).setStop (toNat_alignFloor_mod addr)

theorem Table.RowsOk.free {t : Table} (h : t.RowsOk) (frame : Word32) :
    (Frame.free t frame).RowsOk :=
  forall_live_free h fun e he _ => (h e he).setFree

/-! ## Free pages -/

/-- Some free row in use has page `p`. -/
def Table.FreePage (t : Table) (p : Nat) : Prop :=
  ∃ k, k < t.memIndex.toNat ∧ (t.gMem k).status = .free ∧ (t.gMem k).span.Covers (p * 0x1000)

instance (t : Table) (p : Nat) : Decidable (t.FreePage p) :=
  inferInstanceAs (Decidable (∃ k, k < _ ∧ _))

theorem Table.freePage_iff_spans {t : Table} {p : Nat} :
    t.FreePage p ↔ ∃ u ∈ t.spans, u.label = .free ∧ u.Covers (p * 0x1000) := by
  simp only [FreePage, spans, live, List.mem_map, List.mem_range, exists_exists_and_eq_and]
  rfl

/-- In a coherent table these are the pages with the status `free`. -/
theorem Table.Inv.freePage_iff {t : Table} (h : t.Inv) {p : Nat} :
    t.FreePage p ↔ t.pageStatus p = some .free := by
  rw [freePage_iff_spans, pageStatus, Span.lookup_eq_some_iff h.apart]
  simp only [and_comm]

/-! ## What `ReserveRange` can do to any table -/

/-- The row that `ReserveRange` would take the request from. -/
def servedRow (t : Table) (addr length : Word64) : Option Nat :=
  (List.range t.memIndex.toNat).find?
    (reserveFits t (alignFloor addr 0x1000) (align (addr + length) 0x1000))

/-- The rows that serving the request would append. -/
def rowsWanted (t : Table) (addr length : Word64) : Nat :=
  match servedRow t addr length with
  | some i => rowsNeeded t i (alignFloor addr 0x1000) (align (addr + length) 0x1000)
  | none => 0

theorem rowsWanted_le (t : Table) (addr length : Word64) : rowsWanted t addr length ≤ 2 := by
  unfold rowsWanted
  split
  · exact rowsNeeded_le ..
  · exact Nat.zero_le _

theorem rowsWanted_of_none {t : Table} {addr length : Word64}
    (h : servedRow t addr length = none) : rowsWanted t addr length = 0 := by
  unfold rowsWanted
  rw [h]

/-- Row `i` was cut, and `mem_index` counts the new rows. -/
structure CutAt (t t' : Table) (addr length : Word64) (st : Status) (i : Nat) : Prop where
  live : i < t.memIndex.toNat
  free : (t.gMem i).status = .free
  lo_le : (t.gMem i).span.lo ≤ (alignFloor addr 0x1000).toNat
  le_hi : (align (addr + length) 0x1000).toNat ≤ (t.gMem i).span.hi
  perm : t'.spans.Perm ((t.gMem i).span.cut (alignFloor addr 0x1000).toNat
    (align (addr + length) 0x1000).toNat st ++ t.spans.eraseIdx i)

/-- Everything `ReserveRange` can do: nothing, as the table is full or no row serves the request; a
cut; or a cut into three rows of which the last one makes `mem_index` wrap to 0. -/
theorem reserveRange_outcome {t : Table} (hok : t.RowsOk) (addr length : Word64) (st : Status) :
    ((t.memIndex.toNat = 255 ∨ servedRow t addr length = none) ∧
        reserveRange t addr length st.flag = t) ∨
      (∃ i, t.memIndex.toNat < 255 ∧ (rowsWanted t addr length = 2 → t.memIndex.toNat ≠ 254) ∧
        servedRow t addr length = some i ∧
        CutAt t (reserveRange t addr length st.flag) addr length st i) ∨
      (t.memIndex.toNat = 254 ∧ rowsWanted t addr length = 2 ∧
        (reserveRange t addr length st.flag).memIndex.toNat = 0) := by
  have hlt := t.memIndex.isLt
  by_cases hfull : t.memIndex = 255
  · refine Or.inl ⟨Or.inl (by rw [hfull]; rfl), ?_⟩
    unfold reserveRange
    rw [if_pos hfull]
  have hroom : t.memIndex.toNat < 255 := by
    have hne : t.memIndex.toNat ≠ 255 := fun heq => hfull (BitVec.eq_of_toNat_eq heq)
    omega
  cases hfind : servedRow t addr length with
  | none =>
      refine Or.inl ⟨Or.inr rfl, ?_⟩
      unfold reserveRange
      unfold servedRow at hfind
      rw [if_neg hfull, hfind]
  | some i =>
      right
      have heq : reserveRange t addr length st.flag =
          reserveAt t i (alignFloor addr 0x1000) (align (addr + length) 0x1000) st.flag := by
        unfold reserveRange
        unfold servedRow at hfind
        rw [if_neg hfull, hfind]
      have hwanted : rowsWanted t addr length =
          rowsNeeded t i (alignFloor addr 0x1000) (align (addr + length) 0x1000) := by
        unfold rowsWanted
        rw [hfind]
      have hi : i < t.memIndex.toNat := List.mem_range.mp (List.mem_of_find?_eq_some hfind)
      obtain ⟨hisFree, hlo, hhi⟩ := reserveFits_iff.mp (List.find?_some hfind)
      have hrow := hok _ (t.gMem_mem_live hi)
      have hfree := hrow.isFree_iff.mp hisFree
      have hle := rowsNeeded_le t i (alignFloor addr 0x1000) (align (addr + length) 0x1000)
      rw [heq, hwanted]
      -- two more rows than `mem_index` can count
      by_cases hwrap : t.memIndex.toNat = 254 ∧
          rowsNeeded t i (alignFloor addr 0x1000) (align (addr + length) 0x1000) = 2
      · exact Or.inr ⟨hwrap.1, hwrap.2, memIndex_reserveAt_wrap hwrap.1 hwrap.2⟩
      · refine Or.inl ⟨i, hroom, fun h2 h254 => hwrap ⟨h254, h2⟩, rfl, hi, hfree, hlo, hhi, ?_⟩
        exact reserveAt_perm hi hrow hfree (toNat_alignFloor_mod addr)
          (toNat_align_mod (addr + length)) (by omega) st

namespace CutAt

variable {t t' : Table} {addr length : Word64} {st : Status} {i : Nat}

/-- A row that is not the one cut is still there. -/
theorem mem_of_ne (h : CutAt t t' addr length st i) {k : Nat} (hk : k < t.memIndex.toNat)
    (hne : k ≠ i) : (t.gMem k).span ∈ t'.spans := by
  have hlen : k < t.spans.length := by simpa using hk
  have hget : t.spans[k] = (t.gMem k).span := by simp [Table.spans, Table.live]
  rw [h.perm.mem_iff, List.mem_append]
  right
  rw [List.mem_eraseIdx_iff_getElem]
  exact ⟨k, hlen, hne, hget⟩

theorem memIndex_le (h : CutAt t t' addr length st i) :
    t.memIndex.toNat ≤ t'.memIndex.toNat := by
  have hcut := List.length_pos_iff.mpr
    ((t.gMem i).span.cut_ne_nil (alignFloor addr 0x1000).toNat
      (align (addr + length) 0x1000).toNat st)
  have hlen := h.perm.length_eq
  have hi := h.live
  rw [List.length_append, List.length_eraseIdx_of_lt (by simpa using hi), Table.length_spans,
    Table.length_spans] at hlen
  omega

theorem kept (h : CutAt t t' addr length st i) {u : Span Nat Status} (hu : u ∈ t.spans)
    (hlabel : u.label ≠ .free) : u ∈ t'.spans := by
  obtain ⟨e, he, rfl⟩ := List.mem_map.mp hu
  obtain ⟨k, hk, rfl⟩ := List.mem_map.mp he
  refine h.mem_of_ne (List.mem_range.mp hk) ?_
  rintro rfl
  exact hlabel h.free

theorem tracked (h : CutAt t t' addr length st i) {u : Span Nat Status} (hu : u ∈ t.spans)
    {x : Nat} (hx : u.Covers x) : ∃ v ∈ t'.spans, v.Covers x := by
  obtain ⟨e, he, rfl⟩ := List.mem_map.mp hu
  obtain ⟨k, hk, rfl⟩ := List.mem_map.mp he
  by_cases hki : k = i
  · subst hki
    obtain ⟨v, hv, hcov⟩ := Span.exists_covers_cut (alignFloor addr 0x1000).toNat
      (align (addr + length) 0x1000).toNat st hx
    exact ⟨v, h.perm.mem_iff.mpr (List.mem_append_left _ hv), hcov⟩
  · exact ⟨_, h.mem_of_ne (List.mem_range.mp hk) hki, hx⟩

/-- The free pages after a cut: those of the other free rows, and what is left of the row on either
side of the request. -/
theorem freePage_iff (h : CutAt t t' addr length st i) (hst : st ≠ .free) (p : Nat) :
    t'.FreePage p ↔
      (∃ k, k < t.memIndex.toNat ∧ k ≠ i ∧ (t.gMem k).status = .free ∧
        (t.gMem k).span.Covers (p * 0x1000)) ∨
      ((t.gMem i).span.lo ≤ p * 0x1000 ∧ p * 0x1000 < (alignFloor addr 0x1000).toNat) ∨
      ((align (addr + length) 0x1000).toNat ≤ p * 0x1000 ∧ p * 0x1000 < (t.gMem i).span.hi) := by
  have hlabel : (t.gMem i).span.label = .free := h.free
  rw [Table.freePage_iff_spans]
  constructor
  · rintro ⟨u, hu, hfree, hlo, hhi⟩
    -- a row of the new table is a piece of the cut row or an old row
    rcases List.mem_append.mp (h.perm.mem_iff.mp hu) with hcut | hother
    · rcases Span.mem_cut hcut with rfl | rfl | rfl
      · exact absurd hfree hst
      · exact Or.inr (Or.inl ⟨hlo, hhi⟩)
      · exact Or.inr (Or.inr ⟨hlo, hhi⟩)
    · rw [List.mem_eraseIdx_iff_getElem] at hother
      obtain ⟨k, hk, hne, rfl⟩ := hother
      have hget : t.spans[k] = (t.gMem k).span := by simp [Table.spans, Table.live]
      rw [hget] at hfree hlo hhi
      exact Or.inl ⟨k, by simpa using hk, hne, hfree, hlo, hhi⟩
  · rintro (⟨k, hk, hne, hfree, hcov⟩ | hleft | hright)
    · exact ⟨_, h.mem_of_ne hk hne, hfree, hcov⟩
    · have hmem := Span.front_mem_cut (e := (t.gMem i).span)
        (t := (align (addr + length) 0x1000).toNat) st
        (by omega : (alignFloor addr 0x1000).toNat ≠ (t.gMem i).span.lo)
      exact ⟨_, h.perm.mem_iff.mpr (List.mem_append_left _ hmem), hlabel, hleft⟩
    · have hmem := Span.tail_mem_cut (e := (t.gMem i).span) (s := (alignFloor addr 0x1000).toNat)
        st (by omega : (align (addr + length) 0x1000).toNat ≠ (t.gMem i).span.hi)
      exact ⟨_, h.perm.mem_iff.mpr (List.mem_append_left _ hmem), hlabel, hright⟩

end CutAt

/-! ## What `ReserveRange` can do to a coherent table -/

theorem CutAt.carved {t t' : Table} {addr length : Word64} {st : Status} {i : Nat}
    (h : CutAt t t' addr length st i)
    (hle : (alignFloor addr 0x1000).toNat ≤ (align (addr + length) 0x1000).toNat) :
    Carved t t' (t.gMem i).span (alignFloor addr 0x1000).toNat
      (align (addr + length) 0x1000).toNat st :=
  ⟨_, _, Span.carves_cut _ _ _ st h.lo_le hle h.le_hi, t.spans_perm h.live, h.perm⟩

/-- Everything `ReserveRange` can do, for a request whose rounding does not wrap. -/
theorem reserveRange_cases {t : Table} (hinv : t.Inv) (hn : t.memIndex.toNat ≤ 253)
    {addr length : Word64} (hwrap : addr.toNat + length.toNat + 0xfff < 2 ^ 64) (st : Status) :
    (∃ e ∈ t.spans, e.label = .free ∧ e.lo ≤ pageDown addr.toNat ∧
        pageUp (addr.toNat + length.toNat) ≤ e.hi ∧
        (reserveRange t addr length st.flag).Inv ∧
        Carved t (reserveRange t addr length st.flag) e (pageDown addr.toNat)
          (pageUp (addr.toNat + length.toNat)) st) ∨
      (¬ t.Fits (pageDown addr.toNat) (pageUp (addr.toNat + length.toNat)) ∧
        reserveRange t addr length st.flag = t) := by
  have hstart := toNat_alignFloor addr
  have hstop := toNat_align_add hwrap
  have hrows := Table.RowsOk.reserveRange hinv.ok addr length st
  rw [← hstart, ← hstop]
  rcases reserveRange_outcome hinv.ok addr length st with
    ⟨hno, heq⟩ | ⟨i, -, -, -, hcut⟩ | ⟨hfull, -, -⟩
  · -- no row serves the request
    have hnone := hno.resolve_left (by omega)
    refine Or.inr ⟨?_, heq⟩
    rw [Table.fits_iff hinv.ok]
    rintro ⟨i, hi, hfit⟩
    exact List.find?_eq_none.mp hnone i (List.mem_range.mpr hi) hfit
  · have hle : (alignFloor addr 0x1000).toNat ≤ (align (addr + length) 0x1000).toNat := by
      rw [hstart, hstop]
      exact (pageDown_le _).trans ((Nat.le_add_right _ _).trans (le_pageUp _))
    have hcarved := hcut.carved hle
    exact Or.inl ⟨_, List.mem_map_of_mem (t.gMem_mem_live hcut.live), hcut.free, hcut.lo_le,
      hcut.le_hi, ⟨hrows, hcarved.apart hinv.apart⟩, hcarved⟩
  · omega

end Frame
end Loader
end ZineOS
