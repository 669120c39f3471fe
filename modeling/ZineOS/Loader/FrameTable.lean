import ZineOS.Loader.Frame

/-!
# The frame table as a page map

The invariant of the frame table and what each operation does to it.

* `Table.Inv`: every row in use has a page-aligned end and exactly one status flag, and no two rows
  in use share an address.
* `spans_addRange`, `free_cases` and `alloc_cases` say once what an operation can do, and
  `reserveAt_perm` what `ReserveRange` does at the row it found.  All but `AddRange` either leave
  the table alone or carve one row (`Carved`); `Free` is the carve that relabels a whole row.
-/

namespace ZineOS
namespace Loader
namespace Frame
open Lib

theorem toNat_frameClearFlags (v : Word64) : (frameClearFlags v).toNat = pageDown v.toNat :=
  Words.toNat_and_not_lowMask v 12

theorem toNat_flag_lt (st : Status) : st.flag.toNat < 2 ^ 12 := by
  cases st <;> decide

theorem frameClearFlags_or_flag {a : Word64} (ha : a.toNat % 0x1000 = 0) (st : Status) :
    frameClearFlags (a ||| st.flag) = a :=
  Words.or_and_not_lowMask (k := 12) ha (toNat_flag_lt st)

theorem frameClearFlags_of_aligned {a : Word64} (ha : a.toNat % 0x1000 = 0) :
    frameClearFlags a = a := by
  apply BitVec.eq_of_toNat_eq
  rw [toNat_frameClearFlags]
  unfold pageDown
  omega

theorem or_flag_and_frameFlags {a : Word64} (ha : a.toNat % 0x1000 = 0) (st : Status) :
    (a ||| st.flag) &&& frameFlags = st.flag :=
  Words.or_and_lowMask (k := 12) (by omega) ha (toNat_flag_lt st)

/-- A well-formed row: a page-aligned end and exactly one status flag. -/
structure Entry.Ok (e : Entry) : Prop where
  stop_aligned : e.stop.toNat % 0x1000 = 0
  flag : e.start &&& frameFlags = e.status.flag

theorem status_eq_of_flags {e : Entry} {st : Status} (h : e.start &&& frameFlags = st.flag) :
    e.status = st := by
  unfold Entry.status
  rw [h]
  cases st <;> decide

theorem Entry.ok_mk {a b : Word64} (ha : a.toNat % 0x1000 = 0) (hb : b.toNat % 0x1000 = 0)
    (st : Status) : Entry.Ok ⟨a ||| st.flag, b⟩ where
  stop_aligned := hb
  flag := by
    have h := or_flag_and_frameFlags ha st
    rw [status_eq_of_flags (e := ⟨a ||| st.flag, b⟩) h]
    exact h

theorem Entry.span_mk {a b : Word64} (ha : a.toNat % 0x1000 = 0) (hb : b.toNat % 0x1000 = 0)
    (st : Status) : Entry.span ⟨a ||| st.flag, b⟩ = ⟨a.toNat, b.toNat, st⟩ := by
  unfold Entry.span
  rw [status_eq_of_flags (e := ⟨a ||| st.flag, b⟩) (or_flag_and_frameFlags ha st),
    frameClearFlags_or_flag ha, frameClearFlags_of_aligned hb]

theorem Entry.Ok.setStop {e : Entry} (h : e.Ok) {b : Word64} (hb : b.toNat % 0x1000 = 0) :
    Entry.Ok { e with stop := b } where
  stop_aligned := hb
  flag := h.flag

theorem Entry.span_setStop (e : Entry) {b : Word64} (hb : b.toNat % 0x1000 = 0) :
    Entry.span { e with stop := b } = ⟨e.span.lo, b.toNat, e.status⟩ := by
  unfold Entry.span
  rw [frameClearFlags_of_aligned hb]
  rfl

/-- What `Free` writes: the row's bounds with the flag `FRAME_FREE`. -/
theorem Entry.Ok.setFree {e : Entry} (h : e.Ok) :
    Entry.Ok ⟨frameClearFlags e.start ||| frameFree, e.stop⟩ := by
  refine Entry.ok_mk ?_ h.stop_aligned .free
  rw [toNat_frameClearFlags]
  exact pageDown_mod _

theorem Entry.Ok.span_setFree {e : Entry} (h : e.Ok) :
    Entry.span ⟨frameClearFlags e.start ||| frameFree, e.stop⟩ = ⟨e.span.lo, e.span.hi, .free⟩ := by
  have hstart : (frameClearFlags e.start).toNat % 0x1000 = 0 := by
    rw [toNat_frameClearFlags]
    exact pageDown_mod _
  rw [show frameFree = Status.free.flag from rfl, Entry.span_mk hstart h.stop_aligned]
  unfold Entry.span
  rw [frameClearFlags_of_aligned h.stop_aligned]

theorem Entry.Ok.isFree_iff {e : Entry} (h : e.Ok) : e.isFree = true ↔ e.status = .free := by
  have hbit : e.start &&& frameFree = (e.start &&& frameFlags) &&& frameFree := by
    rw [BitVec.and_assoc]
    congr 1
  unfold Entry.isFree
  rw [hbit, h.flag]
  cases e.status <;> decide

namespace Table

@[simp] theorem length_live (t : Table) : t.live.length = t.memIndex.toNat := by
  simp [live]

theorem getElem_live (t : Table) {i : Nat} (h : i < t.live.length) : t.live[i] = t.gMem i := by
  simp [live]

theorem gMem_mem_live (t : Table) {i : Nat} (h : i < t.memIndex.toNat) : t.gMem i ∈ t.live :=
  List.mem_map.mpr ⟨i, List.mem_range.mpr h, rfl⟩

theorem live_setEntry (t : Table) (i : Nat) (e : Entry) :
    (t.setEntry i e).live = t.live.set i e := by
  apply List.ext_getElem
  · simp [setEntry]
  · intro j hj hj'
    rw [List.getElem_set, getElem_live, getElem_live]
    simp only [setEntry, eq_comm]

theorem live_push (t : Table) (e : Entry) (h : t.memIndex.toNat < 255) :
    (t.push e).live = t.live ++ [e] := by
  have hnext : (t.memIndex + 1).toNat = t.memIndex.toNat + 1 := by
    rw [BitVec.toNat_add, Nat.mod_eq_of_lt]
    · rfl
    · simp
      omega
  apply List.ext_getElem
  · simp only [push, length_live, List.length_append, List.length_singleton, hnext]
  · intro j hj hj'
    rw [getElem_live]
    rw [length_live] at hj
    simp only [push, setEntry] at hj ⊢
    rw [hnext] at hj
    by_cases hjn : j = t.memIndex.toNat
    · subst hjn
      simp
    · rw [if_neg hjn, List.getElem_append_left (by simp; omega), getElem_live]


theorem spans_setEntry (t : Table) (i : Nat) (e : Entry) :
    (t.setEntry i e).spans = t.spans.set i e.span := by
  rw [spans, live_setEntry, List.map_set, spans]

theorem spans_push (t : Table) (e : Entry) (h : t.memIndex.toNat < 255) :
    (t.push e).spans = t.spans ++ [e.span] := by
  rw [spans, live_push t e h, List.map_append, List.map_singleton, spans]

@[simp] theorem length_spans (t : Table) : t.spans.length = t.memIndex.toNat := by
  simp [spans]

theorem toNat_memIndex_push (t : Table) (e : Entry) (h : t.memIndex.toNat < 255) :
    (t.push e).memIndex.toNat = t.memIndex.toNat + 1 := by
  rw [← length_live, live_push t e h]
  simp

theorem gMem_push (t : Table) (e : Entry) {i : Nat} (h : i < t.memIndex.toNat) :
    (t.push e).gMem i = t.gMem i := by
  simp only [push, setEntry]
  rw [if_neg (by omega)]

theorem spans_perm (t : Table) {i : Nat} (h : i < t.memIndex.toNat) :
    t.spans.Perm ((t.gMem i).span :: t.spans.eraseIdx i) := by
  have hlt : i < t.spans.length := by simpa using h
  have hget : t.spans[i] = (t.gMem i).span := by simp [spans, live]
  rw [← hget]
  exact (List.getElem_cons_eraseIdx_perm hlt).symm

/-- The table invariant: every row in use is well formed and no two of them share an address. -/
structure Inv (t : Table) : Prop where
  ok : ∀ e ∈ t.live, e.Ok
  apart : t.spans.Pairwise Lib.Span.Apart

/-- Rewriting a row keeps what holds of every row in use, if it holds of the new one. -/
theorem forall_live_setEntry {P : Entry → Prop} {t : Table} (h : ∀ e ∈ t.live, P e) (i : Nat)
    {a : Entry} (ha : P a) : ∀ e ∈ (t.setEntry i a).live, P e := by
  intro e he
  rw [live_setEntry] at he
  rcases List.mem_or_eq_of_mem_set he with hmem | rfl
  · exact h e hmem
  · exact ha

/-- So does appending one, also when `mem_index` wraps: then no row is in use any more. -/
theorem forall_live_push {P : Entry → Prop} {t : Table} (h : ∀ e ∈ t.live, P e) {a : Entry}
    (ha : P a) : ∀ e ∈ (t.push a).live, P e := by
  intro e he
  by_cases hn : t.memIndex.toNat < 255
  · rw [live_push t a hn, List.mem_append, List.mem_singleton] at he
    rcases he with hmem | rfl
    · exact h e hmem
    · exact ha
  · have hlast : t.memIndex = 255 := by
      apply BitVec.eq_of_toNat_eq
      have hlt := t.memIndex.isLt
      show t.memIndex.toNat = 255
      omega
    have hnone : (t.push a).memIndex.toNat = 0 := by
      simp only [push, hlast]
      rfl
    rw [live, hnone] at he
    exact absurd he List.not_mem_nil

end Table

theorem reserveFits_iff {t : Table} {start stop : Word64} {i : Nat} :
    reserveFits t start stop i = true ↔ (t.gMem i).isFree = true ∧
      (t.gMem i).span.lo ≤ start.toNat ∧ stop.toNat ≤ (t.gMem i).span.hi := by
  simp [reserveFits, Entry.span, BitVec.le_def, and_assoc]

private theorem set_append_perm {α : Type*} (l tail : List α) {i : Nat} (h : i < l.length) (a : α) :
    ((l ++ tail).set i a).Perm ((a :: tail) ++ l.eraseIdx i) := by
  rw [List.set_append_left _ _ h]
  have hset := (List.set_perm_cons_eraseIdx h a).append_right tail
  exact hset.trans (List.Perm.cons a List.perm_append_comm)

/-- The rows that cutting `[start, stop)` out of row `i` appends. -/
def rowsNeeded (t : Table) (i : Nat) (start stop : Word64) : Nat :=
  if start = frameClearFlags (t.gMem i).start ∧ stop = frameClearFlags (t.gMem i).stop then 0
  else if start = frameClearFlags (t.gMem i).start ∨ stop = frameClearFlags (t.gMem i).stop then 1
  else 2

theorem rowsNeeded_le (t : Table) (i : Nat) (start stop : Word64) :
    rowsNeeded t i start stop ≤ 2 := by
  unfold rowsNeeded
  split
  · exact Nat.zero_le _
  split
  · exact Nat.le_succ 1
  · exact le_rfl

/-- The rows `ReserveRange` writes at the row it found: the piece and what is left on either side. -/
theorem forall_live_reserveAt {P : Entry → Prop} {t : Table} (h : ∀ e ∈ t.live, P e) {i : Nat}
    (hi : i < t.memIndex.toNat) (hroom : t.memIndex.toNat < 255) {start stop type : Word64}
    (hpiece : P ⟨start ||| type, stop⟩)
    (hright : P ⟨stop ||| frameFree, (t.gMem i).stop⟩)
    (hleft : P ⟨(t.gMem i).start, start⟩) :
    ∀ e ∈ (reserveAt t i start stop type).live, P e := by
  have hget := t.gMem_push ⟨start ||| type, stop⟩ hi
  have hpush := Table.forall_live_push h hpiece
  have hlen := t.toNat_memIndex_push ⟨start ||| type, stop⟩ hroom
  unfold reserveAt
  dsimp only
  split
  · exact Table.forall_live_setEntry h i hpiece
  split
  · unfold Table.setStart
    rw [hget]
    exact Table.forall_live_setEntry hpush i hright
  split
  · unfold Table.setStop
    rw [hget]
    exact Table.forall_live_setEntry hpush i hleft
  · have hget2 := Table.gMem_push (t.push ⟨start ||| type, stop⟩)
      ⟨stop ||| frameFree, (t.gMem i).stop⟩ (by omega : i < _)
    unfold Table.setStop
    rw [hget, hget2, hget]
    exact Table.forall_live_setEntry (Table.forall_live_push hpush hright) i hleft

private theorem eq_frameClearFlags_iff (v w : Word64) :
    v = frameClearFlags w ↔ v.toNat = (frameClearFlags w).toNat :=
  BitVec.toNat_inj.symm

/-- What `ReserveRange` does at the entry it found: the pieces of the cut replace the row, while
`mem_index` can count the new rows. -/
theorem reserveAt_perm {t : Table} {i : Nat} (hi : i < t.memIndex.toNat) (hok : (t.gMem i).Ok)
    (hfree : (t.gMem i).status = .free) {start stop : Word64} (hs : start.toNat % 0x1000 = 0)
    (he : stop.toNat % 0x1000 = 0) (hn : t.memIndex.toNat + rowsNeeded t i start stop ≤ 255)
    (st : Status) :
    (reserveAt t i start stop st.flag).spans.Perm
      ((t.gMem i).span.cut start.toNat stop.toNat st ++ t.spans.eraseIdx i) := by
  have hlen : i < t.spans.length := by simpa using hi
  have hlabel : (t.gMem i).span.label = .free := hfree
  have hlo : (t.gMem i).span.lo = (frameClearFlags (t.gMem i).start).toNat := rfl
  have hhi : (t.gMem i).span.hi = (frameClearFlags (t.gMem i).stop).toNat := rfl
  have hpieceSpan := Entry.span_mk hs he st
  unfold reserveAt Span.cut
  simp only [rowsNeeded, eq_frameClearFlags_iff, ← hlo, ← hhi] at hn ⊢
  by_cases hexact : start.toNat = (t.gMem i).span.lo ∧ stop.toNat = (t.gMem i).span.hi
  · rw [if_pos hexact, if_pos hexact, Table.spans_setEntry, hpieceSpan]
    exact List.set_perm_cons_eraseIdx hlen _
  rw [if_neg hexact] at hn ⊢
  rw [if_neg hexact]
  have hpush : t.memIndex.toNat < 255 := by
    split at hn <;> omega
  have hget := t.gMem_push ⟨start ||| st.flag, stop⟩ hi
  have hspansPush := t.spans_push ⟨start ||| st.flag, stop⟩ hpush
  rw [hpieceSpan] at hspansPush
  have hstop : (t.gMem i).stop.toNat % 0x1000 = 0 := hok.stop_aligned
  have hhiEq : (t.gMem i).stop.toNat = (t.gMem i).span.hi := by
    rw [hhi, frameClearFlags_of_aligned hstop]
  -- what is left of the entry behind the piece
  have hrightSpan : Entry.span ⟨stop ||| frameFree, (t.gMem i).stop⟩ =
      ⟨stop.toNat, (t.gMem i).span.hi, .free⟩ := by
    rw [← hhiEq]
    exact Entry.span_mk he hstop .free
  by_cases hfront : start.toNat = (t.gMem i).span.lo
  · simp only [if_pos hfront, Table.setStart, hget]
    rw [Table.spans_setEntry, hspansPush, hrightSpan, hlabel]
    exact set_append_perm t.spans _ hlen _
  simp only [if_neg hfront]
  have hleftSpan := Entry.span_setStop (t.gMem i) hs
  rw [hfree] at hleftSpan
  rw [hlabel]
  by_cases hsuffix : stop.toNat = (t.gMem i).span.hi
  · simp only [if_pos hsuffix, Table.setStop, hget]
    rw [Table.spans_setEntry, hspansPush, hleftSpan]
    exact set_append_perm t.spans _ hlen _
  simp only [if_neg hsuffix]
  have hlen1 := t.toNat_memIndex_push ⟨start ||| st.flag, stop⟩ hpush
  rw [if_neg (not_or.mpr ⟨hfront, hsuffix⟩)] at hn
  have hpush2 : (t.push ⟨start ||| st.flag, stop⟩).memIndex.toNat < 255 := by omega
  have hi2 : i < (t.push ⟨start ||| st.flag, stop⟩).memIndex.toNat := by omega
  simp only [Table.setStop, hget, Table.gMem_push _ _ hi2]
  rw [Table.spans_setEntry, Table.spans_push _ _ hpush2, hspansPush, hleftSpan, hrightSpan,
    List.append_assoc]
  exact set_append_perm t.spans _ hlen _

/-- With one row to spare, a request that needs two makes `mem_index` wrap. -/
theorem memIndex_reserveAt_wrap {t : Table} {i : Nat} {start stop type : Word64}
    (hn : t.memIndex.toNat = 254) (htwo : rowsNeeded t i start stop = 2) :
    (reserveAt t i start stop type).memIndex.toNat = 0 := by
  have hlast : t.memIndex = 254 := BitVec.eq_of_toNat_eq hn
  unfold rowsNeeded at htwo
  split at htwo
  · omega
  rename_i hexact
  split at htwo
  · omega
  rename_i hshared
  rw [not_or] at hshared
  unfold reserveAt
  simp only [if_neg hexact, if_neg hshared.1, if_neg hshared.2, Table.push, Table.setStop,
    Table.setEntry, hlast]
  rfl

/-! ## What each operation can do -/

/-- `t'` is `t` with `[s, stop)` carved out of the row `e` and given the status `st`. -/
def Carved (t t' : Table) (e : Lib.Span Nat Status) (s stop : Nat) (st : Status) : Prop :=
  ∃ parts r, Lib.Span.Carves e s stop st parts ∧ t.spans.Perm (e :: r) ∧
    t'.spans.Perm (parts ++ r)

theorem Carved.apart {t t' : Table} {e : Lib.Span Nat Status} {s stop : Nat} {st : Status}
    (h : Carved t t' e s stop st) (ha : t.spans.Pairwise Lib.Span.Apart) :
    t'.spans.Pairwise Lib.Span.Apart := by
  obtain ⟨parts, r, hc, hp, hp'⟩ := h
  exact Lib.Span.pairwise_carve hc ha hp hp'

theorem Carved.pageStatus {t t' : Table} {e : Lib.Span Nat Status} {s stop : Nat} {st : Status}
    (h : Carved t t' e s stop st) (ha : t.spans.Pairwise Lib.Span.Apart) (p : Nat) :
    t'.pageStatus p =
      if s ≤ p * 0x1000 ∧ p * 0x1000 < stop then some st else t.pageStatus p := by
  obtain ⟨parts, r, hc, hp, hp'⟩ := h
  exact Lib.Span.lookup_carve hc ha hp hp' _

/-- A carve inside a row tracks the same pages as before. -/
theorem Carved.isSome_pageStatus {t t' : Table} {e : Lib.Span Nat Status} {s stop : Nat}
    {st : Status} (h : Carved t t' e s stop st) (ha : t.spans.Pairwise Lib.Span.Apart)
    (hlo : e.lo ≤ s) (hhi : stop ≤ e.hi) (p : Nat) :
    (t'.pageStatus p).isSome = (t.pageStatus p).isSome := by
  rw [h.pageStatus ha]
  split
  · rename_i hp
    have he : e ∈ t.spans := by
      obtain ⟨parts, r, -, hperm, -⟩ := h
      exact hperm.mem_iff.mpr (List.mem_cons_self ..)
    have hcov : e.Covers (p * 0x1000) := ⟨hlo.trans hp.1, lt_of_lt_of_le hp.2 hhi⟩
    rw [Table.pageStatus, Lib.Span.lookup_of_mem ha he hcov]
    rfl
  · rfl

/-- Some free row contains `[start, stop)`: the request that `ReserveRange` serves. -/
def Table.Fits (t : Table) (start stop : Nat) : Prop :=
  ∃ e ∈ t.spans, e.label = .free ∧ e.lo ≤ start ∧ stop ≤ e.hi

theorem Table.fits_iff {t : Table} (hok : ∀ e ∈ t.live, e.Ok) {start stop : Word64} :
    t.Fits start.toNat stop.toNat ↔
      ∃ i, i < t.memIndex.toNat ∧ reserveFits t start stop i = true := by
  constructor
  · rintro ⟨s, hs, hfree, hlo, hhi⟩
    obtain ⟨e, he, rfl⟩ := List.mem_map.mp hs
    obtain ⟨i, hi, rfl⟩ := List.mem_map.mp he
    exact ⟨i, List.mem_range.mp hi,
      reserveFits_iff.mpr ⟨(hok _ he).isFree_iff.mpr hfree, hlo, hhi⟩⟩
  · rintro ⟨i, hi, hfit⟩
    obtain ⟨hfree, hlo, hhi⟩ := reserveFits_iff.mp hfit
    have hmem := t.gMem_mem_live hi
    exact ⟨_, List.mem_map_of_mem hmem, (hok _ hmem).isFree_iff.mp hfree, hlo, hhi⟩

theorem Entry.span_lo_mod (e : Entry) : e.span.lo % 0x1000 = 0 := by
  rw [show e.span.lo = pageDown e.start.toNat from toNat_frameClearFlags _]
  exact pageDown_mod _

theorem lo_mod_of_mem_spans {t : Table} {s : Lib.Span Nat Status} (hs : s ∈ t.spans) :
    s.lo % 0x1000 = 0 := by
  obtain ⟨e, -, rfl⟩ := List.mem_map.mp hs
  exact e.span_lo_mod

/-- A row starts on a page boundary, so it covers the first address of every page it touches. -/
theorem covers_pageDown {t : Table} {s : Lib.Span Nat Status} (hs : s ∈ t.spans) {x : Nat}
    (hx : s.Covers x) : s.Covers (x / 0x1000 * 0x1000) := by
  have hlo := lo_mod_of_mem_spans hs
  obtain ⟨h1, h2⟩ := hx
  exact ⟨by omega, by omega⟩

/-- `AddRange` appends the pages wholly inside the range as one free row. -/
theorem spans_addRange {t : Table} (hn : t.memIndex.toNat < 255) {addr length : Word64}
    (haddr : addr.toNat + 0xfff < 2 ^ 64) (hwrap : addr.toNat + length.toNat < 2 ^ 64) :
    (addRange t addr length).spans =
      t.spans ++ [⟨pageUp addr.toNat, pageDown (addr.toNat + length.toNat), .free⟩] := by
  have hstart := toNat_align haddr
  have hstop : (alignFloor (addr + length) 0x1000).toNat = pageDown (addr.toNat + length.toNat) := by
    rw [toNat_alignFloor, BitVec.toNat_add, Nat.mod_eq_of_lt hwrap]
  have hs : (align addr 0x1000).toNat % 0x1000 = 0 := by rw [hstart]; exact pageUp_mod _
  have he : (alignFloor (addr + length) 0x1000).toNat % 0x1000 = 0 := by
    rw [hstop]
    exact pageDown_mod _
  unfold addRange
  rw [if_pos (by omega), Table.spans_push _ _ (by omega), ← hstart, ← hstop]
  exact congrArg (fun s => t.spans ++ [s]) (Entry.span_mk hs he .free)

theorem inv_addRange {t : Table} (hinv : t.Inv) (hn : t.memIndex.toNat < 255)
    {addr length : Word64} (haddr : addr.toNat + 0xfff < 2 ^ 64)
    (hwrap : addr.toNat + length.toNat < 2 ^ 64)
    (hnew : ∀ p, addr.toNat ≤ p * 0x1000 → p * 0x1000 + 0x1000 ≤ addr.toNat + length.toNat →
      t.pageStatus p = none) : (addRange t addr length).Inv where
  ok := by
    unfold addRange
    rw [if_pos (by omega)]
    have hs := toNat_align_mod addr
    have he := toNat_alignFloor_mod (addr + length)
    exact Table.forall_live_push hinv.ok (Entry.ok_mk hs he .free)
  apart := by
    rw [spans_addRange hn haddr hwrap, List.pairwise_append]
    refine ⟨hinv.apart, List.pairwise_singleton .., fun s hs u hu x hxs hxu => ?_⟩
    rw [List.mem_singleton] at hu
    subst hu
    -- a shared address would lie in a tracked page of the new range
    have hcov := covers_pageDown hs hxs
    have hfirst : pageUp addr.toNat ≤ x / 0x1000 * 0x1000 := by
      have hlo : pageUp addr.toNat ≤ x := hxu.1
      have haligned := pageUp_mod addr.toNat
      omega
    have hlast : x / 0x1000 * 0x1000 < pageDown (addr.toNat + length.toNat) :=
      lt_of_le_of_lt (Nat.div_mul_le_self _ _) hxu.2
    have hnone := hnew (x / 0x1000) (pageUp_le_iff.mp hfirst) (lt_pageDown_iff.mp hlast)
    exact Lib.Span.lookup_eq_none_iff.mp hnone s hs hcov

theorem pageStatus_addRange {t : Table} (hn : t.memIndex.toNat < 255) {addr length : Word64}
    (haddr : addr.toNat + 0xfff < 2 ^ 64) (hwrap : addr.toNat + length.toNat < 2 ^ 64)
    (hnew : ∀ p, addr.toNat ≤ p * 0x1000 → p * 0x1000 + 0x1000 ≤ addr.toNat + length.toNat →
      t.pageStatus p = none) (p : Nat) :
    (addRange t addr length).pageStatus p =
      if addr.toNat ≤ p * 0x1000 ∧ p * 0x1000 + 0x1000 ≤ addr.toNat + length.toNat
      then some .free else t.pageStatus p := by
  unfold Table.pageStatus
  rw [spans_addRange hn haddr hwrap, Lib.Span.lookup_append, Lib.Span.lookup_cons,
    Lib.Span.lookup_nil]
  simp only [Lib.Span.covers_iff, pageUp_le_iff, lt_pageDown_iff]
  split
  · rename_i hp
    have hnone := hnew p hp.1 hp.2
    unfold Table.pageStatus at hnone
    rw [hnone]
    rfl
  · simp

/-- Everything `Free` can do: the first row starting at the pointer becomes free. -/
theorem free_cases {t : Table} (hinv : t.Inv) (frame : Word32) :
    (∃ e ∈ t.spans, e.lo = (frame.signExtend 64).toNat ∧ (free t frame).Inv ∧
        Carved t (free t frame) e e.lo e.hi .free) ∨
      ((∀ e ∈ t.spans, e.lo ≠ (frame.signExtend 64).toNat) ∧ free t frame = t) := by
  unfold free
  cases hfind : (List.range t.memIndex.toNat).find?
      (fun i => frameClearFlags (t.gMem i).start == frame.signExtend 64) with
  | none =>
      refine Or.inr ⟨fun s hs heq => ?_, by simp only [hfind]⟩
      obtain ⟨e, he, rfl⟩ := List.mem_map.mp hs
      obtain ⟨i, hi, rfl⟩ := List.mem_map.mp he
      have hne := List.find?_eq_none.mp hfind i hi
      exact hne (by simpa using BitVec.eq_of_toNat_eq heq)
  | some i =>
      have hi : i < t.memIndex.toNat := List.mem_range.mp (List.mem_of_find?_eq_some hfind)
      have hloc : frameClearFlags (t.gMem i).start = frame.signExtend 64 := by
        simpa using List.find?_some hfind
      have hok := hinv.ok _ (t.gMem_mem_live hi)
      simp only [hfind, Table.setStart]
      -- relabelling a row is the carve that takes all of it
      have hcarved : Carved t (t.setEntry i ⟨frameClearFlags (t.gMem i).start ||| frameFree,
          (t.gMem i).stop⟩) (t.gMem i).span (t.gMem i).span.lo (t.gMem i).span.hi .free := by
        refine ⟨_, _, Lib.Span.carves_exact (t.gMem i).span .free, t.spans_perm hi, ?_⟩
        rw [Table.spans_setEntry, hok.span_setFree]
        exact List.set_perm_cons_eraseIdx (by simpa using hi) _
      exact Or.inl ⟨_, List.mem_map_of_mem (t.gMem_mem_live hi), congrArg BitVec.toNat hloc,
        ⟨Table.forall_live_setEntry hinv.ok i hok.setFree, hcarved.apart hinv.apart⟩, hcarved⟩

/-- Everything `Alloc` can do: fail, or hand out the start of the newest row that fits and reserve
the rounded size there. -/
theorem alloc_cases (t : Table) (maxAddr size type : Word64) :
    (∃ i, i < t.memIndex.toNat ∧ allocFind t maxAddr (align size 0x1000) = some i ∧
        allocFits t maxAddr (align size 0x1000) i = true ∧
        alloc t maxAddr size type = (allocStart t i,
          reserveRange t ((allocStart t i).setWidth 64) (align size 0x1000) type)) ∨
      (allocFind t maxAddr (align size 0x1000) = none ∧ alloc t maxAddr size type = (0, t)) := by
  unfold alloc
  cases hfind : allocFind t maxAddr (align size 0x1000) with
  | none => exact Or.inr ⟨rfl, by simp only [hfind]⟩
  | some i =>
      have hi : i < t.memIndex.toNat := by
        simpa using List.mem_of_find?_eq_some hfind
      exact Or.inl ⟨i, hi, rfl, List.find?_some hfind, by simp only [hfind]⟩

end Frame
end Loader
end ZineOS
