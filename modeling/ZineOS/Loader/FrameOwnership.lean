import ZineOS.Loader.FrameRuns

/-!
# Who owns which frames

The ghost bookkeeping of a run below 4 GB: what was given to `AddRange`, which blocks `Alloc` has
handed out and not got back, and which ranges `ReserveRange` has retagged.  None of it is in the
source; `Ledger.Inv` ties it to the table: a block that is out and a range that was retagged are
each exactly one row that is not free.

The delicate call is `Free`, which looks a block up by its start address only.  Rows without pages
(an empty reservation, an `AddRange` inside one page) can have the same start as a block that is
out; if such a row comes first, `Free` marks it and the block's own row stays as it was.  The block
is then lost, but it is not handed out again.

`alloc_block_unowned` is the main result: a block that `Alloc` returns is memory nobody else has.
-/

namespace ZineOS
namespace Loader
namespace Frame

open Lib

/-! ## The arithmetic of `Alloc` -/

theorem toNat_allocStart (t : Table) (i : Nat) :
    (allocStart t i).toNat = (t.gMem i).span.lo % 2 ^ 32 := by
  unfold allocStart Entry.span
  rw [BitVec.toNat_setWidth]

theorem toNat_allocEnd (t : Table) (i : Nat) :
    (allocEnd t i).toNat = (t.gMem i).span.hi % 2 ^ 32 := by
  unfold allocEnd Entry.span
  rw [BitVec.toNat_setWidth]

/-- The test of `Alloc` in exact arithmetic, for a row whose start plus size does not wrap. -/
theorem allocFits_iff {t : Table} {i : Nat} (hok : (t.gMem i).Ok) {maxAddr size : Word64}
    (hwrap : (allocStart t i).toNat + size.toNat < 2 ^ 64) :
    allocFits t maxAddr size i = true ↔ (t.gMem i).status = .free ∧
      (allocStart t i).toNat + size.toNat ≤ maxAddr.toNat ∧
      (allocStart t i).toNat + size.toNat ≤ (allocEnd t i).toNat := by
  have hneed : ((allocStart t i).setWidth 64 + size).toNat =
      (allocStart t i).toNat + size.toNat := by
    have hlt := (allocStart t i).isLt
    rw [BitVec.toNat_add, BitVec.toNat_setWidth, Nat.mod_eq_of_lt (a := (allocStart t i).toNat)
      (by omega), Nat.mod_eq_of_lt hwrap]
  have hend : ((allocEnd t i).setWidth 64).toNat = (allocEnd t i).toNat := by
    have hlt := (allocEnd t i).isLt
    rw [BitVec.toNat_setWidth, Nat.mod_eq_of_lt (by omega)]
  have hflag : (((t.gMem i).start &&& frameFlags).setWidth 32 &&& 1 == (1 : Word32)) = true ↔
      (t.gMem i).status = .free := by
    rw [hok.flag]
    cases (t.gMem i).status <;> decide
  unfold allocFits
  simp only [Bool.and_eq_true, decide_eq_true_eq, BitVec.le_def, hneed, hend, hflag, and_assoc]

/-- A pointer that names an address below 4 GB after sign extension names that very address. -/
theorem toNat_signExtend_of_le {p : Word32} (h : (p.signExtend 64).toNat ≤ 2 ^ 32) :
    (p.signExtend 64).toNat = p.toNat := by
  have hlt := p.isLt
  rw [BitVec.toNat_signExtend, BitVec.toNat_setWidth] at h ⊢
  split at h
  · omega
  · rename_i hmsb
    rw [if_neg hmsb, Nat.add_zero, Nat.mod_eq_of_lt (by omega)]

namespace Carved

variable {t t' : Table} {e : Span Nat Status} {s stop : Nat} {st : Status}

theorem piece_mem (h : Carved t t' e s stop st) : ⟨s, stop, st⟩ ∈ t'.spans := by
  obtain ⟨parts, r, hc, -, hp'⟩ := h
  exact hp'.mem_iff.mpr (List.mem_append_left _ hc.piece)

theorem mem_of_ne (h : Carved t t' e s stop st) {u : Span Nat Status} (hu : u ∈ t.spans)
    (hne : u ≠ e) : u ∈ t'.spans := by
  obtain ⟨parts, r, -, hp, hp'⟩ := h
  exact Span.mem_carve_of_ne hp hp' hu hne

theorem bounds (h : Carved t t' e s stop st) {b : Nat} (hb : ∀ u ∈ t.spans, u.lo ≤ b ∧ u.hi ≤ b) :
    ∀ u ∈ t'.spans, u.lo ≤ b ∧ u.hi ≤ b := by
  obtain ⟨parts, r, hc, hp, hp'⟩ := h
  exact Span.bounds_carve hc hp hp' hb

end Carved

/-! ## The ledger -/

/-- A half-open address range `[lo, hi)`. -/
abbrev Range := Nat × Nat

/-- Two ranges without a common address. -/
def Range.Disjoint (a b : Range) : Prop := ∀ x, a.1 ≤ x → x < a.2 → b.1 ≤ x → ¬ x < b.2

theorem Range.Disjoint.symm {a b : Range} (h : Range.Disjoint a b) : Range.Disjoint b a :=
  fun x h1 h2 h3 h4 => h x h3 h4 h1 h2

/-- The table and the history of the run it came from. -/
structure Ledger where
  table : Table
  /-- the `(addr, length)` that `AddRange` was given -/
  given : List (Nat × Nat)
  /-- the blocks `Alloc` returned that were not freed since -/
  out : List Range
  /-- the ranges `ReserveRange` has retagged -/
  reserved : List Range

/-- The block a successful `Alloc(_, size, _)` hands out at `p`. -/
def block (p : Word32) (size : Word64) : Range := (p.toNat, p.toNat + pageUp size.toNat)

def Ledger.start : Ledger := ⟨empty, [], [], []⟩

instance (t : Table) (start stop : Nat) : Decidable (t.Fits start stop) :=
  inferInstanceAs (Decidable (∃ e ∈ t.spans, _))

/-- A call and what it does to the history. -/
def Ledger.run (g : Ledger) (c : Call) : Ledger :=
  let g' := { g with table := c.run g.table }
  match c with
  | .addRange addr length =>
      { g' with given := (addr.toNat, length.toNat) :: g.given }
  | .reserveRange addr length _ =>
      let range := (pageDown addr.toNat, pageUp (addr.toNat + length.toNat))
      if g.table.Fits range.1 range.2 then { g' with reserved := range :: g.reserved } else g'
  | .alloc maxAddr size type =>
      let p := (Frame.alloc g.table maxAddr size type).1
      if p = 0 then g' else { g' with out := block p size :: g.out }
  | .free frame => { g' with out := g.out.filter fun b => b.1 ≠ frame.toNat }

@[simp] theorem Ledger.table_run (g : Ledger) (c : Call) : (g.run c).table = c.run g.table := by
  cases c with
  | addRange addr length => rfl
  | reserveRange addr length type =>
      unfold Ledger.run
      dsimp only
      split <;> rfl
  | alloc maxAddr size type =>
      unfold Ledger.run
      dsimp only
      split <;> rfl
  | free frame => rfl

/-- The calls of a run below 4 GB that frees only what it was given, made while `mem_index` is at most
253, so that there are rows for what they add. -/
def Ledger.Allowed (g : Ledger) (c : Call) : Prop :=
  g.table.memIndex.toNat ≤ 253 ∧ match c with
  | .addRange addr length => addr.toNat + length.toNat ≤ 2 ^ 32 ∧
      ∀ r ∈ g.given, ∀ p, Inside addr.toNat length.toNat p → ¬ Inside r.1 r.2 p
  | .reserveRange addr length type =>
      addr.toNat + length.toNat + 0xfff < 2 ^ 64 ∧ IsReserveType type
  | .alloc _ size type => 0 < size.toNat ∧ size.toNat ≤ 2 ^ 32 ∧ IsReserveType type
  | .free frame => ∃ b ∈ g.out, b.1 = frame.toNat

def ledgerSystem : System Ledger Call :=
  System.ofCalls Ledger.start Ledger.run Ledger.Allowed

/-- What ties the history to the table. -/
structure Ledger.Inv (g : Ledger) : Prop where
  table : g.table.Inv
  bound : ∀ s ∈ g.table.spans, s.lo ≤ 2 ^ 32 ∧ s.hi ≤ 2 ^ 32
  tracked : ∀ p, (g.table.pageStatus p).isSome → ∃ r ∈ g.given, Inside r.1 r.2 p
  out : ∀ b ∈ g.out, b.1 < b.2 ∧ ∃ s ∈ g.table.spans, s.label ≠ .free ∧ s.lo = b.1 ∧ s.hi = b.2
  reserved : ∀ r ∈ g.reserved, r.1 < r.2 →
    ∃ s ∈ g.table.spans, s.label ≠ .free ∧ s.lo = r.1 ∧ s.hi = r.2
  apart : ∀ b ∈ g.out, ∀ r ∈ g.reserved, Range.Disjoint b r

/-- A row in use that is not free shares no address with a piece of a free row. -/
theorem Table.Inv.disjoint_of_free {t : Table} (h : t.Inv) {e u : Span Nat Status}
    (he : e ∈ t.spans) (hu : u ∈ t.spans) (hfree : e.label = .free) (hne : u.label ≠ .free)
    {s stop : Nat} (hlo : e.lo ≤ s) (hhi : stop ≤ e.hi) :
    Range.Disjoint (s, stop) (u.lo, u.hi) := by
  intro x h1 h2 h3 h4
  have hux : u.Covers x := ⟨h3, h4⟩
  have hex : e.Covers x := ⟨hlo.trans h1, lt_of_lt_of_le h2 hhi⟩
  have heq := Span.eq_of_covers h.apart he hu hex hux
  exact hne (heq ▸ hfree)

/-- Carving a free row keeps the ledger's invariant. -/
theorem Ledger.Inv.carve {g : Ledger} (hg : g.Inv) {t' : Table} {e : Span Nat Status}
    {s stop : Nat} {st : Status} (hfree : e.label = .free) (hlo : e.lo ≤ s) (hhi : stop ≤ e.hi)
    (hinv : t'.Inv) (hc : Carved g.table t' e s stop st) : { g with table := t' }.Inv where
  table := hinv
  bound := hc.bounds hg.bound
  tracked := by
    intro p hp
    exact hg.tracked p (by rwa [hc.isSome_pageStatus hg.table.apart hlo hhi] at hp)
  out := by
    intro b hb
    obtain ⟨hne, u, hu, hlabel, hends⟩ := hg.out b hb
    exact ⟨hne, u, hc.mem_of_ne hu fun heq => hlabel (heq ▸ hfree), hlabel, hends⟩
  reserved := by
    intro r hr hlt
    obtain ⟨u, hu, hlabel, hends⟩ := hg.reserved r hr hlt
    exact ⟨u, hc.mem_of_ne hu fun heq => hlabel (heq ▸ hfree), hlabel, hends⟩
  apart := hg.apart

/-- A piece of a free row is disjoint from every block that is out and every retagged range. -/
theorem Ledger.Inv.piece_unowned {g : Ledger} (hg : g.Inv) {e : Span Nat Status}
    (he : e ∈ g.table.spans) (hfree : e.label = .free) {s stop : Nat} (hlo : e.lo ≤ s)
    (hhi : stop ≤ e.hi) :
    (∀ b ∈ g.out, Range.Disjoint (s, stop) b) ∧ ∀ r ∈ g.reserved, Range.Disjoint (s, stop) r := by
  constructor
  · rintro ⟨b1, b2⟩ hb
    obtain ⟨-, u, hu, hlabel, hends⟩ := hg.out _ hb
    simp only at hends
    rw [← hends.1, ← hends.2]
    exact hg.table.disjoint_of_free he hu hfree hlabel hlo hhi
  · rintro ⟨r1, r2⟩ hr x h1 h2 h3 h4
    obtain ⟨u, hu, hlabel, hends⟩ := hg.reserved _ hr (lt_of_le_of_lt h3 h4)
    simp only at hends
    rw [← hends.1] at h3
    rw [← hends.2] at h4
    exact hg.table.disjoint_of_free he hu hfree hlabel hlo hhi x h1 h2 h3 h4

/-- `Alloc`'s own test says that the row it chose serves the request, unless the start it hands out
is null.  The end is cut to 32 bits, which can only make the test stricter. -/
theorem span_of_allocFits {t : Table} {i : Nat} (hok : (t.gMem i).Ok) {maxAddr size : Word64}
    (hsize : (allocStart t i).toNat + size.toNat < 2 ^ 64) (hlo : (t.gMem i).span.lo ≤ 2 ^ 32)
    (hne : (allocStart t i).toNat ≠ 0) (hfit : allocFits t maxAddr size i = true) :
    (t.gMem i).span.label = .free ∧ (t.gMem i).span.lo = (allocStart t i).toNat ∧
      (allocStart t i).toNat + size.toNat ≤ (t.gMem i).span.hi ∧
      (allocStart t i).toNat + size.toNat ≤ maxAddr.toNat := by
  obtain ⟨hfree, hmax, hend⟩ := (allocFits_iff hok hsize).mp hfit
  have hstart := toNat_allocStart t i
  have hstop := toNat_allocEnd t i
  refine ⟨hfree, ?_, ?_, hmax⟩
  · rcases Nat.lt_or_eq_of_le hlo with hlt | heq
    · rw [hstart, Nat.mod_eq_of_lt hlt]
    · rw [heq, Nat.mod_self] at hstart
      exact absurd hstart hne
  · have hmod := Nat.mod_le (t.gMem i).span.hi (2 ^ 32)
    omega

/-- What a nonzero result of `Alloc` means below 4 GB: the block is a piece of a free row, and it is
carved out of the table. -/
theorem Ledger.Inv.alloc_ne_zero {g : Ledger} (hg : g.Inv) (hn : g.table.memIndex.toNat ≤ 253)
    {maxAddr size : Word64} (hsize : size.toNat ≤ 2 ^ 32) (st : Status)
    {p : Word32} {t' : Table} (halloc : Frame.alloc g.table maxAddr size st.flag = (p, t'))
    (hp : p ≠ 0) :
    ∃ e ∈ g.table.spans, e.label = .free ∧ e.lo ≤ p.toNat ∧
      p.toNat + pageUp size.toNat ≤ e.hi ∧ p.toNat + pageUp size.toNat ≤ maxAddr.toNat ∧
      t'.Inv ∧ Carved g.table t' e p.toNat (p.toNat + pageUp size.toNat) st := by
  rcases alloc_cases g.table maxAddr size st.flag with ⟨i, hi, hfind, hfit, heq⟩ | ⟨-, heq⟩
  · rw [heq, Prod.mk.injEq] at halloc
    obtain ⟨rfl, rfl⟩ := halloc
    have hmem := g.table.gMem_mem_live hi
    have hspan : (g.table.gMem i).span ∈ g.table.spans := List.mem_map_of_mem hmem
    have hneNat : (allocStart g.table i).toNat ≠ 0 := fun h0 => hp (BitVec.eq_of_toNat_eq h0)
    have hrounded : (align size 0x1000).toNat = pageUp size.toNat := toNat_align (by omega)
    have hstartLt := (allocStart g.table i).isLt
    have hup : pageUp size.toNat ≤ 2 ^ 32 := by
      unfold pageUp
      omega
    have hle := le_pageUp size.toNat
    have hwrap : (allocStart g.table i).toNat + (align size 0x1000).toNat < 2 ^ 64 := by omega
    have hlo := (hg.bound _ hspan).1
    obtain ⟨hfree, hstart, hend, hmax⟩ := span_of_allocFits (hg.table.ok _ hmem) hwrap hlo
      hneNat hfit
    -- the nested `ReserveRange` gets a page-aligned request inside that row
    have hwide : ((allocStart g.table i).setWidth 64).toNat = (allocStart g.table i).toNat := by
      rw [BitVec.toNat_setWidth, Nat.mod_eq_of_lt (by omega)]
    have haligned : (allocStart g.table i).toNat % 0x1000 = 0 := by
      rw [← hstart, show (g.table.gMem i).span.lo = _ from toNat_frameClearFlags _]
      exact pageDown_mod _
    have hdown : pageDown ((allocStart g.table i).setWidth 64).toNat =
        (allocStart g.table i).toNat := by
      rw [hwide]
      exact pageDown_of_mod haligned
    have hupReq : pageUp (((allocStart g.table i).setWidth 64).toNat + (align size 0x1000).toNat) =
        (allocStart g.table i).toNat + pageUp size.toNat := by
      have hmod := pageUp_mod size.toNat
      rw [hwide, hrounded]
      exact pageUp_of_mod (by omega)
    have hreq := alloc_request_noWrap hwrap
    rcases reserveRange_cases hg.table hn hreq st with ⟨e, he, hlabel, h1, h2, hinv, hc⟩ | ⟨hno, -⟩
    · rw [hdown] at h1 hc
      rw [hupReq] at h2 hc
      exact ⟨e, he, hlabel, h1, h2, by omega, hinv, hc⟩
    · refine absurd ⟨_, hspan, hfree, ?_, ?_⟩ hno
      · rw [hdown, hstart]
      · rw [hupReq]
        omega
  · rw [heq, Prod.mk.injEq] at halloc
    exact absurd halloc.1.symm hp

/-- A failed `Alloc` may still retag a row, but never one that is not free. -/
theorem Ledger.Inv.alloc_zero {g : Ledger} (hg : g.Inv) (hn : g.table.memIndex.toNat ≤ 253)
    {maxAddr size : Word64} (hsize : size.toNat ≤ 2 ^ 32) (st : Status) :
    { g with table := (Frame.alloc g.table maxAddr size st.flag).2 }.Inv := by
  rcases alloc_cases g.table maxAddr size st.flag with ⟨i, hi, hfind, hfit, heq⟩ | ⟨-, heq⟩
  · rw [heq]
    have hrounded : (align size 0x1000).toNat = pageUp size.toNat := toNat_align (by omega)
    have hstartLt := (allocStart g.table i).isLt
    have hwrap : (allocStart g.table i).toNat + (align size 0x1000).toNat < 2 ^ 64 := by
      rw [hrounded]
      unfold pageUp
      omega
    rcases reserveRange_cases hg.table hn (alloc_request_noWrap hwrap) st with
      ⟨e, -, hlabel, hlo, hhi, hinv, hc⟩ | ⟨-, hsame⟩
    · exact hg.carve hlabel hlo hhi hinv hc
    · simp only [hsame]
      exact hg
  · rw [heq]
    exact hg

/-! ## One call keeps the ledger -/

/-- `AddRange` appends a free row below the bound. -/
theorem Ledger.Inv.addRange {g : Ledger} (hg : g.Inv) {addr length : Word64}
    (hn : g.table.memIndex.toNat ≤ 253) (hend : addr.toNat + length.toNat ≤ 2 ^ 32)
    (hnew : ∀ r ∈ g.given, ∀ p, Inside addr.toNat length.toNat p → ¬ Inside r.1 r.2 p) :
    (g.run (.addRange addr length)).Inv := by
  have haddr : addr.toNat + 0xfff < 2 ^ 64 := by omega
  have hwrap : addr.toNat + length.toNat < 2 ^ 64 := by omega
  have huntracked : ∀ p, addr.toNat ≤ p * 0x1000 →
      p * 0x1000 + 0x1000 ≤ addr.toNat + length.toNat → g.table.pageStatus p = none := by
    intro p h1 h2
    by_contra hsome
    obtain ⟨r, hr, hin⟩ := hg.tracked p (Option.isSome_iff_ne_none.mpr hsome)
    exact hnew r hr p ⟨h1, h2⟩ hin
  have hroom : g.table.memIndex.toNat < 255 := by omega
  have hspans := spans_addRange hroom haddr hwrap
  -- the rows that were there stay, so every block and every retagged range keeps its row
  have hkeep : ∀ s ∈ g.table.spans, s ∈ (Frame.addRange g.table addr length).spans := by
    intro s hs
    rw [hspans]
    exact List.mem_append_left _ hs
  refine ⟨inv_addRange hg.table hroom haddr hwrap huntracked, ?_, ?_, ?_, ?_, hg.apart⟩
  · intro s hs
    simp only [Ledger.run, Call.run] at hs
    rw [hspans] at hs
    rcases List.mem_append.mp hs with hold | hadded
    · exact hg.bound s hold
    · rw [List.mem_singleton] at hadded
      subst hadded
      have hdown := pageDown_le (addr.toNat + length.toNat)
      refine ⟨?_, hdown.trans hend⟩
      simp only [pageUp]
      omega
  · intro p hp
    simp only [Ledger.run, Call.run] at hp ⊢
    rw [pageStatus_addRange (by omega) haddr hwrap huntracked] at hp
    split at hp
    · rename_i hin
      exact ⟨_, List.mem_cons_self .., hin⟩
    · obtain ⟨r, hr, hin⟩ := hg.tracked p hp
      exact ⟨r, List.mem_cons_of_mem _ hr, hin⟩
  · intro b hb
    obtain ⟨hne, u, hu, hlabel, hends⟩ := hg.out b hb
    exact ⟨hne, u, hkeep u hu, hlabel, hends⟩
  · intro r hr hlt
    obtain ⟨u, hu, hlabel, hends⟩ := hg.reserved r hr hlt
    exact ⟨u, hkeep u hu, hlabel, hends⟩

/-- `ReserveRange` retags a piece of a free row, which nobody owned. -/
theorem Ledger.Inv.reserveRange {g : Ledger} (hg : g.Inv) {addr length : Word64}
    (hn : g.table.memIndex.toNat ≤ 253) (hwrap : addr.toNat + length.toNat + 0xfff < 2 ^ 64)
    {st : Status} (hst : st ≠ .free) : (g.run (.reserveRange addr length st.flag)).Inv := by
  rcases reserveRange_cases hg.table hn hwrap st with ⟨e, he, hfree, hlo, hhi, hinv, hc⟩ | ⟨hno, heq⟩
  · have hfits : g.table.Fits (pageDown addr.toNat) (pageUp (addr.toNat + length.toNat)) :=
      ⟨e, he, hfree, hlo, hhi⟩
    have hcarved := hg.carve hfree hlo hhi hinv hc
    simp only [Ledger.run, Call.run, if_pos hfits]
    refine ⟨hcarved.table, hcarved.bound, hcarved.tracked, hcarved.out, ?_, ?_⟩
    · intro r hr hlt
      rcases List.mem_cons.mp hr with rfl | hold
      · exact ⟨_, hc.piece_mem, hst, rfl, rfl⟩
      · exact hcarved.reserved r hold hlt
    · intro b hb r hr
      rcases List.mem_cons.mp hr with rfl | hold
      · exact ((hg.piece_unowned he hfree hlo hhi).1 b hb).symm
      · exact hg.apart b hb r hold
  · simp only [Ledger.run, Call.run, if_neg hno, heq]
    exact hg

/-- `Alloc` hands out a piece of a free row, which nobody owned. -/
theorem Ledger.Inv.alloc {g : Ledger} (hg : g.Inv) {maxAddr size : Word64}
    (hn : g.table.memIndex.toNat ≤ 253) (hpos : 0 < size.toNat) (hsize : size.toNat ≤ 2 ^ 32)
    {st : Status} (hst : st ≠ .free) : (g.run (.alloc maxAddr size st.flag)).Inv := by
  have hzero : { g with table := (Frame.alloc g.table maxAddr size st.flag).2 }.Inv :=
    hg.alloc_zero hn hsize st
  cases halloc : Frame.alloc g.table maxAddr size st.flag with
  | mk p t' =>
      simp only [Ledger.run, Call.run, halloc] at hzero ⊢
      by_cases hp : p = 0
      · rw [if_pos hp]
        exact hzero
      rw [if_neg hp]
      -- the new block is a piece of a free row, which no owner has
      obtain ⟨e, he, hfree, hlo, hhi, -, -, hc⟩ := hg.alloc_ne_zero hn hsize st halloc hp
      refine ⟨hzero.table, hzero.bound, hzero.tracked, ?_, hzero.reserved, ?_⟩
      · intro b hb
        rcases List.mem_cons.mp hb with rfl | hold
        · have hup := le_pageUp size.toNat
          refine ⟨?_, _, hc.piece_mem, hst, rfl, rfl⟩
          simp only [block]
          omega
        · exact hzero.out b hold
      · intro b hb r hr
        rcases List.mem_cons.mp hb with rfl | hold
        · exact (hg.piece_unowned he hfree hlo hhi).2 r hr
        · exact hg.apart b hold r hr

/-- `Free` of a block that is out marks at most that block's row. -/
theorem Ledger.Inv.free {g : Ledger} (hg : g.Inv) {frame : Word32} {b : Range} (hb : b ∈ g.out)
    (hstart : b.1 = frame.toNat) : (g.run (.free frame)).Inv := by
  have hstill : ∀ c ∈ g.out.filter (fun b => b.1 ≠ frame.toNat), c ∈ g.out ∧ c.1 ≠ frame.toNat := by
    intro c hc
    simpa using List.mem_filter.mp hc
  rcases free_cases hg.table frame with ⟨e, he, hlo, hinv, hc⟩ | ⟨-, heq⟩
  · have hloNat : e.lo = frame.toNat := by
      have hbound := (hg.bound e he).1
      rw [hlo] at hbound ⊢
      exact toNat_signExtend_of_le hbound
    simp only [Ledger.run, Call.run]
    refine ⟨hinv, hc.bounds hg.bound, ?_, ?_, ?_, ?_⟩
    · intro p hp
      exact hg.tracked p (by rwa [hc.isSome_pageStatus hg.table.apart le_rfl le_rfl] at hp)
    · intro c hcOut
      obtain ⟨hold, hne⟩ := hstill c hcOut
      obtain ⟨hlt, u, hu, hlabel, hends⟩ := hg.out c hold
      refine ⟨hlt, u, hc.mem_of_ne hu ?_, hlabel, hends⟩
      rintro rfl
      exact hne (hends.1.symm.trans hloNat)
    · intro r hr hlt
      obtain ⟨u, hu, hlabel, hends⟩ := hg.reserved r hr hlt
      refine ⟨u, hc.mem_of_ne hu ?_, hlabel, hends⟩
      rintro rfl
      -- a retagged range with pages does not start where a block that is out starts
      have hsame : r.1 = b.1 := by rw [← hends.1, hloNat, hstart]
      have hbne := (hg.out b hb).1
      exact hg.apart b hb r hr b.1 le_rfl hbne hsame.le (hsame ▸ hlt)
    · intro c hcOut r hr
      exact hg.apart c (hstill c hcOut).1 r hr
  · simp only [Ledger.run, Call.run, heq]
    exact ⟨hg.table, hg.bound, hg.tracked, fun c hcOut => hg.out c (hstill c hcOut).1,
      hg.reserved, fun c hcOut => hg.apart c (hstill c hcOut).1⟩

theorem Ledger.inv_start : Ledger.start.Inv where
  table := inv_empty
  bound := by simp [Ledger.start, Table.spans, Table.live, empty]
  tracked := by
    intro p hp
    exact absurd hp (by simp [Ledger.start, Table.pageStatus, Table.spans, Table.live, empty])
  out := by simp [Ledger.start]
  reserved := by simp [Ledger.start]
  apart := by simp [Ledger.start]

theorem Ledger.Inv.run {g : Ledger} (hg : g.Inv) {c : Call} (hc : g.Allowed c) :
    (g.run c).Inv := by
  cases c with
  | addRange addr length => exact hg.addRange hc.1 hc.2.1 hc.2.2
  | reserveRange addr length type =>
      obtain ⟨hn, hwrap, htype⟩ := hc
      obtain ⟨st, hst, rfl⟩ := htype.exists_status
      exact hg.reserveRange hn hwrap hst
  | alloc maxAddr size type =>
      obtain ⟨hn, hpos, hsize, htype⟩ := hc
      obtain ⟨st, hst, rfl⟩ := htype.exists_status
      exact hg.alloc hn hpos hsize hst
  | free frame =>
      obtain ⟨-, b, hb, hstart⟩ := hc
      exact hg.free hb hstart

theorem Ledger.inv_of_reachable {g : Ledger} (h : ledgerSystem.Reachable g) : g.Inv := by
  refine h.invariant (I := Ledger.Inv) ?_ ?_
  · rintro s rfl
    exact Ledger.inv_start
  · rintro s c s' - hs ⟨hc, rfl⟩
    exact hs.run hc

/-- Every page of a row with pages was given to `AddRange`. -/
theorem Ledger.Inv.given_of_covers {g : Ledger} (hg : g.Inv) {e : Span Nat Status}
    (he : e ∈ g.table.spans) {x : Nat} (hx : e.Covers x) :
    ∃ r ∈ g.given, r.1 ≤ x ∧ x < r.1 + r.2 := by
  have hpage := covers_pageDown he hx
  have htracked : (g.table.pageStatus (x / 0x1000)).isSome := by
    rw [Table.pageStatus, Span.isSome_lookup_iff]
    exact ⟨e, he, hpage⟩
  obtain ⟨r, hr, hin⟩ := hg.tracked _ htracked
  obtain ⟨h1, h2⟩ := hin
  exact ⟨r, hr, by omega, by omega⟩

/-- **A block that `Alloc` returns is memory nobody else has.**  In every run below 4 GB that frees
only what it was handed, the block of a nonzero result ends at or below `max_addr`, lies inside the
memory given to `AddRange`, and shares no address with a block that is still out or with a range
that `ReserveRange` has retagged. -/
theorem alloc_block_unowned {g : Ledger} (h : ledgerSystem.Reachable g)
    {maxAddr size type : Word64} (hc : g.Allowed (.alloc maxAddr size type)) {p : Word32}
    {t' : Table} (halloc : Frame.alloc g.table maxAddr size type = (p, t')) (hp : p ≠ 0) :
    (block p size).2 ≤ maxAddr.toNat ∧
    (∀ x, (block p size).1 ≤ x → x < (block p size).2 → ∃ r ∈ g.given, r.1 ≤ x ∧ x < r.1 + r.2) ∧
    (∀ b ∈ g.out, Range.Disjoint (block p size) b) ∧
    (∀ r ∈ g.reserved, Range.Disjoint (block p size) r) := by
  have hg := Ledger.inv_of_reachable h
  obtain ⟨hn, hpos, hsize, htype⟩ := hc
  obtain ⟨st, -, rfl⟩ := htype.exists_status
  obtain ⟨e, he, hfree, hlo, hhi, hmax, -, -⟩ := hg.alloc_ne_zero hn hsize st halloc hp
  refine ⟨hmax, fun x h1 h2 => ?_, hg.piece_unowned he hfree hlo hhi⟩
  exact hg.given_of_covers he ⟨hlo.trans h1, lt_of_lt_of_le h2 hhi⟩

/-- One megabyte at 16 MB with its second page retagged and its third page handed out. -/
def twoOwners : Ledger :=
  ((Ledger.start.run (.addRange 0x1000000 0x100000)).run
    (.reserveRange 0x1001000 0x1000 frameUsed)).run (.alloc frameNoLimit 0x1000 frameUsed)

theorem twoOwners_reachable : ledgerSystem.Reachable twoOwners := by
  refine .call (.call (.call (.init rfl) ⟨by decide, by decide, by simp [Ledger.start]⟩) ?_) ?_
  · exact ⟨by decide, by decide, Or.inl rfl⟩
  · exact ⟨by decide, by decide, by decide, Or.inl rfl⟩

theorem twoOwners_block_unowned :
    (Frame.alloc twoOwners.table frameNoLimit 0x2000 frameUsed).1 = 0x1003000 ∧
      ∀ b ∈ twoOwners.out, Range.Disjoint (block 0x1003000 0x2000) b := by
  have hp : (Frame.alloc twoOwners.table frameNoLimit 0x2000 frameUsed).1 = 0x1003000 := by decide
  have hc : twoOwners.Allowed (.alloc frameNoLimit 0x2000 frameUsed) :=
    ⟨by decide, by decide, by decide, Or.inl rfl⟩
  have h := alloc_block_unowned twoOwners_reachable hc (Prod.ext hp rfl) (by decide)
  exact ⟨hp, h.2.2.1⟩

end Frame
end Loader
end ZineOS
