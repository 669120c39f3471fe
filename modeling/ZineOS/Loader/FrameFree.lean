import ZineOS.Loader.FrameCapacity

/-!
# What `Free` releases

`Free` looks for the first row that starts at the pointer and makes that row free.  A row that
`ReserveRange` set aside starts somewhere too, and so does a row without pages; nothing tells them
from a block that `Alloc` handed out.  The pointer is sign-extended on the way.

* `pageStatus_free` is the effect on the page map of any table.
* `free_exact_iff` says, for any history, when a call releases one live block or nothing.
* `free_returns_block_iff` is what is left of that condition in a run below 4 GB whose ranges are
  disjoint: the first row at the pointer must have a page.
-/

namespace ZineOS
namespace Loader
namespace Frame

open Lib

/-- The row that `Free` marks: the first one that starts at the pointer. -/
def freedRow (t : Table) (frame : Word32) : Option Nat :=
  (List.range t.memIndex.toNat).find? fun i =>
    frameClearFlags (t.gMem i).start == frame.signExtend 64

/-- The row that decides the status of page `q`. -/
def Table.rowOf (t : Table) (q : Nat) : Option Nat :=
  (List.range t.memIndex.toNat).find? fun i => (t.gMem i).span.Covers (q * 0x1000)

theorem Table.pageStatus_eq (t : Table) (q : Nat) :
    t.pageStatus q = (t.rowOf q).map fun i => (t.gMem i).status := by
  unfold pageStatus Span.lookup spans live rowOf
  rw [List.find?_map, List.find?_map, Option.map_map, Option.map_map]
  rfl

/-- Page `q` is a page of the first row that starts at the pointer. -/
def Releases (t : Table) (frame : Word32) (q : Nat) : Prop :=
  ∃ i, freedRow t frame = some i ∧ t.rowOf q = some i

instance (t : Table) (frame : Word32) (q : Nat) : Decidable (Releases t frame q) :=
  decidable_of_iff ((freedRow t frame).isSome ∧ freedRow t frame = t.rowOf q) (by
    unfold Releases
    cases freedRow t frame with
    | none => simp
    | some i => simp [eq_comm])

theorem free_of_none {t : Table} {frame : Word32} (h : freedRow t frame = none) :
    free t frame = t := by
  unfold free
  unfold freedRow at h
  simp only [h]

theorem free_of_some {t : Table} {frame : Word32} {i : Nat} (h : freedRow t frame = some i) :
    free t frame = t.setStart i (frameClearFlags (t.gMem i).start ||| frameFree) := by
  unfold free
  unfold freedRow at h
  simp only [h]

/-- The marked row covers what it covered before. -/
theorem span_free {t : Table} (hok : t.RowsOk) {frame : Word32} {i : Nat}
    (h : freedRow t frame = some i) (j : Nat) : ((free t frame).gMem j).span =
      if j = i then ⟨(t.gMem i).span.lo, (t.gMem i).span.hi, .free⟩ else (t.gMem j).span := by
  have hi : i < t.memIndex.toNat := List.mem_range.mp (List.mem_of_find?_eq_some h)
  rw [free_of_some h]
  show Entry.span (if j = i then _ else t.gMem j) = _
  split
  · exact (hok _ (t.gMem_mem_live hi)).span_setFree
  · rfl

/-- The rows of the pages stay the same. -/
theorem rowOf_free {t : Table} (hok : t.RowsOk) {frame : Word32} {i : Nat}
    (h : freedRow t frame = some i) (q : Nat) : (free t frame).rowOf q = t.rowOf q := by
  have hcovers : ∀ j, ((free t frame).gMem j).span.Covers (q * 0x1000) ↔
      (t.gMem j).span.Covers (q * 0x1000) := by
    intro j
    rw [span_free hok h]
    split
    · rename_i hji
      rw [hji]
      exact Iff.rfl
    · exact Iff.rfl
  have hcount : (free t frame).memIndex = t.memIndex := by
    rw [free_of_some h]
    rfl
  unfold Table.rowOf
  simp only [hcount, hcovers]

theorem status_free {t : Table} (hok : t.RowsOk) {frame : Word32} {i : Nat}
    (h : freedRow t frame = some i) (j : Nat) : ((free t frame).gMem j).status =
      if j = i then .free else (t.gMem j).status := by
  have hlabel := congrArg Span.label (span_free hok h j)
  rw [apply_ite Span.label] at hlabel
  exact hlabel

/-- `Free` makes the pages of that row free and keeps the status of every other page. -/
theorem pageStatus_free {t : Table} (hok : t.RowsOk) (frame : Word32) (q : Nat) :
    (free t frame).pageStatus q = if Releases t frame q then some .free else t.pageStatus q := by
  cases hfreed : freedRow t frame with
  | none =>
      have hnot : ¬ Releases t frame q := by
        rintro ⟨i, hi, -⟩
        rw [hfreed] at hi
        exact absurd hi (by simp)
      rw [free_of_none hfreed, if_neg hnot]
  | some i =>
      rw [Table.pageStatus_eq, Table.pageStatus_eq, rowOf_free hok hfreed]
      cases hq : t.rowOf q with
      | none =>
          have hnot : ¬ Releases t frame q := by
            rintro ⟨j, -, hj⟩
            rw [hq] at hj
            exact absurd hj (by simp)
          rw [if_neg hnot]
          rfl
      | some j =>
          have hiff : Releases t frame q ↔ j = i := by
            unfold Releases
            rw [hfreed, hq]
            simp [eq_comm]
          simp only [Option.map_some, status_free hok hfreed, hiff]
          split <;> rfl

/-! ## Live blocks -/

/-- Runs of any calls with documented types, with the history of the blocks that are out. -/
def historySystem : System Ledger Call :=
  System.ofCalls Ledger.start Ledger.run fun _ c => c.Typed

theorem rowsOk_of_history {g : Ledger} (h : historySystem.Reachable g) : g.table.RowsOk := by
  refine h.invariant (I := fun g => g.table.RowsOk) ?_ ?_
  · rintro s rfl
    exact inv_empty.ok
  · rintro s c s' - hs ⟨hc, rfl⟩
    rw [Ledger.table_run]
    exact hs.run hc

/-- `b` was handed out at `frame` with a nonzero size and has not been freed. -/
def LiveBlock (g : Ledger) (frame : Word32) (b : Range) : Prop :=
  b ∈ g.out ∧ b.1 < b.2 ∧ b.1 = frame.toNat

/-- Page `q` starts in the range. -/
def Range.HasPage (b : Range) (q : Nat) : Prop := b.1 ≤ q * 0x1000 ∧ q * 0x1000 < b.2

instance (b : Range) (q : Nat) : Decidable (b.HasPage q) := inferInstanceAs (Decidable (_ ∧ _))

/-- What a caller expects of `Free`: the pages of the live block at the pointer become free and
nothing else changes; without such a block nothing changes at all. -/
structure FreeExact (g : Ledger) (frame : Word32) : Prop where
  block : ∀ b, LiveBlock g frame b → ∀ q, (free g.table frame).pageStatus q =
    if b.HasPage q then some .free else g.table.pageStatus q
  other : (∀ b, ¬ LiveBlock g frame b) → ∀ q,
    (free g.table frame).pageStatus q = g.table.pageStatus q

/-- Of the pages that are not free, those of the first row that starts at the pointer are the pages
of the live block there; without such a block there are none. -/
structure RowIsBlock (g : Ledger) (frame : Word32) : Prop where
  block : ∀ b, LiveBlock g frame b → ∀ q, g.table.pageStatus q ≠ some .free →
    (Releases g.table frame q ↔ b.HasPage q)
  other : (∀ b, ¬ LiveBlock g frame b) → ∀ q, g.table.pageStatus q ≠ some .free →
    ¬ Releases g.table frame q

/-- **When `Free` releases exactly one live block.**  For any history and any pointer, the first row
that starts at the pointer must be the block. -/
theorem free_exact_iff {g : Ledger} (h : historySystem.Reachable g) (frame : Word32) :
    FreeExact g frame ↔ RowIsBlock g frame := by
  have heffect := pageStatus_free (rowsOk_of_history h) frame
  constructor
  · -- the status of a page that was not free shows whether the call touched it
    intro hexact
    constructor
    · intro b hb q hq
      have hpage := hexact.block b hb q
      rw [heffect] at hpage
      by_cases hrel : Releases g.table frame q
      · rw [if_pos hrel] at hpage
        refine iff_of_true hrel ?_
        by_contra hout
        rw [if_neg hout] at hpage
        exact hq hpage.symm
      · rw [if_neg hrel] at hpage
        refine iff_of_false hrel fun hin => ?_
        rw [if_pos hin] at hpage
        exact hq hpage
    · intro hnone q hq hrel
      have hpage := hexact.other hnone q
      rw [heffect, if_pos hrel] at hpage
      exact hq hpage.symm
  · intro hrow
    constructor
    · intro b hb q
      rw [heffect]
      by_cases hfree : g.table.pageStatus q = some .free
      · rw [hfree, ite_self, ite_self]
      · simp only [hrow.block b hb q hfree]
    · intro hnone q
      rw [heffect]
      by_cases hfree : g.table.pageStatus q = some .free
      · rw [hfree, ite_self]
      · rw [if_neg (hrow.other hnone q hfree)]

/-- A run of the given calls. -/
def Ledger.after (calls : List Call) : Ledger := calls.foldl Ledger.run Ledger.start

theorem Ledger.after_reachable {calls : List Call} (h : ∀ c ∈ calls, c.Typed) :
    historySystem.Reachable (Ledger.after calls) := by
  refine List.foldlRecOn (motive := fun g : Ledger => historySystem.Reachable g) calls _
    (.init rfl) ?_
  intro g hg c hc
  exact hg.call (h c hc)

/-- One block of a page is out. -/
def oneBlock : Ledger :=
  .after [.addRange 0x1000000 0x100000, .alloc frameNoLimit 0x1000 frameUsed]

theorem oneBlock_history : historySystem.Reachable oneBlock :=
  Ledger.after_reachable (by simp [Call.Typed, IsReserveType])

/-- The block's row is the only one with a page of the block. -/
theorem oneBlock_rowOf (q : Nat) :
    oneBlock.table.rowOf q = some 1 ↔ Range.HasPage (0x1000000, 0x1001000) q := by
  have hrange : List.range oneBlock.table.memIndex.toNat = [0, 1] := by decide +kernel
  have hrow0 : (oneBlock.table.gMem 0).span = ⟨0x1001000, 0x1100000, .free⟩ := by decide +kernel
  have hrow1 : (oneBlock.table.gMem 1).span = ⟨0x1000000, 0x1001000, .used⟩ := by decide +kernel
  have hcov0 : (oneBlock.table.gMem 0).span.Covers (q * 0x1000) ↔
      0x1001000 ≤ q * 0x1000 ∧ q * 0x1000 < 0x1100000 := by
    rw [hrow0]
    exact Iff.rfl
  have hcov1 : (oneBlock.table.gMem 1).span.Covers (q * 0x1000) ↔
      0x1000000 ≤ q * 0x1000 ∧ q * 0x1000 < 0x1001000 := by
    rw [hrow1]
    exact Iff.rfl
  unfold Table.rowOf Range.HasPage
  rw [hrange]
  by_cases h0 : (oneBlock.table.gMem 0).span.Covers (q * 0x1000)
  · rw [List.find?_cons_of_pos (by simpa using h0)]
    refine iff_of_false (by simp) fun hin => ?_
    have hstart := (hcov0.mp h0).1
    have hend : q * 0x1000 < 0x1001000 := hin.2
    omega
  · rw [List.find?_cons_of_neg (by simpa using h0)]
    by_cases h1 : (oneBlock.table.gMem 1).span.Covers (q * 0x1000)
    · rw [List.find?_cons_of_pos (by simpa using h1)]
      exact iff_of_true rfl (hcov1.mp h1)
    · rw [List.find?_cons_of_neg (by simpa using h1)]
      exact iff_of_false (by simp) fun hin => h1 (hcov1.mpr hin)

theorem oneBlock_free_exact : FreeExact oneBlock 0x1000000 := by
  have hout : oneBlock.out = [(0x1000000, 0x1001000)] := by decide +kernel
  have hfreed : freedRow oneBlock.table 0x1000000 = some 1 := by decide +kernel
  refine (free_exact_iff oneBlock_history 0x1000000).mpr ⟨?_, ?_⟩
  · rintro b ⟨hb, -, -⟩ q -
    rw [hout, List.mem_singleton] at hb
    rw [hb]
    unfold Releases
    rw [hfreed]
    simpa using oneBlock_rowOf q
  · intro hnone
    refine absurd ⟨?_, by decide, by decide⟩ (hnone (0x1000000, 0x1001000))
    rw [hout]
    exact List.mem_singleton_self _

/-- Page 0 is set aside and never handed out. -/
def pageZero : Ledger := .after [.addRange 0 0x10000, .reserveRange 0 0x1000 frameUsed]

/-- A row without pages, at the start of a block that is out. -/
def emptyRow : Ledger :=
  .after [.addRange 0x1000000 0x100000, .alloc frameNoLimit 0 frameUsed,
    .alloc frameNoLimit 0x1000 frameUsed]

/-- `Free` of the null pointer releases page 0, and a block behind an empty row stays used. -/
theorem free_not_exact :
    (historySystem.Reachable pageZero ∧ ¬ FreeExact pageZero 0) ∧
      historySystem.Reachable emptyRow ∧ LiveBlock emptyRow 0x1000000 (0x1000000, 0x1001000) ∧
        ¬ FreeExact emptyRow 0x1000000 := by
  have hzero : pageZero.out = [] := by decide +kernel
  have hout : emptyRow.out = [(0x1000000, 0x1001000), (0x1000000, 0x1000000)] := by
    decide +kernel
  have hlive : LiveBlock emptyRow 0x1000000 (0x1000000, 0x1001000) := by
    refine ⟨?_, by decide, by decide⟩
    rw [hout]
    exact List.mem_cons_self
  refine ⟨⟨Ledger.after_reachable (by simp [Call.Typed, IsReserveType]), fun hexact => ?_⟩,
    Ledger.after_reachable (by simp [Call.Typed, IsReserveType]), hlive, fun hexact => ?_⟩
  · have hnone : ∀ b, ¬ LiveBlock pageZero 0 b := by
      rintro b ⟨hb, -⟩
      rw [hzero] at hb
      exact absurd hb List.not_mem_nil
    have hpage := hexact.other hnone 0
    have hbefore : pageZero.table.pageStatus 0 = some .used := by decide +kernel
    have hafter : (free pageZero.table 0).pageStatus 0 = some .free := by decide +kernel
    rw [hbefore, hafter] at hpage
    exact absurd hpage (by decide)
  · have hpage := hexact.block _ hlive 0x1000
    have hafter : (free emptyRow.table 0x1000000).pageStatus 0x1000 = some .used := by
      decide +kernel
    rw [hafter, if_pos (by decide)] at hpage
    exact absurd hpage (by decide)

/-! ## Below 4 GB, on disjoint ranges -/

/-- A row that is in use and covers a page of a coherent table decides its status. -/
theorem Table.Inv.rowOf_eq {t : Table} (h : t.Inv) {i q : Nat} (hi : i < t.memIndex.toNat)
    (hcov : (t.gMem i).span.Covers (q * 0x1000)) : t.rowOf q = some i := by
  cases hrow : t.rowOf q with
  | none =>
      have hnot := List.find?_eq_none.mp hrow i (List.mem_range.mpr hi)
      exact absurd hcov (by simpa using hnot)
  | some j =>
      have hj : j < t.memIndex.toNat := List.mem_range.mp (List.mem_of_find?_eq_some hrow)
      have hcovj : (t.gMem j).span.Covers (q * 0x1000) := by simpa using List.find?_some hrow
      rw [h.row_unique hi hj hcov hcovj]

/-- In a coherent table the released pages are those of the row. -/
theorem releases_iff_covers {t : Table} (hinv : t.Inv) {frame : Word32} {i : Nat}
    (h : freedRow t frame = some i) (q : Nat) :
    Releases t frame q ↔ (t.gMem i).span.Covers (q * 0x1000) := by
  constructor
  · rintro ⟨j, hj, hq⟩
    obtain rfl := Option.some.inj (hj.symm.trans h)
    simpa using List.find?_some hq
  · intro hq
    have hi : i < t.memIndex.toNat := List.mem_range.mp (List.mem_of_find?_eq_some h)
    exact ⟨i, h, hinv.rowOf_eq hi hq⟩

/-- Below 4 GB the freed row starts at the pointer itself. -/
theorem Ledger.Inv.lo_freedRow {g : Ledger} (hg : g.Inv) {frame : Word32} {i : Nat}
    (h : freedRow g.table frame = some i) : (g.table.gMem i).span.lo = frame.toNat := by
  have hi : i < g.table.memIndex.toNat := List.mem_range.mp (List.mem_of_find?_eq_some h)
  have hloc : frameClearFlags (g.table.gMem i).start = frame.signExtend 64 := by
    simpa using List.find?_some h
  have hlo : (g.table.gMem i).span.lo = (frame.signExtend 64).toNat := congrArg BitVec.toNat hloc
  have hbound := (hg.bound _ (List.mem_map_of_mem (g.table.gMem_mem_live hi))).1
  rw [hlo] at hbound
  rw [hlo, toNat_signExtend_of_le hbound]

/-- In a run that only frees what it was given (`ledgerSystem`), `Free` returns a block that is out,
and nothing else, if and only if the first row at its pointer is not empty. -/
theorem free_returns_block_iff {g : Ledger} (h : ledgerSystem.Reachable g) {frame : Word32}
    {b : Range} (hb : b ∈ g.out) (hframe : b.1 = frame.toNat) :
    (∀ q, (free g.table frame).pageStatus q =
        if b.HasPage q then some .free else g.table.pageStatus q) ↔
      ∃ i, freedRow g.table frame = some i ∧
        (g.table.gMem i).span.lo < (g.table.gMem i).span.hi := by
  have hg := Ledger.inv_of_reachable h
  obtain ⟨hlt, s, hs, hlabel, hlo, hhi⟩ := hg.out b hb
  -- the block is one row, so its first page is tracked and not free
  have haligned : b.1 % 0x1000 = 0 := by
    have hmod := lo_mod_of_mem_spans hs
    rwa [hlo] at hmod
  have hfirst : b.HasPage (b.1 / 0x1000) := by
    constructor
    · omega
    · omega
  have hcovFirst : s.Covers (b.1 / 0x1000 * 0x1000) := by
    constructor
    · rw [hlo]
      exact hfirst.1
    · rw [hhi]
      exact hfirst.2
  have hused : g.table.pageStatus (b.1 / 0x1000) ≠ some .free := by
    rw [Table.pageStatus, Span.lookup_of_mem hg.table.apart hs hcovFirst]
    exact fun heq => hlabel (Option.some.inj heq)
  have heffect := pageStatus_free hg.table.ok frame
  constructor
  · intro hexact
    have hpage := hexact (b.1 / 0x1000)
    rw [heffect, if_pos hfirst] at hpage
    by_cases hrel : Releases g.table frame (b.1 / 0x1000)
    · obtain ⟨i, hfreed, hrow⟩ := hrel
      have hcov : (g.table.gMem i).span.Covers (b.1 / 0x1000 * 0x1000) := by
        simpa using List.find?_some hrow
      exact ⟨i, hfreed, lt_of_le_of_lt hcov.1 hcov.2⟩
    · rw [if_neg hrel] at hpage
      exact absurd hpage hused
  · rintro ⟨i, hfreed, hpages⟩
    have hi : i < g.table.memIndex.toNat :=
      List.mem_range.mp (List.mem_of_find?_eq_some hfreed)
    have hmem : (g.table.gMem i).span ∈ g.table.spans :=
      List.mem_map_of_mem (g.table.gMem_mem_live hi)
    have hstart := hg.lo_freedRow hfreed
    -- the row starts where the block's row starts, and has a page: it is that row
    have hcov : (g.table.gMem i).span.Covers (b.1 / 0x1000 * 0x1000) := by
      constructor
      · omega
      · omega
    have hrow := Span.eq_of_covers hg.table.apart hmem hs hcov hcovFirst
    intro q
    have hiff : Releases g.table frame q ↔ b.HasPage q := by
      rw [releases_iff_covers hg.table hfreed, hrow, Span.covers_iff, hlo, hhi]
      exact Iff.rfl
    rw [heffect]
    simp only [hiff]

end Frame
end Loader
end ZineOS
