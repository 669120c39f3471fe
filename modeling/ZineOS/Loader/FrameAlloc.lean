import ZineOS.Loader.FrameOwnership

/-!
# What a result of `Alloc` means

`Alloc` scans rows of 64-bit addresses with locals of 32 bits, and it rounds and adds 64-bit sizes
without a check.  Below 4 GB and for sizes that the sums can hold, a nonzero result is a block of
free memory (`Ledger.Inv.alloc_ne_zero`).  This module says exactly how far that goes:

* `alloc_serves_iff`: memory anywhere in the 64-bit space, sizes up to 4 GB;
* `alloc_exact_iff`: memory below 4 GB, any size.
-/

namespace ZineOS
namespace Loader
namespace Frame

open Lib

/-- The pages of the block at `p`. -/
def InBlock (p : Word32) (size : Word64) (page : Nat) : Prop :=
  (block p size).1 ≤ page * 0x1000 ∧ page * 0x1000 < (block p size).2

instance (p : Word32) (size : Word64) (page : Nat) : Decidable (InBlock p size page) :=
  inferInstanceAs (Decidable (_ ∧ _))

/-- A block with a size has a page, the one at its start. -/
theorem inBlock_first {p : Word32} {size : Word64} (hp : p.toNat % 0x1000 = 0)
    (hsize : 0 < size.toNat) : InBlock p size (p.toNat / 0x1000) := by
  have hup := le_pageUp size.toNat
  unfold InBlock block
  constructor
  · show p.toNat ≤ _
    omega
  · show _ < p.toNat + pageUp size.toNat
    omega

/-! ## Any memory map -/

/-- A free row, not at address 0, that has room for the rounded size below `maxAddr`. -/
def RowHasRoom (maxAddr size : Word64) (e : Span Nat Status) : Prop :=
  e.label = .free ∧ e.lo ≠ 0 ∧ e.lo + pageUp size.toNat ≤ e.hi ∧
    e.lo + pageUp size.toNat ≤ maxAddr.toNat

instance (maxAddr size : Word64) (e : Span Nat Status) : Decidable (RowHasRoom maxAddr size e) :=
  inferInstanceAs (Decidable (_ ∧ _))

/-- Some row below 4 GB has room. -/
def HasRoom (t : Table) (maxAddr size : Word64) : Prop :=
  ∃ e ∈ t.spans, RowHasRoom maxAddr size e ∧ e.hi ≤ 2 ^ 32

instance (t : Table) (maxAddr size : Word64) : Decidable (HasRoom t maxAddr size) :=
  inferInstanceAs (Decidable (∃ e ∈ t.spans, _))

/-- What a caller of `Alloc` expects: a nonzero result is a block of free pages below `maxAddr` that
have the asked status afterwards, and there is a result when there is room. -/
structure Serves (t : Table) (maxAddr size : Word64) (st : Status) : Prop where
  taken : ∀ p t', alloc t maxAddr size st.flag = (p, t') → p ≠ 0 →
    (∀ page, InBlock p size page → t.pageStatus page = some .free ∧ t'.pageStatus page = some st) ∧
      p.toNat + pageUp size.toNat ≤ maxAddr.toNat
  found : HasRoom t maxAddr size → (alloc t maxAddr size st.flag).1 ≠ 0

/-- The row that the scan stops at is what the 32-bit locals take it for: its start cut to 32 bits
is not 0, and a free row has the block that begins there.  If the cut start is 0, no row has room.
If the scan stops at no row, there is no room in a row that ends at 4 GB exactly: the end of such a
row is cut to 0. -/
def ScanIsRight (t : Table) (maxAddr size : Word64) : Prop :=
  match allocFind t maxAddr (align size 0x1000) with
  | some i =>
      let start := (t.gMem i).span.lo % 2 ^ 32
      if start = 0 then ¬ HasRoom t maxAddr size else t.Fits start (start + pageUp size.toNat)
  | none => ∀ e ∈ t.spans, e.hi = 2 ^ 32 → ¬ RowHasRoom maxAddr size e

instance (t : Table) (maxAddr size : Word64) : Decidable (ScanIsRight t maxAddr size) := by
  unfold ScanIsRight
  split
  · infer_instance
  · infer_instance

/-- The scan sees a row below 4 GB with room, unless the row's end is cut to 0. -/
theorem allocFind_ne_none {t : Table} (hinv : t.Inv) {maxAddr size : Word64}
    (hsize : size.toNat ≤ 2 ^ 32) {e : Span Nat Status} (he : e ∈ t.spans)
    (hroom : RowHasRoom maxAddr size e) (hhi : e.hi < 2 ^ 32) :
    allocFind t maxAddr (align size 0x1000) ≠ none := by
  intro hnone
  obtain ⟨row, hrow, rfl⟩ := List.mem_map.mp he
  obtain ⟨i, hi, rfl⟩ := List.mem_map.mp hrow
  obtain ⟨hfree, -, hend, hmax⟩ := hroom
  have hrounded : (align size 0x1000).toNat = pageUp size.toNat := toNat_align (by omega)
  have hstart : (allocStart t i).toNat = (t.gMem i).span.lo := by
    rw [toNat_allocStart, Nat.mod_eq_of_lt (by omega)]
  have hstop : (allocEnd t i).toNat = (t.gMem i).span.hi := by
    rw [toNat_allocEnd, Nat.mod_eq_of_lt hhi]
  have hfits : allocFits t maxAddr (align size 0x1000) i = true := by
    rw [allocFits_iff (hinv.ok _ hrow) (by omega), hstart, hstop, hrounded]
    exact ⟨hfree, hmax, hend⟩
  have hmem : i ∈ (List.range t.memIndex.toNat).reverse := List.mem_reverse.mpr hi
  exact List.find?_eq_none.mp hnone i hmem hfits

/-- A null result is what the caller expects when nothing has room. -/
theorem serves_null_iff {t : Table} {maxAddr size : Word64} {st : Status}
    (hnull : (alloc t maxAddr size st.flag).1 = 0) :
    Serves t maxAddr size st ↔ ¬ HasRoom t maxAddr size := by
  constructor
  · exact fun hserves hroom => hserves.found hroom hnull
  · intro hnone
    refine ⟨fun p t' hres hp => ?_, fun hroom => absurd hroom hnone⟩
    rw [hres] at hnull
    exact absurd hnull hp

/-- What `Alloc` does at the row it found, when the start plus the rounded size does not wrap. -/
theorem alloc_at {t : Table} (hinv : t.Inv) (hn : t.memIndex.toNat ≤ 253) {maxAddr size : Word64}
    {i : Nat} (hi : i < t.memIndex.toNat) (hfit : allocFits t maxAddr (align size 0x1000) i = true)
    (hsize : size.toNat + 0xfff < 2 ^ 64)
    (hwrap : (allocStart t i).toNat + pageUp size.toNat < 2 ^ 64) (st : Status) :
    (t.gMem i).status = .free ∧
      (allocStart t i).toNat + pageUp size.toNat ≤ maxAddr.toNat ∧
      (allocStart t i).toNat + pageUp size.toNat ≤ (t.gMem i).span.hi ∧
      ((∃ e ∈ t.spans, e.label = .free ∧ e.lo ≤ (allocStart t i).toNat ∧
          (allocStart t i).toNat + pageUp size.toNat ≤ e.hi ∧
          (reserveRange t ((allocStart t i).setWidth 64) (align size 0x1000) st.flag).Inv ∧
          Carved t (reserveRange t ((allocStart t i).setWidth 64) (align size 0x1000) st.flag) e
            (allocStart t i).toNat ((allocStart t i).toNat + pageUp size.toNat) st) ∨
        (¬ t.Fits (allocStart t i).toNat ((allocStart t i).toNat + pageUp size.toNat) ∧
          reserveRange t ((allocStart t i).setWidth 64) (align size 0x1000) st.flag = t)) := by
  have hrounded : (align size 0x1000).toNat = pageUp size.toNat := toNat_align hsize
  have hlt := (allocStart t i).isLt
  have hwide : ((allocStart t i).setWidth 64).toNat = (allocStart t i).toNat := by
    rw [BitVec.toNat_setWidth, Nat.mod_eq_of_lt (by omega)]
  have hmod := toNat_allocStart_mod t i
  have hupMod := pageUp_mod size.toNat
  obtain ⟨hfree, hmax, hend⟩ := (allocFits_iff (hinv.ok _ (t.gMem_mem_live hi))
    (by rw [hrounded]; exact hwrap)).mp hfit
  rw [hrounded] at hmax hend
  have hcut : (allocEnd t i).toNat ≤ (t.gMem i).span.hi := by
    rw [toNat_allocEnd]
    exact Nat.mod_le _ _
  have hsum : (allocStart t i).toNat + (align size 0x1000).toNat < 2 ^ 64 := by
    rw [hrounded]
    exact hwrap
  have hreq := alloc_request_noWrap hsum
  have hcases := reserveRange_cases hinv hn hreq st
  -- the nested request is page aligned already
  rw [hwide, hrounded, pageDown_of_mod hmod, pageUp_of_mod (by omega)] at hcases
  exact ⟨hfree, hmax, hend.trans hcut, hcases⟩

/-- **When `Alloc` serves a request from any memory map.**  The scan must have stopped at a row that
is what its 32-bit locals take it for. -/
theorem alloc_serves_iff {t : Table} (h : frameSystem.Reachable t) (hn : t.memIndex.toNat ≤ 253)
    (maxAddr : Word64) {size : Word64} (hpos : 0 < size.toNat) (hsize : size.toNat ≤ 2 ^ 32)
    {st : Status} (hst : st ≠ .free) :
    Serves t maxAddr size st ↔ ScanIsRight t maxAddr size := by
  have hinv := inv_of_reachable h
  unfold ScanIsRight
  rcases alloc_cases t maxAddr size st.flag with ⟨i, hi, hfind, hfit, heq⟩ | ⟨hfind, heq⟩
  · rw [hfind]
    simp only [← toNat_allocStart]
    by_cases hzero : (allocStart t i).toNat = 0
    · -- the result cannot be told from a failure
      rw [if_pos hzero]
      apply serves_null_iff
      rw [heq]
      exact BitVec.eq_of_toNat_eq hzero
    · rw [if_neg hzero]
      have hne : allocStart t i ≠ 0 := fun h0 => hzero (by rw [h0]; rfl)
      have hlt := (allocStart t i).isLt
      have hup : pageUp size.toNat ≤ 2 ^ 32 := by
        unfold pageUp
        omega
      obtain ⟨-, hmax, -, hcases⟩ := alloc_at hinv hn hi hfit (by omega) (by omega) st
      constructor
      · -- an unchanged table still calls the first page of the block free
        intro hserves
        rcases hcases with ⟨e, he, hfree, hlo, hhi, -, -⟩ | ⟨-, hsame⟩
        · exact ⟨e, he, hfree, hlo, hhi⟩
        · have hfirst := inBlock_first (toNat_allocStart_mod t i) hpos
          obtain ⟨hbefore, hafter⟩ := (hserves.taken _ _ heq hne).1 _ hfirst
          rw [hsame, hbefore] at hafter
          exact absurd (Option.some.inj hafter).symm hst
      · intro hfits
        refine ⟨?_, fun _ => by rw [heq]; exact hne⟩
        intro p t' hres hp
        rw [heq, Prod.mk.injEq] at hres
        obtain ⟨rfl, rfl⟩ := hres
        rcases hcases with ⟨e, he, hfree, hlo, hhi, -, hcarved⟩ | ⟨hno, -⟩
        · refine ⟨fun page hpage => ⟨?_, ?_⟩, hmax⟩
          · have hcov : e.Covers (page * 0x1000) :=
              ⟨hlo.trans hpage.1, lt_of_lt_of_le hpage.2 hhi⟩
            rw [Table.pageStatus, Span.lookup_of_mem hinv.apart he hcov, hfree]
          · rw [hcarved.pageStatus hinv.apart]
            exact if_pos hpage
        · exact absurd hfits hno
  · rw [hfind, serves_null_iff (by rw [heq])]
    constructor
    · intro hnone e he hend hroom
      exact hnone ⟨e, he, hroom, hend.le⟩
    · rintro hend ⟨e, he, hroom, hhi⟩
      -- the scan sees every row but one whose end is cut to 0
      rcases Nat.lt_or_eq_of_le hhi with hlt | htop
      · exact allocFind_ne_none hinv hsize he hroom hlt hfind
      · exact hend e he htop hroom

theorem oneRange_serves : Serves oneRange frameNoLimit 0x1800 .used :=
  (alloc_serves_iff oneRange_reachable (by decide) frameNoLimit (by decide) (by decide)
    (by decide)).mpr (by decide +kernel)

/-- One megabyte at 4 GB + 2 MB. -/
def highRange : Table := addRange empty 0x100200000 0x100000

theorem highRange_reachable : frameSystem.Reachable highRange := by
  refine System.Reachable.call (a := Call.addRange 0x100200000 0x100000) (.init rfl) ?_
  exact ⟨by decide, ⟨by decide, by decide⟩, fun p _ => rfl⟩

/-- `Alloc` hands out the page at 2 MB, which is not memory at all. -/
theorem highRange_handed_out :
    frameSystem.Reachable highRange ∧ (alloc highRange frameNoLimit 0x1000 frameUsed).1 = 0x200000 ∧
      highRange.pageStatus 0x200 = none ∧ ¬ Serves highRange frameNoLimit 0x1000 .used := by
  have hres : (alloc highRange frameNoLimit 0x1000 frameUsed).1 = 0x200000 := by decide +kernel
  have huntracked : highRange.pageStatus 0x200 = none := by decide +kernel
  refine ⟨highRange_reachable, hres, huntracked, fun hserves => ?_⟩
  have htaken := hserves.taken _ _ (Prod.ext hres rfl) (by decide)
  have hpage := (htaken.1 0x200 (by decide)).1
  rw [huntracked] at hpage
  exact absurd hpage (by simp)

/-! ## Any size -/

/-- In exact integers, the start of the row that the scan stops at plus the rounded size is below
`2^64`, unless that start is 0. -/
def SumsFit (t : Table) (maxAddr size : Word64) : Prop :=
  ∀ i, allocFind t maxAddr (align size 0x1000) = some i →
    allocStart t i = 0 ∨ (allocStart t i).toNat + pageUp size.toNat < 2 ^ 64

/-- The calls of a run below 4 GB, in which `Alloc` may be asked for any size whose sums fit. -/
def Call.AllowedLow (t : Table) (c : Call) : Prop :=
  t.memIndex.toNat ≤ 253 ∧ match c with
  | .addRange addr length => addr.toNat + length.toNat ≤ 2 ^ 32 ∧
      ∀ p, Inside addr.toNat length.toNat p → t.pageStatus p = none
  | .reserveRange addr length type =>
      addr.toNat + length.toNat + 0xfff < 2 ^ 64 ∧ IsReserveType type
  | .alloc maxAddr size type => SumsFit t maxAddr size ∧ IsReserveType type
  | .free _ => True

def lowSystem : System Table Call := System.ofCalls empty Call.run Call.AllowedLow

/-- The invariant of the table below 4 GB. -/
structure Table.LowInv (t : Table) : Prop where
  inv : t.Inv
  bound : ∀ s ∈ t.spans, s.lo ≤ 2 ^ 32 ∧ s.hi ≤ 2 ^ 32

/-- `Alloc` as its result, when the sums fit: it changes nothing, or it carves a free row. -/
theorem alloc_of_sumsFit {t : Table} (hinv : t.Inv) (hn : t.memIndex.toNat ≤ 253)
    {maxAddr size : Word64} (hfits : SumsFit t maxAddr size) (st : Status) :
    ((alloc t maxAddr size st.flag).1 ≠ 0 →
      (alloc t maxAddr size st.flag).1.toNat + pageUp size.toNat ≤ maxAddr.toNat ∧
      ∃ e ∈ t.spans, e.label = .free ∧
        (alloc t maxAddr size st.flag).1.toNat + pageUp size.toNat ≤ e.hi) ∧
    ((alloc t maxAddr size st.flag).2 = t ∨ ∃ e ∈ t.spans, ∃ lo hi, e.label = .free ∧ e.lo ≤ lo ∧
      hi ≤ e.hi ∧ (alloc t maxAddr size st.flag).2.Inv ∧
      Carved t (alloc t maxAddr size st.flag).2 e lo hi st) := by
  rcases alloc_cases t maxAddr size st.flag with ⟨i, hi, hfind, hfit, heq⟩ | ⟨-, heq⟩
  · rw [heq]
    rcases hfits i hfind with hzero | hsum
    · refine ⟨fun hne => absurd hzero hne, ?_⟩
      -- the nested request is `[0, size)`
      have hmod := toNat_align_mod size
      have hlt := (align size 0x1000).isLt
      have hreq : ((allocStart t i).setWidth 64).toNat + (align size 0x1000).toNat + 0xfff <
          2 ^ 64 := by
        rw [hzero]
        show 0 + (align size 0x1000).toNat + 0xfff < 2 ^ 64
        omega
      rcases reserveRange_cases hinv hn hreq st with ⟨e, he, hfree, hlo, hhi, hinv', hc⟩ | ⟨-, hsame⟩
      · exact Or.inr ⟨e, he, _, _, hfree, hlo, hhi, hinv', hc⟩
      · exact Or.inl hsame
    · have hupMod := pageUp_mod size.toNat
      have hle := le_pageUp size.toNat
      obtain ⟨hstatus, hmax, hend, hcases⟩ := alloc_at hinv hn hi hfit (by omega) hsum st
      constructor
      · exact fun _ => ⟨hmax, _, List.mem_map_of_mem (t.gMem_mem_live hi), hstatus, hend⟩
      · rcases hcases with ⟨e, he, hfree, hlo, hhi, hinv', hc⟩ | ⟨-, hsame⟩
        · exact Or.inr ⟨e, he, _, _, hfree, hlo, hhi, hinv', hc⟩
        · exact Or.inl hsame
  · rw [heq]
    exact ⟨fun hne => absurd rfl hne, Or.inl rfl⟩

theorem Table.LowInv.run {t : Table} (h : t.LowInv) {c : Call} (hc : c.AllowedLow t) :
    (c.run t).LowInv := by
  obtain ⟨hn, hargs⟩ := hc
  cases c with
  | addRange addr length =>
      obtain ⟨hend, hnew⟩ := hargs
      have haddr : addr.toNat + 0xfff < 2 ^ 64 := by omega
      have hwrap : addr.toNat + length.toNat < 2 ^ 64 := by omega
      refine ⟨inv_addRange h.inv (by omega) haddr hwrap fun p h1 h2 => hnew p ⟨h1, h2⟩, ?_⟩
      intro s hs
      simp only [Call.run] at hs
      rw [spans_addRange (by omega) haddr hwrap, List.mem_append, List.mem_singleton] at hs
      rcases hs with hold | rfl
      · exact h.bound s hold
      · constructor
        · show pageUp addr.toNat ≤ 2 ^ 32
          unfold pageUp
          omega
        · exact (pageDown_le _).trans hend
  | reserveRange addr length type =>
      obtain ⟨hwrap, htype⟩ := hargs
      obtain ⟨st, -, rfl⟩ := htype.exists_status
      rcases reserveRange_cases h.inv hn hwrap st with ⟨e, -, -, -, -, hinv, hc⟩ | ⟨-, hsame⟩
      · exact ⟨hinv, hc.bounds h.bound⟩
      · simp only [Call.run, hsame]
        exact h
  | alloc maxAddr size type =>
      obtain ⟨hfits, htype⟩ := hargs
      obtain ⟨st, -, rfl⟩ := htype.exists_status
      rcases (alloc_of_sumsFit h.inv hn hfits st).2 with hsame | ⟨e, -, _, _, -, -, -, hinv, hc⟩
      · simp only [Call.run, hsame]
        exact h
      · exact ⟨hinv, hc.bounds h.bound⟩
  | free frame =>
      rcases free_cases h.inv frame with ⟨e, -, -, hinv, hc⟩ | ⟨-, hsame⟩
      · exact ⟨hinv, hc.bounds h.bound⟩
      · simp only [Call.run, hsame]
        exact h

theorem lowInv_of_reachable {t : Table} (h : lowSystem.Reachable t) : t.LowInv := by
  refine h.invariant (I := Table.LowInv) ?_ ?_
  · rintro s rfl
    exact ⟨inv_empty, by simp [Table.spans, Table.live, empty]⟩
  · rintro s c s' - hs ⟨hc, rfl⟩
    exact hs.run hc

/-- A nonzero result is exact in integers, and the table stays a partition of the tracked pages. -/
structure ExactAlloc (t : Table) (maxAddr size : Word64) (st : Status) : Prop where
  inside : (alloc t maxAddr size st.flag).1 ≠ 0 →
    (alloc t maxAddr size st.flag).1.toNat + pageUp size.toNat ≤ maxAddr.toNat ∧
    ∃ e ∈ t.spans, e.label = .free ∧
      (alloc t maxAddr size st.flag).1.toNat + pageUp size.toNat ≤ e.hi
  inv : (alloc t maxAddr size st.flag).2.Inv
  tracked : ∀ p, ((alloc t maxAddr size st.flag).2.pageStatus p).isSome = (t.pageStatus p).isSome

/-- **When the sums of `Alloc` are exact.**  In a run below 4 GB whose requests all fit, a request is
served exactly if and only if its own sums fit. -/
theorem alloc_exact_iff {t : Table} (h : lowSystem.Reachable t) (hn : t.memIndex.toNat ≤ 253)
    (maxAddr size : Word64) (st : Status) :
    ExactAlloc t maxAddr size st ↔ SumsFit t maxAddr size := by
  have hlow := lowInv_of_reachable h
  constructor
  · intro hexact i hfind
    by_cases hzero : allocStart t i = 0
    · exact Or.inl hzero
    · -- a result that fits below `max_addr` cannot have wrapped
      right
      have hp : (alloc t maxAddr size st.flag).1 = allocStart t i := by
        unfold alloc
        simp only [hfind]
      have hmax := (hexact.inside (by rw [hp]; exact hzero)).1
      rw [hp] at hmax
      have hlt := maxAddr.isLt
      omega
  · intro hfits
    obtain ⟨hinside, htable⟩ := alloc_of_sumsFit hlow.inv hn hfits st
    refine ⟨hinside, ?_, ?_⟩
    · rcases htable with hsame | ⟨e, -, lo, hi, -, -, -, hinv, -⟩
      · rw [hsame]
        exact hlow.inv
      · exact hinv
    · intro p
      rcases htable with hsame | ⟨e, -, lo, hi, -, hlo, hhi, -, hc⟩
      · rw [hsame]
      · exact hc.isSome_pageStatus hlow.inv.apart hlo hhi p

theorem oneRange_reachable_low : lowSystem.Reachable oneRange := by
  refine System.Reachable.call (a := Call.addRange 0x1000000 0x100000) (.init rfl) ?_
  exact ⟨by decide, by decide, fun p _ => rfl⟩

theorem oneRange_exact : ExactAlloc oneRange frameSub4GB 0x100001 .used := by
  refine (alloc_exact_iff oneRange_reachable_low (by decide) frameSub4GB 0x100001 .used).mpr ?_
  have hnone : allocFind oneRange frameSub4GB (align 0x100001 0x1000) = none := by decide +kernel
  intro i hi
  rw [hnone] at hi
  exact absurd hi (by simp)

/-- A size of `2^64 - 4096` wraps behind the start of the row: `Alloc` returns the row's start. -/
theorem huge_size_handed_out :
    lowSystem.Reachable oneRange ∧
      (alloc oneRange frameSub4GB 0xFFFFFFFFFFFFF000 frameUsed).1 = 0x1000000 ∧
      ¬ ExactAlloc oneRange frameSub4GB 0xFFFFFFFFFFFFF000 .used := by
  have hres : (alloc oneRange frameSub4GB 0xFFFFFFFFFFFFF000 frameUsed).1 = 0x1000000 := by
    decide +kernel
  refine ⟨oneRange_reachable_low, hres, fun hexact => ?_⟩
  have hresUsed : (alloc oneRange frameSub4GB 0xFFFFFFFFFFFFF000 Status.used.flag).1 =
      0x1000000 := hres
  have hmax := (hexact.inside (by rw [hresUsed]; decide)).1
  rw [hresUsed] at hmax
  exact absurd hmax (by decide)

end Frame
end Loader
end ZineOS
