import ZineOS.Loader.FrameFree

/-!
# The accounts of the free pages

Every page that `AddRange` was given is free, out with a caller, or set aside.  Two calls can break
this, both by a visible accident of the source: an `Alloc` that finds page 0 free answers with the
null pointer after it has retagged the pages, so that nobody owns them; and a `Free` whose pointer is
also the start of a row without pages marks that row instead of the block's.

* `free_accounted`: where neither happens, the free pages are exactly the given pages that are
  neither out nor set aside, along every run below 4 GB; no page is lost and none is counted twice.
* `alloc_free_alloc`: a freed block is what the next `Alloc` of the same request returns, and the
  table, `mem_index` included, is the one that was there before: such a cycle uses up no rows.
-/

namespace ZineOS
namespace Loader
namespace Frame

open Lib

/-- A page that was given to `AddRange`, is in no block that is out and in no range set aside. -/
def Ledger.Unowned (g : Ledger) (q : Nat) : Prop :=
  (∃ r ∈ g.given, Inside r.1 r.2 q) ∧ (∀ b ∈ g.out, ¬ Range.HasPage b q) ∧
    ∀ r ∈ g.reserved, ¬ Range.HasPage r q

/-- The first row that starts at the pointer has pages. -/
def FreesPages (t : Table) (frame : Word32) : Prop :=
  ∃ i, freedRow t frame = some i ∧ (t.gMem i).span.lo < (t.gMem i).span.hi

/-- A call that loses no memory: `Alloc` does not find page 0 free, and `Free` does not meet a row
without pages. -/
def Ledger.LosesNothing (g : Ledger) : Call → Prop
  | .addRange _ _ => True
  | .reserveRange _ _ _ => True
  | .alloc _ _ _ => g.table.pageStatus 0 ≠ some .free
  | .free frame => FreesPages g.table frame

/-- Runs below 4 GB all of whose calls lose nothing. -/
def accountedSystem : System Ledger Call :=
  ledgerSystem.restrict fun g c _ => g.LosesNothing c

/-- The free pages are the pages nobody owns. -/
structure Ledger.Accounted (g : Ledger) : Prop where
  inv : g.Inv
  free_iff : ∀ q, g.table.pageStatus q = some .free ↔ g.Unowned q

/-! ## One call keeps the accounts -/

/-- A carve under a status other than free takes exactly its pages from the free ones. -/
theorem Carved.free_iff {t t' : Table} {e : Span Nat Status} {s stop : Nat} {st : Status}
    (h : Carved t t' e s stop st) (ha : t.spans.Pairwise Span.Apart) (hst : st ≠ .free) (q : Nat) :
    t'.pageStatus q = some .free ↔
      t.pageStatus q = some .free ∧ ¬ Range.HasPage (s, stop) q := by
  rw [h.pageStatus ha]
  show (if Range.HasPage (s, stop) q then some st else t.pageStatus q) = _ ↔ _
  split
  · rename_i hin
    refine iff_of_false (fun heq => hst (Option.some.inj heq)) fun hboth => hboth.2 hin
  · rename_i hout
    exact ⟨fun heq => ⟨heq, hout⟩, fun hboth => hboth.1⟩

/-- A page of a block that is out, or of a range set aside, is tracked. -/
theorem Ledger.Inv.given_of_hasPage {g : Ledger} (hg : g.Inv) {q : Nat}
    (h : (∃ b ∈ g.out, Range.HasPage b q) ∨ ∃ r ∈ g.reserved, Range.HasPage r q) :
    ∃ r ∈ g.given, Inside r.1 r.2 q := by
  have hrow : ∃ s ∈ g.table.spans, s.Covers (q * 0x1000) := by
    rcases h with ⟨b, hb, hpage⟩ | ⟨r, hr, hpage⟩
    · obtain ⟨-, s, hs, -, hlo, hhi⟩ := hg.out b hb
      exact ⟨s, hs, by rw [hlo]; exact hpage.1, by rw [hhi]; exact hpage.2⟩
    · obtain ⟨s, hs, -, hlo, hhi⟩ := hg.reserved r hr (lt_of_le_of_lt hpage.1 hpage.2)
      exact ⟨s, hs, by rw [hlo]; exact hpage.1, by rw [hhi]; exact hpage.2⟩
  refine hg.tracked q ?_
  rw [Table.pageStatus, Span.isSome_lookup_iff]
  exact hrow

/-- The pages that `AddRange` adds are new, so nobody owns them. -/
theorem Ledger.Accounted.addRange {g : Ledger} (hg : g.Accounted) {addr length : Word64}
    (hc : g.Allowed (.addRange addr length)) : (g.run (.addRange addr length)).Accounted := by
  refine ⟨hg.inv.run hc, fun q => ?_⟩
  obtain ⟨hn, hend, hnew⟩ := hc
  have huntracked : ∀ p, addr.toNat ≤ p * 0x1000 →
      p * 0x1000 + 0x1000 ≤ addr.toNat + length.toNat → g.table.pageStatus p = none := by
    intro p h1 h2
    by_contra hsome
    obtain ⟨r, hr, hin⟩ := hg.inv.tracked p (Option.isSome_iff_ne_none.mpr hsome)
    exact hnew r hr p ⟨h1, h2⟩ hin
  have hpage : (Frame.addRange g.table addr length).pageStatus q =
      if Inside addr.toNat length.toNat q then some .free else g.table.pageStatus q :=
    pageStatus_addRange (by omega) (by omega) (by omega) huntracked q
  simp only [Ledger.run, Call.run, Ledger.Unowned]
  rw [hpage]
  by_cases hin : Inside addr.toNat length.toNat q
  · rw [if_pos hin]
    have hown : ∀ r ∈ g.given, ¬ Inside r.1 r.2 q := fun r hr => hnew r hr q hin
    refine iff_of_true rfl ⟨⟨_, List.mem_cons_self .., hin⟩, fun b hb hbq => ?_, fun r hr hrq => ?_⟩
    · obtain ⟨r, hr, hrq⟩ := hg.inv.given_of_hasPage (Or.inl ⟨b, hb, hbq⟩)
      exact hown r hr hrq
    · obtain ⟨r, hr, hrq⟩ := hg.inv.given_of_hasPage (Or.inr ⟨r, hr, hrq⟩)
      exact hown r hr hrq
  · rw [if_neg hin, hg.free_iff]
    simp only [Ledger.Unowned, List.mem_cons, exists_eq_or_imp, hin, false_or]

/-- `ReserveRange` takes the pages of the range from the free ones, or changes nothing. -/
theorem Ledger.Accounted.reserveRange {g : Ledger} (hg : g.Accounted) {addr length : Word64}
    {st : Status} (hst : st ≠ .free) (hc : g.Allowed (.reserveRange addr length st.flag)) :
    (g.run (.reserveRange addr length st.flag)).Accounted := by
  refine ⟨hg.inv.run hc, fun q => ?_⟩
  obtain ⟨hn, hwrap, -⟩ := hc
  rcases reserveRange_cases hg.inv.table hn hwrap st with
    ⟨e, he, hfree, hlo, hhi, -, hcut⟩ | ⟨hno, heq⟩
  · have hfits : g.table.Fits (pageDown addr.toNat) (pageUp (addr.toNat + length.toNat)) :=
      ⟨e, he, hfree, hlo, hhi⟩
    simp only [Ledger.run, Call.run, if_pos hfits]
    rw [hcut.free_iff hg.inv.table.apart hst, hg.free_iff]
    simp only [Ledger.Unowned, List.forall_mem_cons]
    tauto
  · simp only [Ledger.run, Call.run, if_neg hno, heq]
    exact hg.free_iff q

/-- A row that serves a request at the null pointer has page 0. -/
theorem not_fits_zero {t : Table} (hinv : t.Inv) (hzero : t.pageStatus 0 ≠ some .free) (stop : Nat)
    (hpos : 0 < stop) : ¬ t.Fits 0 stop := by
  rintro ⟨e, he, hfree, hlo, hhi⟩
  refine hzero ?_
  rw [Table.pageStatus, Span.lookup_of_mem hinv.apart he ⟨by omega, by omega⟩, hfree]

/-- When page 0 is not free, a null result of `Alloc` means that nothing has happened. -/
theorem alloc_null {t : Table} (hinv : t.Inv) (hn : t.memIndex.toNat ≤ 253)
    (hzero : t.pageStatus 0 ≠ some .free) {maxAddr size : Word64} (hpos : 0 < size.toNat)
    (hsize : size.toNat ≤ 2 ^ 32) {st : Status} {t' : Table}
    (halloc : Frame.alloc t maxAddr size st.flag = (0, t')) : t' = t := by
  rcases alloc_cases t maxAddr size st.flag with ⟨i, -, -, -, heq⟩ | ⟨-, heq⟩
  · rw [heq, Prod.mk.injEq] at halloc
    obtain ⟨hstart, rfl⟩ := halloc
    have hrounded : (align size 0x1000).toNat = pageUp size.toNat := toNat_align (by omega)
    have hup := le_pageUp size.toNat
    have hle : pageUp size.toNat ≤ 2 ^ 32 := by
      unfold pageUp
      omega
    have hmod := pageUp_mod size.toNat
    rw [hstart]
    -- the nested `ReserveRange` asks for the first pages of memory
    have hreq : ((0 : Word32).setWidth 64).toNat + (align size 0x1000).toNat + 0xfff < 2 ^ 64 := by
      rw [hrounded]
      simp
      omega
    rcases reserveRange_cases hinv hn hreq st with ⟨e, he, hfree, hlo, hhi, -, -⟩ | ⟨-, hsame⟩
    · refine absurd ⟨e, he, hfree, ?_, ?_⟩
        (not_fits_zero hinv hzero (pageUp size.toNat) (by omega))
      · simpa [pageDown] using hlo
      · rw [hrounded] at hhi
        have hzeroAdd : ((0 : Word32).setWidth 64).toNat + pageUp size.toNat = pageUp size.toNat := by
          simp
        rwa [hzeroAdd, pageUp_of_mod hmod] at hhi
    · exact hsame
  · rw [heq, Prod.mk.injEq] at halloc
    exact halloc.2.symm

/-- `Alloc` moves the pages of its block from the free ones to the owned ones. -/
theorem Ledger.Accounted.alloc {g : Ledger} (hg : g.Accounted) {maxAddr size : Word64}
    {st : Status} (hst : st ≠ .free) (hc : g.Allowed (.alloc maxAddr size st.flag))
    (hzero : g.table.pageStatus 0 ≠ some .free) :
    (g.run (.alloc maxAddr size st.flag)).Accounted := by
  refine ⟨hg.inv.run hc, fun q => ?_⟩
  obtain ⟨hn, hpos, hsize, -⟩ := hc
  cases halloc : Frame.alloc g.table maxAddr size st.flag with
  | mk p t' =>
      simp only [Ledger.run, Call.run, halloc]
      by_cases hp : p = 0
      · subst hp
        rw [if_pos rfl, alloc_null hg.inv.table hn hzero hpos hsize halloc]
        exact hg.free_iff q
      · rw [if_neg hp]
        obtain ⟨e, -, -, -, -, -, -, hcut⟩ := hg.inv.alloc_ne_zero hn hsize st halloc hp
        rw [hcut.free_iff hg.inv.table.apart hst, hg.free_iff]
        simp only [Ledger.Unowned, List.forall_mem_cons, block]
        tauto

/-- Two blocks that are out at one address are the same block. -/
theorem Ledger.Inv.out_unique {g : Ledger} (hg : g.Inv) {b c : Range} (hb : b ∈ g.out)
    (hc : c ∈ g.out) (heq : c.1 = b.1) : c = b := by
  obtain ⟨hbLt, u, hu, -, huLo, huHi⟩ := hg.out b hb
  obtain ⟨hcLt, v, hv, -, hvLo, hvHi⟩ := hg.out c hc
  have huCov : u.Covers b.1 := ⟨huLo.le, huHi ▸ hbLt⟩
  have hvCov : v.Covers b.1 := ⟨(hvLo.trans heq).le, by rw [hvHi, ← heq]; exact hcLt⟩
  have hsame := Span.eq_of_covers hg.table.apart hv hu hvCov huCov
  refine Prod.ext heq ?_
  rw [← hvHi, ← huHi, hsame]

/-- A block that is out shares no page with another one. -/
theorem Ledger.Inv.out_apart {g : Ledger} (hg : g.Inv) {b c : Range} (hb : b ∈ g.out)
    (hc : c ∈ g.out) {q : Nat} (hbq : b.HasPage q) (hcq : c.HasPage q) : c = b := by
  obtain ⟨-, u, hu, -, huLo, huHi⟩ := hg.out b hb
  obtain ⟨-, v, hv, -, hvLo, hvHi⟩ := hg.out c hc
  have hsame : v = u := Span.eq_of_covers hg.table.apart hv hu (x := q * 0x1000)
    ⟨by rw [hvLo]; exact hcq.1, by rw [hvHi]; exact hcq.2⟩
    ⟨by rw [huLo]; exact hbq.1, by rw [huHi]; exact hbq.2⟩
  refine Prod.ext ?_ ?_
  · rw [← hvLo, ← huLo, hsame]
  · rw [← hvHi, ← huHi, hsame]

/-- `Free` gives back the pages of the block, and of no other one. -/
theorem Ledger.Accounted.free {g : Ledger} (hreach : ledgerSystem.Reachable g)
    (hg : g.Accounted) {frame : Word32} (hc : g.Allowed (.free frame))
    (hpages : FreesPages g.table frame) : (g.run (.free frame)).Accounted := by
  refine ⟨hg.inv.run hc, fun q => ?_⟩
  obtain ⟨-, b, hb, hstart⟩ := hc
  have heffect := (free_returns_block_iff hreach hb hstart).mpr hpages q
  -- the blocks that are still out are the others
  have hstill : ∀ c, c ∈ g.out.filter (fun b => b.1 ≠ frame.toNat) ↔ c ∈ g.out ∧ c ≠ b := by
    intro c
    simp only [List.mem_filter, decide_eq_true_eq]
    refine and_congr_right fun hcOut => not_congr ⟨fun heq => ?_, fun heq => ?_⟩
    · exact hg.inv.out_unique hb hcOut (heq.trans hstart.symm)
    · rw [heq]
      exact hstart
  simp only [Ledger.run, Call.run, Ledger.Unowned, hstill]
  rw [heffect]
  by_cases hbq : b.HasPage q
  · rw [if_pos hbq]
    refine iff_of_true rfl ⟨hg.inv.given_of_hasPage (Or.inl ⟨b, hb, hbq⟩), fun c hcOut hcq => ?_,
      fun r hr hrq => ?_⟩
    · exact hcOut.2 (hg.inv.out_apart hb hcOut.1 hbq hcq)
    · exact hg.inv.apart b hb r hr _ hbq.1 hbq.2 hrq.1 hrq.2
  · rw [if_neg hbq, hg.free_iff]
    refine and_congr_right fun _ => and_congr_left fun _ => ⟨fun hall c hcOut => hall c hcOut.1,
      fun hall c hcOut => ?_⟩
    by_cases hcb : c = b
    · rw [hcb]
      exact hbq
    · exact hall c ⟨hcOut, hcb⟩

theorem Ledger.accounted_start : Ledger.start.Accounted where
  inv := Ledger.inv_start
  free_iff := by
    intro q
    refine iff_of_false ?_ ?_
    · simp [Ledger.start, Table.pageStatus, Table.spans, Table.live, empty]
    · rintro ⟨⟨r, hr, -⟩, -⟩
      exact absurd hr List.not_mem_nil

theorem Ledger.Accounted.run {g : Ledger} (hreach : ledgerSystem.Reachable g) (hg : g.Accounted)
    {c : Call} (hc : g.Allowed c) (hkeeps : g.LosesNothing c) : (g.run c).Accounted := by
  cases c with
  | addRange addr length => exact hg.addRange hc
  | reserveRange addr length type =>
      obtain ⟨st, hst, rfl⟩ := hc.2.2.exists_status
      exact hg.reserveRange hst hc
  | alloc maxAddr size type =>
      obtain ⟨st, hst, rfl⟩ := hc.2.2.2.exists_status
      exact hg.alloc hst hc hkeeps
  | free frame => exact hg.free hreach hc hkeeps

/-- A run that loses nothing is a run of the ledger. -/
theorem ledger_of_accounted {g : Ledger} (h : accountedSystem.Reachable g) :
    ledgerSystem.Reachable g := by
  induction h with
  | init h => exact .init h
  | step _ h ih => exact .step ih h.1

/-- **The free pages are accounted for.**  After any run below 4 GB that frees only what it was
handed and whose calls lose nothing, a page is free if and only if it was given to `AddRange`, is in
no block that is still out and in no range that `ReserveRange` has set aside. -/
theorem free_accounted {g : Ledger} (h : accountedSystem.Reachable g) (q : Nat) :
    g.table.pageStatus q = some .free ↔
      (∃ r ∈ g.given, Inside r.1 r.2 q) ∧ (∀ b ∈ g.out, ¬ Range.HasPage b q) ∧
        ∀ r ∈ g.reserved, ¬ Range.HasPage r q := by
  have haccounts : g.Accounted := by
    refine System.Reachable.invariant (I := Ledger.Accounted) ?_ ?_ h
    · rintro s rfl
      exact Ledger.accounted_start
    · rintro s c s' hs hinv ⟨⟨hc, rfl⟩, hkeeps⟩
      exact hinv.run (ledger_of_accounted hs) hc hkeeps
  exact haccounts.free_iff q

/-- The block of `twoOwners` is given back. -/
def oneOwner : Ledger := twoOwners.run (.free 0x1002000)

theorem oneOwner_accounted : accountedSystem.Reachable oneOwner := by
  have hfirst : FreesPages twoOwners.table 0x1002000 := ⟨3, by decide +kernel, by decide +kernel⟩
  refine .step (a := .free 0x1002000) (.step (a := .alloc frameNoLimit 0x1000 frameUsed)
    (.step (a := .reserveRange 0x1001000 0x1000 frameUsed)
      (.step (a := .addRange 0x1000000 0x100000) (.init rfl) ⟨⟨?_, rfl⟩, trivial⟩)
      ⟨⟨?_, rfl⟩, trivial⟩) ⟨⟨?_, rfl⟩, ?_⟩) ⟨⟨?_, rfl⟩, hfirst⟩
  · exact ⟨by decide, by decide, by simp [Ledger.start]⟩
  · exact ⟨by decide, by decide, Or.inl rfl⟩
  · exact ⟨by decide, by decide, by decide, Or.inl rfl⟩
  · show Table.pageStatus _ 0 ≠ some .free
    decide +kernel
  · exact ⟨by decide, (0x1002000, 0x1003000), by decide +kernel, rfl⟩

theorem oneOwner_free_pages :
    oneOwner.table.pageStatus 0x1002 = some .free ∧ oneOwner.table.pageStatus 0x1001 ≠ some .free := by
  have hout : oneOwner.out = [] := by decide +kernel
  have hgiven : oneOwner.given = [(0x1000000, 0x100000)] := by decide +kernel
  have hreserved : oneOwner.reserved = [(0x1001000, 0x1002000)] := by decide +kernel
  rw [Ne, free_accounted oneOwner_accounted, free_accounted oneOwner_accounted, hout, hgiven,
    hreserved]
  decide

/-! ## Freeing and allocating again -/

/-- A well-formed row's first word is its start with its flag. -/
theorem Entry.Ok.start_eq {e : Entry} (h : e.Ok) :
    e.start = frameClearFlags e.start ||| e.status.flag := by
  rw [← h.flag]
  unfold frameClearFlags frameFlags
  rw [← BitVec.and_or_distrib_left, BitVec.or_comm, BitVec.or_not_self, BitVec.and_allOnes]

theorem Table.setEntry_setEntry (t : Table) (i : Nat) (a b : Entry) :
    (t.setEntry i a).setEntry i b = t.setEntry i b := by
  unfold setEntry
  congr 1
  funext j
  dsimp only
  split <;> rfl

theorem Table.setEntry_self (t : Table) (i : Nat) : t.setEntry i (t.gMem i) = t := by
  have hsame : (fun j => if j = i then t.gMem i else t.gMem j) = t.gMem := by
    funext j
    split
    · rename_i hj
      rw [hj]
    · rfl
  unfold setEntry
  rw [hsame]

@[simp] theorem Table.gMem_setEntry_self (t : Table) (i : Nat) (e : Entry) :
    (t.setEntry i e).gMem i = e := by
  simp [setEntry]

/-- In a coherent table the row that serves a request is unique. -/
theorem Table.Inv.servedRow_eq {t : Table} (hinv : t.Inv) {addr length : Word64} {i : Nat}
    (hi : i < t.memIndex.toNat)
    (hfit : reserveFits t (alignFloor addr 0x1000) (align (addr + length) 0x1000) i = true)
    (hlt : (alignFloor addr 0x1000).toNat < (align (addr + length) 0x1000).toNat) :
    servedRow t addr length = some i := by
  cases hrow : servedRow t addr length with
  | none =>
      exact absurd hfit (List.find?_eq_none.mp hrow i (List.mem_range.mpr hi))
  | some j =>
      have hj : j < t.memIndex.toNat := List.mem_range.mp (List.mem_of_find?_eq_some hrow)
      obtain ⟨-, hloI, hhiI⟩ := reserveFits_iff.mp hfit
      obtain ⟨-, hloJ, hhiJ⟩ := reserveFits_iff.mp (List.find?_some hrow)
      rw [hinv.row_unique hi hj ⟨hloI, lt_of_lt_of_le hlt hhiI⟩ ⟨hloJ, lt_of_lt_of_le hlt hhiJ⟩]

theorem reserveRange_of_served {t : Table} (hn : t.memIndex.toNat < 255) {addr length : Word64}
    {i : Nat} (h : servedRow t addr length = some i) (type : Word64) :
    reserveRange t addr length type =
      reserveAt t i (alignFloor addr 0x1000) (align (addr + length) 0x1000) type := by
  have hroom : t.memIndex ≠ 255 := by
    intro heq
    rw [heq] at hn
    exact absurd hn (by decide)
  unfold servedRow at h
  unfold reserveRange
  rw [if_neg hroom, h]

/-- The request that `Alloc` hands to `ReserveRange` for a block of `size` bytes at `p`: page
aligned already, so its rounding changes nothing. -/
structure Fits32 (p : Word32) (size : Word64) : Prop where
  start_mod : p.toNat % 0x1000 = 0
  size_mod : size.toNat % 0x1000 = 0
  pos : 0 < size.toNat
  fits : p.toNat + size.toNat < 2 ^ 32

namespace Fits32

variable {p : Word32} {size : Word64}

theorem toNat_start (_ : Fits32 p size) : (p.setWidth 64).toNat = p.toNat := by
  have hlt := p.isLt
  rw [BitVec.toNat_setWidth, Nat.mod_eq_of_lt (by omega)]

theorem toNat_stop (h : Fits32 p size) :
    (p.setWidth 64 + size).toNat = p.toNat + size.toNat := by
  have hfits := h.fits
  rw [BitVec.toNat_add, h.toNat_start, Nat.mod_eq_of_lt (by omega)]

theorem start_eq (h : Fits32 p size) : alignFloor (p.setWidth 64) 0x1000 = p.setWidth 64 := by
  apply BitVec.eq_of_toNat_eq
  rw [toNat_alignFloor, h.toNat_start, pageDown_of_mod h.start_mod]

theorem stop_eq (h : Fits32 p size) :
    align (p.setWidth 64 + size) 0x1000 = p.setWidth 64 + size := by
  have hstart := h.start_mod
  have hsize := h.size_mod
  have hmod : (p.setWidth 64 + size).toNat % 0x1000 = 0 := by
    rw [h.toNat_stop]
    omega
  apply BitVec.eq_of_toNat_eq
  rw [toNat_align_of_mod hmod]

/-- A free row that is exactly the request. -/
theorem row_ok (h : Fits32 p size) (st : Status) :
    Entry.Ok ⟨p.setWidth 64 ||| st.flag, p.setWidth 64 + size⟩ ∧
      Entry.span ⟨p.setWidth 64 ||| st.flag, p.setWidth 64 + size⟩ =
        ⟨p.toNat, p.toNat + size.toNat, st⟩ := by
  have hstart := h.start_mod
  have hsize := h.size_mod
  have hlo : (p.setWidth 64).toNat % 0x1000 = 0 := by rw [h.toNat_start]; exact hstart
  have hhi : (p.setWidth 64 + size).toNat % 0x1000 = 0 := by rw [h.toNat_stop]; omega
  have hspan := Entry.span_mk hlo hhi st
  rw [h.toNat_start, h.toNat_stop] at hspan
  exact ⟨Entry.ok_mk hlo hhi st, hspan⟩

theorem freeRow_ok (h : Fits32 p size) :
    Entry.Ok ⟨p.setWidth 64 ||| frameFree, p.setWidth 64 + size⟩ ∧
      Entry.span ⟨p.setWidth 64 ||| frameFree, p.setWidth 64 + size⟩ =
        ⟨p.toNat, p.toNat + size.toNat, .free⟩ := h.row_ok .free

end Fits32

/-- What `Free` leaves of a row that is exactly one block. -/
theorem free_block_row {t : Table} {p : Word32} {size : Word64} (h : Fits32 p size) {k : Nat}
    {st : Status} (hrow : t.gMem k = ⟨p.setWidth 64 ||| st.flag, p.setWidth 64 + size⟩)
    (hfreed : freedRow t p = some k) :
    free t p = t.setEntry k ⟨p.setWidth 64 ||| frameFree, p.setWidth 64 + size⟩ := by
  have hmod : (p.setWidth 64).toNat % 0x1000 = 0 := by
    rw [h.toNat_start]
    exact h.start_mod
  rw [free_of_some hfreed]
  unfold Table.setStart
  rw [hrow, frameClearFlags_or_flag hmod]

/-- A block whose row `Free` marked is handed out again when `Alloc` stops at that row. -/
theorem alloc_freed_row {t : Table} {p : Word32} {maxAddr size : Word64}
    (h : Fits32 p (align size 0x1000)) (hn : t.memIndex.toNat < 255) {k : Nat}
    (hk : k < t.memIndex.toNat) {st : Status}
    (hrow : t.gMem k = ⟨p.setWidth 64 ||| st.flag, p.setWidth 64 + align size 0x1000⟩)
    (hfreed : freedRow t p = some k) (hinv : (free t p).Inv)
    (hfind : allocFind (free t p) maxAddr (align size 0x1000) = some k) :
    Frame.alloc (free t p) maxAddr size st.flag = (p, t) := by
  have hfree := free_block_row h hrow hfreed
  obtain ⟨hok, hspan⟩ := h.freeRow_ok
  have hpos := h.pos
  have hgMem : (free t p).gMem k =
      ⟨p.setWidth 64 ||| frameFree, p.setWidth 64 + align size 0x1000⟩ := by
    rw [hfree, Table.gMem_setEntry_self]
  have hcount : (free t p).memIndex = t.memIndex := by
    rw [hfree]
    rfl
  have hstart : allocStart (free t p) k = p := by
    apply BitVec.eq_of_toNat_eq
    rw [toNat_allocStart, hgMem, hspan, Nat.mod_eq_of_lt p.isLt]
  -- the nested `ReserveRange` finds the same row, which it takes as a whole
  have hclearStart : frameClearFlags ((free t p).gMem k).start = p.setWidth 64 := by
    rw [hgMem]
    apply BitVec.eq_of_toNat_eq
    rw [h.toNat_start]
    exact congrArg Span.lo hspan
  have hclearStop : frameClearFlags ((free t p).gMem k).stop =
      p.setWidth 64 + align size 0x1000 := by
    rw [hgMem]
    apply BitVec.eq_of_toNat_eq
    rw [h.toNat_stop]
    exact congrArg Span.hi hspan
  have hserved : servedRow (free t p) (p.setWidth 64) (align size 0x1000) = some k := by
    refine hinv.servedRow_eq (by rw [hcount]; exact hk) ?_ ?_
    · rw [h.start_eq, h.stop_eq, reserveFits_iff, hgMem, hspan, h.toNat_start, h.toNat_stop]
      exact ⟨hok.isFree_iff.mpr (congrArg Span.label hspan), le_rfl, le_rfl⟩
    · rw [h.start_eq, h.stop_eq, h.toNat_start, h.toNat_stop]
      omega
  have hreserve : reserveRange (free t p) (p.setWidth 64) (align size 0x1000) st.flag = t := by
    rw [reserveRange_of_served (by rw [hcount]; exact hn) hserved, h.start_eq, h.stop_eq]
    unfold reserveAt
    rw [hclearStart, hclearStop, if_pos ⟨rfl, rfl⟩, hfree, Table.setEntry_setEntry, ← hrow,
      Table.setEntry_self]
  unfold Frame.alloc
  simp only [hfind, hstart, hreserve]

/-- The newest row is the first one that `Alloc` looks at. -/
theorem allocFind_newest {t : Table} {maxAddr size : Word64} {k : Nat}
    (hk : t.memIndex.toNat = k + 1) (hfit : allocFits t maxAddr size k = true) :
    allocFind t maxAddr size = some k := by
  unfold allocFind
  rw [hk, List.range_succ, List.reverse_append, List.reverse_singleton, List.singleton_append,
    List.find?_cons_of_pos hfit]

/-- `Alloc` serves a request that is exactly one free row. -/
theorem allocFits_block_row {t : Table} {p : Word32} {maxAddr size : Word64} (h : Fits32 p size)
    {k : Nat} (hrow : t.gMem k = ⟨p.setWidth 64 ||| frameFree, p.setWidth 64 + size⟩)
    (hmax : p.toNat + size.toNat ≤ maxAddr.toNat) : allocFits t maxAddr size k = true := by
  obtain ⟨hok, hspan⟩ := h.freeRow_ok
  have hfits := h.fits
  have hstart : (allocStart t k).toNat = p.toNat := by
    rw [toNat_allocStart, hrow, hspan, Nat.mod_eq_of_lt p.isLt]
  have hstop : (allocEnd t k).toNat = p.toNat + size.toNat := by
    rw [toNat_allocEnd, hrow, hspan, Nat.mod_eq_of_lt hfits]
  rw [allocFits_iff (by rw [hrow]; exact hok) (by omega), hstart, hstop, hrow]
  exact ⟨congrArg Span.label hspan, hmax, le_rfl⟩

/-- In a run of the ledger a row with pages that `Free` finds is the row of those pages. -/
theorem Ledger.Inv.freedRow_eq {g : Ledger} (hg : g.Inv) {p : Word32}
    (hpages : FreesPages g.table p) {k : Nat} (hk : k < g.table.memIndex.toNat)
    (hcov : (g.table.gMem k).span.Covers p.toNat) : freedRow g.table p = some k := by
  obtain ⟨j, hj, hlt⟩ := hpages
  have hjLive : j < g.table.memIndex.toNat := List.mem_range.mp (List.mem_of_find?_eq_some hj)
  have hlo := hg.lo_freedRow hj
  rw [hj, hg.table.row_unique hjLive hk (x := p.toNat) ⟨hlo.le, hlo ▸ hlt⟩ hcov]

/-- The row of a nonzero result: `Alloc` and the nested `ReserveRange` take the block from the start
of the same free row. -/
theorem Ledger.Inv.alloc_row {g : Ledger} (hg : g.Inv) (hn : g.table.memIndex.toNat ≤ 253)
    {maxAddr size : Word64} (hpos : 0 < size.toNat) (hsize : size.toNat ≤ 2 ^ 32) {st : Status}
    {p : Word32} {t' : Table} (halloc : Frame.alloc g.table maxAddr size st.flag = (p, t'))
    (hp : p ≠ 0) : ∃ i, i < g.table.memIndex.toNat ∧
      allocFind g.table maxAddr (align size 0x1000) = some i ∧
      Fits32 p (align size 0x1000) ∧
      p.toNat + (align size 0x1000).toNat ≤ maxAddr.toNat ∧
      (g.table.gMem i).start = p.setWidth 64 ||| frameFree ∧
      t' = reserveAt g.table i (p.setWidth 64) (p.setWidth 64 + align size 0x1000) st.flag := by
  rcases alloc_cases g.table maxAddr size st.flag with ⟨i, hi, hfind, hfit, heq⟩ | ⟨-, heq⟩
  · rw [heq, Prod.mk.injEq] at halloc
    obtain ⟨rfl, rfl⟩ := halloc
    have hmem := g.table.gMem_mem_live hi
    have hok := hg.table.ok _ hmem
    have hneNat : (allocStart g.table i).toNat ≠ 0 := fun h0 => hp (BitVec.eq_of_toNat_eq h0)
    have hrounded : (align size 0x1000).toNat = pageUp size.toNat := toNat_align (by omega)
    have hup := le_pageUp size.toNat
    have hmod := pageUp_mod size.toNat
    have hupLe : pageUp size.toNat ≤ 2 ^ 32 := by
      unfold pageUp
      omega
    have hstartLt := (allocStart g.table i).isLt
    have hwrap : (allocStart g.table i).toNat + (align size 0x1000).toNat < 2 ^ 64 := by omega
    have hlo := (hg.bound _ (List.mem_map_of_mem hmem)).1
    obtain ⟨hfree, hstart, hend, hmax⟩ := span_of_allocFits hok hwrap hlo hneNat hfit
    -- the end was cut to 32 bits before it was compared
    have hendCut := ((allocFits_iff hok hwrap).mp hfit).2.2
    have hendLt := (allocEnd g.table i).isLt
    have hfits : Fits32 (allocStart g.table i) (align size 0x1000) :=
      ⟨toNat_allocStart_mod g.table i, by omega, by omega, by omega⟩
    have hclear : frameClearFlags (g.table.gMem i).start = (allocStart g.table i).setWidth 64 := by
      apply BitVec.eq_of_toNat_eq
      rw [hfits.toNat_start]
      exact hstart
    have hserved : servedRow g.table ((allocStart g.table i).setWidth 64) (align size 0x1000) =
        some i := by
      refine hg.table.servedRow_eq hi ?_ ?_
      · rw [hfits.start_eq, hfits.stop_eq, reserveFits_iff, hfits.toNat_start, hfits.toNat_stop]
        exact ⟨hok.isFree_iff.mpr hfree, hstart.le, hend⟩
      · have hpos' := hfits.pos
        rw [hfits.start_eq, hfits.stop_eq, hfits.toNat_start, hfits.toNat_stop]
        omega
    refine ⟨i, hi, hfind, hfits, hmax, ?_, ?_⟩
    · rw [hok.start_eq, hclear, show (g.table.gMem i).status = .free from hfree]
      rfl
    · rw [reserveRange_of_served (by omega) hserved, hfits.start_eq, hfits.stop_eq]
  · rw [heq, Prod.mk.injEq] at halloc
    exact absurd halloc.1.symm hp

/-- Give a block back and ask for as much again. -/
def reuse (maxAddr size type : Word64) (s : Word32 × Table) : Word32 × Table :=
  Frame.alloc (free s.2 s.1) maxAddr size type

/-- **A freed block is handed out again, at no cost.**  In a run of the ledger, when `Alloc` returns
a block and the first row at its address has pages, then however often the block is freed and as
much is asked for again, `Alloc` returns that very block and leaves the table as it was after the
first call, `mem_index` included. -/
theorem alloc_free_alloc {g : Ledger} (h : ledgerSystem.Reachable g) {maxAddr size type : Word64}
    (hc : g.Allowed (.alloc maxAddr size type)) {p : Word32} {t' : Table}
    (halloc : Frame.alloc g.table maxAddr size type = (p, t')) (hp : p ≠ 0)
    (hpages : FreesPages t' p) (n : Nat) : (reuse maxAddr size type)^[n] (p, t') = (p, t') := by
  refine Function.iterate_fixed (f := reuse maxAddr size type) ?_ n
  have hg := Ledger.inv_of_reachable h
  have hg' := hg.run hc
  have htable : (g.run (.alloc maxAddr size type)).table = t' := by
    rw [Ledger.table_run]
    exact congrArg Prod.snd halloc
  obtain ⟨hn, hpos, hsize, htype⟩ := hc
  obtain ⟨st, -, rfl⟩ := htype.exists_status
  obtain ⟨i, hi, hfind, hfits, hmax, hstart, hcut⟩ := hg.alloc_row hn hpos hsize halloc hp
  have hposSize := hfits.pos
  have hmod : (p.setWidth 64).toNat % 0x1000 = 0 := by
    rw [hfits.toNat_start]
    exact hfits.start_mod
  have hmemStart : frameClearFlags (g.table.gMem i).start = p.setWidth 64 := by
    rw [hstart]
    exact frameClearFlags_or_flag hmod .free
  have hstop := (hg.table.ok _ (g.table.gMem_mem_live hi)).stop_aligned
  have hmemEnd : frameClearFlags (g.table.gMem i).stop = (g.table.gMem i).stop :=
    frameClearFlags_of_aligned hstop
  have hfreeInv : (free t' p).Inv := by
    rw [← htable]
    rcases free_cases hg'.table p with ⟨-, -, -, hinv, -⟩ | ⟨-, heq⟩
    · exact hinv
    · rw [heq]
      exact hg'.table
  rw [← htable] at hpages
  -- the block's own row is the one that `Free` marks
  have hfreed : ∀ k, k < t'.memIndex.toNat →
      t'.gMem k = ⟨p.setWidth 64 ||| st.flag, p.setWidth 64 + align size 0x1000⟩ →
      freedRow t' p = some k := by
    intro k hk hrow
    have hcov : ((g.run (.alloc maxAddr size st.flag)).table.gMem k).span.Covers p.toNat := by
      rw [htable, hrow, (hfits.row_ok st).2]
      exact ⟨le_rfl, by show p.toNat < p.toNat + _; omega⟩
    have hrow' := hg'.freedRow_eq hpages (by rw [htable]; exact hk) hcov
    rwa [htable] at hrow'
  unfold reserveAt at hcut
  simp only [hmemStart, hmemEnd, true_and] at hcut
  by_cases hexact : p.setWidth 64 + align size 0x1000 = (g.table.gMem i).stop
  · -- the row was taken as a whole, and comes back as it was
    rw [if_pos hexact] at hcut
    have hrow : t'.gMem i = ⟨p.setWidth 64 ||| st.flag, p.setWidth 64 + align size 0x1000⟩ := by
      rw [hcut, Table.gMem_setEntry_self]
    have hlive : i < t'.memIndex.toNat := by
      rw [hcut]
      exact hi
    have hroom : t'.memIndex.toNat < 255 := by
      rw [hcut]
      show g.table.memIndex.toNat < 255
      omega
    refine alloc_freed_row hfits hroom hlive hrow (hfreed i hlive hrow) hfreeInv ?_
    have hback : free t' p = g.table := by
      rw [free_block_row hfits hrow (hfreed i hlive hrow), hcut, Table.setEntry_setEntry, hexact,
        ← hstart]
      exact g.table.setEntry_self i
    rw [hback]
    exact hfind
  · -- the block is a new row, the newest one
    rw [if_neg hexact, if_pos trivial] at hcut
    have hcount : t'.memIndex.toNat = g.table.memIndex.toNat + 1 := by
      rw [hcut]
      exact g.table.toNat_memIndex_push
        ⟨p.setWidth 64 ||| st.flag, p.setWidth 64 + align size 0x1000⟩ (by omega)
    have hrow : t'.gMem g.table.memIndex.toNat =
        ⟨p.setWidth 64 ||| st.flag, p.setWidth 64 + align size 0x1000⟩ := by
      rw [hcut]
      simp only [Table.setStart, Table.setEntry, Table.push]
      rw [if_neg (by omega), if_pos trivial]
    have hlive : g.table.memIndex.toNat < t'.memIndex.toNat := by omega
    have hrowFree := free_block_row hfits hrow (hfreed _ hlive hrow)
    refine alloc_freed_row hfits (by omega) hlive hrow (hfreed _ hlive hrow) hfreeInv ?_
    refine allocFind_newest ?_ (allocFits_block_row hfits ?_ hmax)
    · rw [hrowFree]
      exact hcount
    · rw [hrowFree, Table.gMem_setEntry_self]

/-- Two pages behind the blocks of `twoOwners`, freed and asked for again a thousand times. -/
theorem twoOwners_reuse :
    (reuse frameNoLimit 0x2000 frameUsed)^[1000]
        (0x1003000, (Frame.alloc twoOwners.table frameNoLimit 0x2000 frameUsed).2) =
      (0x1003000, (Frame.alloc twoOwners.table frameNoLimit 0x2000 frameUsed).2) := by
  have hp : (Frame.alloc twoOwners.table frameNoLimit 0x2000 frameUsed).1 = 0x1003000 := by
    decide +kernel
  have hc : twoOwners.Allowed (.alloc frameNoLimit 0x2000 frameUsed) :=
    ⟨by decide, by decide, by decide, Or.inl rfl⟩
  have hpages : FreesPages (Frame.alloc twoOwners.table frameNoLimit 0x2000 frameUsed).2 0x1003000 :=
    ⟨4, by decide +kernel, by decide +kernel⟩
  exact alloc_free_alloc twoOwners_reachable hc (Prod.ext hp rfl) (by decide) hpages 1000

end Frame
end Loader
end ZineOS
