import ZineOS.Loader.FrameAlloc

/-!
# A frame table that runs full, and ranges that do not fit

Here the calls of a run are as free as the code leaves them: any address, length, size and pointer,
overlapping ranges, and no bound on `mem_index`.  Only the type is one of the two that
`Frame::ReserveRange` documents.  What is left of the table's invariant is that every row in use is
well formed (`rowsOk_of_reachable`).

* `fails_cleanly_iff` says when a call that needs rows leaves a full table alone.
* `reserve_withholds_iff` says when a reserved range is really withheld.
-/

namespace ZineOS
namespace Loader
namespace Frame

open Lib

/-! ## Unrestricted runs -/

/-- The type is a documented one. -/
def Call.Typed : Call → Prop
  | .reserveRange _ _ type => IsReserveType type
  | .alloc _ _ type => IsReserveType type
  | _ => True

/-- Runs of calls with documented types, from the empty table. -/
def typedSystem : System Table Call := System.ofCalls empty Call.run fun _ c => c.Typed

theorem Table.RowsOk.run {t : Table} (h : t.RowsOk) {c : Call} (hc : c.Typed) :
    (c.run t).RowsOk := by
  cases c with
  | addRange addr length => exact h.addRange addr length
  | reserveRange addr length type =>
      obtain ⟨st, -, rfl⟩ := IsReserveType.exists_status hc
      exact h.reserveRange addr length st
  | alloc maxAddr size type =>
      obtain ⟨st, -, rfl⟩ := IsReserveType.exists_status hc
      simp only [Call.run]
      rcases alloc_cases t maxAddr size st.flag with ⟨i, -, -, -, heq⟩ | ⟨-, heq⟩
      · rw [heq]
        exact h.reserveRange _ _ st
      · rw [heq]
        exact h
  | free frame => exact h.free frame

theorem rowsOk_of_reachable {t : Table} (h : typedSystem.Reachable t) : t.RowsOk := by
  refine h.invariant (I := Table.RowsOk) ?_ ?_
  · rintro s rfl
    exact inv_empty.ok
  · rintro s c s' - hs ⟨hc, rfl⟩
    exact hs.run hc

/-! ## Reserving what is not one free row -/

/-- Page `p` shares an address with `[addr, addr + length)`. -/
def Overlaps (addr length p : Nat) : Prop :=
  ∃ x, addr ≤ x ∧ x < addr + length ∧ p * 0x1000 ≤ x ∧ x < p * 0x1000 + 0x1000

/-- **When a reserved range is really withheld.**  Every free row that has a page of the range must
be the row that `ReserveRange` serves the request from, that is the first free row that contains all
of it. -/
theorem reserve_withholds_iff {t : Table} (h : typedSystem.Reachable t)
    (hn : t.memIndex.toNat ≤ 253) {addr length : Word64}
    (hwrap : addr.toNat + length.toNat + 0xfff < 2 ^ 64) {st : Status} (hst : st ≠ .free) :
    (∀ p, Overlaps addr.toNat length.toNat p →
        ¬ (reserveRange t addr length st.flag).FreePage p) ↔
      ∀ k, k < t.memIndex.toNat → (t.gMem k).status = .free →
        ∀ p, Overlaps addr.toNat length.toNat p → (t.gMem k).span.Covers (p * 0x1000) →
          servedRow t addr length = some k := by
  have hstart := toNat_alignFloor addr
  have hstop := toNat_align_add hwrap
  rcases reserveRange_outcome (rowsOk_of_reachable h) addr length st with
    ⟨hno, heq⟩ | ⟨i, -, -, hserved, hcut⟩ | ⟨hfull, -, -⟩
  · -- no row serves the request, and the table stays as it is
    have hnone : servedRow t addr length = none := hno.resolve_left (by omega)
    rw [heq, hnone]
    constructor
    · intro hwithheld k hk hfree p hp hcov
      exact absurd ⟨k, hk, hfree, hcov⟩ (hwithheld p hp)
    · rintro hserved p hp ⟨k, hk, hfree, hcov⟩
      exact absurd (hserved k hk hfree p hp hcov) (by simp)
  · -- no page of the range is left on either side of the cut
    have hpages : ∀ p, Overlaps addr.toNat length.toNat p →
        ((reserveRange t addr length st.flag).FreePage p ↔ ∃ k, k < t.memIndex.toNat ∧ k ≠ i ∧
          (t.gMem k).status = .free ∧ (t.gMem k).span.Covers (p * 0x1000)) := by
      rintro p ⟨x, h1, h2, h3, h4⟩
      have hdown := pageDown_le addr.toNat
      have hdownMod := pageDown_mod addr.toNat
      have hup := le_pageUp (addr.toNat + length.toNat)
      rw [hcut.freePage_iff hst, hstart, hstop]
      constructor
      · rintro (hother | hleft | hright)
        · exact hother
        · unfold pageDown at hleft hdown
          omega
        · omega
      · exact Or.inl
    rw [hserved]
    constructor
    · intro hwithheld k hk hfree p hp hcov
      by_contra hne
      refine hwithheld p hp ((hpages p hp).mpr ⟨k, hk, fun hki => hne (by rw [hki]), hfree, hcov⟩)
    · intro honly p hp hfreePage
      obtain ⟨k, hk, hne, hfree, hcov⟩ := (hpages p hp).mp hfreePage
      exact hne (Option.some.inj (honly k hk hfree p hp hcov)).symm
  · omega

theorem oneRange_typed : typedSystem.Reachable oneRange :=
  System.Reachable.call (a := Call.addRange 0x1000000 0x100000) (.init rfl) trivial

/-- Both pages that the range touches are withheld. -/
theorem oneRange_withholds :
    ¬ (reserveRange oneRange 0x1000800 0x1000 Status.used.flag).FreePage 0x1000 ∧
      ¬ (reserveRange oneRange 0x1000800 0x1000 Status.used.flag).FreePage 0x1001 := by
  have hwithheld : ∀ p, Overlaps (0x1000800 : Word64).toNat (0x1000 : Word64).toNat p →
      ¬ (reserveRange oneRange 0x1000800 0x1000 Status.used.flag).FreePage p := by
    refine (reserve_withholds_iff oneRange_typed (by decide) (by decide) (by decide)).mpr ?_
    intro k hk _ p _ _
    have hzero : k = 0 := by
      have hone : oneRange.memIndex.toNat = 1 := by decide
      omega
    rw [hzero]
    decide +kernel
  constructor
  · exact hwithheld 0x1000 ⟨0x1000800, by decide, by decide, by decide, by decide⟩
  · exact hwithheld 0x1001 ⟨0x1001000, by decide, by decide, by decide, by decide⟩

/-- The first page of the range is reserved already, so no free row has the whole range and the call
does nothing: the second page stays free. -/
theorem straddling_range_stays_free :
    typedSystem.Reachable (reserveRange oneRange 0x1000000 0x1000 frameUsed) ∧
      Overlaps (0x1000000 : Word64).toNat (0x2000 : Word64).toNat 0x1001 ∧
      (reserveRange (reserveRange oneRange 0x1000000 0x1000 frameUsed)
        0x1000000 0x2000 frameUsed).FreePage 0x1001 := by
  refine ⟨?_, ⟨0x1001000, by decide, by decide, by decide, by decide⟩, ?_⟩
  · exact System.Reachable.call (a := Call.reserveRange 0x1000000 0x1000 frameUsed)
      oneRange_typed (Or.inl rfl)
  · exact ⟨0, by decide +kernel, by decide +kernel, by decide +kernel⟩

/-! ## A table that runs full -/

/-- The pointer that a call returns: only `Alloc` returns one. -/
def Call.result (t : Table) : Call → Word32
  | .alloc maxAddr size type => (Frame.alloc t maxAddr size type).1
  | _ => 0

/-- The new rows that a call needs. -/
def Call.rowsWanted (t : Table) : Call → Nat
  | .addRange _ _ => 1
  | .reserveRange addr length _ => Frame.rowsWanted t addr length
  | .alloc maxAddr size _ =>
      match allocFind t maxAddr (align size 0x1000) with
      | some i => Frame.rowsWanted t ((allocStart t i).setWidth 64) (align size 0x1000)
      | none => 0
  | .free _ => 0

/-- What a caller expects of a table that may be full. -/
structure FailsCleanly (t : Table) (c : Call) : Prop where
  /-- a call that needs more rows than the 256 slots have left does nothing -/
  refuses : 256 < t.memIndex.toNat + c.rowsWanted t → c.run t = t ∧ c.result t = 0
  grows : t.memIndex.toNat ≤ (c.run t).memIndex.toNat
  /-- rows that are not free stay as they are -/
  kept : ∀ u ∈ t.spans, u.label ≠ .free → u ∈ (c.run t).spans
  /-- no address drops out of the table -/
  tracked : ∀ u ∈ t.spans, ∀ x, u.Covers x → ∃ v ∈ (c.run t).spans, v.Covers x
  /-- what `Alloc` hands out is not free any more -/
  recorded : ∀ maxAddr size type, c = .alloc maxAddr size type → c.result t ≠ 0 →
    ∀ page, InBlock (c.result t) size page → ¬ (c.run t).FreePage page

/-- `AddRange` needs `mem_index` below 255.  `ReserveRange` must not need two rows when `mem_index`
is 254.  For `Alloc` that holds of the request it makes of `ReserveRange` at the row it chose (also
at 255, unless it returns null), and every free row that has a page of the block must be the row
that this request is served from, without a wrapped sum. -/
def HasRows (t : Table) : Call → Prop
  | .addRange _ _ => t.memIndex.toNat < 255
  | .reserveRange addr length _ => rowsWanted t addr length = 2 → t.memIndex.toNat ≠ 254
  | .alloc maxAddr size _ => ∀ i, allocFind t maxAddr (align size 0x1000) = some i →
      (rowsWanted t ((allocStart t i).setWidth 64) (align size 0x1000) = 2 →
        t.memIndex.toNat ≠ 254 ∧ (t.memIndex.toNat = 255 → allocStart t i = 0)) ∧
      (allocStart t i ≠ 0 → ∀ k, k < t.memIndex.toNat → (t.gMem k).status = .free →
        ∀ page, InBlock (allocStart t i) size page → (t.gMem k).span.Covers (page * 0x1000) →
          t.memIndex.toNat < 255 ∧
            servedRow t ((allocStart t i).setWidth 64) (align size 0x1000) = some k ∧
            (allocStart t i).toNat + pageUp size.toNat < 2 ^ 64)
  | .free _ => True

/-- A call that changes nothing fails cleanly when it returns null wherever it must. -/
theorem FailsCleanly.of_run_eq {t : Table} {c : Call} (hrun : c.run t = t)
    (hnull : 256 < t.memIndex.toNat + c.rowsWanted t → c.result t = 0)
    (hrecorded : ∀ maxAddr size type, c = .alloc maxAddr size type → c.result t ≠ 0 →
      ∀ page, InBlock (c.result t) size page → ¬ t.FreePage page) : FailsCleanly t c where
  refuses := fun hmany => ⟨hrun, hnull hmany⟩
  grows := by rw [hrun]
  kept := by
    intro u hu _
    rw [hrun]
    exact hu
  tracked := by
    intro u hu x hx
    rw [hrun]
    exact ⟨u, hu, hx⟩
  recorded := by
    rw [hrun]
    exact hrecorded

/-- A call that changes nothing and returns null fails cleanly. -/
theorem FailsCleanly.of_unchanged {t : Table} {c : Call} (hrun : c.run t = t)
    (hresult : c.result t = 0) : FailsCleanly t c :=
  .of_run_eq hrun (fun _ => hresult) fun _ _ _ _ hne => absurd hresult hne

theorem failsCleanly_addRange_iff (t : Table) (addr length : Word64) :
    FailsCleanly t (.addRange addr length) ↔ t.memIndex.toNat < 255 := by
  have hlt := t.memIndex.isLt
  have hrun : addRange t addr length = t.push ⟨align addr 0x1000 ||| frameFree,
      alignFloor (addr + length) 0x1000⟩ := by
    unfold addRange
    rw [if_pos hlt]
  constructor
  · -- the guard `mem_index < 256` lets the row through, and 255 + 1 is 0
    intro hclean
    have hgrows : t.memIndex.toNat ≤ (addRange t addr length).memIndex.toNat := hclean.grows
    by_contra hfull
    have hlast : t.memIndex = 255 := by
      apply BitVec.eq_of_toNat_eq
      show t.memIndex.toNat = 255
      omega
    have hzero : (addRange t addr length).memIndex.toNat = 0 := by
      rw [hrun]
      simp only [Table.push, hlast]
      rfl
    omega
  · intro hroom
    have hspans : ((Call.addRange addr length).run t).spans = t.spans ++
        [Entry.span ⟨align addr 0x1000 ||| frameFree, alignFloor (addr + length) 0x1000⟩] := by
      show (addRange t addr length).spans = _
      rw [hrun]
      exact t.spans_push _ hroom
    exact {
      refuses := by
        intro hwant
        have hone : (Call.addRange addr length).rowsWanted t = 1 := rfl
        omega
      grows := by
        rw [← Table.length_spans, ← Table.length_spans, hspans]
        simp
      kept := by
        intro u hu _
        rw [hspans]
        exact List.mem_append_left _ hu
      tracked := by
        intro u hu x hx
        rw [hspans]
        exact ⟨u, List.mem_append_left _ hu, hx⟩
      recorded := by
        intro maxAddr size type hcall
        cases hcall }

theorem failsCleanly_reserveRange_iff {t : Table} (hok : t.RowsOk) (addr length : Word64)
    (st : Status) :
    FailsCleanly t (.reserveRange addr length st.flag) ↔
      (rowsWanted t addr length = 2 → t.memIndex.toNat ≠ 254) := by
  rcases reserveRange_outcome hok addr length st with
    ⟨hno, heq⟩ | ⟨i, hroom, hwant, -, hcut⟩ | ⟨hn, htwo, hzero⟩
  · have hclean := FailsCleanly.of_unchanged (c := .reserveRange addr length st.flag) heq rfl
    refine iff_of_true hclean fun htwo hn => ?_
    rcases hno with hfull | hnone
    · omega
    · rw [rowsWanted_of_none hnone] at htwo
      omega
  · refine iff_of_true ⟨?_, hcut.memIndex_le, fun u hu => hcut.kept hu,
      fun u hu x => hcut.tracked hu, fun _ _ _ heq => by cases heq⟩ hwant
    intro hmany
    have hle : rowsWanted t addr length ≤ 2 := rowsWanted_le t addr length
    have heq : (Call.reserveRange addr length st.flag).rowsWanted t = rowsWanted t addr length := rfl
    omega
  · refine iff_of_false (fun hclean => ?_) (fun hwant => hwant htwo hn)
    have hgrows : t.memIndex.toNat ≤ (reserveRange t addr length st.flag).memIndex.toNat :=
      hclean.grows
    omega

/-- The end of the request that `Alloc` makes: exact unless the sum wraps, and then not behind the
start. -/
theorem alloc_request_end (t : Table) (i : Nat) (size : Word64) :
    ((allocStart t i).toNat + pageUp size.toNat < 2 ^ 64 →
      (align ((allocStart t i).setWidth 64 + align size 0x1000) 0x1000).toNat =
        (allocStart t i).toNat + pageUp size.toNat) ∧
    (¬ (allocStart t i).toNat + pageUp size.toNat < 2 ^ 64 →
      (align ((allocStart t i).setWidth 64 + align size 0x1000) 0x1000).toNat ≤
        (allocStart t i).toNat) := by
  have hlt := (allocStart t i).isLt
  have hstart := toNat_allocStart_mod t i
  have hsize := toNat_align_mod size
  have hup := pageUp_mod size.toNat
  have hle := le_pageUp size.toNat
  have hbound := size.isLt
  have hwide : ((allocStart t i).setWidth 64).toNat = (allocStart t i).toNat := by
    rw [BitVec.toNat_setWidth, Nat.mod_eq_of_lt (by omega)]
  -- the rounded size, cut to 64 bits
  have hrounded : (align size 0x1000).toNat = pageUp size.toNat % 2 ^ 64 := toNat_align_eq_mod size
  have hsum : ((allocStart t i).setWidth 64 + align size 0x1000).toNat =
      ((allocStart t i).toNat + pageUp size.toNat) % 2 ^ 64 := by
    rw [BitVec.toNat_add, hwide, hrounded, Nat.add_mod_mod]
  have hupLe : pageUp size.toNat ≤ 2 ^ 64 := by
    unfold pageUp
    omega
  have hend : (align ((allocStart t i).setWidth 64 + align size 0x1000) 0x1000).toNat =
      ((allocStart t i).toNat + pageUp size.toNat) % 2 ^ 64 := by
    have haligned : ((allocStart t i).setWidth 64 + align size 0x1000).toNat % 0x1000 = 0 := by
      rw [hsum]
      omega
    rw [toNat_align_of_mod haligned, hsum]
  rw [hend]
  constructor
  · intro hfit
    exact Nat.mod_eq_of_lt hfit
  · intro hwrap
    omega

/-- What `Alloc` hands out at row `i` is not free any more, if the request it makes was served by the
only free row that has a page of the block, and its end did not wrap. -/
theorem recorded_iff {t t' : Table} {i j : Nat} {size : Word64} {st : Status} (hst : st ≠ .free)
    (hcut : CutAt t t' ((allocStart t i).setWidth 64) (align size 0x1000) st j) :
    (∀ page, InBlock (allocStart t i) size page → ¬ t'.FreePage page) ↔
      ∀ k, k < t.memIndex.toNat → (t.gMem k).status = .free →
        ∀ page, InBlock (allocStart t i) size page → (t.gMem k).span.Covers (page * 0x1000) →
          k = j ∧ (allocStart t i).toNat + pageUp size.toNat < 2 ^ 64 := by
  obtain ⟨hexact, hwrapped⟩ := alloc_request_end t i size
  have hlt := (allocStart t i).isLt
  have hwide : ((allocStart t i).setWidth 64).toNat = (allocStart t i).toNat := by
    rw [BitVec.toNat_setWidth, Nat.mod_eq_of_lt (by omega)]
  have hstart : (alignFloor ((allocStart t i).setWidth 64) 0x1000).toNat =
      (allocStart t i).toNat := by
    rw [toNat_alignFloor, hwide, pageDown_of_mod (toNat_allocStart_mod t i)]
  have hlo := hcut.lo_le
  rw [hstart] at hlo
  constructor
  · intro hrecorded k hk hfree page hpage hcov
    have hnot := hrecorded page hpage
    rw [hcut.freePage_iff hst, not_or] at hnot
    have hkj : k = j := by
      by_contra hne
      exact hnot.1 ⟨k, hk, hne, hfree, hcov⟩
    refine ⟨hkj, ?_⟩
    -- a wrapped end leaves the page in what is behind the cut
    by_contra hwrap
    subst hkj
    exact hnot.2 (Or.inr ⟨(hwrapped hwrap).trans hpage.1, hcov.2⟩)
  · intro honly page hpage hfreePage
    rcases (hcut.freePage_iff hst page).mp hfreePage with ⟨k, hk, hne, hfree, hcov⟩ | hleft | hright
    · exact hne (honly k hk hfree page hpage hcov).1
    · have hbegin : (allocStart t i).toNat ≤ page * 0x1000 := hpage.1
      omega
    · have hcov : (t.gMem j).span.Covers (page * 0x1000) := ⟨hlo.trans hpage.1, hright.2⟩
      have hfit := (honly j hcut.live hcut.free page hpage hcov).2
      rw [hexact hfit] at hright
      have hend : page * 0x1000 < (allocStart t i).toNat + pageUp size.toNat := hpage.2
      omega

section AllocRow

variable {t : Table} {maxAddr size : Word64} {st : Status} {i : Nat}

/-- What `Alloc` does once the scan has chosen row `i`. -/
theorem alloc_at_row (hfind : allocFind t maxAddr (align size 0x1000) = some i) :
    (Call.alloc maxAddr size st.flag).run t =
        reserveRange t ((allocStart t i).setWidth 64) (align size 0x1000) st.flag ∧
      (Call.alloc maxAddr size st.flag).result t = allocStart t i ∧
      (Call.alloc maxAddr size st.flag).rowsWanted t =
        rowsWanted t ((allocStart t i).setWidth 64) (align size 0x1000) := by
  have hall : alloc t maxAddr size st.flag = (allocStart t i,
      reserveRange t ((allocStart t i).setWidth 64) (align size 0x1000) st.flag) := by
    unfold alloc
    simp only [hfind]
  refine ⟨congrArg Prod.snd hall, congrArg Prod.fst hall, ?_⟩
  simp only [Call.rowsWanted, hfind]

/-- The request was not served: the call is clean if it returns null, or if it needs no rows and none
of the block was free. -/
theorem failsCleanly_alloc_of_unserved
    (hfind : allocFind t maxAddr (align size 0x1000) = some i)
    (hno : t.memIndex.toNat = 255 ∨
      servedRow t ((allocStart t i).setWidth 64) (align size 0x1000) = none)
    (hsame : reserveRange t ((allocStart t i).setWidth 64) (align size 0x1000) st.flag = t) :
    FailsCleanly t (.alloc maxAddr size st.flag) ↔
      HasRows t (.alloc maxAddr size st.flag) := by
  obtain ⟨hrun, hresult, hwanted⟩ := @alloc_at_row t maxAddr size st i hfind
  have hle := rowsWanted_le t ((allocStart t i).setWidth 64) (align size 0x1000)
  rw [hsame] at hrun
  simp only [HasRows, hfind, Option.some.injEq, forall_eq']
  by_cases hnull : allocStart t i = 0
  · have hclean := FailsCleanly.of_unchanged hrun (hresult.trans hnull)
    refine iff_of_true hclean ⟨fun htwo => ⟨fun hn => ?_, fun _ => hnull⟩, ?_⟩
    · have hnone := rowsWanted_of_none (hno.resolve_left (by omega))
      omega
    · exact fun hne => absurd hnull hne
  constructor
  · intro hclean
    refine ⟨fun htwo => ?_, fun _ k hk hfree page hpage hcov => ?_⟩
    · -- two rows at `mem_index` 255: the call must have returned null
      have hfull : t.memIndex.toNat = 255 := by
        rcases hno with hfull | hnone
        · exact hfull
        · have hzero := rowsWanted_of_none hnone
          omega
      have hrefused := (hclean.refuses (by omega)).2
      exact absurd (hresult.symm.trans hrefused) hnull
    · -- the table is as it was, so the row's page is still free
      have hrecorded := hclean.recorded maxAddr size st.flag rfl (by rw [hresult]; exact hnull)
      rw [hresult, hrun] at hrecorded
      exact absurd ⟨k, hk, hfree, hcov⟩ (hrecorded page hpage)
  · rintro ⟨htwo, honly⟩
    refine .of_run_eq hrun ?_ ?_
    · intro hmany
      exact absurd ((htwo (by omega)).2 (by omega)) hnull
    · intro m' s' ty' hcall _ page hpage hfreePage
      cases hcall
      rw [hresult] at hpage
      obtain ⟨k, hk, hfree, hcov⟩ := hfreePage
      obtain ⟨hroom, hserved, -⟩ := honly hnull k hk hfree page hpage hcov
      rcases hno with hfull | hnone
      · omega
      · rw [hnone] at hserved
        exact absurd hserved (by simp)

/-- The request was served at row `j`: the call is clean if the block is recorded. -/
theorem failsCleanly_alloc_of_cut (hst : st ≠ .free)
    (hfind : allocFind t maxAddr (align size 0x1000) = some i) {j : Nat}
    (hroom : t.memIndex.toNat < 255)
    (hwant : rowsWanted t ((allocStart t i).setWidth 64) (align size 0x1000) = 2 →
      t.memIndex.toNat ≠ 254)
    (hserved : servedRow t ((allocStart t i).setWidth 64) (align size 0x1000) = some j)
    (hcut : CutAt t (reserveRange t ((allocStart t i).setWidth 64) (align size 0x1000) st.flag)
      ((allocStart t i).setWidth 64) (align size 0x1000) st j) :
    FailsCleanly t (.alloc maxAddr size st.flag) ↔
      HasRows t (.alloc maxAddr size st.flag) := by
  obtain ⟨hrun, hresult, hwanted⟩ := @alloc_at_row t maxAddr size st i hfind
  have hle := rowsWanted_le t ((allocStart t i).setWidth 64) (align size 0x1000)
  simp only [HasRows, hfind, Option.some.injEq, forall_eq']
  constructor
  · intro hclean
    refine ⟨fun htwo => ⟨hwant htwo, by omega⟩, fun hne k hk hfree page hpage hcov => ?_⟩
    have hrecorded := hclean.recorded maxAddr size st.flag rfl (by rw [hresult]; exact hne)
    rw [hresult, hrun, recorded_iff hst hcut] at hrecorded
    obtain ⟨hkj, hfit⟩ := hrecorded k hk hfree page hpage hcov
    exact ⟨hroom, by rw [hserved, hkj], hfit⟩
  · rintro ⟨-, honly⟩
    rw [← hrun] at hcut
    exact {
      refuses := by
        intro hmany
        omega
      grows := hcut.memIndex_le
      kept := fun u hu => hcut.kept hu
      tracked := fun u hu x => hcut.tracked hu
      recorded := by
        intro m' s' ty' hcall hne
        cases hcall
        rw [hresult] at hne ⊢
        rw [recorded_iff hst hcut]
        intro k hk hfree page hpage hcov
        obtain ⟨-, hk', hfit⟩ := honly hne k hk hfree page hpage hcov
        exact ⟨Option.some.inj (hk'.symm.trans hserved), hfit⟩ }

end AllocRow

theorem failsCleanly_alloc_iff {t : Table} (hok : t.RowsOk) (maxAddr size : Word64) {st : Status}
    (hst : st ≠ .free) :
    FailsCleanly t (.alloc maxAddr size st.flag) ↔ HasRows t (.alloc maxAddr size st.flag) := by
  rcases alloc_cases t maxAddr size st.flag with ⟨i, -, hfind, -, -⟩ | ⟨hfind, heq⟩
  · rcases reserveRange_outcome hok ((allocStart t i).setWidth 64) (align size 0x1000) st with
      ⟨hno, hsame⟩ | ⟨j, hroom, hwant, hserved, hcut⟩ | ⟨hn, htwo, hzero⟩
    · exact failsCleanly_alloc_of_unserved hfind hno hsame
    · exact failsCleanly_alloc_of_cut hst hfind hroom hwant hserved hcut
    · -- `mem_index` has wrapped
      obtain ⟨hrun, -, -⟩ := @alloc_at_row t maxAddr size st i hfind
      refine iff_of_false (fun hclean => ?_) (fun hrows => ?_)
      · have hgrows := hclean.grows
        rw [hrun] at hgrows
        omega
      · unfold HasRows at hrows
        exact ((hrows i hfind).1 htwo).1 hn
  · -- no row passes the test, so nothing happens
    have hrun : (Call.alloc maxAddr size st.flag).run t = t := congrArg Prod.snd heq
    have hresult : (Call.alloc maxAddr size st.flag).result t = 0 := congrArg Prod.fst heq
    refine iff_of_true (FailsCleanly.of_unchanged hrun hresult) fun i hi => ?_
    rw [hfind] at hi
    exact absurd hi (by simp)

/-- **When a full frame table fails cleanly.**  In every run with documented types, a call that may
need rows treats the table well if and only if it has the rows it needs. -/
theorem fails_cleanly_iff {t : Table} (h : typedSystem.Reachable t) {c : Call} (hc : c.Typed)
    (hfree : ∀ frame, c ≠ .free frame) : FailsCleanly t c ↔ HasRows t c := by
  have hok := rowsOk_of_reachable h
  cases c with
  | addRange addr length => exact failsCleanly_addRange_iff t addr length
  | reserveRange addr length type =>
      obtain ⟨st, -, rfl⟩ := IsReserveType.exists_status hc
      exact failsCleanly_reserveRange_iff hok addr length st
  | alloc maxAddr size type =>
      obtain ⟨st, hst, rfl⟩ := IsReserveType.exists_status hc
      exact failsCleanly_alloc_iff hok maxAddr size hst
  | free frame => exact absurd rfl (hfree frame)

/-- A memory map of `n` single pages, every other page. -/
def scattered (n : Nat) : Table :=
  (List.range n).foldl (fun t i => addRange t (BitVec.ofNat 64 (i * 0x2000)) 0x1000) empty

theorem scattered_typed (n : Nat) : typedSystem.Reachable (scattered n) := by
  induction n with
  | zero => exact .init rfl
  | succ n ih =>
      have hstep := System.Reachable.call
        (a := Call.addRange (BitVec.ofNat 64 (n * 0x2000)) 0x1000) ih trivial
      unfold scattered
      rw [List.range_succ, List.foldl_append]
      exact hstep

theorem scattered_fails_cleanly :
    FailsCleanly (scattered 254) (.addRange 0x1000000 0x1000) ∧
      FailsCleanly (scattered 254) (.reserveRange 0x2000 0x1000 frameUsed) := by
  constructor
  · refine (fails_cleanly_iff (scattered_typed 254) (c := .addRange 0x1000000 0x1000) trivial
      (by simp)).mpr ?_
    show (scattered 254).memIndex.toNat < 255
    decide +kernel
  · refine (fails_cleanly_iff (scattered_typed 254) (c := .reserveRange 0x2000 0x1000 frameUsed)
      (Or.inl rfl) (by simp)).mpr ?_
    show rowsWanted (scattered 254) 0x2000 0x1000 = 2 → _
    have hexact : rowsWanted (scattered 254) 0x2000 0x1000 = 0 := by decide +kernel
    omega

/-- With 255 rows in use, one more range empties the table, and `Alloc` hands out a page that stays
free. -/
theorem scattered_fails_badly :
    typedSystem.Reachable (scattered 255) ∧
      ¬ FailsCleanly (scattered 255) (.addRange 0x1000000 0x1000) ∧
      ¬ FailsCleanly (scattered 255) (.alloc frameNoLimit 0x1000 frameUsed) := by
  have hfull : (scattered 255).memIndex.toNat = 255 := by decide +kernel
  refine ⟨scattered_typed 255, fun hclean => ?_, fun hclean => ?_⟩
  · have hgrows : (scattered 255).memIndex.toNat ≤
        (addRange (scattered 255) 0x1000000 0x1000).memIndex.toNat := hclean.grows
    have hempty : (addRange (scattered 255) 0x1000000 0x1000).memIndex.toNat = 0 := by
      decide +kernel
    omega
  · have hresult : (Call.alloc frameNoLimit 0x1000 frameUsed).result (scattered 255) = 0x1fc000 := by
      decide +kernel
    have hrecorded := hclean.recorded frameNoLimit 0x1000 frameUsed rfl (by rw [hresult]; decide)
    rw [hresult] at hrecorded
    refine hrecorded 0x1fc (by decide) ⟨254, ?_, ?_, ?_⟩
    · decide +kernel
    · decide +kernel
    · decide +kernel

end Frame
end Loader
end ZineOS
