import ZineOS.Loader.FrameRows
import ZineOS.Lib.Transition

/-!
# Runs of the frame allocator

The four operations as one transition system, from the zero-initialised table.  A call is allowed
when the table has two spare rows (`mem_index <= 253`) and nothing it computes wraps; `AddRange` may
only be given pages that are not tracked yet, and the type is one of the two that
`Frame::ReserveRange` documents.

`frameTable_refines_pageMap` is the statement that the table is a faithful page map along every such
run.
-/

namespace ZineOS
namespace Loader
namespace Frame

open Lib

/-- A call of the allocator's interface. -/
inductive Call where
  | addRange (addr length : Word64)
  | reserveRange (addr length type : Word64)
  | alloc (maxAddr size type : Word64)
  | free (frame : Word32)
deriving DecidableEq, Repr

def Call.run (t : Table) : Call → Table
  | .addRange addr length => Frame.addRange t addr length
  | .reserveRange addr length type => Frame.reserveRange t addr length type
  | .alloc maxAddr size type => (Frame.alloc t maxAddr size type).2
  | .free frame => Frame.free t frame

/-- The types a caller may ask for. -/
def IsReserveType (type : Word64) : Prop := type = frameUsed ∨ type = frameAvailable

/-- The pages lying wholly inside `[addr, addr + length)`. -/
def Inside (addr length p : Nat) : Prop := addr ≤ p * 0x1000 ∧ p * 0x1000 + 0x1000 ≤ addr + length

instance (addr length p : Nat) : Decidable (Inside addr length p) :=
  inferInstanceAs (Decidable (_ ∧ _))

/-- The pages that `[addr, addr + length)` rounded outward consists of. -/
def Requested (addr length p : Nat) : Prop :=
  pageDown addr ≤ p * 0x1000 ∧ p * 0x1000 < pageUp (addr + length)

instance (addr length p : Nat) : Decidable (Requested addr length p) :=
  inferInstanceAs (Decidable (_ ∧ _))

/-- No sum or rounding that the call computes wraps past `2^64`. -/
def Call.NoWrap (t : Table) : Call → Prop
  | .addRange addr length =>
      addr.toNat + 0xfff < 2 ^ 64 ∧ addr.toNat + length.toNat < 2 ^ 64
  | .reserveRange addr length _ => addr.toNat + length.toNat + 0xfff < 2 ^ 64
  | .alloc maxAddr size _ =>
      size.toNat + 0xfff < 2 ^ 64 ∧
        -- the call of `ReserveRange` that `Alloc` makes at the row it chose
        ∀ i, allocFind t maxAddr (align size 0x1000) = some i →
          (allocStart t i).toNat + (align size 0x1000).toNat < 2 ^ 64
  | .free _ => True

/-- What a caller promises about the arguments. -/
def Call.Promised (t : Table) : Call → Prop
  | .addRange addr length =>
      ∀ p, Inside addr.toNat length.toNat p → t.pageStatus p = none
  | .reserveRange _ _ type => IsReserveType type
  | .alloc _ _ type => IsReserveType type
  | .free _ => True

def Call.Allowed (t : Table) (c : Call) : Prop :=
  t.memIndex.toNat ≤ 253 ∧ c.NoWrap t ∧ c.Promised t

/-- Runs of allowed calls from the empty table. -/
def frameSystem : System Table Call := System.ofCalls empty Call.run Call.Allowed

theorem IsReserveType.exists_status {type : Word64} (h : IsReserveType type) :
    ∃ st : Status, st ≠ .free ∧ type = st.flag := by
  rcases h with rfl | rfl
  · exact ⟨.used, by decide, rfl⟩
  · exact ⟨.available, by decide, rfl⟩

theorem inv_empty : empty.Inv where
  ok := by simp [Table.live, empty]
  apart := by simp [Table.spans, Table.live, empty]

/-- The start of a row, cut to 32 bits, is still page aligned. -/
theorem toNat_allocStart_mod (t : Table) (i : Nat) : (allocStart t i).toNat % 0x1000 = 0 := by
  have hpage := pageDown_mod (t.gMem i).start.toNat
  rw [← toNat_frameClearFlags] at hpage
  unfold allocStart
  rw [BitVec.toNat_setWidth]
  omega

/-- `Alloc` computes an unwrapped request for `ReserveRange`. -/
theorem alloc_request_noWrap {t : Table} {i : Nat} {size : Word64}
    (h : (allocStart t i).toNat + (align size 0x1000).toNat < 2 ^ 64) :
    ((allocStart t i).setWidth 64).toNat + (align size 0x1000).toNat + 0xfff < 2 ^ 64 := by
  have hsize := toNat_align_mod size
  have hstart := toNat_allocStart_mod t i
  have hwide : ((allocStart t i).setWidth 64).toNat = (allocStart t i).toNat := by
    simp
    omega
  omega

/-- What an allowed call other than `AddRange` does: nothing, or it carves one row. -/
theorem carves_run {t : Table} (hinv : t.Inv) {c : Call} (hc : c.Allowed t)
    (hadd : ∀ addr length, c ≠ .addRange addr length) :
    c.run t = t ∨ ∃ e lo hi st, e.lo ≤ lo ∧ hi ≤ e.hi ∧ (c.run t).Inv ∧
      Carved t (c.run t) e lo hi st := by
  obtain ⟨hn, hwrap, hpromise⟩ := hc
  cases c with
  | addRange addr length => exact absurd rfl (hadd addr length)
  | reserveRange addr length type =>
      obtain ⟨st, -, rfl⟩ := hpromise.exists_status
      rcases reserveRange_cases hinv hn hwrap st with ⟨e, -, -, hlo, hhi, hinv', hc⟩ | ⟨-, heq⟩
      · exact Or.inr ⟨e, _, _, st, hlo, hhi, hinv', hc⟩
      · exact Or.inl heq
  | alloc maxAddr size type =>
      obtain ⟨st, -, rfl⟩ := hpromise.exists_status
      rcases alloc_cases t maxAddr size st.flag with ⟨i, -, hfind, -, heq⟩ | ⟨-, heq⟩
      · -- `Alloc` calls `ReserveRange` at the row it found
        have hrun := congrArg Prod.snd heq
        have hreq := alloc_request_noWrap (hwrap.2 i hfind)
        simp only [Call.run, hrun]
        rcases reserveRange_cases hinv hn hreq st with ⟨e, -, -, hlo, hhi, hinv', hc⟩ | ⟨-, hsame⟩
        · exact Or.inr ⟨e, _, _, st, hlo, hhi, hinv', hc⟩
        · exact Or.inl hsame
      · exact Or.inl (congrArg Prod.snd heq)
  | free frame =>
      rcases free_cases hinv frame with ⟨e, -, -, hinv', hc⟩ | ⟨-, heq⟩
      · exact Or.inr ⟨e, _, _, .free, le_rfl, le_rfl, hinv', hc⟩
      · exact Or.inl heq

/-- One allowed call keeps the invariant. -/
theorem inv_run {t : Table} (hinv : t.Inv) {c : Call} (hc : c.Allowed t) : (c.run t).Inv := by
  by_cases hadd : ∃ addr length, c = .addRange addr length
  · obtain ⟨addr, length, rfl⟩ := hadd
    obtain ⟨hn, hwrap, hpromise⟩ := hc
    exact inv_addRange hinv (by omega) hwrap.1 hwrap.2 fun p h1 h2 => hpromise p ⟨h1, h2⟩
  · rcases carves_run hinv hc fun a l heq => hadd ⟨a, l, heq⟩ with heq | ⟨_, _, _, _, -, -, h, -⟩
    · rw [heq]
      exact hinv
    · exact h

/-- No call but `AddRange` changes which pages are tracked. -/
theorem isSome_pageStatus_run {t : Table} (hinv : t.Inv) {c : Call} (hc : c.Allowed t)
    (hadd : ∀ addr length, c ≠ .addRange addr length) (p : Nat) :
    ((c.run t).pageStatus p).isSome = (t.pageStatus p).isSome := by
  rcases carves_run hinv hc hadd with heq | ⟨e, lo, hi, st, hlo, hhi, -, hcarved⟩
  · rw [heq]
  · exact hcarved.isSome_pageStatus hinv.apart hlo hhi p

/-- The invariant of the table along every run. -/
theorem inv_of_reachable {t : Table} (h : frameSystem.Reachable t) : t.Inv := by
  refine h.invariant (I := Table.Inv) ?_ ?_
  · rintro s rfl
    exact inv_empty
  · rintro s c s' - hinv ⟨hc, rfl⟩
    exact inv_run hinv hc

/-- No address lies in two rows in use. -/
theorem Table.Inv.row_unique {t : Table} (h : t.Inv) {i j x : Nat} (hi : i < t.memIndex.toNat)
    (hj : j < t.memIndex.toNat) (hxi : (t.gMem i).span.Covers x)
    (hxj : (t.gMem j).span.Covers x) : i = j := by
  have hget : ∀ k (hk : k < t.spans.length), t.spans[k] = (t.gMem k).span := by
    intro k hk
    simp [Table.spans, Table.live]
  have hpair := List.pairwise_iff_getElem.mp h.apart
  rcases Nat.lt_trichotomy i j with hlt | heq | hgt
  · have happart := hpair i j (by simpa using hi) (by simpa using hj) hlt
    rw [hget, hget] at happart
    exact absurd hxj (happart x hxi)
  · exact heq
  · have happart := hpair j i (by simpa using hj) (by simpa using hi) hgt
    rw [hget, hget] at happart
    exact absurd hxi (happart x hxj)

/-- **The frame table refines a page map.**  In every reachable table: no page lies in two rows in
use, and every row is page aligned with one status flag; only `AddRange` changes the set of tracked
pages, and it adds exactly the pages wholly inside its range, all free; `ReserveRange` gives exactly
the requested pages the requested status when one free row contains the rounded request, and changes
nothing otherwise. -/
theorem frameTable_refines_pageMap {t : Table} (h : frameSystem.Reachable t) :
    (∀ i j p, i < t.memIndex.toNat → j < t.memIndex.toNat →
      (t.gMem i).span.Covers (p * 0x1000) → (t.gMem j).span.Covers (p * 0x1000) → i = j) ∧
    (∀ e ∈ t.live, e.span.lo % 0x1000 = 0 ∧ e.stop.toNat % 0x1000 = 0 ∧
      e.start &&& frameFlags = e.status.flag) ∧
    (∀ addr length, (Call.addRange addr length).Allowed t → ∀ p,
      (addRange t addr length).pageStatus p =
        if Inside addr.toNat length.toNat p then some .free else t.pageStatus p) ∧
    (∀ c : Call, c.Allowed t → (∀ addr length, c ≠ .addRange addr length) →
      ∀ p, ((c.run t).pageStatus p).isSome = (t.pageStatus p).isSome) ∧
    (∀ (addr length : Word64) (st : Status), (Call.reserveRange addr length st.flag).Allowed t →
      ((∃ e ∈ t.live, e.status = .free ∧ e.span.lo ≤ pageDown addr.toNat ∧
          pageUp (addr.toNat + length.toNat) ≤ e.span.hi) →
        ∀ p, (reserveRange t addr length st.flag).pageStatus p =
          if Requested addr.toNat length.toNat p then some st else t.pageStatus p) ∧
      ((¬ ∃ e ∈ t.live, e.status = .free ∧ e.span.lo ≤ pageDown addr.toNat ∧
          pageUp (addr.toNat + length.toNat) ≤ e.span.hi) →
        reserveRange t addr length st.flag = t)) := by
  have hinv := inv_of_reachable h
  refine ⟨fun i j p hi hj => hinv.row_unique hi hj, fun e he => ?_,
    fun addr length hc => ?_, fun c hc hadd => isSome_pageStatus_run hinv hc hadd,
    fun addr length st hc => ?_⟩
  · refine ⟨?_, (hinv.ok e he).stop_aligned, (hinv.ok e he).flag⟩
    rw [show e.span.lo = pageDown e.start.toNat from toNat_frameClearFlags _]
    exact pageDown_mod _
  · exact pageStatus_addRange (lt_of_le_of_lt hc.1 (by decide)) hc.2.1.1 hc.2.1.2
      fun p h1 h2 => hc.2.2 p ⟨h1, h2⟩
  · have hfits : (∃ e ∈ t.live, e.status = .free ∧ e.span.lo ≤ pageDown addr.toNat ∧
        pageUp (addr.toNat + length.toNat) ≤ e.span.hi) ↔
        t.Fits (pageDown addr.toNat) (pageUp (addr.toNat + length.toNat)) := by
      simp only [Table.Fits, Table.spans, List.mem_map, exists_exists_and_eq_and]
      rfl
    rw [hfits]
    rcases reserveRange_cases hinv hc.1 hc.2.1 st with
      ⟨e, he, hfree, hlo, hhi, -, hcarved⟩ | ⟨hno, heq⟩
    · exact ⟨fun _ p => hcarved.pageStatus hinv.apart p,
        fun hno => absurd ⟨e, he, hfree, hlo, hhi⟩ hno⟩
    · exact ⟨fun hyes => absurd hyes hno, fun _ => heq⟩

/-- One megabyte at 16 MB, tracked and free. -/
def oneRange : Table := addRange empty 0x1000000 0x100000

theorem oneRange_reachable : frameSystem.Reachable oneRange := by
  refine System.Reachable.call (a := Call.addRange 0x1000000 0x100000) (.init rfl) ?_
  exact ⟨by decide, ⟨by decide, by decide⟩, fun p _ => rfl⟩

theorem oneRange_refines_pageMap :
    (reserveRange oneRange 0x1000800 0x1000 frameUsed).pageStatus 0x1001 = some .used ∧
      (reserveRange oneRange 0x1000800 0x1000 frameUsed).pageStatus 0x1002 = some .free := by
  have h := (frameTable_refines_pageMap oneRange_reachable).2.2.2.2 0x1000800 0x1000 .used
    ⟨by decide, by unfold Call.NoWrap; decide, Or.inl rfl⟩
  have hread := h.1 ⟨⟨0x1000001, 0x1100000⟩, by decide, by decide, by decide, by decide⟩
  exact ⟨(hread 0x1001).trans (by decide), (hread 0x1002).trans (by decide)⟩

end Frame
end Loader
end ZineOS
