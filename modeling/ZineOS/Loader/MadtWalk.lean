import ZineOS.Loader.Acpi
import ZineOS.Lib.RecordWalk

/-!
# The sub-tables of a MADT

The loop of `ParseMadt` adds up length bytes from the table in a counter of 32 bits, and goes on as
long as the counter is below the length field.  It looks at the start of a sub-table only: what it
then prints may lie behind the end, a Local APIC counts before its length is known, and near 4 GB
the counter wraps around and the loop walks on from the front.

* `Visits` lists the sub-tables of a loop that ends, `chain` those the format has, without any bound
  on the numbers; `visits_iff` compares the two.
* **`madt_walk_iff`** — the loop ends, stays inside and counts the complete Local APICs exactly when
  the chain fits the table.
-/

namespace ZineOS
namespace Loader
namespace Acpi

open Lib

/-- `madt_ptr->length`. -/
def madtLength (m : Mem) (madt : Word32) : Word32 := load32 m (madt + 4)

/-- `sub_table_ptr->type` at counter `c`. -/
def typeAt (m : Mem) (madt c : Word32) : Byte := load8 m (madt + c)

/-- `sub_table_ptr->length` at counter `c`. -/
def lengthAt (m : Mem) (madt c : Word32) : Byte := load8 m (madt + c + 1)

/-- The bytes of a sub-table that are read: the type, the length, and the fields that are printed of
a Local APIC, an IO APIC and an interrupt source override. -/
def bytesRead (type : Byte) : List Nat :=
  if type = 0 then [0, 1, 3, 4, 5, 6, 7]
  else if type = 1 then [0, 1, 2, 4, 5, 6, 7, 8]
  else if type = 2 then [0, 1, 3, 4, 5, 6, 7]
  else [0, 1]

/-- How far they reach. -/
def extent (type : Byte) : Nat := if type = 1 then 9 else if type = 0 ∨ type = 2 then 8 else 2

theorem forall_bytesRead_iff {type : Byte} {p stop : Nat} :
    (∀ k ∈ bytesRead type, p + k < stop) ↔ p + extent type ≤ stop := by
  unfold bytesRead extent
  by_cases h0 : type = 0
  · subst h0
    simp
    omega
  · by_cases h1 : type = 1
    · subst h1
      simp
      omega
    · by_cases h2 : type = 2
      · subst h2
        simp
        omega
      · simp only [h0, h1, h2, if_false, or_self]
        simp
        omega

/-- The sub-tables that the loop visits from counter `c` on, if it ends. -/
inductive Visits (m : Mem) (madt : Word32) : Word32 → List Word32 → Prop
  | stop {c} (h : madtLength m madt ≤ c) : Visits m madt c []
  | zero {c} (h : ¬ madtLength m madt ≤ c) (hzero : lengthAt m madt c = 0) : Visits m madt c [c]
  | next {c l} (h : ¬ madtLength m madt ≤ c) (hlength : lengthAt m madt c ≠ 0)
      (rest : Visits m madt (c + (lengthAt m madt c).setWidth 32) l) : Visits m madt c (c :: l)

variable {m : Mem} {madt c n : Word32} {l : List Word32}

/-! ## The loop and what it visits -/

theorem setWidth_eq_zero_iff {b : Byte} : b.setWidth 32 = (0 : Word32) ↔ b = 0 := by
  rw [← BitVec.toNat_inj, ← BitVec.toNat_inj, BitVec.toNat_setWidth_of_le (by decide)]
  rfl

/-- The counter of Local APICs after a loop that visits these sub-tables. -/
def countFrom (m : Mem) (madt n : Word32) (l : List Word32) : Word32 :=
  n + BitVec.ofNat 32 (l.countP fun c => typeAt m madt c = localApic)

/-- One round of the loop at `madt + c`. -/
theorem madtLoop_succ (fuel : Nat) : madtLoop m madt (fuel + 1) c (madt + c) n =
    if madtLength m madt ≤ c then some n
    else if lengthAt m madt c = 0 then some (countFrom m madt n [c])
    else madtLoop m madt fuel (c + (lengthAt m madt c).setWidth 32)
      (madt + (c + (lengthAt m madt c).setWidth 32)) (countFrom m madt n [c]) := by
  have hcount : (if load8 m (madt + c) = localApic then n + 1 else n) = countFrom m madt n [c] := by
    unfold countFrom typeAt
    by_cases hapic : load8 m (madt + c) = localApic
    · simp [hapic]
    · simp [hapic]
  rw [madtLoop]
  simp only [hcount, setWidth_eq_zero_iff, ← BitVec.add_assoc]
  rfl

theorem countFrom_cons : countFrom m madt (countFrom m madt n [c]) l = countFrom m madt n (c :: l) := by
  have hsplit : c :: l = [c] ++ l := rfl
  unfold countFrom
  rw [hsplit, List.countP_append, BitVec.ofNat_add, BitVec.add_assoc]

/-- **The loop returns** exactly when there is a list of what it visits. -/
theorem madtLoop_iff {k : Word32} :
    (∃ fuel, madtLoop m madt fuel c (madt + c) n = some k) ↔
      ∃ l, Visits m madt c l ∧ countFrom m madt n l = k := by
  constructor
  · rintro ⟨fuel, h⟩
    induction fuel generalizing c n with
    | zero => cases h
    | succ fuel ih =>
        rw [madtLoop_succ] at h
        split_ifs at h with hend hzero
        · cases h
          exact ⟨[], .stop hend, by simp [countFrom]⟩
        · cases h
          exact ⟨[c], .zero hend hzero, rfl⟩
        · obtain ⟨l, hl, hk⟩ := ih h
          exact ⟨c :: l, .next hend hzero hl, countFrom_cons.symm.trans hk⟩
  · rintro ⟨l, hl, rfl⟩
    induction hl generalizing n with
    | stop hend =>
        refine ⟨1, ?_⟩
        rw [madtLoop_succ, if_pos hend]
        simp [countFrom]
    | zero hend hzero =>
        refine ⟨1, ?_⟩
        rw [madtLoop_succ, if_neg hend, if_pos hzero]
    | @next c l hend hlength rest ih =>
        obtain ⟨fuel, hfuel⟩ := @ih (countFrom m madt n [c])
        refine ⟨fuel + 1, ?_⟩
        rw [madtLoop_succ, if_neg hend, if_neg hlength, hfuel, countFrom_cons]

theorem visits_of_le (h : madtLength m madt ≤ c) : Visits m madt c l ↔ l = [] := by
  constructor
  · intro hv
    cases hv with
    | stop _ => rfl
    | zero hlt _ => exact absurd h hlt
    | next hlt _ _ => exact absurd h hlt
  · rintro rfl
    exact .stop h

theorem visits_of_zero (h : ¬ madtLength m madt ≤ c) (hzero : lengthAt m madt c = 0) :
    Visits m madt c l ↔ l = [c] := by
  constructor
  · intro hv
    cases hv with
    | stop hend => exact absurd hend h
    | zero _ _ => rfl
    | next _ hlength _ => exact absurd hzero hlength
  · rintro rfl
    exact .zero h hzero

theorem visits_of_ne_zero (h : ¬ madtLength m madt ≤ c) (hlength : lengthAt m madt c ≠ 0) :
    Visits m madt c l ↔
      ∃ l', l = c :: l' ∧ Visits m madt (c + (lengthAt m madt c).setWidth 32) l' := by
  constructor
  · intro hv
    cases hv with
    | stop hend => exact absurd hend h
    | zero _ hzero => exact absurd hzero hlength
    | next _ _ rest => exact ⟨_, rfl, rest⟩
  · rintro ⟨l', rfl, rest⟩
    exact .next h hlength rest

/-! ## No sub-table is visited twice -/

theorem Visits.unique {l' : List Word32} (h : Visits m madt c l) (h' : Visits m madt c l') :
    l = l' := by
  induction h generalizing l' with
  | stop hend => exact ((visits_of_le hend).mp h').symm
  | zero hlt hzero => exact ((visits_of_zero hlt hzero).mp h').symm
  | next hlt hlength _ ih =>
      obtain ⟨rest, rfl, hrest⟩ := (visits_of_ne_zero hlt hlength).mp h'
      rw [ih hrest]

theorem Visits.lt (h : Visits m madt c l) : ∀ d ∈ l, d.toNat < (madtLength m madt).toNat := by
  induction h with
  | stop _ => exact fun d hd => absurd hd List.not_mem_nil
  | zero hlt _ =>
      intro d hd
      rw [List.mem_singleton.mp hd]
      exact Nat.lt_of_not_le hlt
  | next hlt _ _ ih =>
      intro d hd
      rcases List.mem_cons.mp hd with rfl | hlater
      · exact Nat.lt_of_not_le hlt
      · exact ih d hlater

/-- From every sub-table on, the loop visits the rest of the list. -/
theorem Visits.from (h : Visits m madt c l) : ∀ d ∈ l, ∃ l', Visits m madt d l' ∧
    l'.length ≤ l.length := by
  induction h with
  | stop _ => exact fun d hd => absurd hd List.not_mem_nil
  | zero hlt hzero =>
      intro d hd
      rw [List.mem_singleton.mp hd]
      exact ⟨_, .zero hlt hzero, le_rfl⟩
  | next hlt hlength rest ih =>
      intro d hd
      rcases List.mem_cons.mp hd with rfl | hlater
      · exact ⟨_, .next hlt hlength rest, le_rfl⟩
      · obtain ⟨l', hl', hle⟩ := ih d hlater
        exact ⟨l', hl', Nat.le_succ_of_le hle⟩

/-- A loop that comes back to a counter does not end. -/
theorem Visits.nodup (h : Visits m madt c l) : l.Nodup := by
  induction h with
  | stop _ => exact List.nodup_nil
  | zero _ _ => exact List.nodup_singleton _
  | next hlt hlength rest ih =>
      refine List.nodup_cons.mpr ⟨fun hagain => ?_, ih⟩
      obtain ⟨l', hl', hle⟩ := rest.from _ hagain
      rw [hl'.unique (.next hlt hlength rest), List.length_cons] at hle
      omega

theorem Visits.length_lt (h : Visits m madt c l) : l.length < 2 ^ 32 := by
  have hnodup : (l.map BitVec.toNat).Nodup := h.nodup.map fun _ _ => BitVec.eq_of_toNat_eq
  have hsub : l.map BitVec.toNat ⊆ List.range (madtLength m madt).toNat := by
    intro x hx
    obtain ⟨d, hd, rfl⟩ := List.mem_map.mp hx
    exact List.mem_range.mpr (h.lt d hd)
  have hle := (hnodup.subperm hsub).length_le
  rw [List.length_map, List.length_range] at hle
  exact lt_of_le_of_lt hle (madtLength m madt).isLt

/-! ## The chain of the format -/

/-- The length of the sub-table at offset `p`. -/
def lengthOf (m : Mem) (madt : Word32) (p : Nat) : Nat := (lengthAt m madt (BitVec.ofNat 32 p)).toNat

/-- The sub-tables that the lengths give from offset `p` on. -/
def chainFrom (m : Mem) (madt : Word32) (p : Nat) : List Nat :=
  walk (lengthOf m madt) (madtLength m madt).toNat p

/-- The sub-tables of the table. -/
def chain (m : Mem) (madt : Word32) : List Nat := chainFrom m madt 44

/-- The entry at offset `p` is a Local APIC that lies in the table as a whole. -/
structure IsComplete (m : Mem) (madt : Word32) (p : Nat) : Prop where
  type : typeAt m madt (BitVec.ofNat 32 p) = localApic
  size : 8 ≤ lengthOf m madt p
  inside : p + lengthOf m madt p ≤ (madtLength m madt).toNat

instance {p : Nat} : Decidable (IsComplete m madt p) :=
  decidable_of_iff (typeAt m madt (BitVec.ofNat 32 p) = localApic ∧ 8 ≤ lengthOf m madt p ∧
    p + lengthOf m madt p ≤ (madtLength m madt).toNat)
    ⟨fun h => ⟨h.1, h.2.1, h.2.2⟩, fun h => ⟨h.type, h.size, h.inside⟩⟩

/-- What the loop visits behind a part of the chain: nothing, unless the counter wraps around. -/
structure Behind (m : Mem) (madt : Word32) (part : List Nat) (l : List Word32) : Prop where
  wrapped : ∀ p ∈ part, 2 ^ 32 ≤ p + lengthOf m madt p →
    Visits m madt (BitVec.ofNat 32 (p + lengthOf m madt p)) l
  ended : (∀ p ∈ part, p + lengthOf m madt p < 2 ^ 32) → l = []

theorem behind_cons {p : Nat} {part : List Nat} (h : p + lengthOf m madt p < 2 ^ 32) :
    Behind m madt (p :: part) l ↔ Behind m madt part l := by
  constructor
  · intro hb
    refine ⟨fun q hq => hb.wrapped q (List.mem_cons_of_mem _ hq), fun hall => hb.ended ?_⟩
    exact List.forall_mem_cons.mpr ⟨h, hall⟩
  · intro hb
    refine ⟨List.forall_mem_cons.mpr ⟨fun hge => absurd hge (by omega), hb.wrapped⟩, ?_⟩
    exact fun hall => hb.ended (List.forall_mem_cons.mp hall).2

/-- **The loop follows the chain** until the counter wraps around. -/
theorem visits_iff {p : Nat} (hp : p < 2 ^ 32) : Visits m madt (BitVec.ofNat 32 p) l ↔
    ∃ l', l = (chainFrom m madt p).map (BitVec.ofNat 32) ++ l' ∧
      Behind m madt (chainFrom m madt p) l' := by
  have hlt := (madtLength m madt).isLt
  have hcounter : ∀ p, p < 2 ^ 32 →
      (madtLength m madt ≤ BitVec.ofNat 32 p ↔ (madtLength m madt).toNat ≤ p) := by
    intro p hp
    rw [BitVec.le_def, BitVec.toNat_ofNat, Nat.mod_eq_of_lt hp]
  have hnext : ∀ p, BitVec.ofNat 32 p + (lengthAt m madt (BitVec.ofNat 32 p)).setWidth 32 =
      BitVec.ofNat 32 (p + lengthOf m madt p) := by
    intro p
    rw [BitVec.ofNat_add, lengthOf, BitVec.ofNat_toNat]
  revert hp l
  refine @walk_induction (lengthOf m madt) (madtLength m madt).toNat
    (fun p part => ∀ {l}, p < 2 ^ 32 → (Visits m madt (BitVec.ofNat 32 p) l ↔
      ∃ l', l = part.map (BitVec.ofNat 32) ++ l' ∧ Behind m madt part l')) ?_ ?_ ?_ p
  · intro p hend l hp
    rw [visits_of_le ((hcounter p hp).mpr hend)]
    constructor
    · rintro rfl
      exact ⟨[], rfl, nofun, fun _ => rfl⟩
    · rintro ⟨l', rfl, hbehind⟩
      rw [hbehind.ended nofun]
  · intro p hin hzero l hp
    have hnot : ¬ madtLength m madt ≤ BitVec.ofNat 32 p := by
      rw [hcounter p hp]
      omega
    have hstay : p + lengthOf m madt p < 2 ^ 32 := by omega
    rw [visits_of_zero hnot (BitVec.eq_of_toNat_eq hzero)]
    simp only [behind_cons hstay]
    constructor
    · rintro rfl
      exact ⟨[], rfl, nofun, fun _ => rfl⟩
    · rintro ⟨l', rfl, hbehind⟩
      rw [hbehind.ended nofun]
      rfl
  · intro p hin hpos ih l hp
    have hnot : ¬ madtLength m madt ≤ BitVec.ofNat 32 p := by
      rw [hcounter p hp]
      omega
    have hlength : lengthAt m madt (BitVec.ofNat 32 p) ≠ 0 := by
      intro hzero
      rw [lengthOf, hzero] at hpos
      exact absurd hpos (by decide)
    rw [visits_of_ne_zero hnot hlength, hnext]
    rcases Nat.lt_or_ge (p + lengthOf m madt p) (2 ^ 32) with hstay | hwrap
    · simp only [behind_cons hstay, ih hstay]
      constructor
      · rintro ⟨_, rfl, l', rfl, hbehind⟩
        exact ⟨l', rfl, hbehind⟩
      · rintro ⟨l', rfl, hbehind⟩
        exact ⟨_, rfl, l', rfl, hbehind⟩
    · -- this was the last sub-table of the chain
      rw [walk_of_le (by omega)]
      constructor
      · rintro ⟨l', rfl, hrest⟩
        refine ⟨l', rfl, ?_, fun hall => ?_⟩
        · intro q hq _
          rw [List.mem_singleton.mp hq]
          exact hrest
        · have hlast := hall p List.mem_cons_self
          omega
      · rintro ⟨l', rfl, hbehind⟩
        exact ⟨l', rfl, hbehind.wrapped p List.mem_cons_self hwrap⟩

/-! ## When the loop is right -/

/-- What the loop reads of the sub-table at counter `c` lies in the table. -/
def Inside (m : Mem) (madt c : Word32) : Prop :=
  ∀ k ∈ bytesRead (typeAt m madt c), c.toNat + k < (madtLength m madt).toNat

/-- The loop ends, has read no byte behind the end of the table, neither of the length field that the
counter is compared with nor of a sub-table, and has counted the complete Local APICs of the chain. -/
structure WalkCorrect (m : Mem) (madt : Word32) : Prop where
  field : ∀ k < 4, 4 + k < (madtLength m madt).toNat
  inside : ∃ l, Visits m madt sizeofMadt l ∧ ∀ c ∈ l, Inside m madt c
  counted : ∃ fuel cpuCount, countProcessors m fuel madt = some cpuCount ∧
    cpuCount.toNat = (chain m madt).countP fun p => IsComplete m madt p

/-- The sub-table at offset `p` lies in the table, as far as it is read, and is not a Local APIC. -/
structure Harmless (m : Mem) (madt : Word32) (p : Nat) : Prop where
  inside : p + extent (typeAt m madt (BitVec.ofNat 32 p)) ≤ (madtLength m madt).toNat
  type : typeAt m madt (BitVec.ofNat 32 p) ≠ localApic

/-- The lengths lead from offset `p` to an end, as often as they go around at 4 GB, and all that lies
on the way is harmless. -/
inductive Quiet (m : Mem) (madt : Word32) : Nat → Prop
  | last {p} (harmless : ∀ r ∈ chainFrom m madt p, Harmless m madt r)
      (stays : ∀ q ∈ chainFrom m madt p, q + lengthOf m madt q < 2 ^ 32) : Quiet m madt p
  | around {p q} (harmless : ∀ r ∈ chainFrom m madt p, Harmless m madt r)
      (hq : q ∈ chainFrom m madt p) (hwrap : 2 ^ 32 ≤ q + lengthOf m madt q)
      (rest : Quiet m madt (q + lengthOf m madt q - 2 ^ 32)) : Quiet m madt p

/-- The table has a length field, and its chain is one that the loop can read: what it reads of a
sub-table lies in the table, Local APICs are complete, and the counter does not wrap around, or
nothing comes of it. -/
structure ChainFits (m : Mem) (madt : Word32) : Prop where
  field : 8 ≤ (madtLength m madt).toNat
  inside : ∀ p ∈ chain m madt,
    p + extent (typeAt m madt (BitVec.ofNat 32 p)) ≤ (madtLength m madt).toNat
  complete : ∀ p ∈ chain m madt, typeAt m madt (BitVec.ofNat 32 p) = localApic →
    IsComplete m madt p
  wrap : ∀ p ∈ chain m madt, 2 ^ 32 ≤ p + lengthOf m madt p →
    Quiet m madt (p + lengthOf m madt p - 2 ^ 32)

theorem lt_of_mem_chainFrom {p q : Nat} (hq : q ∈ chainFrom m madt p) : q < 2 ^ 32 :=
  (mem_walk hq).2.trans (madtLength m madt).isLt

theorem inside_iff {p : Nat} (hp : p < 2 ^ 32) : Inside m madt (BitVec.ofNat 32 p) ↔
    p + extent (typeAt m madt (BitVec.ofNat 32 p)) ≤ (madtLength m madt).toNat := by
  unfold Inside
  rw [BitVec.toNat_ofNat, Nat.mod_eq_of_lt hp]
  exact forall_bytesRead_iff

/-- Where the counter is when it has gone around. -/
theorem counter_around {p : Nat} (h : 2 ^ 32 ≤ p) :
    BitVec.ofNat 32 p = BitVec.ofNat 32 (p - 2 ^ 32) := by
  apply BitVec.eq_of_toNat_eq
  rw [BitVec.toNat_ofNat, BitVec.toNat_ofNat]
  omega

theorem around_lt {p q : Nat} (hq : q ∈ chainFrom m madt p) :
    q + lengthOf m madt q - 2 ^ 32 < 2 ^ 32 := by
  have hlt := lt_of_mem_chainFrom hq
  have hlength : lengthOf m madt q < 2 ^ 8 := BitVec.isLt _
  omega

/-- Only the last sub-table reaches over 4 GB. -/
theorem eq_of_wrap {p q q' : Nat} (hq : q ∈ chainFrom m madt p) (hq' : q' ∈ chainFrom m madt p)
    (hge : 2 ^ 32 ≤ q + lengthOf m madt q) (hge' : 2 ^ 32 ≤ q' + lengthOf m madt q') : q' = q := by
  have hlt := lt_of_mem_chainFrom hq
  have hlt' := lt_of_mem_chainFrom hq'
  by_contra hne
  rcases Nat.lt_or_gt_of_ne hne with hless | hmore
  · have hend := walk_separated hq' hq hless
    omega
  · have hend := walk_separated hq hq' hmore
    omega

/-- A loop behind a chain that goes around at `q`. -/
theorem behind_of_wrap {p q : Nat} (hq : q ∈ chainFrom m madt p)
    (hge : 2 ^ 32 ≤ q + lengthOf m madt q) :
    Behind m madt (chainFrom m madt p) l ↔
      Visits m madt (BitVec.ofNat 32 (q + lengthOf m madt q - 2 ^ 32)) l := by
  rw [← counter_around hge]
  constructor
  · exact fun hb => hb.wrapped q hq hge
  · refine fun hv => ⟨fun q' hq' hge' => ?_, fun hall => ?_⟩
    · rw [eq_of_wrap hq hq' hge hge']
      exact hv
    · have hlast := hall q hq
      omega

theorem behind_of_stays {p : Nat}
    (h : ∀ q ∈ chainFrom m madt p, q + lengthOf m madt q < 2 ^ 32) :
    Behind m madt (chainFrom m madt p) l ↔ l = [] := by
  constructor
  · exact fun hb => hb.ended h
  · exact fun hl => ⟨fun q hq hge => absurd hge (Nat.not_le.mpr (h q hq)), fun _ => hl⟩

/-- What the loop visits on a quiet way. -/
theorem Quiet.visits {p : Nat} (h : Quiet m madt p) (hp : p < 2 ^ 32) :
    ∃ l, Visits m madt (BitVec.ofNat 32 p) l ∧
      ∀ d ∈ l, Inside m madt d ∧ typeAt m madt d ≠ localApic := by
  have hchain : ∀ p, (∀ q ∈ chainFrom m madt p, Harmless m madt q) →
      ∀ d ∈ (chainFrom m madt p).map (BitVec.ofNat 32),
        Inside m madt d ∧ typeAt m madt d ≠ localApic := by
    intro p hall d hd
    obtain ⟨q, hq, rfl⟩ := List.mem_map.mp hd
    exact ⟨(inside_iff (lt_of_mem_chainFrom hq)).mpr (hall q hq).inside, (hall q hq).type⟩
  induction h with
  | last harmless stays =>
      refine ⟨_, (visits_iff hp).mpr ⟨[], rfl, (behind_of_stays stays).mpr rfl⟩, ?_⟩
      rw [List.append_nil]
      exact hchain _ harmless
  | around harmless hq hwrap rest ih =>
      obtain ⟨l', hl', hquiet⟩ := ih (around_lt hq)
      refine ⟨_, (visits_iff hp).mpr ⟨l', rfl, (behind_of_wrap hq hwrap).mpr hl'⟩, fun d hd => ?_⟩
      rcases List.mem_append.mp hd with hfirst | hlater
      · exact hchain _ harmless d hfirst
      · exact hquiet d hlater

/-- A loop that ends and visits nothing else has gone a quiet way. -/
theorem Visits.quiet {p : Nat} (h : Visits m madt (BitVec.ofNat 32 p) l) (hp : p < 2 ^ 32)
    (hall : ∀ d ∈ l, Inside m madt d ∧ typeAt m madt d ≠ localApic) : Quiet m madt p := by
  -- every time the counter goes around, less of the list is left
  induction hn : l.length using Nat.strong_induction_on generalizing p l with
  | _ n ih =>
      obtain ⟨l', rfl, hbehind⟩ := (visits_iff hp).mp h
      have hharmless : ∀ q ∈ chainFrom m madt p, Harmless m madt q := by
        intro q hq
        obtain ⟨hin, htype⟩ := hall _ (List.mem_append_left _ (List.mem_map_of_mem hq))
        exact ⟨(inside_iff (lt_of_mem_chainFrom hq)).mp hin, htype⟩
      by_cases hwrap : ∃ q ∈ chainFrom m madt p, 2 ^ 32 ≤ q + lengthOf m madt q
      · obtain ⟨q, hq, hge⟩ := hwrap
        have hpos := List.length_pos_of_mem hq
        refine .around hharmless hq hge (ih l'.length ?_ ((behind_of_wrap hq hge).mp hbehind)
          (around_lt hq) (fun d hd => hall d (List.mem_append_right _ hd)) rfl)
        rw [← hn, List.length_append, List.length_map]
        omega
      · push Not at hwrap
        exact .last hharmless hwrap

/-- What the loop visits behind a chain that fits. -/
theorem ChainFits.behind (h : ChainFits m madt) : ∃ l, Behind m madt (chain m madt) l ∧
    ∀ d ∈ l, Inside m madt d ∧ typeAt m madt d ≠ localApic := by
  by_cases hwrap : ∃ p ∈ chain m madt, 2 ^ 32 ≤ p + lengthOf m madt p
  · obtain ⟨p, hp, hge⟩ := hwrap
    obtain ⟨l, hl, hquiet⟩ := (h.wrap p hp hge).visits (around_lt hp)
    exact ⟨l, (behind_of_wrap hp hge).mpr hl, hquiet⟩
  · push Not at hwrap
    exact ⟨[], (behind_of_stays hwrap).mpr rfl, nofun⟩

/-- Two predicates of which one implies the other are the same where they hold equally often. -/
theorem forall_of_countP_eq {α : Type*} {p q : α → Prop} [DecidablePred p] [DecidablePred q]
    {l : List α} (himp : ∀ x, p x → q x) (h : l.countP (fun x => q x) = l.countP (fun x => p x)) :
    ∀ x ∈ l, q x → p x := by
  have hsub : (l.filter fun x => p x).Sublist (l.filter fun x => q x) :=
    List.monotone_filter_right l fun x hx => decide_eq_true (himp x (of_decide_eq_true hx))
  rw [List.countP_eq_length_filter, List.countP_eq_length_filter] at h
  have heq := hsub.eq_of_length h.symm
  intro x hx hq
  have hmem : x ∈ l.filter (fun x => q x) := List.mem_filter.mpr ⟨hx, decide_eq_true hq⟩
  rw [← heq] at hmem
  exact of_decide_eq_true (List.mem_filter.mp hmem).2

/-- The number of Local APICs is that of the chain and of what is visited behind it. -/
theorem toNat_countFrom {l l' : List Word32} (h : Visits m madt sizeofMadt l)
    (hsplit : l = (chain m madt).map (BitVec.ofNat 32) ++ l') :
    (countFrom m madt 0 l).toNat =
      (chain m madt).countP (fun p => typeAt m madt (BitVec.ofNat 32 p) = localApic) +
        l'.countP fun c => typeAt m madt c = localApic := by
  have hlt := lt_of_le_of_lt (List.countP_le_length (p := fun c => typeAt m madt c = localApic))
    h.length_lt
  unfold countFrom
  rw [zero_add, BitVec.toNat_ofNat, Nat.mod_eq_of_lt hlt, hsplit, List.countP_append,
    List.countP_map]
  rfl

/-- **When the walk through a MADT is right.**  For every memory and every table, with any length
field. -/
theorem madt_walk_iff (m : Mem) (madt : Word32) : WalkCorrect m madt ↔ ChainFits m madt := by
  have hloop : ∀ k, (∃ fuel, countProcessors m fuel madt = some k) ↔
      ∃ l, Visits m madt sizeofMadt l ∧ countFrom m madt 0 l = k := fun k => madtLoop_iff
  have hsplit : ∀ l, Visits m madt sizeofMadt l ↔
      ∃ l', l = (chain m madt).map (BitVec.ofNat 32) ++ l' ∧ Behind m madt (chain m madt) l' :=
    fun l => visits_iff (p := 44) (by decide)
  constructor
  · rintro ⟨hfield, ⟨l, hl, hinside⟩, fuel, k, hk, hcount⟩
    obtain ⟨l₂, hl₂, rfl⟩ := (hloop k).mp ⟨fuel, hk⟩
    rw [hl₂.unique hl] at hcount
    obtain ⟨l', hl', hbehind⟩ := (hsplit l).mp hl
    rw [toNat_countFrom hl hl'] at hcount
    -- an incomplete Local APIC, or one behind the chain, would be counted too many
    have hle := List.countP_mono_left (l := chain m madt)
      (p := fun p => decide (IsComplete m madt p))
      (q := fun p => decide (typeAt m madt (BitVec.ofNat 32 p) = localApic))
      fun p _ hp => decide_eq_true (of_decide_eq_true hp).type
    have hnone : l'.countP (fun c => typeAt m madt c = localApic) = 0 := by omega
    refine ⟨hfield 3 (by decide), fun p hp => ?_, ?_, fun p hp hge =>
      ((behind_of_wrap hp hge).mp hbehind).quiet (around_lt hp) fun d hd => ?_⟩
    · refine (inside_iff (lt_of_mem_chainFrom hp)).mp (hinside _ ?_)
      rw [hl']
      exact List.mem_append_left _ (List.mem_map_of_mem hp)
    · exact forall_of_countP_eq (fun p hp => hp.type) (by omega)
    · refine ⟨hinside d (hl' ▸ List.mem_append_right _ hd), ?_⟩
      exact of_decide_eq_false (by simpa using List.countP_eq_zero.mp hnone d hd)
  · intro hfits
    obtain ⟨l', hbehind, hquiet⟩ := hfits.behind
    have hl := (hsplit _).mpr ⟨l', rfl, hbehind⟩
    have hfield := hfits.field
    refine ⟨fun k hk => by omega, ⟨_, hl, fun c hc => ?_⟩, ?_⟩
    · rcases List.mem_append.mp hc with hchain | hbehind
      · obtain ⟨p, hp, rfl⟩ := List.mem_map.mp hchain
        exact (inside_iff (lt_of_mem_chainFrom hp)).mpr (hfits.inside p hp)
      · exact (hquiet c hbehind).1
    · obtain ⟨fuel, hfuel⟩ := (hloop _).mpr ⟨_, hl, rfl⟩
      refine ⟨fuel, _, hfuel, ?_⟩
      have hnone : l'.countP (fun c => typeAt m madt c = localApic) = 0 :=
        List.countP_eq_zero.mpr fun d hd => by simpa using (hquiet d hd).2
      rw [toNat_countFrom hl rfl, hnone, Nat.add_zero]
      refine List.countP_congr fun p hp => ?_
      simp only [decide_eq_true_eq]
      exact ⟨hfits.complete p hp, IsComplete.type⟩

/-- A table at `0x1000` with the given length field and these bytes from offset 44 on. -/
def madtWith (length : Nat) (bytes : List Byte) : Mem :=
  Mem.store (fun x => if 0x102C ≤ x then bytes.getD (x - 0x102C) 0 else 0) 0x1004 4 length

/-- A Local APIC, an IO APIC, an interrupt source override and a Local APIC. -/
def twoProcessors : Mem := madtWith 82 [0, 8, 0, 0, 1, 0, 0, 0,
  1, 12, 2, 0, 0, 0, 0xC0, 0xFE, 0, 0, 0, 0, 2, 10, 0, 0, 2, 0, 0, 0, 0, 0, 0, 8, 1, 1, 1, 0, 0, 0]

/-- One Local APIC, but the table ends behind the first two bytes of it. -/
def truncated : Mem := madtWith 46 [0, 8, 0, 0, 1, 0, 0, 0]

theorem chainFrom_next {p n : Nat} (hlength : lengthOf m madt p = n)
    (hp : p < (madtLength m madt).toNat) (hn : 0 < n) :
    chainFrom m madt p = p :: chainFrom m madt (p + n) := by
  subst hlength
  exact walk_of_pos hp hn

theorem chainFrom_end {p : Nat} (hp : (madtLength m madt).toNat ≤ p) : chainFrom m madt p = [] :=
  walk_of_le hp

theorem twoProcessors_chain : chain twoProcessors 0x1000 = [44, 52, 64, 74] := by
  have hlength : madtLength twoProcessors 0x1000 = 82 := by decide +kernel
  unfold chain
  rw [chainFrom_next (n := 8) (by decide +kernel) (by rw [hlength]; decide) (by decide),
    chainFrom_next (n := 12) (by decide +kernel) (by rw [hlength]; decide) (by decide),
    chainFrom_next (n := 10) (by decide +kernel) (by rw [hlength]; decide) (by decide),
    chainFrom_next (n := 8) (by decide +kernel) (by rw [hlength]; decide) (by decide),
    chainFrom_end (by rw [hlength]; decide)]

/-- Both processors are counted. -/
theorem twoProcessors_counted : (chain twoProcessors 0x1000).countP
      (fun p => IsComplete twoProcessors 0x1000 p) = 2 ∧ WalkCorrect twoProcessors 0x1000 := by
  rw [madt_walk_iff, twoProcessors_chain]
  refine ⟨by decide +kernel, by decide +kernel, ?_, ?_, ?_⟩
  · rw [twoProcessors_chain]
    decide +kernel
  · rw [twoProcessors_chain]
    decide +kernel
  · have hshort : ∀ p ∈ [44, 52, 64, 74], p + lengthOf twoProcessors 0x1000 p < 2 ^ 32 := by
      decide +kernel
    rw [twoProcessors_chain]
    exact fun p hp hge => absurd hge (Nat.not_le_of_lt (hshort p hp))

/-- The truncated entry is read beyond the end, and counted although no complete one is there. -/
theorem truncated_counted : countProcessors truncated 2 0x1000 = some 1 ∧
    (chain truncated 0x1000).countP (fun p => IsComplete truncated 0x1000 p) = 0 ∧
      ¬ WalkCorrect truncated 0x1000 := by
  have hchain : chain truncated 0x1000 = [44] := by
    unfold chain
    rw [chainFrom_next (n := 8) (by decide +kernel) (by decide +kernel) (by decide),
      chainFrom_end (by decide +kernel)]
  refine ⟨by decide +kernel, ?_, ?_⟩
  · rw [hchain]
    decide +kernel
  · rintro ⟨-, ⟨l, hl, hinside⟩, -⟩
    obtain ⟨l', rfl, -⟩ := (visits_of_ne_zero (by decide +kernel) (by decide +kernel)).mp hl
    have hlast := hinside _ List.mem_cons_self 7 (by decide +kernel)
    exact absurd hlast (by decide +kernel)

end Acpi
end Loader
end ZineOS
