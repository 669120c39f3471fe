import Mathlib

/-!
# Records that give their own lengths

A table of records, each of which says where the next one begins.  `walk` follows the lengths through
the table, without any bound on the numbers; a record of length zero ends it.  `strided` cuts the
table into records of one fixed size instead.

* `walk_separated` — the records do not overlap.
* **`strided_eq_walk_iff`** — a reader that does not look at the lengths finds the same data in both
  exactly when this is so behind the first record of another length.
-/

namespace ZineOS
namespace Lib

variable {β : Type*} {len len' : Nat → Nat} {stop p q w : Nat}

/-- The starts of the records in front of `stop`, from `p` on. -/
def walk (len : Nat → Nat) (stop p : Nat) : List Nat :=
  if _h : p < stop ∧ 0 < len p then p :: walk len stop (p + len p)
  else if p < stop then [p]
  else []
termination_by stop - p

theorem walk_of_le (h : stop ≤ p) : walk len stop p = [] := by
  rw [walk, dif_neg (by omega), if_neg (by omega)]

theorem walk_of_zero (h : p < stop) (hlen : len p = 0) : walk len stop p = [p] := by
  rw [walk, dif_neg (by omega), if_pos h]

theorem walk_of_pos (h : p < stop) (hlen : 0 < len p) :
    walk len stop p = p :: walk len stop (p + len p) := by
  rw [walk, dif_pos ⟨h, hlen⟩]

/-- **Induction along a walk.** -/
theorem walk_induction {motive : Nat → List Nat → Prop}
    (done : ∀ p, stop ≤ p → motive p [])
    (zero : ∀ p, p < stop → len p = 0 → motive p [p])
    (next : ∀ p, p < stop → 0 < len p → motive (p + len p) (walk len stop (p + len p)) →
      motive p (p :: walk len stop (p + len p))) (p : Nat) : motive p (walk len stop p) := by
  fun_induction walk len stop p with
  | case1 p h ih => exact next p h.1 h.2 ih
  | case2 p h hlt => exact zero p hlt (by omega)
  | case3 p h hge => exact done p (by omega)

theorem mem_walk (h : q ∈ walk len stop p) : p ≤ q ∧ q < stop := by
  revert h
  refine walk_induction (motive := fun p l => q ∈ l → p ≤ q ∧ q < stop) ?_ ?_ ?_ p
  · exact fun p _ h => absurd h List.not_mem_nil
  · rintro p hp - h
    rw [List.mem_singleton.mp h]
    exact ⟨le_rfl, hp⟩
  · rintro p hp - ih h
    rcases List.mem_cons.mp h with rfl | hlater
    · exact ⟨le_rfl, hp⟩
    · obtain ⟨hle, hlt⟩ := ih hlater
      exact ⟨by omega, hlt⟩

/-- The lengths of the records on the way decide the walk. -/
theorem walk_congr (h : ∀ q ∈ walk len stop p, len' q = len q) :
    walk len' stop p = walk len stop p := by
  revert h
  refine walk_induction
    (motive := fun p l => (∀ q ∈ l, len' q = len q) → walk len' stop p = l) ?_ ?_ ?_ p
  · exact fun p hp _ => walk_of_le hp
  · intro p hp hlen h
    exact walk_of_zero hp ((h p List.mem_cons_self).trans hlen)
  · intro p hp hlen ih h
    have hthis := h p List.mem_cons_self
    rw [walk_of_pos hp (by omega), hthis, ih fun q hq => h q (List.mem_cons_of_mem _ hq)]

/-- A later record begins behind the end of an earlier one. -/
theorem walk_separated {q' : Nat} (h : q ∈ walk len stop p) (h' : q' ∈ walk len stop p)
    (hlt : q < q') : q + len q ≤ q' := by
  revert h h'
  refine walk_induction
    (motive := fun p l => q ∈ l → q' ∈ l → q + len q ≤ q') ?_ ?_ ?_ p
  · exact fun p _ h => absurd h List.not_mem_nil
  · intro p _ _ h h'
    rw [List.mem_singleton.mp h, List.mem_singleton.mp h'] at hlt
    omega
  · intro p _ _ ih h h'
    rcases List.mem_cons.mp h' with rfl | hlater
    · -- nothing lies in front of the first record
      rcases List.mem_cons.mp h with rfl | hq
      · omega
      · have hle := (mem_walk hq).1
        omega
    · rcases List.mem_cons.mp h with rfl | hq
      · exact (mem_walk hlater).1
      · exact ih hq hlater

theorem walk_eq_nil_iff : walk len stop p = [] ↔ stop ≤ p := by
  rcases Nat.lt_or_ge p stop with hlt | hge
  · rcases Nat.eq_zero_or_pos (len p) with hzero | hpos
    · simp [walk_of_zero hlt hzero, hlt]
    · simp [walk_of_pos hlt hpos, hlt]
  · simp [walk_of_le hge, hge]

/-- A walk begins at its start. -/
theorem eq_of_walk_eq_cons {rest : List Nat} (h : walk len stop p = q :: rest) : q = p := by
  have hlt : p < stop := by
    by_contra hge
    rw [walk_of_le (by omega)] at h
    cases h
  rcases Nat.eq_zero_or_pos (len p) with hzero | hpos
  · rw [walk_of_zero hlt hzero] at h
    exact (List.cons.inj h).1.symm
  · rw [walk_of_pos hlt hpos] at h
    exact (List.cons.inj h).1.symm

/-- Behind a record the walk goes on at its end. -/
theorem walk_behind {before rest : List Nat} (h : walk len stop p = before ++ q :: rest)
    (hlen : 0 < len q) : walk len stop (q + len q) = rest := by
  revert before
  refine walk_induction (motive := fun _ l => ∀ {before : List Nat}, l = before ++ q :: rest →
    walk len stop (q + len q) = rest) ?_ ?_ ?_ p
  · intro p _ before h
    simp at h
  · intro p _ hzero before h
    cases before with
    | nil =>
        obtain ⟨rfl, -⟩ := List.cons.inj h
        omega
    | cons x before => simp at h
  · intro p _ _ ih before h
    cases before with
    | nil =>
        obtain ⟨rfl, hrest⟩ := List.cons.inj h
        exact hrest
    | cons x before => exact ih (List.cons.inj h).2

/-! ## Records of a fixed size -/

/-- The starts of the whole records of `w` bytes between `p` and `stop`. -/
def strided (w stop p : Nat) : List Nat := (List.range ((stop - p) / w)).map fun i => p + w * i

theorem strided_nil (h : stop - p < w) : strided w stop p = [] := by
  unfold strided
  rw [Nat.div_eq_of_lt h]
  rfl

theorem strided_cons (hw : 0 < w) (h : p + w ≤ stop) :
    strided w stop p = p :: strided w stop (p + w) := by
  have hcount : (stop - p) / w = (stop - (p + w)) / w + 1 := by
    rw [← Nat.sub_sub]
    exact Nat.div_eq_sub_div hw (by omega)
  unfold strided
  rw [hcount, List.range_succ_eq_map, List.map_cons, List.map_map]
  refine congrArg₂ List.cons (by omega) (List.map_congr_left fun i _ => ?_)
  show p + w * (i + 1) = p + w + w * i
  rw [Nat.mul_succ]
  omega

theorem mem_strided : q ∈ strided w stop p ↔ ∃ i < (stop - p) / w, p + w * i = q := by
  unfold strided
  simp only [List.mem_map, List.mem_range]

section Split

variable {α : Type*} {P : α → Prop} {R : α → List α → Prop} {x : α} {l : List α}

/-- The first element without `P`, when the list begins with one that has it. -/
theorem forall_split_cons_of_pos (hx : P x) :
    (∀ before y rest, x :: l = before ++ y :: rest → (∀ z ∈ before, P z) → ¬ P y → R y rest) ↔
      ∀ before y rest, l = before ++ y :: rest → (∀ z ∈ before, P z) → ¬ P y → R y rest := by
  constructor
  · intro h before y rest hsplit hbefore hy
    refine h (x :: before) y rest (by rw [hsplit]; rfl) ?_ hy
    intro z hz
    rcases List.mem_cons.mp hz with rfl | hlater
    · exact hx
    · exact hbefore z hlater
  · intro h before y rest hsplit hbefore hy
    cases before with
    | nil =>
        obtain ⟨rfl, -⟩ := List.cons.inj hsplit
        exact absurd hx hy
    | cons x' before =>
        obtain ⟨-, htail⟩ := List.cons.inj hsplit
        exact h before y rest htail (fun z hz => hbefore z (List.mem_cons_of_mem _ hz)) hy

/-- The first element without `P` is the first one of all. -/
theorem forall_split_cons_of_neg (hx : ¬ P x) :
    (∀ before y rest, x :: l = before ++ y :: rest → (∀ z ∈ before, P z) → ¬ P y → R y rest) ↔
      R x l := by
  constructor
  · exact fun h => h [] x l rfl (fun z hz => absurd hz List.not_mem_nil) hx
  · intro h before y rest hsplit hbefore hy
    cases before with
    | nil =>
        obtain ⟨rfl, rfl⟩ := List.cons.inj hsplit
        exact h
    | cons x' before =>
        obtain ⟨rfl, -⟩ := List.cons.inj hsplit
        exact absurd (hbefore x List.mem_cons_self) hx

end Split

/-- **Where both readers agree.**  In a table of records of at least `w` bytes, all of them whole:
the data that `f` finds in the first `w` bytes of every record are those that it finds in records of
`w` bytes exactly when this holds behind the first record of another length. -/
theorem strided_eq_walk_iff (f : Nat → Option β) (hw : 0 < w)
    (hlen : ∀ q ∈ walk len stop p, w ≤ len q ∧ q + len q ≤ stop) :
    (strided w stop p).filterMap f = (walk len stop p).filterMap f ↔
      ∀ before q rest, walk len stop p = before ++ q :: rest → (∀ x ∈ before, len x = w) →
        len q ≠ w → (strided w stop (q + w)).filterMap f = rest.filterMap f := by
  revert hlen
  refine walk_induction (motive := fun p l => (∀ q ∈ l, w ≤ len q ∧ q + len q ≤ stop) →
    ((strided w stop p).filterMap f = l.filterMap f ↔
      ∀ before q rest, l = before ++ q :: rest → (∀ x ∈ before, len x = w) → len q ≠ w →
        (strided w stop (q + w)).filterMap f = rest.filterMap f)) ?_ ?_ ?_ p
  · intro p hp _
    rw [strided_nil (by omega)]
    refine iff_of_true rfl fun before q rest hsplit => ?_
    simp at hsplit
  · intro p _ hzero hlen
    have hthis := (hlen p List.mem_cons_self).1
    omega
  · intro p hp _ ih hlen
    obtain ⟨hthis, hend⟩ := hlen p List.mem_cons_self
    have hrest := ih fun q hq => hlen q (List.mem_cons_of_mem _ hq)
    -- both begin with the record at `p`
    have hfirst : (strided w stop p).filterMap f =
        (p :: walk len stop (p + len p)).filterMap f ↔
          (strided w stop (p + w)).filterMap f = (walk len stop (p + len p)).filterMap f := by
      rw [strided_cons hw (by omega), List.filterMap_cons, List.filterMap_cons]
      cases f p with
      | none => rfl
      | some x => exact ⟨List.tail_eq_of_cons_eq, congrArg (x :: ·)⟩
    rw [hfirst]
    by_cases hsame : len p = w
    · rw [hsame] at hrest ⊢
      exact hrest.trans (forall_split_cons_of_pos (P := fun q => len q = w) hsame).symm
    · exact (forall_split_cons_of_neg (P := fun q => len q = w)
        (R := fun q rest => (strided w stop (q + w)).filterMap f = rest.filterMap f) hsame).symm

end Lib
end ZineOS
