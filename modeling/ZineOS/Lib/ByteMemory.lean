import Mathlib

/-!
# Byte-addressed memory

Memory is a function from addresses to bytes.  The operations are the ones compiled C code is made
of: little-endian loads and stores of `n` bytes, filling, and the forward copy of the string
instructions.  For each of them there is one rule for the bytes it writes and one for all the
others, and the frame rules say when two of them do not interfere.

Addresses are natural numbers; code whose pointers wrap computes the address in its own word type
and passes the value here.
-/

namespace ZineOS
namespace Lib

/-- Byte-addressed memory. -/
abbrev Mem := Nat → BitVec 8

namespace Mem

/-- The number stored little-endian in the `n` bytes at `a`. -/
def load (m : Mem) (a : Nat) : Nat → Nat
  | 0 => 0
  | n + 1 => (m a).toNat + 256 * load m (a + 1) n

/-- Store the low `n` bytes of `v` little-endian at `a`. -/
def store (m : Mem) (a n v : Nat) : Mem := fun x =>
  if a ≤ x ∧ x < a + n then BitVec.ofNat 8 (v / 256 ^ (x - a)) else m x

/-- Fill `n` bytes at `a` with one byte. -/
def fill (m : Mem) (a n : Nat) (b : BitVec 8) : Mem := fun x =>
  if a ≤ x ∧ x < a + n then b else m x

/-- Move one unit of `w` bytes: read them all, then write them. -/
def moveUnit (m : Mem) (dst src w : Nat) : Mem := fun x =>
  if dst ≤ x ∧ x < dst + w then m (src + (x - dst)) else m x

/-- `rep movs` with units of `w` bytes and a count of `n`, in the forward direction. -/
def repMovs (w : Nat) : Nat → Mem → Nat → Nat → Mem
  | 0, m, _, _ => m
  | n + 1, m, dst, src => repMovs w n (m.moveUnit dst src w) (dst + w) (src + w)

/-- The stores that `rep movs` makes: address and length of every unit. -/
def repMovsStores (w n dst : Nat) : List (Nat × Nat) := (List.range n).map fun k => (dst + w * k, w)

/-- One of these stores, each with its address and length, writes to `x`. -/
def Covers (stores : List (Nat × Nat)) (x : Nat) : Prop := ∃ s ∈ stores, s.1 ≤ x ∧ x < s.1 + s.2

/-- `rep stos` with units of `w` bytes of `v` and a count of `n`. -/
def repStos (w v : Nat) : Nat → Mem → Nat → Mem
  | 0, m, _ => m
  | n + 1, m, dst => repStos w v n (m.store dst w v) (dst + w)

/-- The bytes at `a` are those of `l`. -/
def Holds (m : Mem) (a : Nat) (l : List (BitVec 8)) : Prop :=
  ∀ i (h : i < l.length), m (a + i) = l[i]

/-- Write the bytes `l` at `a`. -/
def put (m : Mem) (a : Nat) (l : List (BitVec 8)) : Mem := fun x =>
  if a ≤ x ∧ x < a + l.length then l.getD (x - a) 0 else m x

/-- The two memories agree on the `n` bytes at `a`. -/
def AgreeOn (m m' : Mem) (a n : Nat) : Prop := ∀ x, a ≤ x → x < a + n → m x = m' x

variable {m m' : Mem} {a b n k v : Nat}

theorem load_lt (m : Mem) (a n : Nat) : m.load a n < 256 ^ n := by
  induction n generalizing a with
  | zero => simp [load]
  | succ n ih =>
      have hbyte := (m a).isLt
      have hrest := ih (a + 1)
      rw [load, pow_succ]
      omega

/-- The first `n` bytes and the `k` behind them. -/
theorem load_add (m : Mem) (a n k : Nat) :
    m.load a (n + k) = m.load a n + 256 ^ n * m.load (a + n) k := by
  induction n generalizing a with
  | zero => simp [load]
  | succ n ih =>
      have hnext : a + (n + 1) = a + 1 + n := by omega
      rw [Nat.succ_add, load, ih, load, hnext, pow_succ]
      ring

theorem load_congr (h : AgreeOn m m' a n) : m.load a n = m'.load a n := by
  induction n generalizing a with
  | zero => rfl
  | succ n ih =>
      rw [load, load, h a le_rfl (by omega), ih fun x hlo hhi => h x (by omega) (by omega)]

theorem AgreeOn.symm (h : AgreeOn m m' a n) : AgreeOn m' m a n :=
  fun x hlo hhi => (h x hlo hhi).symm

theorem store_of_not (h : ¬ (a ≤ k ∧ k < a + n)) : m.store a n v k = m k := if_neg h

theorem fill_of_mem {x : Nat} {c : BitVec 8} (h : a ≤ x ∧ x < a + n) : m.fill a n c x = c := if_pos h

theorem fill_of_not {x : Nat} {c : BitVec 8} (h : ¬ (a ≤ x ∧ x < a + n)) : m.fill a n c x = m x :=
  if_neg h

theorem agreeOn_store (h : a + n ≤ b ∨ b + k ≤ a) : AgreeOn (m.store a n v) m b k :=
  fun x hlo hhi => store_of_not (by omega)

theorem agreeOn_fill {c : BitVec 8} (h : a + n ≤ b ∨ b + k ≤ a) : AgreeOn (m.fill a n c) m b k :=
  fun x hlo hhi => fill_of_not (by omega)

/-- A load reads back the low `n` bytes of what was stored. -/
theorem load_store_same (m : Mem) (a n v : Nat) : (m.store a n v).load a n = v % 256 ^ n := by
  induction n generalizing m a v with
  | zero => simp [load, Nat.mod_one]
  | succ n ih =>
      have hfirst : (m.store a (n + 1) v) a = BitVec.ofNat 8 v := by
        simp [store]
      -- the later bytes are those of `v / 256` stored one address higher
      have hrest : AgreeOn (m.store a (n + 1) v) (m.store (a + 1) n (v / 256)) (a + 1) n := by
        intro x hlo hhi
        have hshift : x - a = x - (a + 1) + 1 := by omega
        simp only [store]
        rw [if_pos (by omega), if_pos (by omega), hshift, pow_succ, Nat.mul_comm,
          Nat.div_div_eq_div_mul]
      rw [load, hfirst, load_congr hrest, ih, BitVec.toNat_ofNat]
      show v % 256 + 256 * (v / 256 % 256 ^ n) = v % 256 ^ (n + 1)
      rw [pow_succ', Nat.mod_mul]

/-- A load does not see a store to other bytes. -/
theorem load_store_of_disjoint (h : a + n ≤ b ∨ b + k ≤ a) :
    (m.store a n v).load b k = m.load b k :=
  load_congr (agreeOn_store h)

/-- A load from zeroed bytes is zero. -/
theorem load_fill_zero (h : a ≤ b ∧ b + k ≤ a + n) : (m.fill a n 0).load b k = 0 := by
  induction k generalizing b with
  | zero => rfl
  | succ k ih => rw [load, fill_of_mem (by omega), ih (by omega)]; rfl

theorem load_fill_of_disjoint {c : BitVec 8} (h : a + n ≤ b ∨ b + k ≤ a) :
    (m.fill a n c).load b k = m.load b k :=
  load_congr (agreeOn_fill h)

/-! ## Filling -/

theorem fill_zero {c : BitVec 8} : m.fill a 0 c = m := by
  funext x
  exact fill_of_not (by omega)

theorem fill_add {c : BitVec 8} : (m.fill a n c).fill (a + n) k c = m.fill a (n + k) c := by
  funext x
  unfold fill
  by_cases hsecond : a + n ≤ x ∧ x < a + n + k
  · rw [if_pos hsecond, if_pos (by omega)]
  · rw [if_neg hsecond]
    exact if_congr (by omega) rfl rfl

/-- Storing a word whose bytes are all the same. -/
theorem store_eq_fill {c : BitVec 8} (h : ∀ i < n, BitVec.ofNat 8 (v / 256 ^ i) = c) :
    m.store a n v = m.fill a n c := by
  funext x
  unfold store fill
  by_cases hin : a ≤ x ∧ x < a + n
  · rw [if_pos hin, if_pos hin, h (x - a) (by omega)]
  · rw [if_neg hin, if_neg hin]

theorem repStos_eq_fill {w : Nat} {c : BitVec 8} (h : ∀ i < w, BitVec.ofNat 8 (v / 256 ^ i) = c)
    (n : Nat) {m : Mem} {a : Nat} : repStos w v n m a = m.fill a (w * n) c := by
  induction n generalizing m a with
  | zero => exact fill_zero.symm
  | succ n ih => rw [repStos, store_eq_fill h, ih, fill_add, Nat.mul_succ, Nat.add_comm w]

/-! ## Byte strings in memory -/

theorem holds_append {l l' : List (BitVec 8)} :
    m.Holds a (l ++ l') ↔ m.Holds a l ∧ m.Holds (a + l.length) l' := by
  constructor
  · intro h
    constructor
    · intro i hi
      rw [h i (by rw [List.length_append]; omega), List.getElem_append_left hi]
    · intro i hi
      rw [Nat.add_assoc, h (l.length + i) (by rw [List.length_append]; omega),
        List.getElem_append_right (by omega)]
      simp
  · rintro ⟨hl, hl'⟩ i hi
    by_cases hleft : i < l.length
    · rw [List.getElem_append_left hleft, hl i hleft]
    · rw [List.length_append] at hi
      have hlast := hl' (i - l.length) (by omega)
      rw [List.getElem_append_right (by omega), ← hlast]
      congr 1
      omega

theorem holds_cons {c : BitVec 8} {l : List (BitVec 8)} :
    m.Holds a (c :: l) ↔ m a = c ∧ m.Holds (a + 1) l := by
  have hsingle : m.Holds a [c] ↔ m a = c := by
    constructor
    · exact fun h => h 0 (by simp)
    · intro h i hi
      obtain rfl : i = 0 := by simpa using hi
      exact h
  rw [show c :: l = [c] ++ l from rfl, holds_append, hsingle]
  rfl

theorem put_of_not {l : List (BitVec 8)} {x : Nat} (h : ¬ (a ≤ x ∧ x < a + l.length)) :
    m.put a l x = m x := if_neg h

theorem holds_put (m : Mem) (a : Nat) (l : List (BitVec 8)) : (m.put a l).Holds a l := by
  intro i hi
  have hindex : a + i - a = i := by omega
  unfold put
  rw [if_pos ⟨by omega, by omega⟩, hindex, List.getD_eq_getElem _ _ hi]

/-- The `i`-th of several strings stored one behind the other. -/
theorem Holds.flatMap {β : Type*} {l : List β} {g : β → List (BitVec 8)}
    (h : m.Holds a (l.flatMap g)) {i : Nat} (hi : i < l.length) :
    m.Holds (a + ((l.take i).flatMap g).length) (g l[i]) := by
  have hsplit : l.flatMap g = (l.take i).flatMap g ++ (g l[i] ++ (l.drop (i + 1)).flatMap g) := by
    rw [← List.flatMap_cons, ← List.flatMap_append, List.getElem_cons_drop, List.take_append_drop]
  rw [hsplit] at h
  exact (holds_append.mp (holds_append.mp h).2).1

/-! ## The forward copy -/

theorem moveUnit_of_not {dst src w x : Nat} (h : ¬ (dst ≤ x ∧ x < dst + w)) :
    m.moveUnit dst src w x = m x := if_neg h

theorem moveUnit_apply {dst src w j : Nat} (hj : j < w) :
    m.moveUnit dst src w (dst + j) = m (src + j) := by
  rw [moveUnit, if_pos (by omega), Nat.add_sub_cancel_left]

theorem moveUnit_zero (m : Mem) (dst src : Nat) : m.moveUnit dst src 0 = m := by
  funext x
  exact moveUnit_of_not (by omega)

/-- Moving one part behind the other is moving the whole, where the first part does not overwrite what
is left of the source. -/
theorem moveUnit_add {dst src : Nat} (h : dst ≤ src ∨ src + (n + k) ≤ dst) :
    (m.moveUnit dst src n).moveUnit (dst + n) (src + n) k = m.moveUnit dst src (n + k) := by
  funext x
  unfold moveUnit
  by_cases hsecond : dst + n ≤ x ∧ x < dst + n + k
  · have hshift : src + n + (x - (dst + n)) = src + (x - dst) := by omega
    rw [if_pos hsecond, if_neg (by omega), if_pos (by omega), hshift]
  · rw [if_neg hsecond]
    exact if_congr (by omega) rfl rfl

/-- From the end, where the second part does not. -/
theorem moveUnit_add_down {dst src : Nat} (h : src ≤ dst ∨ dst + (n + k) ≤ src) :
    (m.moveUnit (dst + n) (src + n) k).moveUnit dst src n = m.moveUnit dst src (n + k) := by
  funext x
  unfold moveUnit
  by_cases hfirst : dst ≤ x ∧ x < dst + n
  · rw [if_pos hfirst, if_neg (by omega), if_pos (by omega)]
  · rw [if_neg hfirst]
    by_cases hsecond : dst + n ≤ x ∧ x < dst + n + k
    · have hshift : src + n + (x - (dst + n)) = src + (x - dst) := by omega
      rw [if_pos hsecond, if_pos (by omega), hshift]
    · rw [if_neg hsecond, if_neg (by omega)]

/-- A forward copy with the destination below the source, or apart from it, is a move. -/
theorem repMovs_eq_moveUnit {w : Nat} (n : Nat) {m : Mem} {dst src : Nat}
    (h : dst ≤ src ∨ src + w * n ≤ dst) : repMovs w n m dst src = m.moveUnit dst src (w * n) := by
  induction n generalizing m dst src with
  | zero => exact (moveUnit_zero m dst src).symm
  | succ n ih =>
      rw [Nat.mul_succ] at h
      rw [repMovs, ih (by omega), moveUnit_add (by omega), Nat.mul_succ, Nat.add_comm w]

/-- A forward copy writes nothing outside its destination. -/
theorem repMovs_of_not {w : Nat} (n : Nat) {m : Mem} {dst src x : Nat}
    (h : ¬ (dst ≤ x ∧ x < dst + w * n)) : repMovs w n m dst src x = m x := by
  induction n generalizing m dst src with
  | zero => rfl
  | succ n ih =>
      rw [Nat.mul_succ] at h
      rw [repMovs, ih (by omega), moveUnit_of_not (by omega)]

/-- A forward copy moves every byte that is not overwritten before its turn: a byte below the
destination, or one that lies at or above the place it goes to. -/
theorem repMovs_apply {w : Nat} (n : Nat) {m : Mem} {dst src j : Nat} (hj : j < w * n)
    (hsafe : src + j < dst ∨ dst + j ≤ src + j) :
    repMovs w n m dst src (dst + j) = m (src + j) := by
  induction n generalizing m dst src j with
  | zero => simp at hj
  | succ n ih =>
      rw [Nat.mul_succ] at hj
      rw [repMovs]
      rcases Nat.lt_or_ge j w with hunit | hlater
      · -- the byte moves with this unit and is not touched again
        rw [repMovs_of_not n (by omega), moveUnit_apply hunit]
      · obtain ⟨i, rfl⟩ := Nat.exists_eq_add_of_le hlater
        have hdst : dst + (w + i) = dst + w + i := by omega
        have hsrc : src + (w + i) = src + w + i := by omega
        rw [hdst, ih (by omega) (by omega), hsrc, moveUnit_of_not (by omega)]

/-! ## Which bytes are stored -/

theorem covers_append {s t : List (Nat × Nat)} {x : Nat} :
    Covers (s ++ t) x ↔ Covers s x ∨ Covers t x := by
  simp only [Covers, List.mem_append, or_and_right, exists_or]

theorem not_covers_nil {x : Nat} : ¬ Covers [] x := fun ⟨_, hs, _⟩ => List.not_mem_nil hs

theorem covers_cons {s : Nat × Nat} {t : List (Nat × Nat)} {x : Nat} :
    Covers (s :: t) x ↔ (s.1 ≤ x ∧ x < s.1 + s.2) ∨ Covers t x := by
  simp only [Covers, List.mem_cons, or_and_right, exists_or, exists_eq_left]

/-- The units of a copy lie side by side. -/
theorem covers_repMovs {w n dst x : Nat} :
    Covers (repMovsStores w n dst) x ↔ dst ≤ x ∧ x < dst + w * n := by
  constructor
  · rintro ⟨s, hs, hlo, hhi⟩
    obtain ⟨k, hk, rfl⟩ := List.mem_map.mp hs
    have hunit : w * (k + 1) ≤ w * n := Nat.mul_le_mul_left w (List.mem_range.mp hk)
    rw [Nat.mul_succ] at hunit
    dsimp only at hlo hhi
    exact ⟨by omega, by omega⟩
  · rintro ⟨hlo, hhi⟩
    have hw : 0 < w := Nat.pos_of_ne_zero fun hzero => by
      rw [hzero, Nat.zero_mul] at hhi
      omega
    -- the unit that `x` lies in
    have hdiv := Nat.div_add_mod (x - dst) w
    have hmod := Nat.mod_lt (x - dst) hw
    have hk : (x - dst) / w < n := Nat.div_lt_of_lt_mul (by omega)
    refine ⟨_, List.mem_map.mpr ⟨(x - dst) / w, List.mem_range.mpr hk, rfl⟩, ?_, ?_⟩
    · dsimp only
      omega
    · dsimp only
      omega

end Mem
end Lib
end ZineOS
