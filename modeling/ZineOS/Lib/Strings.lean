import ZineOS.Lib.ByteMemory

/-!
# Strings in memory

A string of C is what lies in memory from a pointer on, up to the first NUL.  A pointer is a word of
any width, and behind the last address comes address 0.

* `whileChars` — the loop that reads a string, which on one is the fold over its bytes.
* `BehindLast` — the part of a list behind the last separator, as the name of a file is of its path.
-/

namespace ZineOS
namespace Lib

/-- Going on by one and then by `n`. -/
theorem add_one_add_ofNat {w : Nat} (a : BitVec w) (n : Nat) :
    a + 1 + BitVec.ofNat w n = a + BitVec.ofNat w (n + 1) := by
  rw [BitVec.ofNat_add, BitVec.add_assoc]
  exact congrArg (a + ·) (BitVec.add_comm _ _)

namespace Mem

/-- The bytes from the pointer on up to the first NUL. -/
inductive StringAt {w : Nat} (m : Mem) : BitVec w → List (BitVec 8) → Prop
  | nil {p : BitVec w} (hstop : m p.toNat = 0) : StringAt m p []
  | cons {p : BitVec w} {c : BitVec 8} {s : List (BitVec 8)} (hc : m p.toNat = c) (hne : c ≠ 0)
      (hs : StringAt m (p + 1) s) : StringAt m p (c :: s)

section

variable {w : Nat} {σ : Type*} (m : Mem) (body : σ → BitVec 8 → σ)

def whileCharsFrom : Nat → σ → BitVec w → Option σ
  | 0, _, _ => none
  | rounds + 1, x, p =>
      if m p.toNat = 0 then some x else whileCharsFrom rounds (body x (m p.toNat)) (p + 1)

/-- `while (*p) { body(*p); ++p; }`.  After as many rounds as there are addresses it has seen no NUL
at any of them and goes round for ever, which is `none`. -/
def whileChars (x : σ) (p : BitVec w) : Option σ := whileCharsFrom m body (2 ^ w) x p

/-- The string at a pointer. -/
def string (p : BitVec w) : Option (List (BitVec 8)) := m.whileChars (fun s c => s ++ [c]) [] p

end

variable {w : Nat} {σ : Type*} {m : Mem} {p : BitVec w} {s t : List (BitVec 8)}
  {body : σ → BitVec 8 → σ} {rounds : Nat}

namespace StringAt

theorem noNul (h : m.StringAt p s) : 0 ∉ s := by
  induction h with
  | nil _ => exact List.not_mem_nil
  | cons _ hne _ ih => exact fun hmem => (List.mem_cons.mp hmem).elim (fun hzero => hne hzero.symm) ih

theorem unique (h : m.StringAt p s) (h' : m.StringAt p t) : s = t := by
  induction h generalizing t with
  | nil hstop =>
      cases h' with
      | nil _ => rfl
      | cons hc hne _ => exact absurd (hc.symm.trans hstop) hne
  | cons hc hne _ ih =>
      cases h' with
      | nil hstop => exact absurd (hc.symm.trans hstop) hne
      | cons hc' _ hs' => rw [← hc, ← hc', ih hs']

/-- A pointer into a string points to what is left of it. -/
theorem behind (h : m.StringAt p (s ++ t)) : m.StringAt (p + BitVec.ofNat w s.length) t := by
  induction s generalizing p with
  | nil => simpa using h
  | cons c s ih =>
      cases h with
      | cons _ _ hs =>
          rw [List.length_cons, ← add_one_add_ofNat]
          exact ih hs

/-- No string is as long as there are addresses: going once around it would begin again. -/
theorem length_lt (h : m.StringAt p s) : s.length < 2 ^ w := by
  by_contra hlong
  have hsplit := List.take_append_drop (2 ^ w) s
  have htake : (s.take (2 ^ w)).length = 2 ^ w := List.length_take_of_le (by omega)
  rw [← hsplit] at h
  have haround := h.behind
  have hzero : BitVec.ofNat w (2 ^ w) = 0#w := by
    apply BitVec.eq_of_toNat_eq
    rw [BitVec.toNat_ofNat, BitVec.toNat_ofNat, Nat.mod_self, Nat.zero_mod]
  rw [htake, hzero, BitVec.add_zero] at haround
  have hsame := congrArg List.length (h.unique haround)
  rw [hsplit, List.length_drop] at hsame
  have hpos := Nat.two_pow_pos w
  omega

theorem whileCharsFrom_eq (h : m.StringAt p s) (hrounds : s.length < rounds) (x : σ) :
    m.whileCharsFrom body rounds x p = some (s.foldl body x) := by
  induction h generalizing rounds x with
  | nil hstop =>
      obtain ⟨rounds, rfl⟩ : ∃ r, rounds = r + 1 := ⟨rounds - 1, by simp at hrounds; omega⟩
      rw [whileCharsFrom, if_pos hstop]
      rfl
  | cons hc hne _ ih =>
      rw [List.length_cons] at hrounds
      obtain ⟨rounds, rfl⟩ : ∃ r, rounds = r + 1 := ⟨rounds - 1, by omega⟩
      rw [whileCharsFrom, hc, if_neg hne, ih (by omega)]
      rfl

/-- **The loop over a string** is the fold over its bytes. -/
theorem whileChars_eq (h : m.StringAt p s) (x : σ) :
    m.whileChars body x p = some (s.foldl body x) :=
  h.whileCharsFrom_eq h.length_lt x

theorem string_eq (h : m.StringAt p s) : m.string p = some s := by
  have hfold : ∀ t : List (BitVec 8), s.foldl (fun s c => s ++ [c]) t = t ++ s := by
    intro t
    clear h
    induction s generalizing t with
    | nil => simp
    | cons c s ih => simp [ih]
  rw [string, h.whileChars_eq, hfold, List.nil_append]

end StringAt

/-- Bytes with a NUL behind them are a string up to their first NUL. -/
theorem stringAt_of_holds (h : m.Holds p.toNat (s ++ [0])) (hfits : p.toNat + s.length < 2 ^ w) :
    m.StringAt p (s.takeWhile (· ≠ 0)) := by
  induction s generalizing p with
  | nil => exact .nil (holds_cons.mp h).1
  | cons c s ih =>
      obtain ⟨hc, hrest⟩ := holds_cons.mp h
      rw [List.length_cons] at hfits
      by_cases hzero : c = 0
      · subst hzero
        rw [List.takeWhile_cons_of_neg (by simp)]
        exact .nil hc
      · have hone : 1 < 2 ^ w := by omega
        have hstep : (1 : BitVec w).toNat = 1 := Nat.mod_eq_of_lt hone
        have hnext : (p + 1).toNat = p.toNat + 1 := by
          rw [BitVec.toNat_add, hstep, Nat.mod_eq_of_lt (by omega)]
        rw [List.takeWhile_cons_of_pos (by simpa using hzero)]
        exact .cons hc hzero (ih (by rw [hnext]; exact hrest) (by omega))

theorem stringAt_of_whileCharsFrom (h : m.whileCharsFrom (fun s c => s ++ [c]) rounds s p = some t) :
    ∃ u, t = s ++ u ∧ m.StringAt p u := by
  induction rounds generalizing s p with
  | zero => cases h
  | succ rounds ih =>
      rw [whileCharsFrom] at h
      split_ifs at h with hstop
      · cases h
        exact ⟨[], (List.append_nil _).symm, .nil hstop⟩
      · obtain ⟨u, hu, hrest⟩ := ih h
        exact ⟨m p.toNat :: u, by rw [hu, List.append_assoc]; rfl, .cons rfl hstop hrest⟩

theorem string_eq_some_iff : m.string p = some s ↔ m.StringAt p s := by
  constructor
  · intro h
    obtain ⟨u, rfl, hu⟩ := stringAt_of_whileCharsFrom h
    exact hu
  · exact StringAt.string_eq

end Mem

/-! ## Behind the last separator -/

/-- `t` is the longest part at the end of `l` without a `c`. -/
structure BehindLast {α : Type*} (c : α) (l t : List α) : Prop where
  suffix : t <:+ l
  not_mem : c ∉ t
  longest : ∀ u, u <:+ l → c ∉ u → u <:+ t

section

variable {α : Type*} {c : α} {l t u : List α}

theorem BehindLast.unique (h : BehindLast c l t) (h' : BehindLast c l u) : t = u :=
  (h'.longest t h.suffix h.not_mem).eq_of_length_le
    (h.longest u h'.suffix h'.not_mem).length_le

theorem suffix_rtakeWhile {p : α → Bool} (hu : u <:+ l) (hp : ∀ x ∈ u, p x) :
    u <:+ l.rtakeWhile p := by
  obtain ⟨front, rfl⟩ := hu
  have hpos : ∀ x ∈ u.reverse, p x := fun x hx => hp x (List.mem_reverse.mp hx)
  refine ⟨front.rtakeWhile p, ?_⟩
  rw [List.rtakeWhile, List.rtakeWhile, List.reverse_append, List.takeWhile_append_of_pos hpos,
    List.reverse_append, List.reverse_reverse]

theorem behindLast_rtakeWhile [DecidableEq α] (c : α) (l : List α) :
    BehindLast c l (l.rtakeWhile (· ≠ c)) where
  suffix := List.rtakeWhile_suffix _ _
  not_mem := fun hmem => by simpa using List.mem_rtakeWhile_imp hmem
  longest := fun u hu hc =>
    suffix_rtakeWhile hu fun x hx => decide_eq_true fun hsame => hc (hsame ▸ hx)

end

end Lib
end ZineOS
