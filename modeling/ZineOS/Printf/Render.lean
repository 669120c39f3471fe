import ZineOS.Printf.ConsumedWhole

/-!
# Texts of formats

Rules for `render`: over formats that are put together, for argument lists that agree where a format
looks, and that there is a text at all.
-/

namespace ZineOS
namespace Printf

open Lib Loader

def isPlain (c : Byte) : Bool := c != 0 && c != chr '%'

/-- A literal, whose characters are checked where it is written. -/
def literal (text : String) (plain : (ascii text).all isPlain = true := by decide +kernel) : Item :=
  .literal (ascii text) fun c hc => by simpa [isPlain] using List.all_eq_true.mp plain c hc

abbrev newline : Item := literal "\n"
abbrev blanks : Item := literal "  "
abbrev zeroX : Item := literal "0x"

/-- `%*d`. -/
abbrev starWidth : Directive := ⟨[], some .star, none, none, .d, rfl⟩

/-- The arguments of a call. -/
def callArgs {w : Nat} (words : List (BitVec w)) (k : Nat) : BitVec w := words.getD k 0

section

variable {w : Nat} {m : Mem} {args args' : Nat → BitVec w} {k : Nat} {d : Directive}
  {items items' : List Item} {spec : Spec} {c : Byte} {out : Out w} {text : List Byte}

theorem render_literal (s : String) (plain : (ascii s).all isPlain = true) :
    render m args k (literal s plain :: items) =
      (render m args k items).map (ascii s ++ ·) := by
  rw [literal, render]
  cases render m args k items <;> rfl

theorem render_directive (h : d.text m args k = .ok text) :
    render m args k (.directive d :: items) =
      (render m args (k + d.stars + 1) items).map (text ++ ·) := by
  rw [render, h, ok_bind]
  cases render m args (k + d.stars + 1) items <;> rfl

theorem render_append : render m args k (items ++ items') = render m args k items >>= fun text =>
    (render m args (k + itemArgs items) items').map (text ++ ·) := by
  induction items generalizing k with
  | nil =>
      rw [List.nil_append, render, ok_bind]
      change _ = (render m args k items').map _
      cases render m args k items' <;> rfl
  | cons item items ih =>
      rw [List.cons_append, itemArgs_cons, ← Nat.add_assoc]
      cases item with
      | literal front plain =>
          rw [render, render, ih]
          dsimp only [Item.args]
          rw [Nat.add_zero]
          cases render m args k items with
          | error fault => rfl
          | ok text =>
              cases render m args (k + itemArgs items) items' with
              | error fault => rfl
              | ok behind => simp
      | directive d =>
          rw [render, render]
          cases d.text m args k with
          | error fault => rfl
          | ok text =>
              rw [ok_bind, ok_bind, ih]
              dsimp only [Item.args]
              rw [← Nat.add_assoc]
              cases render m args (k + d.stars + 1) items with
              | error fault => rfl
              | ok rendered =>
                  cases render m args (k + d.stars + 1 + itemArgs items) items' with
                  | error fault => rfl
                  | ok behind => simp

theorem convert_congr (h : args out.arg = args' out.arg) :
    convert m args spec c out = convert m args' spec c out := by
  simp only [convert, convertChar, convertString, convertNumber, h]

theorem text_congr (h : ∀ j < d.stars + 1, args (k + j) = args' (k + j)) :
    d.text m args k = d.text m args' k := by
  have hstars : d.widthStars ≤ d.stars := Nat.le_add_right _ _
  have hfirst : intArg args k = intArg args' k := congrArg _ (h 0 (by omega))
  have hsecond : intArg args (k + d.widthStars) = intArg args' (k + d.widthStars) :=
    congrArg _ (h d.widthStars (by omega))
  have hspec : d.spec args k = d.spec args' k := by
    unfold Directive.spec Directive.flagBits Directive.widthValue Directive.precisionValue
    rw [hfirst, hsecond]
  rw [Directive.text, Directive.text, hspec]
  exact congrArg _ (convert_congr (h d.stars (by omega)))

/-- A format looks at its own arguments only. -/
theorem render_congr (h : ∀ j < itemArgs items, args (k + j) = args' (k + j)) :
    render m args k items = render m args' k items := by
  induction items generalizing k with
  | nil => rfl
  | cons item items ih =>
      rw [itemArgs_cons] at h
      have hrest : ∀ j < itemArgs items,
          args (k + item.args + j) = args' (k + item.args + j) := by
        intro j hj
        rw [Nat.add_assoc]
        exact h (item.args + j) (by omega)
      cases item with
      | literal text plain =>
          have htail : render m args k items = render m args' k items := ih hrest
          rw [render, render, htail]
      | directive d =>
          have htext : d.text m args k = d.text m args' k :=
            text_congr fun j hj => h j (Nat.lt_add_right _ hj)
          have htail : render m args (k + d.stars + 1) items =
              render m args' (k + d.stars + 1) items := ih hrest
          rw [render, render, htext, htail]

/-- There is a text when every directive has one. -/
def Printable (m : Mem) (args : Nat → BitVec w) (k : Nat) (items : List Item) : Prop :=
  ∃ text, render m args k items = .ok text

theorem Printable.literal {text : List Byte} {plain : ∀ c ∈ text, c ≠ 0 ∧ c ≠ chr '%'}
    (h : Printable m args k items) : Printable m args k (.literal text plain :: items) := by
  obtain ⟨rest, hrest⟩ := h
  refine ⟨text ++ rest, ?_⟩
  rw [render, hrest]
  rfl

theorem Printable.directive (hd : ∃ text, d.text m args k = .ok text)
    (h : Printable m args (k + d.stars + 1) items) : Printable m args k (.directive d :: items) := by
  obtain ⟨text, htext⟩ := hd
  obtain ⟨rest, hrest⟩ := h
  refine ⟨text ++ rest, ?_⟩
  rw [render_directive htext, hrest]
  rfl

theorem text_string (h : d.conversion = .s) : d.text m args k =
    (convertString m args (d.spec args k) ⟨[], k + d.stars, []⟩).map Out.str := by
  unfold Directive.text
  rw [h]
  change (convertString m args (d.spec args k) ⟨[], k + d.stars, []⟩ >>= fun out =>
    (.ok (out, 0) : Except (Fault w) (Out w × Nat))).map _ = _
  cases convertString m args (d.spec args k) ⟨[], k + d.stars, []⟩ <;> rfl

/-- There is a text, unless a string has no NUL. -/
theorem text_ok (h : d.conversion = .s → (strlen m (args (k + d.stars))).isSome) :
    ∃ text, d.text m args k = .ok text := by
  have hnumber : ∀ (spec : Spec) (base : Word32), base = 8 ∨ base = 10 ∨ base = 16 →
      ∃ text, (convertNumber args spec base ⟨[], k + d.stars, []⟩ >>= fun out =>
        (.ok (out, 0) : Except (Fault w) (Out w × Nat))).map (fun r => r.1.str) = .ok text := by
    intro spec base hbase
    obtain ⟨out', hout⟩ := @convertNumber_ok w args spec ⟨[], k + d.stars, []⟩ base hbase
    rw [hout]
    exact ⟨_, rfl⟩
  by_cases hs : d.conversion = .s
  · obtain ⟨n, hn⟩ := Option.isSome_iff_exists.mp (h hs)
    rw [text_string hs, convertString]
    dsimp only
    rw [hn]
    exact ⟨_, rfl⟩
  unfold Directive.text
  cases hconversion : d.conversion with
  | c => exact ⟨_, rfl⟩
  | s => exact absurd hconversion hs
  | o => exact hnumber _ 8 (by decide)
  | p => exact hnumber (pointerSpec (d.spec args k)) 16 (by decide)
  | x => exact hnumber _ 16 (by decide)
  | X => exact hnumber _ 16 (by decide)
  | d => exact hnumber _ 10 (by decide)
  | i => exact hnumber _ 10 (by decide)
  | u => exact hnumber _ 10 (by decide)

end

section

variable {copy : Copy} {args : Nat → BitVec copy.wordSize} {k : Nat} {d : Directive}
  {items : List Item}

theorem AllScannable.nil : AllScannable copy args k [] := by
  intro before d behind hsplit
  exact absurd hsplit.symm (by simp)

theorem AllScannable.literal {text : List Byte} {plain : ∀ c ∈ text, c ≠ 0 ∧ c ≠ chr '%'}
    (h : AllScannable copy args k items) :
    AllScannable copy args k (.literal text plain :: items) := by
  intro before d behind hsplit
  cases before with
  | nil => cases hsplit
  | cons item before =>
      obtain ⟨rfl, hrest⟩ := List.cons.inj hsplit
      have hd := h before d behind hrest
      rwa [itemArgs_cons, Item.args, Nat.zero_add]

theorem AllScannable.directive (hd : d.Scannable copy args k)
    (h : AllScannable copy args (k + d.stars + 1) items) :
    AllScannable copy args k (.directive d :: items) := by
  intro before d' behind hsplit
  cases before with
  | nil =>
      cases hsplit
      exact hd
  | cons item before =>
      obtain ⟨rfl, hrest⟩ := List.cons.inj hsplit
      have hd' := h before d' behind hrest
      rwa [itemArgs_cons, Item.args, ← Nat.add_assoc]

/-- A width by an argument, in the loader. -/
theorem scannable_star {args : Nat → Word32} {conversion : Conversion}
    (h : |(args k).toInt| < 2 ^ 31) :
    (Directive.mk [] (some .star) none none conversion rfl).Scannable .loader args k where
  precision_ne := nofun
  width_ne := fun hcopy => by cases hcopy
  width_lt := by
    change |(BitVec.setWidth 32 (args k)).toInt| < 2 ^ 31
    rwa [BitVec.setWidth_eq]
  precision_lt := show (-1 : Int) < 2 ^ 31 by decide

end

end Printf
end ZineOS
