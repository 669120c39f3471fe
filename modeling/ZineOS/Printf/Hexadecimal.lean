import ZineOS.Printf.Render

/-!
# Hexadecimal arguments

What `%x`, `%X` and `%p` print when no width is given: the digits of the low 32 bits of the argument,
for `%p` with zeros in front up to eight digits.  `number` takes an `int`, so that a `long` or a
pointer of the kernel has lost its upper half by then.
-/

namespace ZineOS
namespace Printf

open Lib Loader

/-- `%x`, `%p` and so on, with a qualifier or without one. -/
def plain (qualifier : Option Qualifier) (conversion : Conversion) : Directive :=
  ⟨[], none, none, qualifier, conversion, rfl⟩

/-- `%x` of an `int`. -/
def hexText (isSmall : Bool) (v : Word32) : List Byte := (digits isSmall).numeral 16 v.toNat

/-- `%p` of an `int`. -/
def pointerText (v : Word32) : List Byte :=
  List.replicate (8 - (hexText false v).length) (chr '0') ++ hexText false v

/-- A text read as a hexadecimal number. -/
def readHex (text : List Byte) : Option Nat := readDigits 16 text

section

variable {w : Nat} {m : Mem} {args : Nat → BitVec w} {k : Nat} {q : Option Qualifier} {v : Word32}
  {isSmall : Bool}

theorem length_hexText_le (v : Word32) : (hexText isSmall v).length ≤ 8 := by
  rw [hexText, Digits.length_numeral, Digits.length_ofLeast_le_iff (by decide) (by decide)]
  exact v.isLt

theorem length_pointerText (v : Word32) : (pointerText v).length = 8 := by
  have hle := @length_hexText_le false v
  rw [pointerText, List.length_append, List.length_replicate]
  omega

theorem readHex_hexText (isSmall : Bool) (v : Word32) : readHex (hexText isSmall v) = some v.toNat :=
  Digits.read_zeros_numeral (D := digits isSmall) (by decide) (by decide) 0 v.toNat

theorem readHex_pointerText (v : Word32) : readHex (pointerText v) = some v.toNat := by
  unfold pointerText
  rw [← digits_zero false]
  exact Digits.read_zeros_numeral (by decide) (by decide) _ v.toNat

/-- Digits behind others. -/
theorem readFrom_hexText (isSmall : Bool) (v : Word32) (n : Nat) :
    Digits.readFrom digitValue 16 n (hexText isSmall v) =
      some (n * 16 ^ (hexText isSmall v).length + v.toNat) :=
  Digits.readFrom_numeral (D := digits isSmall) (by decide) (by decide) v.toNat n

theorem readFrom_pointerText (v : Word32) (n : Nat) :
    Digits.readFrom digitValue 16 n (pointerText v) = some (n * 16 ^ 8 + v.toNat) := by
  have hle := @length_hexText_le false v
  have height : 8 - (hexText false v).length + (hexText false v).length = 8 := by omega
  have hread := Digits.readFrom_padded (D := digits false) (show 1 < 16 by decide)
    (by decide) (8 - (hexText false v).length) v.toNat n
  rw [digits_zero] at hread
  rw [← height]
  exact hread

/-- All values have eight characters, so that no two texts are confused. -/
theorem append_pointerText_iff {v' : Word32} {text text' : List Byte} :
    pointerText v ++ text = pointerText v' ++ text' ↔ v = v' ∧ text = text' := by
  constructor
  · intro h
    have hlength : (pointerText v).length = (pointerText v').length := by
      rw [length_pointerText, length_pointerText]
    obtain ⟨hfront, hrest⟩ := List.append_inj h hlength
    have hread := congrArg readHex hfront
    rw [readHex_pointerText, readHex_pointerText] at hread
    exact ⟨BitVec.eq_of_toNat_eq (Option.some.inj hread), hrest⟩
  · rintro ⟨rfl, rfl⟩
    rfl

/-- No sign, no prefix, and what is missing goes in front. -/
structure Bare (type : Word32) : Prop where
  sign : has type sign = false
  plus : has type plus = false
  space : has type space = false
  special : has type special = false
  left : has type left = false

theorem number_hex {type : Word32} (h : Bare type) :
    number [] v 16 (-1) (-1) type = some (hexText (has type small) v) := by
  rw [number_eq (by decide) (by decide) (by decide)]
  simp [field, signText, specialText, magnitude, Field.text, h.sign, h.plus, h.space, h.special,
    h.left, hexText]

theorem number_pointer {type : Word32} (h : Bare type) (hsmall : has type small = false)
    (hzeropad : has type zeropad = true) :
    number [] v 16 8 (-1) type = some (pointerText v) := by
  rw [number_eq (by decide) (by decide) (by decide)]
  simp [field, signText, specialText, magnitude, Field.text, h.sign, h.plus, h.space, h.special,
    h.left, hzeropad, hsmall, hexText, pointerText]

/-- What a conversion through `number` writes. -/
theorem text_number {conversion : Conversion} {text : List Byte} (base flags fieldWidth : Word32)
    (hconvert : convert m args ⟨0, -1, -1, 0, k⟩ conversion.char ⟨[], k, []⟩ =
      convertNumber args ⟨flags, fieldWidth, -1, 0, k⟩ base ⟨[], k, []⟩ >>= fun out => .ok (out, 0))
    (hnumber : number [] ((args k).setWidth 32) base fieldWidth (-1) flags = some text) :
    (plain q conversion).text m args k = .ok text := by
  change (convert m args ⟨0, -1, -1, 0, k⟩ conversion.char ⟨[], k, []⟩).map _ = _
  rw [hconvert]
  unfold convertNumber
  dsimp only
  rw [hnumber]
  rfl

theorem text_x : (plain q .x).text m args k = .ok (hexText true ((args k).setWidth 32)) := by
  have hbare : Bare (0 ||| small) := by constructor <;> decide
  exact text_number 16 (0 ||| small) (-1) rfl (number_hex hbare)

theorem text_X : (plain q .X).text m args k = .ok (hexText false ((args k).setWidth 32)) := by
  have hbare : Bare 0 := by constructor <;> decide
  exact text_number 16 0 (-1) rfl (number_hex hbare)

theorem text_p : (plain q .p).text m args k = .ok (pointerText ((args k).setWidth 32)) := by
  have hbare : Bare (0 ||| zeropad) := by constructor <;> decide
  exact text_number 16 (0 ||| zeropad) 8 rfl (number_pointer hbare (by decide) (by decide))

/-- A directive without width and precision is scannable. -/
theorem scannable_plain {copy : Copy} {args : Nat → BitVec copy.wordSize} {conversion : Conversion} :
    (plain q conversion).Scannable copy args k where
  precision_ne := nofun
  width_ne := fun _ => nofun
  width_lt := show (-1 : Int) < 2 ^ 31 by decide
  precision_lt := show (-1 : Int) < 2 ^ 31 by decide

end

end Printf
end ZineOS
