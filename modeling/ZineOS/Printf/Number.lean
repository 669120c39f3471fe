import ZineOS.Lib.Numerals
import ZineOS.Loader.Common

/-!
# Formatted numbers

`number` of `printf.cpp`, the same in the loader and in the kernel: a sign, a prefix and digits in a
field of at least `size` characters.  `size` and `precision` are counted down by the loops that
write the padding, so the loops are here with the counters they leave.

`int` is `Word32` and read as `toInt`; the text is the list of the bytes stored through `str`.

* `Field` — what is written, part by part.
* **`number_eq`** — what the loops write is the field.
* **`number_field`** — the length of the field, and the number that its digits stand for.
-/

namespace ZineOS
namespace Printf

open Lib Loader

def chr (c : Char) : Byte := BitVec.ofNat 8 c.toNat

def ascii (s : String) : List Byte := s.toList.map chr

/-! ## The flags -/

/-- `ZEROPAD`. -/
def zeropad : Word32 := 1
/-- `SIGN`. -/
def sign : Word32 := 2
/-- `PLUS`. -/
def plus : Word32 := 4
/-- `SPACE`. -/
def space : Word32 := 8
/-- `LEFT`. -/
def left : Word32 := 16
/-- `SPECIAL`. -/
def special : Word32 := 32
/-- `SMALL`. -/
def small : Word32 := 64

/-- `type & flag`. -/
def has (type flag : Word32) : Bool := type &&& flag ≠ 0

/-! ## The loops -/

/-- `while (lo < size--) *str++ = c;` with the `size` that it leaves. -/
def fillDown (c : Byte) (lo size : Word32) (str : List Byte) : Word32 × List Byte :=
  if lo.toInt < size.toInt then fillDown c lo (size - 1) (str ++ [c]) else (size - 1, str)
termination_by (size.toInt - lo.toInt).toNat
decreasing_by
  have hlo := BitVec.le_toInt lo
  have hhi := BitVec.toInt_lt (x := size)
  rw [BitVec.toInt_sub, Int.bmod_eq_of_le] <;> simp <;> omega

/-- `do_div`: the quotient and the remainder of unsigned numbers. -/
def doDiv (n base : Word32) : Word32 × Word32 := (n / base, n % base)

/-- `digits[i]`. -/
def digit (isSmall : Bool) (i : Nat) : Byte :=
  (ascii (if isSmall then "0123456789abcdefghijklmnopqrstuvwxyz"
    else "0123456789ABCDEFGHIJKLMNOPQRSTUVWXYZ")).getD i 0

/-- `while (num != 0) tmp[i++] = digits[do_div(num, base)];`. -/
def divLoop (isSmall : Bool) (base : Word32) (hbase : 2 ≤ base.toNat) (num : Word32)
    (tmp : List Byte) : List Byte :=
  if num = 0 then tmp
  else
    divLoop isSmall base hbase (doDiv num base).1
      (tmp ++ [digit isSmall (doDiv num base).2.toNat])
termination_by num.toNat
decreasing_by
  have hpos : 0 < num.toNat := by
    rcases Nat.eq_zero_or_pos num.toNat with hzero | hpos
    · exact absurd (BitVec.eq_of_toNat_eq hzero) ‹_›
    · exact hpos
  exact Nat.div_lt_self hpos hbase

/-- `while (i-- > 0) *str++ = tmp[i];`. -/
def copyBack (tmp : List Byte) : Nat → List Byte → List Byte
  | 0, str => str
  | i + 1, str => copyBack tmp i (str ++ [tmp.getD i 0])

/-! ## The function -/

/-- The sign, 0 for none, and `num` behind it. -/
def takeSign (num type : Word32) : Byte × Word32 :=
  if has type sign ∧ num.toInt < 0 then (chr '-', -num)
  else (if has type plus then chr '+' else if has type space then chr ' ' else 0, num)

/-- What `number` writes when the sign and the digits are there, and `size` is what is left of the
field. -/
def layOut (str : List Byte) (base : Word32) (signChar : Byte) (tmp : List Byte)
    (size precision type : Word32) : List Byte :=
  let c := if has type zeropad then chr '0' else chr ' '
  let i := BitVec.ofNat 32 tmp.length
  let precision := if precision.toInt < i.toInt then i else precision
  let size := size - precision
  let (size, str) :=
    if has type (zeropad + left) then (size, str) else fillDown (chr ' ') 0 size str
  let str := if signChar ≠ 0 then str ++ [signChar] else str
  let str :=
    if has type special then
      if base = 8 then str ++ [chr '0']
      else if base = 16 then str ++ [chr '0', digit (has type small) 33]
      else str
    else str
  let (size, str) := if has type left then (size, str) else fillDown c 0 size str
  let (_, str) := fillDown (chr '0') i precision str
  let str := copyBack tmp tmp.length str
  (fillDown (chr ' ') 0 size str).2

/-- `number`: the text with the number behind it.  `none` for the null pointer. -/
def number (str : List Byte) (num base size precision type : Word32) : Option (List Byte) :=
  let type := if has type left then type &&& ~~~zeropad else type
  if hbase : base.toInt < 2 ∨ 36 < base.toInt then none
  else
    let (signChar, num) := takeSign num type
    let size := if signChar ≠ 0 then size - 1 else size
    let size :=
      if has type special then
        if base = 16 then size - 2 else if base = 8 then size - 1 else size
      else size
    let tmp :=
      if num = 0 then [chr '0']
      else divLoop (has type small) base
        (by
          have hword := BitVec.toInt_eq_toNat_cond base
          have hlt := base.isLt
          split_ifs at hword <;> omega) num []
    some (layOut str base signChar tmp size precision type)

/-! ## What the loops do -/

theorem toInt_sub {a b : Word32} (hlo : -2 ^ 31 ≤ a.toInt - b.toInt)
    (hhi : a.toInt - b.toInt < 2 ^ 31) : (a - b).toInt = a.toInt - b.toInt := by
  rw [BitVec.toInt_sub, Int.bmod_eq_of_le] <;> simp <;> omega

/-- A counter that goes down. -/
theorem toInt_pred {a : Word32} (hlo : -2 ^ 31 < a.toInt) : (a - 1).toInt = a.toInt - 1 := by
  have hone : (1 : Word32).toInt = 1 := rfl
  have hhi := BitVec.toInt_lt (x := a)
  rw [toInt_sub, hone] <;> omega

/-- Behind the loop `size` is one below the bound, or below where it was already. -/
theorem fillDown_eq (c : Byte) (lo size : Word32) (str : List Byte) :
    fillDown c lo size str =
      ((if lo.toInt < size.toInt then lo else size) - 1,
        str ++ List.replicate (size.toInt - lo.toInt).toNat c) := by
  induction size, str using fillDown.induct c lo with
  | case1 size str hlt ih =>
      have hlo := BitVec.le_toInt lo
      have hless : (size - 1).toInt = size.toInt - 1 := toInt_pred (by omega)
      have hcount : (size.toInt - lo.toInt).toNat = ((size - 1).toInt - lo.toInt).toNat + 1 := by
        omega
      rw [fillDown, if_pos hlt, ih, if_pos hlt, hcount, List.replicate_succ]
      congr 1
      · by_cases hmore : lo.toInt < (size - 1).toInt
        · rw [if_pos hmore]
        · rw [if_neg hmore]
          congr 1
          apply BitVec.eq_of_toInt_eq
          omega
      · simp
  | case2 size str hge =>
      have hnone : (size.toInt - lo.toInt).toNat = 0 := by omega
      rw [fillDown, if_neg hge, if_neg hge, hnone]
      simp

theorem copyBack_eq (tmp str : List Byte) : copyBack tmp tmp.length str = str ++ tmp.reverse := by
  have hgo : ∀ n ≤ tmp.length, ∀ str, copyBack tmp n str = str ++ (tmp.take n).reverse := by
    intro n
    induction n with
    | zero => simp [copyBack]
    | succ n ih =>
        intro hn str
        have hlast : tmp.take (n + 1) = tmp.take n ++ [tmp.getD n 0] := by
          rw [List.take_add_one, List.getD_eq_getElem?_getD, List.getElem?_eq_getElem (by omega)]
          rfl
        rw [copyBack, ih (by omega), hlast]
        simp
  rw [hgo _ le_rfl, List.take_length]

/-- The digits, upper case or lower case. -/
def digitValue (c : Byte) : Option Nat :=
  if 48 ≤ c.toNat ∧ c.toNat ≤ 57 then some (c.toNat - 48)
  else if 65 ≤ c.toNat ∧ c.toNat ≤ 90 then some (c.toNat - 55)
  else if 97 ≤ c.toNat ∧ c.toNat ≤ 122 then some (c.toNat - 87)
  else none

/-- The strings `digits` of `number`. -/
def digits (isSmall : Bool) : Digits Byte 36 where
  char := digit isSmall
  value := digitValue
  value_char := by cases isSmall <;> decide

@[simp] theorem digits_zero (isSmall : Bool) : (digits isSmall).char 0 = chr '0' := by
  cases isSmall <;> rfl

theorem divLoop_eq (isSmall : Bool) (base : Word32) (hbase : 2 ≤ base.toNat) (num : Word32)
    (tmp : List Byte) : divLoop isSmall base hbase num tmp =
      tmp ++ (Nat.digits base.toNat num.toNat).map (digits isSmall).char := by
  induction num, tmp using divLoop.induct isSmall base hbase with
  | case1 tmp => simp [divLoop]
  | case2 num tmp hne ih =>
      have hpos : 0 < num.toNat := by
        rcases Nat.eq_zero_or_pos num.toNat with hzero | hpos
        · exact absurd (BitVec.eq_of_toNat_eq hzero) hne
        · exact hpos
      rw [divLoop, if_neg hne, ih, Nat.digits_def' hbase hpos]
      simp [doDiv, digits]

/-! ## The field -/

/-- What `number` writes. -/
structure Field where
  blanks : Nat
  sign : List Byte
  special : List Byte
  zeros : Nat
  digits : List Byte
  trailing : Nat

def Field.text (f : Field) : List Byte :=
  List.replicate f.blanks (chr ' ') ++ f.sign ++ f.special ++ List.replicate f.zeros (chr '0') ++
    f.digits ++ List.replicate f.trailing (chr ' ')

/-- The character in front of the number, if there is one. -/
def signText (num type : Word32) : List Byte :=
  if has type sign ∧ num.toInt < 0 then [chr '-']
  else if has type plus then [chr '+']
  else if has type space then [chr ' ']
  else []

/-- The prefix of octal and hexadecimal numbers. -/
def specialText (base type : Word32) : List Byte :=
  if has type special then
    if base = 8 then [chr '0']
    else if base = 16 then [chr '0', if has type small then chr 'x' else chr 'X']
    else []
  else []

/-- The absolute value under `SIGN`, and the unsigned number otherwise. -/
def magnitude (num type : Word32) : Nat :=
  if has type sign then num.toInt.natAbs else num.toNat

/-- The field of a number: what is missing to `size` goes in front of the sign, between the prefix
and the digits under `ZEROPAD`, or behind the digits under `LEFT`. -/
def field (num base size precision type : Word32) : Field :=
  let signPart := signText num type
  let specialPart := specialText base type
  let digitPart := (digits (has type small)).numeral base.toNat (magnitude num type)
  let zeros := precision.toInt.toNat - digitPart.length
  let gap := size.toInt.toNat -
    (signPart.length + specialPart.length + max digitPart.length precision.toInt.toNat)
  if has type left then ⟨0, signPart, specialPart, zeros, digitPart, gap⟩
  else if has type zeropad then ⟨0, signPart, specialPart, gap + zeros, digitPart, 0⟩
  else ⟨gap, signPart, specialPart, zeros, digitPart, 0⟩

/-- The widths and precisions for which nothing overflows. -/
def Small (x : Word32) : Prop := -1 ≤ x.toInt ∧ x.toInt ≤ 2 ^ 20

instance (x : Word32) : Decidable (Small x) := inferInstanceAs (Decidable (_ ∧ _))

/-! ## The text is the field -/

section

variable {str tmp : List Byte} {num base size precision type : Word32} {c signChar : Byte}

/-- `size` behind `while (size-- > 0)`. -/
def sizeLeft (size : Word32) : Word32 := (if 0 < size.toInt then 0 else size) - 1

theorem fillDown_zero (c : Byte) (size : Word32) (str : List Byte) :
    fillDown c 0 size str = (sizeLeft size, str ++ List.replicate size.toInt.toNat c) := by
  have hzero : (0 : Word32).toInt = 0 := rfl
  have hcount : size.toInt - 0 = size.toInt := by omega
  rw [fillDown_eq, hzero, hcount]
  rfl

/-- The loops behind it find nothing left to fill. -/
theorem sizeLeft_neg (hlow : -2 ^ 31 < size.toInt) :
    (sizeLeft size).toInt < 0 ∧ min (-1) (size.toInt - 1) ≤ (sizeLeft size).toInt := by
  have hminus : ((0 : Word32) - 1).toInt = -1 := rfl
  unfold sizeLeft
  split_ifs with hpos
  · rw [hminus]
    omega
  · rw [toInt_pred hlow]
    omega

theorem replicate_sizeLeft (hlow : -2 ^ 31 < size.toInt) :
    List.replicate (sizeLeft size).toInt.toNat c = [] := by
  have hneg := (sizeLeft_neg hlow).1
  rw [Int.toNat_of_nonpos (by omega)]
  rfl

theorem has_or (type a b : Word32) : has type (a ||| b) = (has type a || has type b) := by
  simp [has, BitVec.and_or_distrib_left, BitVec.or_eq_zero_iff]

theorem has_clear (type : Word32) : has (type &&& ~~~zeropad) zeropad = false := by
  simp [has, BitVec.and_assoc]

theorem has_clear_of {f : Word32} (hf : ~~~zeropad &&& f = f) :
    has (type &&& ~~~zeropad) f = has type f := by
  rw [has, has, BitVec.and_assoc, hf]

theorem specialText_append (str : List Byte) (base type : Word32) :
    (if has type special = true then
        if base = 8 then str ++ [chr '0']
        else if base = 16 then str ++ [chr '0', digit (has type small) 33]
        else str
      else str) = str ++ specialText base type := by
  have hx : digit (has type small) 33 = if has type small then chr 'x' else chr 'X' := by
    cases has type small <;> rfl
  rw [hx, specialText]
  split_ifs <;> simp

theorem sign_append (str : List Byte) (signChar : Byte) :
    (if signChar ≠ 0 then str ++ [signChar] else str) =
      str ++ if signChar ≠ 0 then [signChar] else [] := by
  split_ifs <;> simp

/-- **What the loops write**, when nothing overflows. -/
theorem layOut_eq (htmp : tmp.length ≤ 32) (hlow : -2 ^ 21 ≤ size.toInt)
    (hhigh : size.toInt ≤ 2 ^ 21) (hprecision : precision.toInt ≤ 2 ^ 20) :
    layOut str base signChar tmp size precision type =
      let signPart := if signChar ≠ 0 then [signChar] else []
      let zeros := (precision.toInt - tmp.length).toNat
      let gap := (size.toInt - max (tmp.length : Int) precision.toInt).toNat
      str ++ (if has type left then
          Field.mk 0 signPart (specialText base type) zeros tmp.reverse gap
        else if has type zeropad then
          Field.mk 0 signPart (specialText base type) (gap + zeros) tmp.reverse 0
        else Field.mk gap signPart (specialText base type) zeros tmp.reverse 0).text := by
  obtain ⟨i, hi⟩ : ∃ i : Word32, BitVec.ofNat 32 tmp.length = i := ⟨_, rfl⟩
  have hiInt : i.toInt = tmp.length := by
    have hnat : (BitVec.ofNat 32 tmp.length).toNat = tmp.length := by
      rw [BitVec.toNat_ofNat, Nat.mod_eq_of_lt (by omega)]
    rw [← hi, BitVec.toInt_eq_toNat_of_lt (by omega), hnat]
  obtain ⟨p, hp⟩ : ∃ p, (if precision.toInt < i.toInt then i else precision) = p := ⟨_, rfl⟩
  have hpInt : p.toInt = max (tmp.length : Int) precision.toInt := by
    rw [← hp]
    split_ifs <;> omega
  obtain ⟨s, hs⟩ : ∃ s, size - p = s := ⟨_, rfl⟩
  have hsInt : s.toInt = size.toInt - max (tmp.length : Int) precision.toInt := by
    rw [← hs, toInt_sub, hpInt] <;> omega
  have hzeros : (p.toInt - i.toInt).toNat = (precision.toInt - tmp.length).toNat := by omega
  unfold layOut
  dsimp only
  rw [hi, hp, hs, ← hsInt, ← hzeros, show zeropad + left = zeropad ||| left from rfl, has_or,
    fillDown_eq (chr '0') i p]
  simp only [specialText_append, sign_append, copyBack_eq, fillDown_zero]
  have hs31 : -2 ^ 31 < s.toInt := by omega
  have hbehind : -2 ^ 31 < (sizeLeft s).toInt := by
    have hbound := (sizeLeft_neg hs31).2
    omega
  cases hleft : has type left with
  | true => simp [Field.text]
  | false =>
      cases hzeropad : has type zeropad with
      | true =>
          simp [Field.text, replicate_sizeLeft hs31,
            List.replicate_add _ _ (chr '0'), -List.replicate_append_replicate]
      | false =>
          simp [Field.text, replicate_sizeLeft hs31, replicate_sizeLeft hbehind]

/-- The text goes behind what has been written before. -/
theorem layOut_append (str : List Byte) (base : Word32) (signChar : Byte) (tmp : List Byte)
    (size precision type : Word32) : layOut str base signChar tmp size precision type =
      str ++ layOut [] base signChar tmp size precision type := by
  unfold layOut
  simp only [specialText_append, sign_append, copyBack_eq, fillDown_eq]
  cases has type left <;> cases has type (zeropad + left) <;>
    simp only [if_true, Bool.false_eq_true, if_false, List.append_assoc, List.nil_append]

theorem number_append (str : List Byte) (num base size precision type : Word32) :
    number str num base size precision type =
      (number [] num base size precision type).map (str ++ ·) := by
  unfold number
  by_cases hrange : base.toInt < 2 ∨ 36 < base.toInt
  · rw [dif_pos hrange, dif_pos hrange]
    rfl
  · rw [dif_neg hrange, dif_neg hrange]
    dsimp only
    rw [layOut_append]
    rfl

theorem takeSign_text : (if (takeSign num type).1 ≠ 0 then [(takeSign num type).1] else []) =
    signText num type := by
  unfold takeSign signText
  split_ifs <;> first | rfl | simp_all [chr]

/-- The digits are those of the absolute value, also for the most negative number. -/
theorem takeSign_magnitude : (takeSign num type).2.toNat = magnitude num type := by
  have hlt := num.isLt
  have hint := BitVec.toInt_eq_toNat_cond num
  unfold takeSign magnitude
  by_cases hsigned : has type sign = true
  · rw [if_pos hsigned]
    by_cases hneg : num.toInt < 0
    · rw [if_pos ⟨hsigned, hneg⟩, BitVec.toNat_neg]
      split_ifs at hint <;> omega
    · rw [if_neg fun h => hneg h.2]
      dsimp only
      split_ifs at hint <;> omega
  · rw [if_neg fun h => hsigned h.1, if_neg hsigned]

theorem digits_eq {isSmall : Bool} (hbase : 2 ≤ base.toNat) :
    (if num = 0 then [chr '0'] else divLoop isSmall base hbase num []) =
      (digits isSmall).ofLeast base.toNat num.toNat := by
  have hzero : num = 0 ↔ num.toNat = 0 := by
    rw [← BitVec.toNat_inj]
    rfl
  rw [divLoop_eq, Digits.ofLeast, digits_zero, List.nil_append]
  exact if_congr hzero rfl rfl

theorem length_digits {isSmall : Bool} (hbase : 2 ≤ base.toNat) :
    ((digits isSmall).ofLeast base.toNat num.toNat).length ≤ 32 := by
  rw [Digits.length_ofLeast_le_iff hbase (by decide)]
  exact num.isLt.trans_le (Nat.pow_le_pow_left hbase 32)

theorem specialText_length : (specialText base type).length =
    if has type special then if base = 16 then 2 else if base = 8 then 1 else 0 else 0 := by
  unfold specialText
  split_ifs <;> simp_all

theorem specialText_length_le : (specialText base type).length ≤ 2 := by
  rw [specialText_length]
  split_ifs <;> decide

theorem signText_length_le : (signText num type).length ≤ 1 := by
  unfold signText
  split_ifs <;> simp

/-- What is left of the size behind the sign. -/
theorem size_behind_sign (hsize : Small size) :
    (if (takeSign num type).1 ≠ 0 then size - 1 else size).toInt =
      size.toInt - (signText num type).length := by
  have hlow := hsize.1
  rw [← takeSign_text]
  split_ifs
  · exact toInt_pred (by omega)
  · simp

/-- What is left of it behind `0` or `0x`. -/
theorem size_behind_special {s : Word32} (hlow : -2 ≤ s.toInt) (hhigh : s.toInt ≤ 2 ^ 20) :
    (if has type special = true then if base = 16 then s - 2 else if base = 8 then s - 1 else s
      else s).toInt = s.toInt - (specialText base type).length := by
  have htwo : (2 : Word32).toInt = 2 := rfl
  rw [specialText_length]
  split_ifs
  · rw [toInt_sub, htwo] <;> omega
  · exact toInt_pred (by omega)
  · simp
  · simp

/-- Behind `if (type & LEFT) type &= ~ZEROPAD;` the other flags are what they were. -/
def leftFirst (type : Word32) : Word32 := if has type left then type &&& ~~~zeropad else type

theorem has_leftFirst {f : Word32} (hf : ~~~zeropad &&& f = f) :
    has (leftFirst type) f = has type f := by
  unfold leftFirst
  split_ifs
  · exact has_clear_of hf
  · rfl

theorem has_leftFirst_zeropad :
    has (leftFirst type) zeropad = (has type zeropad && !has type left) := by
  unfold leftFirst
  split_ifs with hleft
  · rw [has_clear, hleft, Bool.not_true, Bool.and_false]
  · simp [hleft]

theorem takeSign_leftFirst : takeSign num (leftFirst type) = takeSign num type := by
  unfold takeSign
  rw [has_leftFirst (by decide), has_leftFirst (by decide), has_leftFirst (by decide)]

theorem specialText_leftFirst : specialText base (leftFirst type) = specialText base type := by
  unfold specialText
  rw [has_leftFirst (by decide), has_leftFirst (by decide)]

/-- **What `number` writes** is the field. -/
theorem number_eq (hbase : 2 ≤ base.toNat ∧ base.toNat ≤ 36) (hsize : Small size)
    (hprecision : Small precision) :
    number str num base size precision type =
      some (str ++ (field num base size precision type).text) := by
  have hrange : ¬(base.toInt < 2 ∨ 36 < base.toInt) := by
    rw [BitVec.toInt_eq_toNat_of_lt (by omega)]
    omega
  have hsmall : has (leftFirst type) small = has type small := has_leftFirst (by decide)
  have hspecial : has (leftFirst type) special = has type special := has_leftFirst (by decide)
  have hleft : has (leftFirst type) left = has type left := has_leftFirst (by decide)
  unfold number
  rw [dif_neg hrange, ← leftFirst, takeSign_leftFirst, hsmall, hspecial]
  dsimp only
  rw [digits_eq, takeSign_magnitude]
  have hsInt := @size_behind_sign num size type hsize
  obtain ⟨hlow, hhigh⟩ := hsize
  obtain ⟨-, hmax⟩ := hprecision
  have hsignLength := @signText_length_le num type
  have hspecialLength := @specialText_length_le base type
  generalize (if (takeSign num type).1 ≠ 0 then size - 1 else size) = s at hsInt ⊢
  have htInt := @size_behind_special base type s (by omega) (by omega)
  generalize (if has type special = true then
    if base = 16 then s - 2 else if base = 8 then s - 1 else s else s) = t at htInt ⊢
  rw [layOut_eq (takeSign_magnitude ▸ length_digits hbase.1) (by omega) (by omega) hmax,
    takeSign_text, specialText_leftFirst, hleft, has_leftFirst_zeropad]
  have hreverse : ((digits (has type small)).ofLeast base.toNat (magnitude num type)).reverse =
      (digits (has type small)).numeral base.toNat (magnitude num type) := rfl
  have hlength : ((digits (has type small)).ofLeast base.toNat (magnitude num type)).length =
      ((digits (has type small)).numeral base.toNat (magnitude num type)).length :=
    Digits.length_numeral.symm
  obtain ⟨d, hd⟩ : ∃ d, (digits (has type small)).numeral base.toNat (magnitude num type) = d :=
    ⟨_, rfl⟩
  have hgap : (t.toInt - max (d.length : Int) precision.toInt).toNat = size.toInt.toNat -
      ((signText num type).length + (specialText base type).length +
        max d.length precision.toInt.toNat) := by omega
  have hzeros : (precision.toInt - d.length).toNat = precision.toInt.toNat - d.length := by omega
  unfold field
  dsimp only
  rw [hreverse, hlength, hd, hgap, hzeros]
  cases has type left with
  | true => rfl
  | false => cases has type zeropad <;> rfl

/-- The number that digits stand for, in upper case or lower case. -/
def readDigits (base : Nat) (text : List Byte) : Option Nat := Digits.read digitValue base text

/-- The number in the field. -/
def Field.value (base : Nat) (f : Field) : Option Int :=
  (readDigits base (List.replicate f.zeros (chr '0') ++ f.digits)).map fun n : Nat =>
    if f.sign = [chr '-'] then -(n : Int) else n

theorem field_sign : (field num base size precision type).sign = signText num type := by
  unfold field
  dsimp only
  split_ifs <;> rfl

theorem field_special : (field num base size precision type).special = specialText base type := by
  unfold field
  dsimp only
  split_ifs <;> rfl

theorem field_digits : (field num base size precision type).digits =
    (digits (has type small)).numeral base.toNat (magnitude num type) := by
  unfold field
  dsimp only
  split_ifs <;> rfl

theorem signText_minus_iff :
    signText num type = [chr '-'] ↔ has type sign = true ∧ num.toInt < 0 := by
  unfold signText
  split_ifs with hminus
  · exact iff_of_true rfl hminus
  all_goals exact iff_of_false (by decide) hminus

theorem field_length (hsize : -1 ≤ size.toInt) (hprecision : -1 ≤ precision.toInt) :
    ((field num base size precision type).text.length : Int) =
      max size.toInt ((signText num type).length + (specialText base type).length +
        max (((digits (has type small)).numeral base.toNat (magnitude num type)).length : Int)
          precision.toInt) := by
  have hpos : 0 < ((digits (has type small)).numeral base.toNat (magnitude num type)).length := by
    rw [Digits.length_numeral]
    exact Digits.length_ofLeast_pos
  unfold field Field.text
  dsimp only
  split_ifs <;> simp only [List.length_append, List.length_replicate] <;> omega

theorem field_value (hbase : 2 ≤ base.toNat ∧ base.toNat ≤ 36) :
    (field num base size precision type).value base.toNat =
      some (if has type sign then num.toInt else num.toNat) := by
  have hread : readDigits base.toNat
      (List.replicate (field num base size precision type).zeros (chr '0') ++
        (field num base size precision type).digits) = some (magnitude num type) := by
    rw [field_digits, ← digits_zero (has type small)]
    exact Digits.read_zeros_numeral (D := digits (has type small)) hbase.1 hbase.2 _ _
  have hlt := num.isLt
  have hint := BitVec.toInt_eq_toNat_cond num
  rw [Field.value, hread, field_sign, Option.map_some]
  simp only [signText_minus_iff]
  unfold magnitude
  congr 1
  by_cases hsigned : has type sign = true
  · simp only [hsigned, true_and, if_true]
    split_ifs <;> omega
  · simp [hsigned]

/-- **Formatted numbers** decode back: the length of the field, its parts, and the number that its
digits stand for. -/
theorem number_field (str : List Byte) (num base size precision type : Word32)
    (hbase : base = 8 ∨ base = 10 ∨ base = 16) (hsize : -1 ≤ size.toInt ∧ size.toInt ≤ 2 ^ 20)
    (hprecision : -1 ≤ precision.toInt ∧ precision.toInt ≤ 2 ^ 20) :
    ∃ f : Field, number str num base size precision type = some (str ++ f.text) ∧
      f.sign = signText num type ∧ f.special = specialText base type ∧
      f.digits = (digits (has type small)).numeral base.toNat (magnitude num type) ∧
      (f.text.length : Int) = max size.toInt
        (f.sign.length + f.special.length + max (f.digits.length : Int) precision.toInt) ∧
      f.value base.toNat = some (if has type sign then num.toInt else num.toNat) := by
  have hrange : 2 ≤ base.toNat ∧ base.toNat ≤ 36 := by
    rcases hbase with rfl | rfl | rfl <;> decide
  refine ⟨field num base size precision type, number_eq hrange hsize hprecision, field_sign,
    field_special, field_digits, ?_, field_value hrange⟩
  rw [field_sign, field_special, field_digits]
  exact field_length hsize.1 hprecision.1

/-- `%#12d` of the most negative number. -/
theorem mostNegative_field : ∃ f : Field,
    number [] 0x80000000 10 12 (-1) (sign + special) = some ([] ++ f.text) ∧
      f.sign = signText 0x80000000 (sign + special) ∧ f.special = specialText 10 (sign + special) ∧
      f.digits = (digits (has (sign + special) small)).numeral 10
        (magnitude 0x80000000 (sign + special)) ∧
      (f.text.length : Int) = max 12
        (f.sign.length + f.special.length + max (f.digits.length : Int) (-1)) ∧
      f.value 10 = some (-2147483648) :=
  number_field [] 0x80000000 10 12 (-1) (sign + special) (by decide) (by decide) (by decide)

end

end Printf
end ZineOS
