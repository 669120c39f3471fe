import ZineOS.Printf.Number
import ZineOS.Loader.Memory

/-!
# `vsprintf`

The loader and the kernel have a copy of the function each.  They differ in one line: behind the `*`
of a field width only the loader does `fmt++`.

A format is read through an index, and every read of a character is checked: one behind the NUL is a
fault, as is a loop whose rounds are used up.  What is written goes to a list, with the format, the
strings and the arguments lying elsewhere; only what `%n` stores is kept beside it.  An argument is a
word as wide as a pointer, and `va_arg` takes the next one.
-/

namespace ZineOS
namespace Printf

open Lib Loader

/-- The two copies of `printf.cpp`. -/
inductive Copy where
  | loader
  | kernel
  deriving DecidableEq

/-- The bits of a pointer and of a `long`. -/
abbrev Copy.wordSize : Copy → Nat
  | .loader => 32
  | .kernel => 64

/-- A format string up to its NUL. -/
structure Format where
  chars : List Byte
  noNul : 0 ∉ chars

/-- What can go wrong in a call. -/
inductive Fault (w : Nat) where
  /-- A character behind the NUL of the format is read. -/
  | outside (fmt : Nat)
  /-- A loop has not come to an end. -/
  | rounds
  /-- A string has no NUL. -/
  | unterminated (s : BitVec w)
  /-- `number` has returned the null pointer. -/
  | null
  deriving DecidableEq

/-- `*fmt`. -/
def Format.charAt {w : Nat} (f : Format) (fmt : Nat) : Except (Fault w) Byte :=
  if fmt < f.chars.length then .ok (f.chars.getD fmt 0)
  else if fmt = f.chars.length then .ok 0
  else .error (.outside fmt)

/-- The rounds that a loop over the format has. -/
def Format.rounds (f : Format) : Nat := f.chars.length + 1

/-- `is_digit`. -/
def isDigit (c : Byte) : Bool := chr '0' ≤ c ∧ c ≤ chr '9'

/-! ## The scan of a directive -/

section

variable {w : Nat} (f : Format) (args : Nat → BitVec w)

/-- `skip_atoi`. -/
def skipAtoi : Nat → Nat → Word32 → Except (Fault w) (Word32 × Nat)
  | 0, _, _ => .error .rounds
  | rounds + 1, fmt, i => do
      let c ← f.charAt fmt
      if isDigit c then
        skipAtoi rounds (fmt + 1) (i * 10 + c.setWidth 32 - (chr '0').setWidth 32)
      else .ok (i, fmt)

def flagOf (c : Byte) : Option Word32 :=
  if c = chr '-' then some left
  else if c = chr '+' then some plus
  else if c = chr ' ' then some space
  else if c = chr '#' then some special
  else if c = chr '0' then some zeropad
  else none

/-- The loop at `repeat`: the flags, and `fmt` behind them. -/
def scanFlags : Nat → Nat → Word32 → Except (Fault w) (Word32 × Nat)
  | 0, _, _ => .error .rounds
  | rounds + 1, fmt, flags => do
      match flagOf (← f.charAt (fmt + 1)) with
      | some flag => scanFlags rounds (fmt + 1) (flags ||| flag)
      | none => .ok (flags, fmt + 1)

/-- What the scan of a directive leaves: the variables of `vsprintf`, and the number of arguments
taken. -/
structure Spec where
  flags : Word32
  fieldWidth : Word32
  precision : Word32
  fmt : Nat
  arg : Nat
  deriving DecidableEq

/-- `get field width`. -/
def scanWidth (copy : Copy) (flags : Word32) (fmt arg : Nat) : Except (Fault w) Spec := do
  let c ← f.charAt fmt
  if isDigit c then
    let (fieldWidth, fmt) ← skipAtoi f f.rounds fmt 0
    .ok ⟨flags, fieldWidth, -1, fmt, arg⟩
  else if c = chr '*' then
    let fieldWidth := (args arg).setWidth 32
    let (fieldWidth, flags) :=
      if fieldWidth.toInt < 0 then (-fieldWidth, flags ||| left) else (fieldWidth, flags)
    let fmt := if copy = .loader then fmt + 1 else fmt
    .ok ⟨flags, fieldWidth, -1, fmt, arg + 1⟩
  else .ok ⟨flags, -1, -1, fmt, arg⟩

/-- `get the precision`. -/
def scanPrecision (spec : Spec) : Except (Fault w) Spec := do
  if (← f.charAt spec.fmt) = chr '.' then
    let fmt := spec.fmt + 1
    let c ← f.charAt fmt
    let (precision, fmt, arg) ←
      if isDigit c then do
        let (precision, fmt) ← skipAtoi f f.rounds fmt 0
        .ok (precision, fmt, spec.arg)
      else if c = chr '*' then .ok ((args spec.arg).setWidth 32, fmt, spec.arg + 1)
      else .ok (-1, fmt, spec.arg)
    let precision := if precision.toInt < 0 then 0 else precision
    .ok { spec with precision := precision, fmt := fmt, arg := arg }
  else .ok spec

/-- `get the conversion qualifier`.  Nothing reads it. -/
def scanQualifier (spec : Spec) : Except (Fault w) Spec := do
  let c ← f.charAt spec.fmt
  if c = chr 'h' ∨ c = chr 'l' ∨ c = chr 'L' then .ok { spec with fmt := spec.fmt + 1 }
  else .ok spec

/-- From the `%` at `fmt` to the conversion. -/
def scan (copy : Copy) (fmt arg : Nat) : Except (Fault w) Spec := do
  let (flags, fmt) ← scanFlags f f.rounds fmt 0
  let spec ← scanWidth f args copy flags fmt arg
  let spec ← scanPrecision f args spec
  scanQualifier f spec

end

/-! ## The conversions -/

/-- `while (--size > 0) *str++ = c;` with the `size` that it leaves. -/
def fillBefore (c : Byte) (size : Word32) (str : List Byte) : Word32 × List Byte :=
  if 0 < (size - 1).toInt then fillBefore c (size - 1) (str ++ [c]) else (size - 1, str)
termination_by (size - 1).toInt.toNat
decreasing_by
  rw [toInt_pred] <;> omega

section

variable {w : Nat} (m : Mem) (args : Nat → BitVec w)

def strlenLoop : Nat → BitVec w → BitVec w → Option (BitVec w)
  | 0, _, _ => none
  | rounds + 1, str, retval =>
      if m str.toNat = 0 then some retval else strlenLoop rounds (str + 1) (retval + 1)

/-- `strlen`.  `none` when it goes round for ever. -/
def strlen (str : BitVec w) : Option (BitVec w) := strlenLoop m (2 ^ w) str 0

/-- `for (i = 0; i < len; ++i) *str++ = *s++;`. -/
def copyString (s : BitVec w) : Nat → List Byte
  | 0 => []
  | len + 1 => m s.toNat :: copyString (s + 1) len

/-- What `vsprintf` has written through `str`, the arguments it has taken, and what `%n` has stored
through which pointer. -/
structure Out (w : Nat) where
  str : List Byte
  arg : Nat
  stored : List (BitVec w × Word32)
  deriving DecidableEq

/-- `str = number(str, va_arg(args, unsigned long), base, field_width, precision, flags)`. -/
def convertNumber (spec : Spec) (base : Word32) (out : Out w) : Except (Fault w) (Out w) :=
  match number out.str ((args out.arg).setWidth 32) base spec.fieldWidth spec.precision
    spec.flags with
  | none => .error .null
  | some str => .ok { out with str := str, arg := out.arg + 1 }

/-- `case 'c'`. -/
def convertChar (spec : Spec) (out : Out w) : Out w :=
  let (size, str) :=
    if has spec.flags left then (spec.fieldWidth, out.str)
    else fillBefore (chr ' ') spec.fieldWidth out.str
  let str := str ++ [(args out.arg).setWidth 8]
  { out with str := (fillBefore (chr ' ') size str).2, arg := out.arg + 1 }

/-- `case 's'`.  The length is taken for an `int`. -/
def convertString (spec : Spec) (out : Out w) : Except (Fault w) (Out w) :=
  let s := args out.arg
  match strlen m s with
  | none => .error (.unterminated s)
  | some n =>
      let len := n.setWidth 32
      let len :=
        if spec.precision.toInt < 0 then len
        else if spec.precision.toInt < len.toInt then spec.precision
        else len
      let (size, str) :=
        if has spec.flags left then (spec.fieldWidth, out.str)
        else fillDown (chr ' ') len spec.fieldWidth out.str
      let str := str ++ copyString m s len.toInt.toNat
      .ok { out with str := (fillDown (chr ' ') len size str).2, arg := out.arg + 1 }

/-- `case 'p'`: eight digits, if no width is given. -/
def pointerSpec (spec : Spec) : Spec :=
  if spec.fieldWidth = -1 then { spec with fieldWidth := 8, flags := spec.flags ||| zeropad }
  else spec

/-- `default`, with `fmt` behind it.  At the NUL it goes back by one. -/
def convertOther (spec : Spec) (c : Byte) (out : Out w) : Except (Fault w) (Out w × Nat) :=
  let str := if c ≠ chr '%' then out.str ++ [chr '%'] else out.str
  if c ≠ 0 then .ok ({ out with str := str ++ [c] }, spec.fmt)
  else if spec.fmt = 0 then .error (.outside 0)
  else .ok ({ out with str := str }, spec.fmt - 1)

/-- `switch (*fmt)`, with `fmt` behind it. -/
def convert (spec : Spec) (c : Byte) (out : Out w) : Except (Fault w) (Out w × Nat) := do
  if c = chr 'c' then .ok (convertChar args spec out, spec.fmt)
  else if c = chr 's' then .ok (← convertString m args spec out, spec.fmt)
  else if c = chr 'o' then .ok (← convertNumber args spec 8 out, spec.fmt)
  else if c = chr 'p' then
    .ok (← convertNumber args (pointerSpec spec) 16 out, spec.fmt)
  else if c = chr 'x' then
    .ok (← convertNumber args { spec with flags := spec.flags ||| small } 16 out, spec.fmt)
  else if c = chr 'X' then .ok (← convertNumber args spec 16 out, spec.fmt)
  else if c = chr 'd' ∨ c = chr 'i' then
    .ok (← convertNumber args { spec with flags := spec.flags ||| sign } 10 out, spec.fmt)
  else if c = chr 'u' then .ok (← convertNumber args spec 10 out, spec.fmt)
  else if c = chr 'n' then
    .ok ({ out with
      arg := out.arg + 1
      stored := out.stored ++ [(args out.arg, BitVec.ofNat 32 out.str.length)] }, spec.fmt)
  else convertOther spec c out

end

/-! ## The function -/

section

variable (copy : Copy) (m : Mem) (f : Format) (args : Nat → BitVec copy.wordSize)

/-- The loop over the format, from the character at `fmt` on. -/
def formatLoop : Nat → Nat → Out copy.wordSize → Except (Fault copy.wordSize) (Out copy.wordSize)
  | 0, _, _ => .error .rounds
  | rounds + 1, fmt, out => do
      let c ← f.charAt fmt
      if c = 0 then .ok out
      else if c ≠ chr '%' then formatLoop rounds (fmt + 1) { out with str := out.str ++ [c] }
      else
        let spec ← scan f args copy fmt out.arg
        let (out, fmt) ← convert m args spec (← f.charAt spec.fmt) { out with arg := spec.arg }
        formatLoop rounds (fmt + 1) out

/-- `vsprintf`.  A NUL goes behind the text. -/
def vsprintf : Except (Fault copy.wordSize) (Out copy.wordSize) :=
  formatLoop copy m f args f.rounds 0 ⟨[], 0, []⟩

end

end Printf
end ZineOS
