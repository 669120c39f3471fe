import ZineOS.Printf.FormatScan

/-!
# Directives

A format is made of literal text and directives
`%[flags][width or *][.precision or .*][h|l|L]conversion`.  What such a format is to print is said by
`render`, from the parts of the directives: the width and the precision are the values of the digits
or the arguments for the `*`, and every directive has the arguments behind those of the ones before.

`vsprintf` does not get over every `*`: behind the one of a precision neither copy moves on, behind
the one of a width only the loader does.  The `*` is then taken for the conversion, and the argument
is left to the next directive.

`ConsumedWhole` says that a copy of `vsprintf` does with a format what is meant.
-/

namespace ZineOS
namespace Printf

open Lib Loader

/-! ## Formats -/

inductive Flag where
  | left
  | plus
  | space
  | special
  | zeropad
  deriving DecidableEq

def Flag.char : Flag → Byte
  | .left => chr '-'
  | .plus => chr '+'
  | .space => chr ' '
  | .special => chr '#'
  | .zeropad => chr '0'

def Flag.bit : Flag → Word32
  | .left => Printf.left
  | .plus => Printf.plus
  | .space => Printf.space
  | .special => Printf.special
  | .zeropad => Printf.zeropad

/-- A width or a precision. -/
inductive Amount where
  | digits (ds : List (Fin 10))
  | star
  deriving DecidableEq

def digitByte (d : Fin 10) : Byte := chr '0' + BitVec.ofNat 8 d.val

def Amount.chars : Amount → List Byte
  | .digits ds => ds.map digitByte
  | .star => [chr '*']

/-- The number that the digits stand for. -/
def decimal (ds : List (Fin 10)) : Nat := ds.foldl (fun n d => n * 10 + d.val) 0

/-- There are digits, and no leading zero, which is a flag. -/
def Amount.leads : Amount → Bool
  | .digits [] => false
  | .digits (d :: _) => d ≠ 0
  | .star => true

inductive Qualifier where
  | h
  | l
  | L
  deriving DecidableEq

def Qualifier.char : Qualifier → Byte
  | .h => chr 'h'
  | .l => chr 'l'
  | .L => chr 'L'

inductive Conversion where
  | c
  | s
  | o
  | p
  | x
  | X
  | d
  | i
  | u
  deriving DecidableEq

def Conversion.char : Conversion → Byte
  | .c => chr 'c'
  | .s => chr 's'
  | .o => chr 'o'
  | .p => chr 'p'
  | .x => chr 'x'
  | .X => chr 'X'
  | .d => chr 'd'
  | .i => chr 'i'
  | .u => chr 'u'

structure Directive where
  flags : List Flag
  width : Option Amount
  precision : Option Amount
  qualifier : Option Qualifier
  conversion : Conversion
  leads : width.all Amount.leads
  deriving DecidableEq

namespace Directive

variable (d : Directive)

def widthChars : List Byte := (d.width.map Amount.chars).getD []

def precisionChars : List Byte := (d.precision.map fun a => chr '.' :: a.chars).getD []

def qualifierChars : List Byte := (d.qualifier.map fun q => [q.char]).getD []

def chars : List Byte :=
  chr '%' :: (d.flags.map Flag.char ++
    (d.widthChars ++ (d.precisionChars ++ (d.qualifierChars ++ [d.conversion.char]))))

/-- The arguments that are taken for a width. -/
def widthStars : Nat := if d.width = some .star then 1 else 0

/-- The arguments that are taken for a width and a precision. -/
def stars : Nat := d.widthStars + if d.precision = some .star then 1 else 0

end Directive

/-- A part of a format. -/
inductive Item where
  | literal (text : List Byte) (plain : ∀ c ∈ text, c ≠ 0 ∧ c ≠ chr '%')
  | directive (d : Directive)

def Item.chars : Item → List Byte
  | .literal text _ => text
  | .directive d => d.chars

def itemChars (items : List Item) : List Byte := items.flatMap Item.chars

/-- One argument for every `*` and one for every conversion. -/
def Item.args : Item → Nat
  | .literal _ _ => 0
  | .directive d => d.stars + 1

def itemArgs (items : List Item) : Nat := (items.map Item.args).sum

theorem directive_noNul (d : Directive) : 0 ∉ d.chars := by
  have hflag : ∀ x : Flag, (0 : Byte) ≠ x.char := by intro x; cases x <;> decide
  have hdigit : ∀ n : Fin 10, (0 : Byte) ≠ digitByte n := by decide
  have hconversion : (0 : Byte) ≠ d.conversion.char := by cases d.conversion <;> decide
  have hamount : ∀ a : Amount, (0 : Byte) ∉ a.chars := by
    intro a
    cases a with
    | star => decide
    | digits ds => simpa [Amount.chars] using fun n _ => (hdigit n).symm
  have hwidth : (0 : Byte) ∉ d.widthChars := by
    unfold Directive.widthChars
    cases d.width with
    | none => exact List.not_mem_nil
    | some a => exact hamount a
  have hprecision : (0 : Byte) ∉ d.precisionChars := by
    unfold Directive.precisionChars
    cases d.precision with
    | none => exact List.not_mem_nil
    | some a => simpa using And.intro (show (0 : Byte) ≠ chr '.' by decide) (hamount a)
  have hqualifier : (0 : Byte) ∉ d.qualifierChars := by
    unfold Directive.qualifierChars
    cases d.qualifier with
    | none => exact List.not_mem_nil
    | some q => cases q <;> decide
  unfold Directive.chars
  simp only [List.mem_cons, List.mem_append, List.mem_map, not_or]
  exact ⟨by decide, fun ⟨x, _, hx⟩ => hflag x hx.symm, hwidth, hprecision, hqualifier, hconversion,
    List.not_mem_nil⟩

/-- The format that is made of these parts. -/
def formatOf (items : List Item) : Format where
  chars := itemChars items
  noNul := by
    intro hzero
    obtain ⟨item, -, hitem⟩ := List.mem_flatMap.mp hzero
    cases item with
    | literal text plain => exact (plain 0 hitem).1 rfl
    | directive d => exact directive_noNul d hitem

/-! ## What a format is to print -/

section

variable {w : Nat} (m : Mem) (args : Nat → BitVec w)

/-- `va_arg(args, int)` for the argument `k`. -/
def intArg (k : Nat) : Word32 := (args k).setWidth 32

namespace Directive

variable (d : Directive) (k : Nat)

/-- The flags, with `-` for a negative width; `k` is the first argument of the directive. -/
def flagBits : Word32 :=
  let flags := d.flags.foldl (fun flags x => flags ||| x.bit) 0
  if d.width = some .star ∧ (intArg args k).toInt < 0 then flags ||| left else flags

/-- The field width.  -1 stands for none. -/
def widthValue : Int :=
  match d.width with
  | none => -1
  | some (.digits ds) => decimal ds
  | some .star => |(intArg args k).toInt|

/-- The precision.  -1 stands for none, and a negative one is 0. -/
def precisionValue : Int :=
  match d.precision with
  | none => -1
  | some (.digits ds) => decimal ds
  | some .star => max 0 (intArg args (k + d.widthStars)).toInt

/-- What the scan of the directive is to give: its parts, the place of the conversion, and the number
of arguments taken so far. -/
structure Specifies (start : Nat) (spec : Spec) : Prop where
  flags : spec.flags = d.flagBits args k
  width : spec.fieldWidth.toInt = d.widthValue args k
  precision : spec.precision.toInt = d.precisionValue args k
  fmt : spec.fmt + 1 = start + d.chars.length
  arg : spec.arg = k + d.stars

/-- The parts of the directive as the conversions take them. -/
def spec : Spec :=
  ⟨d.flagBits args k, BitVec.ofInt 32 (d.widthValue args k),
    BitVec.ofInt 32 (d.precisionValue args k), 0, k + d.stars⟩

/-- The converted argument. -/
def text : Except (Fault w) (List Byte) :=
  (convert m args (d.spec args k) d.conversion.char ⟨[], k + d.stars, []⟩).map fun r => r.1.str

end Directive

/-- The literal text and the converted arguments, from argument `k` on. -/
def render : Nat → List Item → Except (Fault w) (List Byte)
  | _, [] => .ok []
  | k, .literal text _ :: rest => do .ok (text ++ (← render k rest))
  | k, .directive d :: rest => do
      let text ← d.text m args k
      .ok (text ++ (← render (k + d.stars + 1) rest))

@[simp]
theorem render_nil (k : Nat) : render m args k [] = .ok [] := rfl

end

section

variable (copy : Copy) (m : Mem) (args : Nat → BitVec copy.wordSize) (items : List Item)

/-- Every directive is scanned as it is written, from its own arguments on, and the text is what the
format is to print, with all its arguments taken. -/
structure ConsumedWhole : Prop where
  scanned : ∀ before d behind, items = before ++ .directive d :: behind →
    ∃ spec, scan (formatOf items) args copy (itemChars before).length (itemArgs before) = .ok spec ∧
      d.Specifies args (itemArgs before) (itemChars before).length spec
  run : vsprintf copy m (formatOf items) args =
    (render m args 0 items).map fun text => ⟨text, itemArgs items, []⟩

/-- The directives that are scanned as they are written, when `k` is their first argument. -/
structure Directive.Scannable (d : Directive) (k : Nat) : Prop where
  precision_ne : d.precision ≠ some .star
  width_ne : copy = .kernel → d.width ≠ some .star
  width_lt : d.widthValue args k < 2 ^ 31
  precision_lt : d.precisionValue args k < 2 ^ 31

end

end Printf
end ZineOS
