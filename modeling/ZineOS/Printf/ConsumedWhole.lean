import ZineOS.Printf.DirectiveScan

/-!
# Formats that are consumed whole

A conversion writes behind the text that is there (`convert_append`), so that a round of the loop
prints the converted argument of its directive and nothing else, and a run prints what `render` says.

* **`vsprintf_eq_render`** — the run over a format whose directives are all scannable.
* **`consumedWhole_iff`** — which formats are consumed as they are meant.
-/

namespace ZineOS
namespace Printf

open Lib Loader

/-! ## The conversions write behind the text -/

section

variable {w : Nat} {m : Mem} {args : Nat → BitVec w} {spec : Spec} {out : Out w} {c : Byte}
  {size : Word32} {str : List Byte}

theorem fillBefore_append (c : Byte) (size : Word32) (str : List Byte) :
    fillBefore c size str = ((fillBefore c size []).1, str ++ (fillBefore c size []).2) := by
  obtain ⟨n, hn⟩ : ∃ n, (size - 1).toInt.toNat = n := ⟨_, rfl⟩
  induction n using Nat.strong_induction_on generalizing size str with
  | _ n ih =>
      rw [fillBefore.eq_1 c size str, fillBefore.eq_1 c size []]
      by_cases hpos : 0 < (size - 1).toInt
      · have hless : (size - 1 - 1).toInt = (size - 1).toInt - 1 := toInt_pred (by omega)
        rw [if_pos hpos, if_pos hpos, ih _ (by omega) (size - 1) (str ++ [c]) rfl,
          ih _ (by omega) (size - 1) ([] ++ [c]) rfl]
        simp
      · rw [if_neg hpos, if_neg hpos, List.append_nil]

/-- What a padding loop leaves and writes does not depend on the text before it. -/
theorem fillBefore_exists (c : Byte) (size : Word32) :
    ∃ rest text, ∀ str, fillBefore c size str = (rest, str ++ text) :=
  ⟨_, _, fillBefore_append c size⟩

theorem fillDown_exists (c : Byte) (lo size : Word32) :
    ∃ rest text, ∀ str, fillDown c lo size str = (rest, str ++ text) :=
  ⟨_, _, fillDown_eq c lo size⟩

theorem convertChar_append : convertChar args spec out = { out with
    str := out.str ++ (convertChar args { spec with fmt := 0 } ⟨[], out.arg, []⟩).str
    arg := out.arg + 1 } := by
  obtain ⟨rest, text, hbefore⟩ := fillBefore_exists (chr ' ') spec.fieldWidth
  obtain ⟨_, trailing, htrailing⟩ := fillBefore_exists (chr ' ') rest
  unfold convertChar
  cases has spec.flags left with
  | true => simp [hbefore]
  | false => simp [hbefore, htrailing]

theorem convertString_append : convertString m args spec out =
    (convertString m args { spec with fmt := 0 } ⟨[], out.arg, []⟩).map fun r =>
      { out with str := out.str ++ r.str, arg := out.arg + 1 } := by
  unfold convertString
  dsimp only
  cases strlen m (args out.arg) with
  | none => rfl
  | some n =>
      dsimp only
      obtain ⟨len, hlen⟩ : ∃ len, (if spec.precision.toInt < 0 then n.setWidth 32
          else if spec.precision.toInt < (n.setWidth 32).toInt then spec.precision
          else n.setWidth 32) = len := ⟨_, rfl⟩
      obtain ⟨rest, text, hdown⟩ := fillDown_exists (chr ' ') len spec.fieldWidth
      obtain ⟨_, trailing, htrailing⟩ := fillDown_exists (chr ' ') len rest
      rw [hlen]
      cases has spec.flags left with
      | true => simp [hdown]
      | false => simp [hdown, htrailing]

theorem convertNumber_append (base : Word32) : convertNumber args spec base out =
    (convertNumber args { spec with fmt := 0 } base ⟨[], out.arg, []⟩).map fun r =>
      { out with str := out.str ++ r.str, arg := out.arg + 1 } := by
  unfold convertNumber
  rw [number_append]
  dsimp only
  cases number [] ((args out.arg).setWidth 32) base spec.fieldWidth spec.precision spec.flags <;>
    rfl

/-- **Every conversion of a directive** writes behind the text that is there, takes one argument and
leaves `fmt` at its letter. -/
theorem convert_append (conv : Conversion) : convert m args spec conv.char out =
    (convert m args { spec with fmt := 0 } conv.char ⟨[], out.arg, []⟩).map fun r =>
      ({ out with str := out.str ++ r.1.str, arg := out.arg + 1 }, spec.fmt) := by
  have hnumber : ∀ (spec' : Spec) (base : Word32),
      (convertNumber args spec' base out >>= fun out => .ok (out, spec.fmt)) =
        (convertNumber args { spec' with fmt := 0 } base ⟨[], out.arg, []⟩ >>= fun out =>
          (.ok (out, 0) : Except (Fault w) (Out w × Nat))).map fun r =>
            ({ out with str := out.str ++ r.1.str, arg := out.arg + 1 }, spec.fmt) := by
    intro spec' base
    rw [convertNumber_append]
    cases convertNumber args { spec' with fmt := 0 } base ⟨[], out.arg, []⟩ <;> rfl
  cases conv with
  | c =>
      change Except.ok (convertChar args spec out, spec.fmt) = _
      rw [convertChar_append]
      rfl
  | s =>
      change (convertString m args spec out >>= fun out => .ok (out, spec.fmt)) =
        (convertString m args { spec with fmt := 0 } ⟨[], out.arg, []⟩ >>= fun out =>
          (.ok (out, 0) : Except (Fault w) (Out w × Nat))).map _
      rw [convertString_append]
      cases convertString m args { spec with fmt := 0 } ⟨[], out.arg, []⟩ <;> rfl
  | o => exact hnumber spec 8
  | p =>
      have hpointer : pointerSpec { spec with fmt := 0 } = { pointerSpec spec with fmt := 0 } := by
        unfold pointerSpec
        dsimp only
        split_ifs <;> rfl
      change _ = (convertNumber args (pointerSpec { spec with fmt := 0 }) 16 ⟨[], out.arg, []⟩ >>=
        fun out => (.ok (out, 0) : Except (Fault w) (Out w × Nat))).map _
      rw [hpointer]
      exact hnumber (pointerSpec spec) 16
  | x => exact hnumber _ 16
  | X => exact hnumber _ 16
  | d => exact hnumber _ 10
  | i => exact hnumber _ 10
  | u => exact hnumber _ 10

end

/-! ## The run over a format -/

section

variable {copy : Copy} {m : Mem} {f : Format} {args : Nat → BitVec copy.wordSize}
  {fmt k rounds : Nat} {out : Out copy.wordSize} {text suf : List Byte} {d : Directive}
  {items : List Item}

theorem formatLoop_literal (h : At f fmt (text ++ suf)) (hplain : ∀ c ∈ text, c ≠ 0 ∧ c ≠ chr '%') :
    formatLoop copy m f args (text.length + rounds) fmt out =
      formatLoop copy m f args rounds (fmt + text.length) { out with str := out.str ++ text } := by
  induction text generalizing fmt out with
  | nil => simp
  | cons c text ih =>
      obtain ⟨hzero, hpercent⟩ := hplain c List.mem_cons_self
      have hrounds : (c :: text).length + rounds = text.length + rounds + 1 := by
        rw [List.length_cons]
        omega
      have hbehind : fmt + (c :: text).length = fmt + 1 + text.length := by
        rw [List.length_cons]
        omega
      rw [hrounds, formatLoop, h.char, ok_bind, List.cons_append, List.headD_cons, if_neg hzero,
        if_pos hpercent, ih h.next fun c hc => hplain c (List.mem_cons_of_mem _ hc), hbehind]
      simp

theorem Directive.Specifies.spec_eq {spec : Spec} {start : Nat}
    (h : d.Specifies args k start spec) : { spec with fmt := 0 } = d.spec args k := by
  obtain ⟨flags, fieldWidth, precision, fmt, arg⟩ := spec
  have hwidth : BitVec.ofInt 32 fieldWidth.toInt = fieldWidth := BitVec.ofInt_toInt
  have hprecision : BitVec.ofInt 32 precision.toInt = precision := BitVec.ofInt_toInt
  rw [Directive.spec, ← h.flags, ← h.width, ← h.precision, ← h.arg, hwidth, hprecision]

/-- One round for a directive. -/
theorem formatLoop_directive (h : At f fmt (d.chars ++ suf)) (hd : d.Scannable copy args out.arg) :
    formatLoop copy m f args (rounds + 1) fmt out = d.text m args out.arg >>= fun text =>
      formatLoop copy m f args rounds (fmt + d.chars.length)
        { out with str := out.str ++ text, arg := out.arg + d.stars + 1 } := by
  obtain ⟨spec, hscan, hspec⟩ := hd.specifies h
  have hpercent : (f.charAt fmt : Except (Fault copy.wordSize) Byte) = .ok (chr '%') := by
    rw [chars_append] at h
    exact h.char
  -- the conversion is the last character of the directive
  have hconversion : (f.charAt spec.fmt : Except (Fault copy.wordSize) Byte) =
      .ok d.conversion.char := by
    obtain ⟨front, hfront⟩ : ∃ front, d.chars = front ++ [d.conversion.char] :=
      ⟨chr '%' :: (d.flags.map Flag.char ++ (d.widthChars ++ (d.precisionChars ++
        d.qualifierChars))), by simp [Directive.chars]⟩
    have hfmt := hspec.fmt
    rw [hfront, List.append_assoc] at h
    rw [hfront, List.length_append, List.length_singleton] at hfmt
    rw [show spec.fmt = fmt + front.length by omega]
    exact h.append.char
  have hne : chr '%' ≠ 0 := by decide
  have hbehind := hspec.fmt
  rw [formatLoop, hpercent, ok_bind, if_neg hne, if_neg (not_not_intro rfl), hscan, ok_bind,
    hconversion, ok_bind, convert_append]
  dsimp only
  rw [hspec.spec_eq, hspec.arg, ← hbehind, Directive.text]
  cases convert m args (d.spec args out.arg) d.conversion.char ⟨[], out.arg + d.stars, []⟩ <;> rfl

theorem itemChars_cons (item : Item) (items : List Item) :
    itemChars (item :: items) = item.chars ++ itemChars items := rfl

theorem itemArgs_cons (item : Item) (items : List Item) :
    itemArgs (item :: items) = item.args + itemArgs items := by
  simp [itemArgs]

/-- Every directive is scannable, the first one from argument `k` on. -/
def AllScannable (copy : Copy) (args : Nat → BitVec copy.wordSize) (k : Nat)
    (items : List Item) : Prop :=
  ∀ before d behind, items = before ++ .directive d :: behind →
    d.Scannable copy args (k + itemArgs before)

theorem AllScannable.tail {item : Item} (h : AllScannable copy args k (item :: items)) :
    AllScannable copy args (k + item.args) items := by
  intro before d behind hsplit
  have hnext := h (item :: before) d behind (by rw [hsplit, List.cons_append])
  rwa [itemArgs_cons, ← Nat.add_assoc] at hnext

/-- **The run over a format** prints what it is to print. -/
theorem formatLoop_render (h : At f fmt (itemChars items))
    (hrounds : (itemChars items).length < rounds) (hall : AllScannable copy args out.arg items) :
    formatLoop copy m f args rounds fmt out = (render m args out.arg items).map fun text =>
      ⟨out.str ++ text, out.arg + itemArgs items, out.stored⟩ := by
  induction items generalizing fmt rounds out with
  | nil =>
      obtain ⟨rounds, rfl⟩ : ∃ r, rounds = r + 1 := ⟨rounds - 1, by omega⟩
      rw [formatLoop, h.char, ok_bind]
      simp [itemChars, itemArgs]
  | cons item items ih =>
      rw [itemChars_cons] at h
      rw [itemChars_cons, List.length_append] at hrounds
      cases item with
      | literal text plain =>
          change At f fmt (text ++ itemChars items) at h
          change text.length + _ < _ at hrounds
          obtain ⟨rest, rfl⟩ : ∃ r, rounds = text.length + r := ⟨rounds - text.length, by omega⟩
          have hrest := @ih (fmt + text.length) rest { out with str := out.str ++ text } h.append
            (by omega) hall.tail
          rw [formatLoop_literal h plain, hrest, render, itemArgs_cons]
          dsimp only [Item.args]
          rw [Nat.zero_add]
          cases render m args out.arg items with
          | error fault => rfl
          | ok rendered => simp
      | directive d =>
          change At f fmt (d.chars ++ itemChars items) at h
          change d.chars.length + _ < _ at hrounds
          obtain ⟨rounds, rfl⟩ : ∃ r, rounds = r + 1 := ⟨rounds - 1, by omega⟩
          have hpos : 0 < d.chars.length := by
            rw [length_chars]
            omega
          have htail := hall.tail
          rw [formatLoop_directive h (hall [] d items rfl), render, itemArgs_cons]
          dsimp only [Item.args]
          cases d.text m args out.arg with
          | error fault => rfl
          | ok text =>
              rw [ok_bind, ok_bind, ih h.append (by omega) htail]
              dsimp only
              rw [← Nat.add_assoc, ← Nat.add_assoc]
              cases render m args (out.arg + d.stars + 1) items with
              | error fault => rfl
              | ok rendered => simp

/-- A format is printed as it is meant when every directive is scannable. -/
theorem vsprintf_eq_render (hall : AllScannable copy args 0 items) :
    vsprintf copy m (formatOf items) args =
      (render m args 0 items).map fun text => ⟨text, itemArgs items, []⟩ := by
  have hrun := @formatLoop_render copy m (formatOf items) args 0 (formatOf items).rounds ⟨[], 0, []⟩
    items (At.start _) (Nat.lt_succ_self _) hall
  unfold vsprintf
  rw [hrun]
  simp

theorem at_item {before behind : List Item} (hsplit : items = before ++ .directive d :: behind) :
    At (formatOf items) (itemChars before).length (d.chars ++ itemChars behind) := by
  have hchars : (formatOf items).chars = itemChars before ++ (d.chars ++ itemChars behind) := by
    change itemChars items = _
    rw [hsplit]
    simp [itemChars, Item.chars]
  have hstart := At.start (formatOf items)
  rw [hchars] at hstart
  have hplace := hstart.append
  rwa [Nat.zero_add] at hplace

theorem ConsumedWhole.scannable (h : ConsumedWhole copy m args items) :
    AllScannable copy args 0 items := by
  intro before d behind hsplit
  obtain ⟨spec, hscan, hspec⟩ := h.scanned before d behind hsplit
  rw [Nat.zero_add]
  exact scannable_of_specifies (at_item hsplit) hscan hspec

end

/-- **Directives are consumed whole** by a copy of `vsprintf` exactly when none has a `*` that the
copy does not get over, and all widths and precisions are numbers an `int` can hold. -/
theorem consumedWhole_iff (copy : Copy) (m : Mem) (args : Nat → BitVec copy.wordSize)
    (items : List Item) :
    ConsumedWhole copy m args items ↔
      ∀ before d behind, items = before ++ .directive d :: behind →
        d.precision ≠ some .star ∧ (copy = .kernel → d.width ≠ some .star) ∧
        d.widthValue args (itemArgs before) < 2 ^ 31 ∧
        d.precisionValue args (itemArgs before) < 2 ^ 31 := by
  constructor
  · intro hwhole before d behind hsplit
    have hd := hwhole.scannable before d behind hsplit
    rw [Nat.zero_add] at hd
    exact ⟨hd.precision_ne, hd.width_ne, hd.width_lt, hd.precision_lt⟩
  · intro hall
    have hscannable : AllScannable copy args 0 items := by
      intro before d behind hsplit
      obtain ⟨hprecision, hwidth, hwidthLt, hprecisionLt⟩ := hall before d behind hsplit
      rw [Nat.zero_add]
      exact ⟨hprecision, hwidth, hwidthLt, hprecisionLt⟩
    refine ⟨fun before d behind hsplit => ?_, vsprintf_eq_render hscannable⟩
    have hd := hscannable before d behind hsplit
    rw [Nat.zero_add] at hd
    exact hd.specifies (at_item hsplit)

/-- `%.*d` and, in the kernel, `%*d`, with the arguments 3 and 7. -/
theorem star_not_consumed :
    let precise : List Item := [.directive ⟨[], none, some .star, none, .d, rfl⟩]
    let wide : List Item := [.directive ⟨[], some .star, none, none, .d, rfl⟩]
    (vsprintf .loader (fun _ => 0) (formatOf precise) (fun k => if k = 0 then 3 else 7) =
        .ok ⟨ascii "%*d", 1, []⟩ ∧
      ¬ConsumedWhole .loader (fun _ => 0) (fun k => if k = 0 then 3 else 7) precise) ∧
    vsprintf .kernel (fun _ => 0) (formatOf wide) (fun k => if k = 0 then 3 else 7) =
        .ok ⟨ascii "%*d", 1, []⟩ ∧
      ¬ConsumedWhole .kernel (fun _ => 0) (fun k => if k = 0 then 3 else 7) wide := by
  refine ⟨⟨by decide +kernel, fun hwhole => ?_⟩, by decide +kernel, fun hwhole => ?_⟩
  · exact (hwhole.scannable [] _ [] rfl).precision_ne rfl
  · exact (hwhole.scannable [] _ [] rfl).width_ne rfl rfl

end Printf
end ZineOS
