import ZineOS.Printf.Directives

/-!
# The scan of a directive

What `scan` makes of a directive, part by part, with the rest of the format behind it: a character of
the next part ends the digits and the flags.  Each part has a lemma that says what is read and where
`fmt` is afterwards; the two `*` that a copy does not get over have one each as well.

* **`scan_eq`** — the scan of a directive without such a `*`.
* **`scannable_of_specifies`** — a scan that gives the directive has met none.
-/

namespace ZineOS
namespace Printf

open Lib Loader

/-! ## Places in a format -/

/-- The characters from `fmt` on. -/
structure At (f : Format) (fmt : Nat) (suf : List Byte) : Prop where
  inside : fmt ≤ f.chars.length
  rest : f.chars.drop fmt = suf

section

variable {w : Nat} {f : Format} {args : Nat → BitVec w} {copy : Copy} {fmt k rounds : Nat}
  {flags : Word32} {c : Byte} {text suf : List Byte} {d : Directive} {spec : Spec}

namespace At

theorem start (f : Format) : At f 0 f.chars := ⟨Nat.zero_le _, rfl⟩

theorem append (h : At f fmt (text ++ suf)) : At f (fmt + text.length) suf := by
  have hlength := congrArg List.length h.rest
  rw [List.length_drop, List.length_append] at hlength
  refine ⟨by have := h.inside; omega, ?_⟩
  rw [← List.drop_drop, h.rest, List.drop_left]

theorem next (h : At f fmt (c :: suf)) : At f (fmt + 1) suf := @append f fmt [c] suf h

theorem length_le (h : At f fmt suf) : suf.length ≤ f.chars.length := by
  rw [← h.rest, List.length_drop]
  omega

theorem char (h : At f fmt suf) : (f.charAt fmt : Except (Fault w) Byte) = .ok (suf.headD 0) := by
  have hhead := congrArg List.head? h.rest
  rw [List.head?_drop] at hhead
  unfold Format.charAt
  cases suf with
  | nil =>
      have hend : f.chars.length ≤ fmt := List.getElem?_eq_none_iff.mp hhead
      rw [if_neg (by omega), if_pos (hend.antisymm h.inside).symm]
      rfl
  | cons c suf =>
      have hlt : fmt < f.chars.length := by
        by_contra hend
        rw [List.getElem?_eq_none (by omega)] at hhead
        cases hhead
      rw [if_pos hlt, List.getD_eq_getElem?_getD, hhead]
      rfl

end At

/-! ## The parts of a directive -/

theorem flagOf_char (x : Flag) : flagOf x.char = some x.bit := by
  cases x <;> rfl

theorem scanFlags_eq {fl : List Flag} (h : At f fmt (c :: (fl.map Flag.char ++ suf)))
    (hend : flagOf (suf.headD 0) = none) (hrounds : fl.length < rounds) :
    (scanFlags f rounds fmt flags : Except (Fault w) (Word32 × Nat)) =
      .ok (fl.foldl (fun flags x => flags ||| x.bit) flags, fmt + 1 + fl.length) := by
  induction fl generalizing fmt rounds flags c with
  | nil =>
      obtain ⟨rounds, rfl⟩ : ∃ r, rounds = r + 1 := ⟨rounds - 1, by omega⟩
      rw [scanFlags, h.next.char, ok_bind]
      rw [List.map_nil, List.nil_append, hend]
      rfl
  | cons x fl ih =>
      obtain ⟨rounds, rfl⟩ : ∃ r, rounds = r + 1 := ⟨rounds - 1, by omega⟩
      rw [scanFlags, h.next.char, ok_bind, List.map_cons, List.cons_append, List.headD_cons,
        flagOf_char]
      rw [List.length_cons] at hrounds
      dsimp only
      rw [ih h.next (by omega), List.foldl_cons, List.length_cons]
      congr 2
      omega

theorem isDigit_digitByte (n : Fin 10) : isDigit (digitByte n) = true := by
  revert n
  decide

theorem digitByte_value (n : Fin 10) :
    (digitByte n).setWidth 32 - (chr '0').setWidth 32 = BitVec.ofNat 32 n.val := by
  revert n
  decide

theorem skipAtoi_eq {ds : List (Fin 10)} {n : Nat} (h : At f fmt (ds.map digitByte ++ suf))
    (hend : isDigit (suf.headD 0) = false) (hrounds : ds.length < rounds) :
    (skipAtoi f rounds fmt (BitVec.ofNat 32 n) : Except (Fault w) (Word32 × Nat)) =
      .ok (BitVec.ofNat 32 (ds.foldl (fun n d => n * 10 + d.val) n), fmt + ds.length) := by
  induction ds generalizing fmt rounds n with
  | nil =>
      obtain ⟨rounds, rfl⟩ : ∃ r, rounds = r + 1 := ⟨rounds - 1, by omega⟩
      rw [skipAtoi, h.char, ok_bind, List.map_nil, List.nil_append, hend]
      rfl
  | cons x ds ih =>
      obtain ⟨rounds, rfl⟩ : ∃ r, rounds = r + 1 := ⟨rounds - 1, by omega⟩
      rw [List.length_cons] at hrounds
      have hstep : BitVec.ofNat 32 n * 10 + (digitByte x).setWidth 32 - (chr '0').setWidth 32 =
          BitVec.ofNat 32 (n * 10 + x.val) := by
        rw [BitVec.ofNat_add, BitVec.ofNat_mul, ← digitByte_value, ← add_sub_assoc]
        rfl
      rw [skipAtoi, h.char, ok_bind, List.map_cons, List.cons_append, List.headD_cons,
        isDigit_digitByte, if_pos rfl, hstep, ih h.next (by omega), List.foldl_cons,
        List.length_cons]
      congr 2
      omega

/-- A character that ends the flags and the width. -/
structure Ends (c : Byte) : Prop where
  flag : flagOf c = none
  digit : isDigit c = false
  star : c ≠ chr '*'

theorem ends_conversion (conv : Conversion) : Ends conv.char ∧ conv.char ≠ chr '.' := by
  cases conv <;> exact ⟨⟨by decide, by decide, by decide⟩, by decide⟩

theorem ends_qualifierChar (q : Qualifier) : Ends q.char ∧ q.char ≠ chr '.' := by
  cases q <;> exact ⟨⟨by decide, by decide, by decide⟩, by decide⟩

theorem ends_qualifier (d : Directive) (suf : List Byte) :
    Ends ((d.qualifierChars ++ ([d.conversion.char] ++ suf)).headD 0) ∧
      (d.qualifierChars ++ ([d.conversion.char] ++ suf)).headD 0 ≠ chr '.' := by
  unfold Directive.qualifierChars
  cases d.qualifier with
  | none => exact ends_conversion d.conversion
  | some q => exact ends_qualifierChar q

theorem ends_precision (d : Directive) (suf : List Byte) :
    Ends ((d.precisionChars ++ (d.qualifierChars ++ ([d.conversion.char] ++ suf))).headD 0) := by
  unfold Directive.precisionChars
  cases d.precision with
  | none => exact (ends_qualifier d suf).1
  | some a =>
      have hdot : Ends (chr '.') := ⟨by decide, by decide, by decide⟩
      exact hdot

/-- The value of a width in the code. -/
def Directive.widthWord (d : Directive) (args : Nat → BitVec w) (k : Nat) : Word32 :=
  match d.width with
  | none => -1
  | some (.digits ds) => BitVec.ofNat 32 (decimal ds)
  | some .star => if (intArg args k).toInt < 0 then -intArg args k else intArg args k

/-- The value of a precision in the code. -/
def Directive.precisionWord (d : Directive) : Word32 :=
  match d.precision with
  | some (.digits ds) =>
      if (BitVec.ofNat 32 (decimal ds)).toInt < 0 then 0 else BitVec.ofNat 32 (decimal ds)
  | _ => -1

theorem digits_rounds {ds : List (Fin 10)} (h : At f fmt (ds.map digitByte ++ suf)) :
    ds.length < f.rounds := by
  have hle := h.length_le
  rw [List.length_append, List.length_map] at hle
  unfold Format.rounds
  omega

theorem skipAtoi_digits {ds : List (Fin 10)} (h : At f fmt ((Amount.digits ds).chars ++ suf))
    (hend : isDigit (suf.headD 0) = false) :
    (skipAtoi f f.rounds fmt 0 : Except (Fault w) (Word32 × Nat)) =
      .ok (BitVec.ofNat 32 (decimal ds), fmt + (Amount.digits ds).chars.length) := by
  have hskip := skipAtoi_eq (w := w) (n := 0) h hend (digits_rounds h)
  rwa [show ds.length = (Amount.digits ds).chars.length by simp [Amount.chars]] at hskip

theorem widthChars_none (h : d.width = none) : d.widthChars = [] := by
  simp [Directive.widthChars, h]

theorem widthChars_some {a : Amount} (h : d.width = some a) : d.widthChars = a.chars := by
  simp [Directive.widthChars, h]

theorem precisionChars_none (h : d.precision = none) : d.precisionChars = [] := by
  simp [Directive.precisionChars, h]

theorem precisionChars_some {a : Amount} (h : d.precision = some a) :
    d.precisionChars = chr '.' :: a.chars := by
  simp [Directive.precisionChars, h]

theorem isDigit_star : isDigit (chr '*') = false := by decide

/-- The loader gets over every width, the kernel over those without a `*`. -/
theorem scanWidth_eq (h : At f fmt (d.widthChars ++ suf)) (hend : Ends (suf.headD 0))
    (hstar : copy = .kernel → d.width ≠ some .star) :
    scanWidth f args copy flags fmt k =
      .ok ⟨if d.width = some .star ∧ (intArg args k).toInt < 0 then flags ||| left else flags,
        d.widthWord args k, -1, fmt + d.widthChars.length, k + d.widthStars⟩ := by
  have hleads := d.leads
  unfold scanWidth Directive.widthWord Directive.widthStars
  cases hwidth : d.width with
  | none =>
      rw [widthChars_none hwidth] at h ⊢
      rw [h.char, ok_bind, List.nil_append, hend.digit, if_neg Bool.false_ne_true, if_neg hend.star]
      rfl
  | some a =>
      rw [widthChars_some hwidth] at h ⊢
      cases a with
      | star =>
          have hcopy : copy = .loader := by
            cases copy with
            | loader => rfl
            | kernel => exact absurd hwidth (hstar rfl)
          rw [h.char, ok_bind]
          change (if isDigit (chr '*') = true then _ else _) = _
          rw [isDigit_star, if_neg Bool.false_ne_true, if_pos rfl, if_pos hcopy]
          unfold intArg
          by_cases hneg : ((args k).setWidth 32).toInt < 0
          · simp only [hneg, and_self, if_true]
            rfl
          · simp only [hneg, and_false, if_false]
            rfl
      | digits ds =>
          rw [hwidth] at hleads
          have hskip := skipAtoi_digits (w := w) h hend.digit
          obtain ⟨x, rest, rfl⟩ : ∃ x rest, ds = x :: rest := by
            cases ds with
            | nil => cases hleads
            | cons x rest => exact ⟨x, rest, rfl⟩
          rw [h.char, ok_bind]
          change (if isDigit (digitByte x) = true then _ else _) = _
          rw [isDigit_digitByte, if_pos rfl, hskip, ok_bind]
          rfl

theorem scanPrecision_eq (h : At f spec.fmt (d.precisionChars ++ suf))
    (hend : isDigit (suf.headD 0) = false ∧ suf.headD 0 ≠ chr '*' ∧ suf.headD 0 ≠ chr '.')
    (hnone : spec.precision = -1) (hstar : d.precision ≠ some .star) :
    scanPrecision f args spec =
      .ok { spec with precision := d.precisionWord, fmt := spec.fmt + d.precisionChars.length } := by
  unfold scanPrecision Directive.precisionWord
  cases hprecision : d.precision with
  | none =>
      rw [precisionChars_none hprecision] at h ⊢
      rw [h.char, ok_bind, List.nil_append, if_neg hend.2.2]
      dsimp only
      rw [← hnone]
      rfl
  | some a =>
      rw [precisionChars_some hprecision] at h ⊢
      cases a with
      | star => exact absurd hprecision hstar
      | digits ds =>
          have hnext := h.next
          have hlength : spec.fmt + (chr '.' :: (Amount.digits ds).chars).length =
              spec.fmt + 1 + (Amount.digits ds).chars.length := by
            rw [List.length_cons]
            omega
          rw [h.char, ok_bind, List.cons_append, List.headD_cons, if_pos rfl]
          dsimp only
          rw [hnext.char, ok_bind, hlength]
          cases ds with
          | nil =>
              have hsuf : (Amount.digits []).chars.append suf = suf := rfl
              rw [hsuf, hend.1, if_neg Bool.false_ne_true, if_neg hend.2.1]
              rfl
          | cons x rest =>
              change (if isDigit (digitByte x) = true then _ else _) = _
              rw [isDigit_digitByte, if_pos rfl, skipAtoi_digits hnext hend.1]
              rfl

theorem scanQualifier_eq
    (h : At f spec.fmt (d.qualifierChars ++ ([d.conversion.char] ++ suf))) :
    (scanQualifier f spec : Except (Fault w) Spec) =
      .ok { spec with fmt := spec.fmt + d.qualifierChars.length } := by
  unfold scanQualifier
  rw [h.char, ok_bind]
  unfold Directive.qualifierChars
  cases d.qualifier with
  | none => cases d.conversion <;> rfl
  | some q => cases q <;> rfl

theorem chars_append (d : Directive) (suf : List Byte) : d.chars ++ suf =
    chr '%' :: (d.flags.map Flag.char ++ (d.widthChars ++ (d.precisionChars ++
      (d.qualifierChars ++ ([d.conversion.char] ++ suf))))) := by
  simp [Directive.chars]

theorem length_chars (d : Directive) : d.chars.length = d.flags.length + d.widthChars.length +
    d.precisionChars.length + d.qualifierChars.length + 2 := by
  simp only [Directive.chars, List.length_cons, List.length_append, List.length_map, List.length_nil]
  omega

theorem ends_width (d : Directive) (hend : Ends (suf.headD 0)) :
    flagOf ((d.widthChars ++ suf).headD 0) = none := by
  have hleads := d.leads
  cases hwidth : d.width with
  | none =>
      rw [widthChars_none hwidth]
      exact hend.flag
  | some a =>
      rw [widthChars_some hwidth]
      rw [hwidth] at hleads
      cases a with
      | star =>
          change flagOf (chr '*') = none
          decide
      | digits ds =>
          cases ds with
          | nil => cases hleads
          | cons x rest =>
              have hx : ∀ x : Fin 10, x ≠ 0 → flagOf (digitByte x) = none := by decide
              exact hx x (by simpa [Amount.leads] using hleads)

/-- From the `%` to the width. -/
theorem scanFlags_directive (h : At f fmt (d.chars ++ suf)) :
    (scanFlags f f.rounds fmt 0 : Except (Fault w) (Word32 × Nat)) =
        .ok (d.flags.foldl (fun flags x => flags ||| x.bit) 0, fmt + 1 + d.flags.length) ∧
      At f (fmt + 1 + d.flags.length) (d.widthChars ++ (d.precisionChars ++
        (d.qualifierChars ++ ([d.conversion.char] ++ suf)))) := by
  have hlength := h.length_le
  rw [chars_append] at h
  rw [List.length_append, length_chars] at hlength
  refine ⟨scanFlags_eq h (ends_width d (ends_precision d suf)) ?_, ?_⟩
  · unfold Format.rounds
    omega
  · have hwidth := h.next.append
    rwa [List.length_map] at hwidth

/-- **The scan of a directive** that the copy gets over: its parts as words, the place of the
conversion and the arguments taken. -/
theorem scan_eq (h : At f fmt (d.chars ++ suf)) (hprecision : d.precision ≠ some .star)
    (hwidth : copy = .kernel → d.width ≠ some .star) :
    scan f args copy fmt k = .ok ⟨d.flagBits args k, d.widthWord args k, d.precisionWord,
      fmt + d.chars.length - 1, k + d.stars⟩ := by
  obtain ⟨hflags, hat⟩ := scanFlags_directive (w := w) h
  have hstars : d.stars = d.widthStars := by
    unfold Directive.stars
    rw [if_neg hprecision, Nat.add_zero]
  have hends := ends_qualifier d suf
  rw [scan, hflags, ok_bind]
  dsimp only
  rw [scanWidth_eq hat (ends_precision d suf) hwidth, ok_bind,
    scanPrecision_eq hat.append ⟨hends.1.digit, hends.1.star, hends.2⟩ rfl hprecision, ok_bind,
    scanQualifier_eq hat.append.append, hstars, length_chars]
  unfold Directive.flagBits
  dsimp only
  congr 2
  omega

theorem scanQualifier_star (h : At f spec.fmt (chr '*' :: suf)) :
    (scanQualifier f spec : Except (Fault w) Spec) = .ok spec := by
  unfold scanQualifier
  rw [h.char, ok_bind]
  rfl

/-- The kernel stops at the `*` of a width. -/
theorem scan_widthStar (args : Nat → BitVec w) (k : Nat) (h : At f fmt (d.chars ++ suf))
    (hwidth : d.width = some .star) :
    ∃ spec, scan f args .kernel fmt k = .ok spec ∧ spec.fmt = fmt + 1 + d.flags.length := by
  obtain ⟨hflags, hat⟩ := scanFlags_directive (w := w) h
  rw [widthChars_some hwidth] at hat
  have hscan : ∀ flags, ∃ spec, scanWidth f args .kernel flags (fmt + 1 + d.flags.length) k =
      .ok spec ∧ spec.fmt = fmt + 1 + d.flags.length := by
    intro flags
    have hchar : (f.charAt (fmt + 1 + d.flags.length) : Except (Fault w) Byte) = .ok (chr '*') :=
      hat.char
    unfold scanWidth
    rw [hchar, ok_bind, isDigit_star, if_neg Bool.false_ne_true, if_pos rfl]
    by_cases hneg : ((args k).setWidth 32).toInt < 0
    · simp only [hneg, if_true]
      exact ⟨_, rfl, rfl⟩
    · simp only [hneg, if_false]
      exact ⟨_, rfl, rfl⟩
  obtain ⟨spec, hspec, hfmt⟩ := hscan (d.flags.foldl (fun flags x => flags ||| x.bit) 0)
  have hstar := hat
  rw [← hfmt] at hstar
  have hprecision : scanPrecision f args spec = .ok spec := by
    unfold scanPrecision
    rw [hstar.char, ok_bind]
    rfl
  refine ⟨spec, ?_, hfmt⟩
  rw [scan, hflags, ok_bind]
  dsimp only
  rw [hspec, ok_bind, hprecision, ok_bind, scanQualifier_star hstar]

/-- Both copies stop at the `*` of a precision. -/
theorem scan_precisionStar (args : Nat → BitVec w) (k : Nat) (h : At f fmt (d.chars ++ suf))
    (hprecision : d.precision = some .star)
    (hwidth : copy = .kernel → d.width ≠ some .star) :
    ∃ spec, scan f args copy fmt k = .ok spec ∧
      spec.fmt = fmt + 1 + d.flags.length + d.widthChars.length + 1 := by
  obtain ⟨hflags, hat⟩ := scanFlags_directive (w := w) h
  have hends := ends_precision d suf
  obtain ⟨spec, hspec⟩ : ∃ spec, scanWidth f args copy
      (d.flags.foldl (fun flags x => flags ||| x.bit) 0) (fmt + 1 + d.flags.length) k = .ok spec ∧
      spec.fmt = fmt + 1 + d.flags.length + d.widthChars.length :=
    ⟨_, scanWidth_eq hat hends hwidth, rfl⟩
  have hdot := hat.append
  rw [precisionChars_some hprecision, ← hspec.2] at hdot
  have hstar : At f (spec.fmt + 1) (chr '*' :: (d.qualifierChars ++ ([d.conversion.char] ++ suf))) :=
    hdot.next
  have hscan : ∃ spec', scanPrecision f args spec = .ok spec' ∧ spec'.fmt = spec.fmt + 1 := by
    unfold scanPrecision
    rw [hdot.char, ok_bind, List.cons_append, List.headD_cons, if_pos rfl]
    dsimp only
    rw [hstar.char, ok_bind, List.headD_cons, isDigit_star, if_neg Bool.false_ne_true, if_pos rfl]
    exact ⟨_, rfl, rfl⟩
  obtain ⟨spec', hspec', hfmt⟩ := hscan
  rw [← hfmt] at hstar
  refine ⟨spec', ?_, by rw [hfmt, hspec.2]⟩
  rw [scan, hflags, ok_bind]
  dsimp only
  rw [hspec.1, ok_bind, hspec', ok_bind, scanQualifier_star hstar]

/-! ## The values -/

theorem toInt_ofNat {n : Nat} (hn : n < 2 ^ 31) : (BitVec.ofNat 32 n).toInt = n := by
  have hnat : (BitVec.ofNat 32 n).toNat = n := by
    rw [BitVec.toNat_ofNat, Nat.mod_eq_of_lt (by omega)]
  rw [BitVec.toInt_eq_toNat_of_lt (by omega), hnat]

theorem widthWord_toInt (hlt : d.widthValue args k < 2 ^ 31) :
    (d.widthWord args k).toInt = d.widthValue args k := by
  unfold Directive.widthWord
  unfold Directive.widthValue at *
  cases hwidth : d.width with
  | none => rfl
  | some a =>
      rw [hwidth] at hlt
      cases a with
      | digits ds =>
          have hdecimal : (decimal ds : Int) < 2 ^ 31 := hlt
          exact toInt_ofNat (by omega)
      | star =>
          dsimp only at hlt ⊢
          have hzero : (0#32).toInt = 0 := rfl
          split_ifs with hneg
          · rw [abs_of_neg hneg] at hlt ⊢
            rw [← BitVec.zero_sub, toInt_sub, hzero] <;> omega
          · rw [abs_of_nonneg (by omega)]

theorem precisionWord_toInt (hlt : d.precisionValue args k < 2 ^ 31)
    (hstar : d.precision ≠ some .star) : d.precisionWord.toInt = d.precisionValue args k := by
  unfold Directive.precisionWord
  unfold Directive.precisionValue at *
  cases hprecision : d.precision with
  | none => rfl
  | some a =>
      rw [hprecision] at hlt
      cases a with
      | star => exact absurd hprecision hstar
      | digits ds =>
          have hdecimal : (decimal ds : Int) < 2 ^ 31 := hlt
          have hvalue : (BitVec.ofNat 32 (decimal ds)).toInt = decimal ds :=
            toInt_ofNat (by omega)
          dsimp only
          rw [hvalue, if_neg (by omega), hvalue]

end

/-! ## Which directives are scanned as they are written -/

section

variable {copy : Copy} {f : Format} {m : Mem} {args : Nat → BitVec copy.wordSize} {fmt k : Nat}
  {suf : List Byte} {d : Directive}

theorem Directive.Scannable.specifies (hd : d.Scannable copy args k)
    (h : At f fmt (d.chars ++ suf)) :
    ∃ spec, scan f args copy fmt k = .ok spec ∧ d.Specifies args k fmt spec := by
  have hlength := length_chars d
  exact ⟨_, scan_eq h hd.precision_ne hd.width_ne, rfl, widthWord_toInt hd.width_lt,
    precisionWord_toInt hd.precision_lt hd.precision_ne, by dsimp only; omega, rfl⟩

theorem scannable_of_specifies {spec : Spec} (h : At f fmt (d.chars ++ suf))
    (hscan : scan f args copy fmt k = .ok spec) (hspec : d.Specifies args k fmt spec) :
    d.Scannable copy args k := by
  have hlength := length_chars d
  have hfmt := hspec.fmt
  have hwidth : copy = .kernel → d.width ≠ some .star := by
    rintro rfl hstar
    obtain ⟨spec', hscan', hfmt'⟩ := scan_widthStar args k h hstar
    have hchars : d.widthChars.length = 1 := by rw [widthChars_some hstar]; rfl
    rw [hscan] at hscan'
    cases hscan'
    omega
  refine ⟨fun hstar => ?_, hwidth, ?_, ?_⟩
  · obtain ⟨spec', hscan', hfmt'⟩ := scan_precisionStar args k h hstar hwidth
    have hchars : d.precisionChars.length = 2 := by rw [precisionChars_some hstar]; rfl
    rw [hscan] at hscan'
    cases hscan'
    omega
  · rw [← hspec.width]
    exact BitVec.toInt_lt
  · rw [← hspec.precision]
    exact BitVec.toInt_lt

end

end Printf
end ZineOS
