import ZineOS.Lib.Strings
import ZineOS.Printf.Vsprintf

/-!
# The scan of a format

`vsprintf` goes over the format in a `for` loop, with a loop for the flags and one for the digits
inside it, single steps for `*`, `.` and the qualifier, and one step back when the string ends in a
directive.

Every function of the scan gets a lemma of the same kind: from a place in the string, the NUL
included, it comes to another one that is not before it.  A round of the loop then ends behind its
start, also with the step back.

* **`vsprintf_inside`** — the scan ends and never leaves the format.
-/

namespace ZineOS
namespace Printf

open Lib Loader

section

variable {w : Nat} {f : Format} {args : Nat → BitVec w} {copy : Copy} {fmt arg rounds : Nat}
  {i flags : Word32} {c : Byte} {spec : Spec}

@[simp]
theorem ok_bind {ε α β : Type} (a : α) (g : α → Except ε β) : (Except.ok a >>= g) = g a := rfl

@[simp]
theorem ok_map {ε α β : Type} (a : α) (g : α → β) :
    (Except.ok a : Except ε α).map g = .ok (g a) := rfl

/-- A read up to the NUL. -/
theorem charAt_inside (w : Nat) (hfmt : fmt ≤ f.chars.length) :
    ∃ c, (f.charAt fmt : Except (Fault w) Byte) = .ok c ∧ (c ≠ 0 ↔ fmt < f.chars.length) := by
  unfold Format.charAt
  by_cases hlt : fmt < f.chars.length
  · refine ⟨f.chars[fmt], ?_, iff_of_true (fun hzero => ?_) hlt⟩
    · rw [if_pos hlt, List.getD_eq_getElem _ _ hlt]
    · exact f.noNul (hzero ▸ List.getElem_mem hlt)
  · refine ⟨0, ?_, iff_of_false (not_not_intro rfl) hlt⟩
    rw [if_neg hlt, if_pos (by omega)]

theorem skipAtoi_inside (hfmt : fmt ≤ f.chars.length) (hrounds : f.chars.length - fmt < rounds) :
    ∃ i' fmt', (skipAtoi f rounds fmt i : Except (Fault w) (Word32 × Nat)) = .ok (i', fmt') ∧
      fmt ≤ fmt' ∧ fmt' ≤ f.chars.length := by
  induction rounds generalizing fmt i with
  | zero => omega
  | succ rounds ih =>
      obtain ⟨c, hc, hend⟩ := charAt_inside w hfmt
      rw [skipAtoi, hc, ok_bind]
      by_cases hdigit : isDigit c = true
      · have hlt : fmt < f.chars.length := hend.mp (by rintro rfl; cases hdigit)
        rw [if_pos hdigit]
        obtain ⟨i', fmt', hrest, hle, hin⟩ :=
          @ih (fmt + 1) (i * 10 + c.setWidth 32 - (chr '0').setWidth 32) (by omega) (by omega)
        exact ⟨i', fmt', hrest, by omega, hin⟩
      · rw [if_neg hdigit]
        exact ⟨i, fmt, rfl, le_rfl, hfmt⟩

/-- From the `%` on. -/
theorem scanFlags_inside (w : Nat) (flags : Word32) (hfmt : fmt < f.chars.length)
    (hrounds : f.chars.length - fmt ≤ rounds) :
    ∃ flags' fmt', (scanFlags f rounds fmt flags : Except (Fault w) (Word32 × Nat)) =
      .ok (flags', fmt') ∧ fmt < fmt' ∧ fmt' ≤ f.chars.length := by
  induction rounds generalizing fmt flags with
  | zero => omega
  | succ rounds ih =>
      obtain ⟨c, hc, hend⟩ := @charAt_inside f (fmt + 1) w hfmt
      rw [scanFlags, hc, ok_bind]
      cases hflag : flagOf c with
      | none => exact ⟨flags, fmt + 1, rfl, by omega, hfmt⟩
      | some flag =>
          have hlt : fmt + 1 < f.chars.length := hend.mp (by rintro rfl; cases hflag)
          obtain ⟨flags', fmt', hrest, hle, hin⟩ := @ih (fmt + 1) (flags ||| flag) hlt (by omega)
          exact ⟨flags', fmt', hrest, by omega, hin⟩

/-- A step of the scan that ends at `spec`. -/
structure Spec.Behind (f : Format) (fmt : Nat) (spec : Spec) : Prop where
  le : fmt ≤ spec.fmt
  inside : spec.fmt ≤ f.chars.length

theorem rounds_enough (fmt : Nat) : f.chars.length - fmt < f.rounds := by
  unfold Format.rounds
  omega

theorem scanWidth_inside (args : Nat → BitVec w) (copy : Copy) (flags : Word32) (arg : Nat)
    (hfmt : fmt ≤ f.chars.length) :
    ∃ spec, scanWidth f args copy flags fmt arg = .ok spec ∧ spec.Behind f fmt := by
  obtain ⟨c, hc, hend⟩ := charAt_inside w hfmt
  rw [scanWidth, hc, ok_bind]
  by_cases hdigit : isDigit c = true
  · obtain ⟨i, fmt', hskip, hle, hin⟩ := skipAtoi_inside (w := w) (i := 0) hfmt (rounds_enough fmt)
    rw [if_pos hdigit, hskip, ok_bind]
    exact ⟨_, rfl, hle, hin⟩
  · rw [if_neg hdigit]
    by_cases hstar : c = chr '*'
    · have hlt : fmt < f.chars.length := hend.mp (by rw [hstar]; decide)
      rw [if_pos hstar]
      refine ⟨_, rfl, ?_, ?_⟩ <;> dsimp only <;> split_ifs <;> omega
    · rw [if_neg hstar]
      exact ⟨_, rfl, le_rfl, hfmt⟩

theorem scanPrecision_inside (args : Nat → BitVec w) (hspec : spec.fmt ≤ f.chars.length) :
    ∃ spec', scanPrecision f args spec = .ok spec' ∧ spec'.Behind f spec.fmt := by
  obtain ⟨c, hc, hend⟩ := charAt_inside w hspec
  rw [scanPrecision, hc, ok_bind]
  by_cases hdot : c = chr '.'
  · have hlt : spec.fmt < f.chars.length := hend.mp (by rw [hdot]; decide)
    obtain ⟨c', hc', hend'⟩ := @charAt_inside f (spec.fmt + 1) w hlt
    rw [if_pos hdot]
    dsimp only
    rw [hc', ok_bind]
    by_cases hdigit : isDigit c' = true
    · obtain ⟨i, fmt', hskip, hle, hin⟩ :=
        skipAtoi_inside (w := w) (i := 0) hlt (rounds_enough (spec.fmt + 1))
      rw [if_pos hdigit, hskip]
      exact ⟨_, rfl, (Nat.le_succ _).trans hle, hin⟩
    · rw [if_neg hdigit]
      split_ifs
      · exact ⟨_, rfl, Nat.le_succ _, hlt⟩
      · exact ⟨_, rfl, Nat.le_succ _, hlt⟩
  · rw [if_neg hdot]
    exact ⟨_, rfl, le_rfl, hspec⟩

theorem scanQualifier_inside (hspec : spec.fmt ≤ f.chars.length) :
    ∃ spec', (scanQualifier f spec : Except (Fault w) Spec) = .ok spec' ∧
      spec'.Behind f spec.fmt := by
  obtain ⟨c, hc, hend⟩ := charAt_inside w hspec
  rw [scanQualifier, hc, ok_bind]
  by_cases hqualifier : c = chr 'h' ∨ c = chr 'l' ∨ c = chr 'L'
  · have hlt : spec.fmt < f.chars.length :=
      hend.mp (by rcases hqualifier with rfl | rfl | rfl <;> decide)
    rw [if_pos hqualifier]
    exact ⟨_, rfl, Nat.le_succ _, hlt⟩
  · rw [if_neg hqualifier]
    exact ⟨_, rfl, le_rfl, hspec⟩

/-- **The scan of a directive** ends behind its `%`, at the NUL at the latest. -/
theorem scan_inside (args : Nat → BitVec w) (copy : Copy) (arg : Nat) (hfmt : fmt < f.chars.length) :
    ∃ spec, scan f args copy fmt arg = .ok spec ∧ spec.Behind f (fmt + 1) := by
  obtain ⟨flags, fmt₁, hflags, hlt, hin⟩ :=
    scanFlags_inside w 0 hfmt (rounds_enough fmt).le
  obtain ⟨spec₂, hwidth, hspec₂⟩ := scanWidth_inside args copy flags arg hin
  obtain ⟨spec₃, hprecision, hspec₃⟩ := scanPrecision_inside args hspec₂.inside
  obtain ⟨spec₄, hqualifier, hspec₄⟩ := scanQualifier_inside (w := w) hspec₃.inside
  have hle₂ := hspec₂.le
  have hle₃ := hspec₃.le
  have hle₄ := hspec₄.le
  refine ⟨spec₄, ?_, by omega, hspec₄.inside⟩
  rw [scan, hflags, ok_bind]
  dsimp only
  rw [hwidth, ok_bind, hprecision, ok_bind, hqualifier]

/-! ## The conversions -/

variable {m : Mem} {out : Out w}

/-- No NUL anywhere. -/
def Unterminated (m : Mem) (s : BitVec w) : Prop := ∀ n : BitVec w, m (s + n).toNat ≠ 0

theorem strlenLoop_none {retval : BitVec w} {str : BitVec w}
    (h : strlenLoop m rounds str retval = none) :
    ∀ n < rounds, m (str + BitVec.ofNat w n).toNat ≠ 0 := by
  induction rounds generalizing str retval with
  | zero => exact fun n hn => absurd hn (Nat.not_lt_zero n)
  | succ rounds ih =>
      rw [strlenLoop] at h
      split_ifs at h with hzero
      intro n hn
      cases n with
      | zero => simpa using hzero
      | succ n =>
          have hnext := ih h n (by omega)
          rwa [add_one_add_ofNat] at hnext

theorem strlenLoop_some {retval str : BitVec w} {n : Nat} (hn : n < rounds)
    (hbefore : ∀ i < n, m (str + BitVec.ofNat w i).toNat ≠ 0)
    (hzero : m (str + BitVec.ofNat w n).toNat = 0) :
    strlenLoop m rounds str retval = some (retval + BitVec.ofNat w n) := by
  induction rounds generalizing str retval n with
  | zero => exact absurd hn (Nat.not_lt_zero n)
  | succ rounds ih =>
      rw [strlenLoop]
      cases n with
      | zero => simp_all
      | succ n =>
          have hfirst : m str.toNat ≠ 0 := by simpa using hbefore 0 (by omega)
          have hrest : ∀ i < n, m (str + 1 + BitVec.ofNat w i).toNat ≠ 0 := by
            intro i hi
            rw [add_one_add_ofNat]
            exact hbefore (i + 1) (by omega)
          rw [← add_one_add_ofNat] at hzero
          rw [if_neg hfirst, ih (by omega) hrest hzero, add_one_add_ofNat]

theorem strlen_none {s : BitVec w} (h : strlen m s = none) : Unterminated m s := by
  intro n
  have hn := strlenLoop_none h n.toNat n.isLt
  rwa [BitVec.ofNat_toNat, BitVec.setWidth_eq] at hn

theorem strlen_some {s : BitVec w} {n : Nat} (hn : n < 2 ^ w)
    (hbefore : ∀ i < n, m (s + BitVec.ofNat w i).toNat ≠ 0)
    (hzero : m (s + BitVec.ofNat w n).toNat = 0) : strlen m s = some (BitVec.ofNat w n) := by
  rw [strlen, strlenLoop_some hn hbefore hzero]
  simp

/-- A call that is over, or that will not come back from `strlen`. -/
def Done {α : Type} (m : Mem) (args : Nat → BitVec w) (P : α → Prop) :
    Except (Fault w) α → Prop
  | .ok a => P a
  | .error (.unterminated s) => (∃ k, s = args k) ∧ Unterminated m s
  | .error _ => False

theorem Done.bind {α β : Type} {P : α → Prop} {Q : β → Prop} {r : Except (Fault w) α}
    {g : α → Except (Fault w) β} (h : Done m args P r) (hg : ∀ a, P a → Done m args Q (g a)) :
    Done m args Q (r >>= g) := by
  cases r with
  | ok a => exact hg a h
  | error fault =>
      cases fault with
      | unterminated s => exact h
      | outside fmt => exact h.elim
      | rounds => exact h.elim
      | null => exact h.elim

theorem Done.ite {α : Type} {P : α → Prop} {p : Prop} [Decidable p] {r r' : Except (Fault w) α}
    (h : p → Done m args P r) (h' : Done m args P r') : Done m args P (if p then r else r') := by
  by_cases hp : p
  · rw [if_pos hp]
    exact h hp
  · rwa [if_neg hp]

/-- The bases of the conversions are those of `number`. -/
theorem convertNumber_ok {base : Word32} (hbase : base = 8 ∨ base = 10 ∨ base = 16) :
    ∃ out', convertNumber args spec base out = .ok out' := by
  have hrange : ¬(base.toInt < 2 ∨ 36 < base.toInt) := by
    rcases hbase with rfl | rfl | rfl <;> decide
  unfold convertNumber number
  rw [dif_neg hrange]
  exact ⟨_, rfl⟩

theorem convertNumber_done {base : Word32} (hbase : base = 8 ∨ base = 10 ∨ base = 16) :
    Done m args (fun _ => True) (convertNumber args spec base out) := by
  obtain ⟨out', hout⟩ := @convertNumber_ok w args spec out base hbase
  rw [hout]
  trivial

theorem convertString_done :
    Done m args (fun _ => True) (convertString m args spec out) := by
  unfold convertString
  dsimp only
  cases hlen : strlen m (args out.arg) with
  | none => exact ⟨⟨_, rfl⟩, strlen_none hlen⟩
  | some n => trivial

theorem convertOther_done (m : Mem) (args : Nat → BitVec w) (out : Out w) (hpos : 0 < spec.fmt)
    (hin : spec.fmt ≤ f.chars.length) (hc : c ≠ 0 ↔ spec.fmt < f.chars.length) :
    Done m args (fun r : Out w × Nat => spec.fmt ≤ r.2 + 1 ∧ r.2 < f.chars.length)
      (convertOther spec c out) := by
  unfold convertOther
  dsimp only
  by_cases hnonzero : c ≠ 0
  · rw [if_pos hnonzero]
    exact ⟨Nat.le_succ _, hc.mp hnonzero⟩
  · -- `--fmt`, back to the last character
    have hlast : ¬spec.fmt < f.chars.length := mt hc.mpr hnonzero
    rw [if_neg hnonzero, if_neg hpos.ne']
    change spec.fmt ≤ spec.fmt - 1 + 1 ∧ spec.fmt - 1 < f.chars.length
    omega

/-- **A conversion** leaves `fmt` where it was, or one before at the NUL. -/
theorem convert_done (hpos : 0 < spec.fmt) (hin : spec.fmt ≤ f.chars.length)
    (hc : c ≠ 0 ↔ spec.fmt < f.chars.length) :
    Done m args (fun r : Out w × Nat => spec.fmt ≤ r.2 + 1 ∧ r.2 < f.chars.length)
      (convert m args spec c out) := by
  have hother := convertOther_done m args out hpos hin hc
  by_cases hzero : c = 0
  · subst hzero
    exact hother
  · have hstays : spec.fmt ≤ spec.fmt + 1 ∧ spec.fmt < f.chars.length :=
      ⟨Nat.le_succ _, hc.mp hzero⟩
    have hnumber : ∀ (spec' : Spec) (base : Word32), base = 8 ∨ base = 10 ∨ base = 16 →
        Done m args (fun r : Out w × Nat => spec.fmt ≤ r.2 + 1 ∧ r.2 < f.chars.length)
          (convertNumber args spec' base out >>= fun out => .ok (out, spec.fmt)) :=
      fun spec' base hbase => (convertNumber_done hbase).bind fun _ _ => hstays
    have hstring : Done m args (fun r : Out w × Nat => spec.fmt ≤ r.2 + 1 ∧ r.2 < f.chars.length)
        (convertString m args spec out >>= fun out => .ok (out, spec.fmt)) :=
      convertString_done.bind fun _ _ => hstays
    unfold convert
    refine .ite (fun _ => hstays) (.ite (fun _ => hstring) (.ite (fun _ => ?_) (.ite (fun _ => ?_)
      (.ite (fun _ => ?_) (.ite (fun _ => ?_) (.ite (fun _ => ?_) (.ite (fun _ => ?_)
        (.ite (fun _ => hstays) hother))))))))
    all_goals exact hnumber _ _ (by decide)

/-! ## The loop -/

/-- **The loop over the format** ends and stays inside. -/
theorem formatLoop_done {args : Nat → BitVec copy.wordSize} {out : Out copy.wordSize}
    (hfmt : fmt ≤ f.chars.length) (hrounds : f.chars.length - fmt < rounds) :
    Done m args (fun _ => True) (formatLoop copy m f args rounds fmt out) := by
  induction rounds generalizing fmt out with
  | zero => omega
  | succ rounds ih =>
      obtain ⟨c, hc, hend⟩ := charAt_inside copy.wordSize hfmt
      rw [formatLoop, hc, ok_bind]
      by_cases hzero : c = 0
      · rw [if_pos hzero]
        trivial
      · have hlt := hend.mp hzero
        rw [if_neg hzero]
        by_cases hliteral : c ≠ chr '%'
        · rw [if_pos hliteral]
          exact ih hlt (by omega)
        · obtain ⟨spec, hscan, hspec⟩ := scan_inside args copy out.arg hlt
          obtain ⟨c', hc', hend'⟩ := charAt_inside copy.wordSize hspec.inside
          have hle := hspec.le
          rw [if_neg hliteral, hscan, ok_bind, hc', ok_bind]
          refine (convert_done (by omega) hspec.inside hend').bind ?_
          rintro ⟨out', fmt'⟩ ⟨hbehind, hin⟩
          dsimp only at hbehind hin
          exact ih hin (by omega)

end

/-- **The format scanner never leaves the format**, whatever the format and the arguments: the call
ends in both copies, unless it was to print a string that has no NUL. -/
theorem vsprintf_inside (copy : Copy) (m : Mem) (f : Format) (args : Nat → BitVec copy.wordSize) :
    (∃ out, vsprintf copy m f args = .ok out) ∨
      ∃ k, Unterminated m (args k) ∧ vsprintf copy m f args = .error (.unterminated (args k)) := by
  have hdone : Done m args (fun _ => True) (vsprintf copy m f args) :=
    formatLoop_done (Nat.zero_le _) (rounds_enough 0)
  cases hrun : vsprintf copy m f args with
  | ok out => exact .inl ⟨out, rfl⟩
  | error fault =>
      rw [hrun] at hdone
      cases fault with
      | unterminated s =>
          obtain ⟨⟨k, rfl⟩, hno⟩ := hdone
          exact .inr ⟨k, hno, rfl⟩
      | outside fmt => exact hdone.elim
      | rounds => exact hdone.elim
      | null => exact hdone.elim

end Printf
end ZineOS
