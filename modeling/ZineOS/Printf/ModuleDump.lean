import ZineOS.Printf.Hexadecimal
import ZineOS.Loader.Multiboot

/-!
# The list of modules

`InfoTable::DumpModules` and `ModuleTable::Dump` print the module table with a call of `printf` for
every part.  `printf` writes the text and a NUL to `printbuf`, which has 1024 bytes and is elsewhere
than the tables and the command lines; `vsprintf` knows nothing of that.  All parts are short but the
command line, which is as long as the boot loader made it.

* **`modules_fit_iff`** — for which command lines every call keeps within `printbuf`.
-/

namespace ZineOS
namespace Printf

open Lib Loader MBoot

/-- A call of `printf`. -/
structure Call where
  items : List Item
  words : List Word32

/-- The bytes that the call stores in `printbuf`, with the NUL. -/
def Call.stored (m : Mem) (call : Call) : Except (Fault 32) Nat :=
  (vsprintf .loader m (formatOf call.items) (callArgs call.words)).map fun out => out.str.length + 1

/-- `"0x%p - 0x%p  "`. -/
def addressesCall (start stop : Word32) : Call :=
  ⟨[zeroX, .directive (plain none .p), literal " - 0x", .directive (plain none .p), blanks],
    [start, stop]⟩

/-- `"%*d  "`. -/
def numberCall (width n : Word32) : Call :=
  ⟨[.directive starWidth, blanks], [width, n]⟩

/-- `"%s\n"`. -/
def lineCall (s : Word32) : Call := ⟨[.directive (plain none .s), newline], [s]⟩

/-- `ModuleTable::Dump`. -/
def dumpModule (m : Mem) (module : Word32) : List Call :=
  [addressesCall (modStart m module) (modEnd m module), numberCall 8 (getSize m module / 1024),
    lineCall (cmdline m module)]

/-- `InfoTable::DumpModules`. -/
def dumpModules (m : Mem) (info : Word32) : List Call :=
  let cnt := getModuleCount m info
  if cnt = 0 then [⟨[literal "No modules loaded\n"], []⟩]
  else
    [⟨[literal "Loaded modules:\n"], []⟩,
      ⟨[literal " #  Start        End               Kb  Cmd\n"], []⟩] ++
    (List.range cnt.toNat).flatMap fun i =>
      numberCall 2 (BitVec.ofNat 32 i + 1) :: dumpModule m (getModule m info (BitVec.ofNat 32 i))

/-- The size of `printbuf`. -/
def printbufSize : Nat := 1024

/-- The call ends and keeps within `printbuf`. -/
def Call.Fits (m : Mem) (call : Call) : Prop :=
  ∃ n, call.stored m = .ok n ∧ n ≤ printbufSize

section

variable {m : Mem} {args : Nat → Word32} {k : Nat} {items : List Item} {words : List Word32}
  {text : List Byte} {call : Call} {module info n width : Word32}

theorem stored_eq (hall : AllScannable .loader (callArgs call.words) 0 call.items)
    (hrender : render m (callArgs call.words) 0 call.items = .ok text) :
    call.stored m = .ok (text.length + 1) := by
  rw [Call.stored, vsprintf_eq_render hall, hrender]
  rfl

theorem fits_iff (h : call.stored m = .ok k) : call.Fits m ↔ k ≤ printbufSize := by
  constructor
  · rintro ⟨n, hn, hle⟩
    rw [h] at hn
    cases hn
    exact hle
  · exact fun hle => ⟨k, h, hle⟩

/-! ## The short parts -/

theorem literal_fits (s : String) (plain : (ascii s).all isPlain = true)
    (hshort : (ascii s).length < printbufSize) : Call.Fits m ⟨[literal s plain], []⟩ := by
  have hrender : render m (callArgs ([] : List Word32)) 0 [literal s plain] = .ok (ascii s) := by
    simp [render_literal]
  exact ⟨_, stored_eq (.literal .nil) hrender, hshort⟩

theorem addressesCall_scannable (start stop : Word32) :
    AllScannable .loader (callArgs [start, stop]) 0 (addressesCall start stop).items :=
  .literal (.directive scannable_plain (.literal (.directive scannable_plain (.literal .nil))))

theorem render_addressesCall (start stop : Word32) :
    render m (callArgs [start, stop]) 0 (addressesCall start stop).items =
      .ok (ascii "0x" ++ (pointerText start ++ (ascii " - 0x" ++ (pointerText stop ++
        ascii "  ")))) := by
  rw [addressesCall, render_literal, render_directive text_p, render_literal,
    render_directive text_p, render_literal]
  simp only [render_nil, ok_map, List.append_nil]
  rfl

theorem addressesCall_fits (start stop : Word32) : (addressesCall start stop).Fits m := by
  refine ⟨_, stored_eq (addressesCall_scannable start stop) (render_addressesCall start stop), ?_⟩
  simp only [List.length_append, length_pointerText]
  decide

/-- A number in a field of moderate size. -/
theorem length_number {size type base : Word32} (hbase : 2 ≤ base.toNat ∧ base.toNat ≤ 36)
    (hsize : Small size) : ∃ text, number [] n base size (-1) type = some text ∧
      text.length ≤ max size.toInt.toNat 35 := by
  refine ⟨_, number_eq hbase hsize (by decide), ?_⟩
  have hlength := @field_length n base size (-1) type hsize.1 (by decide)
  have hsign := @signText_length_le n type
  have hspecial := @specialText_length_le base type
  have hdigits : ((digits (has type small)).numeral base.toNat (magnitude n type)).length ≤ 32 := by
    rw [Digits.length_numeral, ← takeSign_magnitude]
    exact length_digits hbase.1
  have hminus : (-1 : Word32).toInt = -1 := rfl
  rw [List.nil_append]
  rw [hminus] at hlength
  omega

/-- `%*d` in a field of moderate size. -/
theorem text_starNumber (hlow : 0 ≤ (args k).toInt) (hhigh : (args k).toInt ≤ 2 ^ 20) :
    ∃ text, starWidth.text m args k = .ok text ∧
      text.length ≤ max (args k).toInt.toNat 35 := by
  have hspec : starWidth.spec args k =
      ⟨0, args k, -1, 0, k + 1⟩ := by
    have hself : intArg args k = args k := BitVec.setWidth_eq _
    have hwidth : BitVec.ofInt 32 |(args k).toInt| = args k := by
      rw [abs_of_nonneg hlow, BitVec.ofInt_toInt]
    unfold Directive.spec Directive.flagBits Directive.widthValue Directive.precisionValue
    dsimp only
    rw [hself, hwidth, if_neg fun h => absurd h.2 (by omega)]
    rfl
  obtain ⟨text, htext, hlength⟩ := @length_number ((args (k + 1)).setWidth 32) (args k)
    (0 ||| sign) 10 (by decide) ⟨by omega, hhigh⟩
  refine ⟨text, ?_, hlength⟩
  rw [Directive.text, hspec]
  change (convertNumber args ⟨0 ||| sign, args k, -1, 0, k + 1⟩ 10 ⟨[], k + 1, []⟩ >>= fun out =>
    (.ok (out, 0) : Except (Fault 32) (Out 32 × Nat))).map _ = _
  unfold convertNumber
  dsimp only
  rw [htext]
  rfl

theorem numberCall_fits (hlow : 0 ≤ width.toInt) (hhigh : width.toInt ≤ 100) :
    (numberCall width n).Fits m := by
  have hall : AllScannable .loader (callArgs [width, n]) 0 (numberCall width n).items := by
    refine .directive (scannable_star ?_) (.literal .nil)
    change |width.toInt| < 2 ^ 31
    rw [abs_of_nonneg hlow]
    omega
  obtain ⟨text, htext, hlength⟩ := @text_starNumber m (callArgs [width, n]) 0 hlow
    (hhigh.trans (by decide))
  have hrender : render m (callArgs [width, n]) 0 (numberCall width n).items =
      .ok (text ++ ascii "  ") := by
    simp [numberCall, render_directive htext, render_literal]
  have hwidth : (callArgs [width, n] 0).toInt = width.toInt := rfl
  have hblanks : (ascii "  ").length = 2 := rfl
  refine ⟨_, stored_eq hall hrender, ?_⟩
  rw [List.length_append, hblanks]
  unfold printbufSize
  omega

/-! ## The command line -/

theorem length_copyString {w : Nat} (s : BitVec w) (len : Nat) :
    (copyString m s len).length = len := by
  induction len generalizing s with
  | zero => rfl
  | succ len ih => rw [copyString, List.length_cons, ih]

/-- The width that is left of `-1` behind the blanks in front of a string. -/
def widthLeft (len : Word32) : Word32 := (if len.toInt < (-1 : Word32).toInt then len else -1) - 1

/-- `%s` without width and precision.  The length is taken for an `int`. -/
theorem text_s {len : Word32} (hlen : strlen m (args k) = some len) :
    (plain none .s).text m args k =
      .ok (List.replicate (-1 - len.toInt).toNat (chr ' ') ++
        copyString m (args k) len.toInt.toNat ++
        List.replicate ((widthLeft len).toInt - len.toInt).toNat (chr ' ')) := by
  have hleft : has (0 : Word32) left = false := by decide
  have hminus : (-1 : Word32).toInt = -1 := rfl
  have hstring : convertString m args ⟨0, -1, -1, 0, k⟩ ⟨[], k, []⟩ =
      .ok ⟨List.replicate (-1 - len.toInt).toNat (chr ' ') ++
        copyString m (args k) len.toInt.toNat ++
        List.replicate ((widthLeft len).toInt - len.toInt).toNat (chr ' '), k + 1, []⟩ := by
    unfold convertString
    dsimp only
    rw [hlen]
    dsimp only
    rw [if_pos (by decide), hleft, BitVec.setWidth_eq, if_neg Bool.false_ne_true,
      fillDown_eq (chr ' ') len (-1) []]
    dsimp only
    rw [fillDown_eq, hminus]
    rfl
  rw [text_string rfl]
  exact congrArg _ hstring

/-- A string from 2^31 on comes out as blanks, the more of them the shorter it is. -/
theorem length_text_s {len : Word32} {text : List Byte} (hlen : strlen m (args k) = some len)
    (htext : (plain none .s).text m args k = .ok text) :
    text.length ≤ 1022 ↔ len.toNat ≤ 1022 ∨ 2 ^ 32 - 1023 ≤ len.toNat := by
  rw [text_s hlen] at htext
  cases htext
  have hlt := len.isLt
  have hint := BitVec.toInt_eq_toNat_cond len
  have hlow := BitVec.le_toInt len
  have hminus : (-1 : Word32).toInt = -1 := rfl
  rw [List.length_append, List.length_append, List.length_replicate, List.length_replicate,
    length_copyString, widthLeft]
  by_cases hneg : len.toInt < (-1 : Word32).toInt
  · rw [if_pos hneg]
    by_cases hmin : len.toInt = -2 ^ 31
    · split_ifs at hint <;> omega
    · have hless : (len - 1).toInt = len.toInt - 1 := toInt_pred (by omega)
      split_ifs at hint <;> omega
  · have htwo : ((-1 : Word32) - 1).toInt = -2 := rfl
    rw [if_neg hneg, htwo]
    split_ifs at hint <;> omega

/-- The command line leaves room for the line end and the NUL. -/
def ShortLine (m : Mem) (s : Word32) : Prop :=
  ∃ len, strlen m s = some len ∧ (len.toNat ≤ 1022 ∨ 2 ^ 32 - 1023 ≤ len.toNat)

theorem lineCall_stored {s : Word32} {text : List Byte}
    (htext : (plain none .s).text m (callArgs [s]) 0 = .ok text) :
    (lineCall s).stored m = .ok (text.length + 2) := by
  have hall : AllScannable .loader (callArgs [s]) 0 (lineCall s).items :=
    .directive scannable_plain (.literal .nil)
  have hrender : render m (callArgs [s]) 0 (lineCall s).items = .ok (text ++ ascii "\n") := by
    simp [lineCall, render_directive htext, render_literal]
  have hend : (ascii "\n").length = 1 := rfl
  rw [stored_eq hall hrender, List.length_append, hend]

theorem lineCall_fits_iff (s : Word32) : (lineCall s).Fits m ↔ ShortLine m s := by
  cases hlen : strlen m s with
  | none =>
      have htext : (plain none .s).text m (callArgs [s]) 0 = .error (.unterminated s) := by
        have hs : callArgs [s] (0 + (plain none .s).stars) = s := rfl
        rw [text_string rfl, convertString]
        dsimp only
        rw [hs, hlen]
        rfl
      have hstored : (lineCall s).stored m = .error (.unterminated s) := by
        have hall : AllScannable .loader (callArgs [s]) 0 (lineCall s).items :=
          .directive scannable_plain (.literal .nil)
        rw [Call.stored]
        change (vsprintf .loader m (formatOf (lineCall s).items) (callArgs [s])).map _ = _
        rw [vsprintf_eq_render hall, lineCall, render, htext]
        rfl
      unfold Call.Fits ShortLine
      simp [hstored, hlen]
  | some len =>
      have hlen' : strlen m (callArgs [s] 0) = some len := hlen
      have hshort := length_text_s hlen' (text_s hlen')
      rw [fits_iff (lineCall_stored (text_s hlen')), ShortLine, hlen]
      constructor
      · intro hle
        exact ⟨len, rfl, hshort.mp (by unfold printbufSize at hle; omega)⟩
      · rintro ⟨n, hn, hle⟩
        cases hn
        have := hshort.mpr hle
        unfold printbufSize
        omega

/-! ## The table -/

theorem lineCall_mem : lineCall (cmdline m module) ∈ dumpModule m module :=
  List.mem_cons_of_mem _ (List.mem_cons_of_mem _ (List.mem_singleton_self _))

theorem dumpModule_fits_iff : (∀ call ∈ dumpModule m module, call.Fits m) ↔
    ShortLine m (cmdline m module) := by
  have hnumber : (numberCall 8 (getSize m module / 1024)).Fits m :=
    numberCall_fits (by decide) (by decide)
  constructor
  · exact fun hall => (lineCall_fits_iff _).mp (hall _ lineCall_mem)
  · intro hline call hcall
    simp only [dumpModule, List.mem_cons, List.not_mem_nil, or_false] at hcall
    rcases hcall with rfl | rfl | rfl
    · exact addressesCall_fits _ _
    · exact hnumber
    · exact (lineCall_fits_iff _).mpr hline

end

/-- **Every call of `printf` in the list of modules keeps within `printbuf`** exactly when every
command line is short. -/
theorem modules_fit_iff (m : Mem) (info : Word32) :
    (∀ call ∈ dumpModules m info, call.Fits m) ↔
      ∀ i < (getModuleCount m info).toNat,
        ShortLine m (cmdline m (getModule m info (BitVec.ofNat 32 i))) := by
  unfold dumpModules
  dsimp only
  split_ifs with hcnt
  · rw [hcnt]
    constructor
    · exact fun _ i hi => absurd hi (Nat.not_lt_zero i)
    · intro _ call hcall
      rw [List.mem_singleton] at hcall
      subst hcall
      exact literal_fits "No modules loaded\n" (by decide +kernel) (by decide +kernel)
  · constructor
    · intro hall i hi
      refine dumpModule_fits_iff.mp fun call hcall => hall call ?_
      exact List.mem_append_right _
        (List.mem_flatMap.mpr ⟨i, List.mem_range.mpr hi, List.mem_cons_of_mem _ hcall⟩)
    · intro hlines call hcall
      rcases List.mem_append.mp hcall with hhead | hmodule
      · simp only [List.mem_cons, List.not_mem_nil, or_false] at hhead
        rcases hhead with rfl | rfl
        · exact literal_fits "Loaded modules:\n" (by decide +kernel) (by decide +kernel)
        · exact literal_fits " #  Start        End               Kb  Cmd\n" (by decide +kernel)
            (by decide +kernel)
      · obtain ⟨i, hi, hcall⟩ := List.mem_flatMap.mp hmodule
        rcases List.mem_cons.mp hcall with rfl | hcall
        · exact numberCall_fits (by decide) (by decide)
        · exact dumpModule_fits_iff.mpr (hlines i (List.mem_range.mp hi)) call hcall

/-- A table at 0x200 with one module, whose command line at 0x300 has 1023 bytes. -/
def longLine : Mem := fun a =>
  if a = 0x100 then 8 else if a = 0x114 then 1 else if a = 0x119 then 2 else if a = 0x209 then 3
  else if 0x300 ≤ a ∧ a < 0x300 + 1023 then chr 'x' else 0

/-- The last call for this module stores 1025 bytes. -/
theorem longLine_overruns :
    strlen longLine (cmdline longLine (getModule longLine 0x100 0)) = some 1023 ∧
    (lineCall (cmdline longLine (getModule longLine 0x100 0))).stored longLine = .ok 1025 ∧
    ¬∀ call ∈ dumpModules longLine 0x100, call.Fits longLine := by
  have hcnt : getModuleCount longLine 0x100 = 1 := by decide +kernel
  have hline : cmdline longLine (getModule longLine 0x100 0) = 0x300 := by decide +kernel
  have hbefore : ∀ i < 1023, longLine (0x300 + BitVec.ofNat 32 i).toNat ≠ 0 := by decide +kernel
  have hlen : strlen longLine 0x300 = some 1023 :=
    strlen_some (by decide : 1023 < 2 ^ 32) hbefore (by decide)
  have hstored : (lineCall 0x300).stored longLine = .ok 1025 := by
    have hlen' : strlen longLine (callArgs [(0x300 : Word32)] 0) = some 1023 := hlen
    rw [lineCall_stored (text_s hlen')]
    simp only [List.length_append, List.length_replicate, length_copyString]
    rfl
  rw [hline]
  refine ⟨hlen, hstored, fun hall => ?_⟩
  have hcall : lineCall 0x300 ∈ dumpModules longLine 0x100 := by
    unfold dumpModules
    dsimp only
    rw [hcnt, if_neg (by decide)]
    refine List.mem_append_right _ (List.mem_flatMap.mpr ⟨0, by decide, ?_⟩)
    refine List.mem_cons_of_mem _ ?_
    rw [← hline]
    exact lineCall_mem
  exact absurd ((fits_iff hstored).mp (hall _ hcall)) (by decide)

end Printf
end ZineOS
