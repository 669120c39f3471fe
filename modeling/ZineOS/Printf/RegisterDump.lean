import ZineOS.Printf.Hexadecimal
import ZineOS.Kernel.InterruptFrame

/-!
# The dump of the registers

`Idt::Regs::Dump` of the kernel prints 22 registers of 64 bits with `%p`, each of which comes out as
the eight digits of its low half.

* **`kernel_hex_iff`** — which values are printed faithfully, and which registers differ in print.
-/

namespace ZineOS
namespace Printf

open Lib Loader Kernel

/-- The format of `Dump`. -/
def dumpItems : List Item :=
  let p := Item.directive (plain none .p)
  [literal "RAX = ", p, literal ", RBX = ", p, literal ", RCX = ", p, literal ", RDX = ", p,
    literal "\nRSI = ", p, literal ", RDI = ", p, literal ", RBP = ", p,
    literal "\nR8  = ", p, literal ", R9  = ", p, literal ", R10 = ", p, literal ", R11 = ", p,
    literal "\nR12 = ", p, literal ", R13 = ", p, literal ", R14 = ", p, literal ", R15 = ", p,
    literal "\nRIP = ", p, literal ", CS  = ", p, literal ", RFLAGS = ", p,
    literal "\nRSP = ", p, literal ", SS  = ", p,
    literal "\ninterrupt=", p, literal ", error=", p, newline]

example : ((formatOf dumpItems).chars ==
    ascii "RAX = %p, RBX = %p, RCX = %p, RDX = %p\n" ++ ascii "RSI = %p, RDI = %p, RBP = %p\n" ++
    ascii "R8  = %p, R9  = %p, R10 = %p, R11 = %p\n" ++
    ascii "R12 = %p, R13 = %p, R14 = %p, R15 = %p\n" ++ ascii "RIP = %p, CS  = %p, RFLAGS = %p\n" ++
    ascii "RSP = %p, SS  = %p\n" ++ ascii "interrupt=%p, error=%p\n") = true := by
  decide +kernel

/-- The arguments of `Dump`. -/
def dumpWords (regs : Isr.Regs) : List Word64 :=
  [regs.general .rax, regs.general .rbx, regs.general .rcx, regs.general .rdx,
    regs.general .rsi, regs.general .rdi, regs.general .rbp,
    regs.general .r8, regs.general .r9, regs.general .r10, regs.general .r11,
    regs.general .r12, regs.general .r13, regs.general .r14, regs.general .r15,
    regs.rip, regs.cs, regs.rflags, regs.rsp, regs.ss, regs.interrupt, regs.error]

/-- `Idt::Regs::Dump`. -/
def dump (m : Mem) (regs : Isr.Regs) : Except (Fault 64) (Out 64) :=
  vsprintf .kernel m (formatOf dumpItems) (callArgs (dumpWords regs))

/-- `%p`, `%lx` and `%lX`. -/
def hexDirectives : List Directive := [plain none .p, plain (some .l) .x, plain (some .l) .X]

section

variable {copy : Copy} {m : Mem} {args args' : Nat → BitVec copy.wordSize} {k : Nat}
  {items : List Item}

/-- Only literals and bare `%p`. -/
def Pointers (items : List Item) : Prop :=
  ∀ item ∈ items, ∀ d, item = .directive d → d = plain none .p

theorem Pointers.tail {item : Item} (h : Pointers (item :: items)) : Pointers items :=
  fun item hitem => h item (List.mem_cons_of_mem _ hitem)

theorem Pointers.scannable (h : Pointers items) : AllScannable copy args k items := by
  rintro before d behind rfl
  rw [h (.directive d) (by simp) d rfl]
  exact scannable_plain

/-- What is printed shows the low halves of the arguments and nothing else. -/
theorem render_pointers (h : Pointers items) (k : Nat) :
    ∃ text text', render m args k items = .ok text ∧ render m args' k items = .ok text' ∧
      text.length = text'.length ∧
      (text = text' ↔ ∀ j < itemArgs items,
        (args (k + j)).setWidth 32 = ((args' (k + j)).setWidth 32 : Word32)) := by
  induction items generalizing k with
  | nil => exact ⟨[], [], rfl, rfl, rfl, iff_of_true rfl fun j hj => absurd hj (Nat.not_lt_zero j)⟩
  | cons item items ih =>
      cases item with
      | literal front hfront =>
          obtain ⟨text, text', hrender, hrender', hlength, hiff⟩ := ih h.tail k
          refine ⟨front ++ text, front ++ text', ?_, ?_, ?_, ?_⟩
          · rw [render, hrender]
            rfl
          · rw [render, hrender']
            rfl
          · rw [List.length_append, List.length_append, hlength]
          · rw [List.append_right_inj, hiff, itemArgs_cons]
            simp [Item.args]
      | directive d =>
          have hd : d = plain none .p := h _ List.mem_cons_self d rfl
          subst hd
          obtain ⟨text, text', hrender, hrender', hlength, hiff⟩ := ih h.tail (k + 1)
          have hcount : itemArgs (.directive (plain none .p) :: items) = itemArgs items + 1 := by
            rw [itemArgs_cons, Nat.add_comm]
            rfl
          refine ⟨pointerText ((args k).setWidth 32) ++ text,
            pointerText ((args' k).setWidth 32) ++ text', ?_, ?_, ?_, ?_⟩
          · rw [render, text_p, ok_bind]
            change (render m args (k + 1) items >>= _) = _
            rw [hrender]
            rfl
          · rw [render, text_p, ok_bind]
            change (render m args' (k + 1) items >>= _) = _
            rw [hrender']
            rfl
          · rw [List.length_append, List.length_append, length_pointerText, length_pointerText,
              hlength]
          · rw [append_pointerText_iff, hiff, hcount, Nat.forall_lt_succ_left]
            simp [Nat.add_comm, Nat.add_left_comm]

theorem dumpItems_pointers : Pointers dumpItems := by
  intro item hitem d hd
  subst hd
  simpa [dumpItems, literal] using hitem

/-- A format of one directive. -/
theorem vsprintf_plain {q : Option Qualifier} {conversion : Conversion} {text : List Byte}
    (htext : (plain q conversion).text m args 0 = .ok text) :
    vsprintf copy m (formatOf [.directive (plain q conversion)]) args = .ok ⟨text, 1, []⟩ := by
  have hall : AllScannable copy args 0 [.directive (plain q conversion)] := by
    intro before d behind hsplit
    cases before with
    | nil =>
        cases hsplit
        exact scannable_plain
    | cons item before => simp at hsplit
  rw [vsprintf_eq_render hall, render, htext, ok_bind]
  change Except.ok _ = _
  rw [List.append_nil]
  rfl

theorem dump_eq_iff (m : Mem) (regs regs' : Isr.Regs) : dump m regs = dump m regs' ↔
    (dumpWords regs).map (BitVec.setWidth 32) = (dumpWords regs').map (BitVec.setWidth 32) := by
  obtain ⟨text, text', hrender, hrender', -, hiff⟩ := @render_pointers .kernel m
    (callArgs (dumpWords regs)) (callArgs (dumpWords regs')) dumpItems dumpItems_pointers 0
  have htexts : dump m regs = dump m regs' ↔ text = text' := by
    unfold dump
    rw [vsprintf_eq_render dumpItems_pointers.scannable, hrender,
      vsprintf_eq_render dumpItems_pointers.scannable, hrender']
    simp
  have hcount : itemArgs dumpItems = 22 := rfl
  have hword : ∀ (regs : Isr.Regs) (j : Nat), ((callArgs (dumpWords regs) (0 + j)).setWidth 32 :
      Word32) = ((dumpWords regs).map (BitVec.setWidth 32)).getD j 0 := by
    intro regs j
    rw [callArgs, Nat.zero_add, List.getD_eq_getElem?_getD, List.getD_eq_getElem?_getD,
      List.getElem?_map]
    cases (dumpWords regs)[j]? <;> rfl
  rw [htexts, hiff, hcount]
  simp only [hword]
  constructor
  · intro hall
    refine List.ext_getElem rfl fun j hj hj' => ?_
    have hsame := hall j hj
    rwa [List.getD_eq_getElem _ _ hj, List.getD_eq_getElem _ _ hj'] at hsame
  · intro hsame j _
    rw [hsame]

end

/-- The low half of a value is the value if the upper half is 0. -/
theorem setWidth_toNat_iff (v : Word64) : (v.setWidth 32 : Word32).toNat = v.toNat ↔
    v.toNat < 2 ^ 32 := by
  rw [BitVec.toNat_setWidth]
  omega

/-- **Hexadecimal values in the kernel.**  `%p`, `%lx` and `%lX` give a value back exactly when it
has 32 bits, and two dumps differ exactly when a register differs in its low half. -/
theorem kernel_hex_iff (m : Mem) :
    (∀ d ∈ hexDirectives, ∀ args : Nat → Word64,
      (∃ out, vsprintf .kernel m (formatOf [.directive d]) args = .ok out ∧
        readHex out.str = some (args 0).toNat) ↔ (args 0).toNat < 2 ^ 32) ∧
    ∀ regs regs' : Isr.Regs, dump m regs ≠ dump m regs' ↔
      (dumpWords regs).map (BitVec.setWidth 32) ≠ (dumpWords regs').map (BitVec.setWidth 32) := by
  refine ⟨?_, fun regs regs' => not_congr (dump_eq_iff m regs regs')⟩
  intro d hd args
  have hread : ∀ {q conversion text}, (plain q conversion).text m args 0 = .ok text →
      readHex text = some ((args 0).setWidth 32 : Word32).toNat →
      ((∃ out, vsprintf .kernel m (formatOf [.directive (plain q conversion)]) args = .ok out ∧
        readHex out.str = some (args 0).toNat) ↔ (args 0).toNat < 2 ^ 32) := by
    intro q conversion text htext hvalue
    have hrun := @vsprintf_plain .kernel m args q conversion text htext
    rw [← setWidth_toNat_iff, hrun]
    constructor
    · rintro ⟨out, hout, hback⟩
      cases hout
      exact Option.some.inj (hvalue.symm.trans hback)
    · intro hsame
      exact ⟨_, rfl, hvalue.trans (congrArg some hsame)⟩
  simp only [hexDirectives, List.mem_cons, List.not_mem_nil, or_false] at hd
  rcases hd with rfl | rfl | rfl
  · exact hread text_p (readHex_pointerText _)
  · exact hread text_x (readHex_hexText true _)
  · exact hread text_X (readHex_hexText false _)

/-- The kernel's own addresses lose their upper half, and a dump with another upper half of RIP is the
same. -/
theorem kernelAddress_halved :
    (¬∃ out, vsprintf .kernel (fun _ => 0) (formatOf [.directive (plain none .p)])
        (fun _ => 0xFFFFFFFF80000000) = .ok out ∧ readHex out.str = some 0xFFFFFFFF80000000) ∧
      dump (fun _ => 0) ⟨fun _ => 0, 14, 0, 0xFFFFFFFF80000000, 8, 2, 0, 0x10⟩ =
        dump (fun _ => 0) ⟨fun _ => 0, 14, 0, 0x80000000, 8, 2, 0, 0x10⟩ := by
  constructor
  · rintro ⟨out, hout, hback⟩
    have hrun := @vsprintf_plain .kernel (fun _ => 0) (fun _ => 0xFFFFFFFF80000000) none .p _ text_p
    rw [hrun] at hout
    cases hout
    rw [readHex_pointerText] at hback
    exact absurd hback (by decide)
  · exact (dump_eq_iff _ _ _).mpr (by decide)

end Printf
end ZineOS
