import ZineOS.Printf.Hexadecimal

/-!
# 64-bit addresses in the loader

The loader prints a 64-bit value as two arguments of 32 bits: `"0x%x%x"` with `MAKE_64_32x2`, or
`PRINT_64`, which is `"0x%p%p"`.  `%x` writes no zeros in front, so that the low half may come out with
fewer than eight digits, and the digits of the high half are then read at the wrong place.

* **`addresses_iff`** — which values are printed faithfully, and by which messages.
-/

namespace ZineOS
namespace Printf

open Lib Loader

/-- `MAKE_64_32x2(_var)`. -/
def make64_32x2 (v : Word64) : List Word32 := [(v >>> 32).setWidth 32, v.setWidth 32]

/-- `"0x%x%x"`. -/
def addressItems : List Item :=
  [zeroX, .directive (plain none .x), .directive (plain none .x)]

/-- `PRINT_64(_var)`. -/
def print64 (m : Mem) (v : Word64) : Except (Fault 32) (Out 32) :=
  vsprintf .loader m
    (formatOf [zeroX, .directive (plain none .p), .directive (plain none .p)])
    (callArgs [(v >>> 32).setWidth 32, v.setWidth 32])

/-- The messages with an address in this form; `i` and the other address of a line of
`Frame::Display` may be any. -/
inductive Message (m : Mem) where
  /-- The first address of a line of `Frame::Display`. -/
  | displayStart (i : Word32) (stop : Word64)
  /-- The second one. -/
  | displayEnd (i : Word32) (start : Word64)
  /-- `Frame::AddRange` without an entry left. -/
  | addRange
  /-- `Elf::Error`. -/
  | error (name : Word32) (terminated : (strlen m name).isSome)

namespace Message

variable {m : Mem}

/-- `"%*d  "` in front of a line. -/
def lineItems : List Item :=
  [.directive starWidth, blanks]

/-- What is printed before the address. -/
def front : Message m → List Item × List Word32
  | .displayStart i _ => (lineItems, [2, i + 1])
  | .displayEnd i start =>
      (lineItems ++ addressItems ++ [literal " - "], [2, i + 1] ++ make64_32x2 start)
  | .addRange => ([literal "Not enough space to add "], [])
  | .error name _ => ([literal "Invalid ELF64 ", .directive (plain none .s), literal ": "], [name])

/-- What is printed behind it. -/
def behind : Message m → List Item × List Word32
  | .displayStart _ stop => (literal " - " :: addressItems, make64_32x2 stop)
  | .displayEnd _ _ => ([], [])
  | .addRange => ([newline], [])
  | .error _ _ => ([newline], [])

/-- The call of `printf` for the address `v`. -/
def print (msg : Message m) (v : Word64) : Except (Fault 32) (Out 32) :=
  vsprintf .loader m (formatOf (msg.front.1 ++ addressItems ++ msg.behind.1))
    (callArgs (msg.front.2 ++ make64_32x2 v ++ msg.behind.2))

end Message

example : (itemChars (Message.lineItems ++ addressItems ++ (literal " - " :: addressItems)) ==
    ascii "%*d  0x%x%x - 0x%x%x") = true := by
  decide +kernel

/-- The text of an address. -/
def addressText (v : Word64) : List Byte :=
  ascii "0x" ++ (hexText true ((v >>> 32).setWidth 32) ++ hexText true (v.setWidth 32))

/-- `0x` and a hexadecimal number. -/
def readAddress (text : List Byte) : Option Nat :=
  if text.take 2 = ascii "0x" then readHex (text.drop 2) else none

/-- The digits of the high half are followed by eight others, or it is 0. -/
def Readable (v : Word64) : Prop := v.toNat < 2 ^ 32 ∨ 2 ^ 28 ≤ v.toNat % 2 ^ 32

section

variable {m : Mem} {v v' : Word64} {args : Nat → Word32} {k : Nat} {items : List Item}
  {text : List Byte}

theorem toNat_halves (v : Word64) : ((v >>> 32).setWidth 32 : Word32).toNat = v.toNat / 2 ^ 32 ∧
    (v.setWidth 32 : Word32).toNat = v.toNat % 2 ^ 32 := by
  have hlt := v.isLt
  rw [BitVec.toNat_setWidth, BitVec.toNat_setWidth, BitVec.toNat_ushiftRight,
    Nat.shiftRight_eq_div_pow]
  omega

theorem readAddress_append : readAddress (ascii "0x" ++ text) = readHex text := by
  have htake : (ascii "0x" ++ text).take 2 = ascii "0x" := List.take_left' rfl
  have hdrop : (ascii "0x" ++ text).drop 2 = text := List.drop_left' rfl
  rw [readAddress, if_pos htake, hdrop]

theorem length_hexText_eq_iff {isSmall : Bool} {v : Word32} :
    (hexText isSmall v).length = 8 ↔ 2 ^ 28 ≤ v.toNat := by
  have hle := @length_hexText_le isSmall v
  have hseven : (hexText isSmall v).length ≤ 7 ↔ v.toNat < 16 ^ 7 := by
    rw [hexText, Digits.length_numeral]
    exact Digits.length_ofLeast_le_iff (by decide) (by decide)
  omega

/-- **Which addresses can be read back.** -/
theorem readAddress_iff (v : Word64) : readAddress (addressText v) = some v.toNat ↔ Readable v := by
  obtain ⟨hhigh, hlow⟩ := toNat_halves v
  have hread : readHex (hexText true ((v >>> 32).setWidth 32) ++ hexText true (v.setWidth 32)) =
      some (v.toNat / 2 ^ 32 * 16 ^ (hexText true (v.setWidth 32)).length + v.toNat % 2 ^ 32) := by
    rw [← hhigh, ← hlow]
    exact (Digits.read_append (readHex_hexText true _)).trans (readFrom_hexText true _ _)
  have hle := @length_hexText_le true (v.setWidth 32)
  have height := @length_hexText_eq_iff true (v.setWidth 32)
  have hsplit := Nat.div_add_mod v.toNat (2 ^ 32)
  have hpower : 16 ^ 8 = 2 ^ 32 := by norm_num
  rw [addressText, readAddress_append, hread, Option.some_inj]
  rw [hlow] at height
  unfold Readable
  rw [← height]
  constructor
  · intro hsame
    by_cases hzero : v.toNat / 2 ^ 32 = 0
    · omega
    · right
      have hpowers : v.toNat / 2 ^ 32 * 16 ^ (hexText true (v.setWidth 32)).length =
          v.toNat / 2 ^ 32 * 16 ^ 8 := by
        generalize v.toNat / 2 ^ 32 * 16 ^ (hexText true (v.setWidth 32)).length = high at hsame ⊢
        omega
      exact Nat.pow_right_injective (show 2 ≤ 16 by decide)
        (Nat.eq_of_mul_eq_mul_left (Nat.pos_of_ne_zero hzero) hpowers)
  · rintro (hshort | hfull)
    · rw [Nat.div_eq_of_lt hshort]
      omega
    · rw [hfull, hpower]
      omega

theorem addressText_injective (h : Readable v) (h' : Readable v')
    (hsame : addressText v = addressText v') : v = v' := by
  have hread := (readAddress_iff v).mpr h
  rw [hsame, (readAddress_iff v').mpr h'] at hread
  exact BitVec.eq_of_toNat_eq (Option.some.inj hread).symm

/-! ## The messages -/

theorem render_address {words : List Word32} (h : k = words.length) (behind : List Word32) :
    render m (callArgs (words ++ make64_32x2 v ++ behind)) k addressItems =
      .ok (addressText v) := by
  have hhigh : callArgs (words ++ make64_32x2 v ++ behind) k = (v >>> 32).setWidth 32 := by
    simp [callArgs, make64_32x2, h]
  have hlow : callArgs (words ++ make64_32x2 v ++ behind) (k + 0 + 1) = v.setWidth 32 := by
    simp [callArgs, make64_32x2, h]
  rw [addressItems, render_literal, render_directive text_x, render_directive text_x, hhigh]
  simp only [render_nil, ok_map, List.append_nil, BitVec.setWidth_eq]
  have hstars : (plain none .x).stars = 0 := rfl
  rw [hstars, hlow]
  rfl

/-- What is printed around an address does not depend on it. -/
theorem print_split {front behind : List Item} {words words' : List Word32}
    {before after : List Byte} (hcount : itemArgs front = words.length)
    (hall : ∀ v, AllScannable .loader (callArgs (words ++ make64_32x2 v ++ words')) 0
      (front ++ addressItems ++ behind))
    (hfront : render m (callArgs (words ++ make64_32x2 0 ++ words')) 0 front = .ok before)
    (hbehind : render m (callArgs (words ++ make64_32x2 0 ++ words')) (words.length + 2) behind =
      .ok after) (v : Word64) :
    (vsprintf .loader m (formatOf (front ++ addressItems ++ behind))
      (callArgs (words ++ make64_32x2 v ++ words'))).map Out.str =
        .ok (before ++ addressText v ++ after) := by
  have hargs : ∀ j, j < words.length ∨ words.length + 2 ≤ j →
      callArgs (words ++ make64_32x2 v ++ words') j =
        callArgs (words ++ make64_32x2 0 ++ words') j := by
    intro j hj
    have hlength : (make64_32x2 v).length = 2 := rfl
    have hlength' : (make64_32x2 0).length = 2 := rfl
    simp only [callArgs, List.getD_eq_getElem?_getD, List.append_assoc]
    rcases hj with hj | hj
    · rw [List.getElem?_append_left hj, List.getElem?_append_left hj]
    · rw [List.getElem?_append_right (by omega), List.getElem?_append_right (by omega),
        List.getElem?_append_right (by omega), List.getElem?_append_right (by omega), hlength,
        hlength']
  have hfront' : render m (callArgs (words ++ make64_32x2 v ++ words')) 0 front = .ok before :=
    (render_congr fun j hj => hargs _ (.inl (by omega))).trans hfront
  have hbehind' : render m (callArgs (words ++ make64_32x2 v ++ words')) (words.length + 2) behind =
      .ok after := (render_congr fun j _ => hargs _ (.inr (by omega))).trans hbehind
  have haddress := @render_address m v (itemArgs front) words hcount words'
  have hplace : itemArgs (front ++ addressItems) = words.length + 2 := by
    rw [← hcount]
    simp [itemArgs, addressItems, literal, Item.args]
    rfl
  rw [vsprintf_eq_render (hall v), render_append, render_append, Nat.zero_add, Nat.zero_add, hplace,
    hfront', ok_bind, haddress, hbehind']
  rfl

/-- What a message prints around the address depends on the message alone. -/
theorem message_print (msg : Message m) : ∃ before behind : List Byte, ∀ v,
    (msg.print v).map Out.str = .ok (before ++ addressText v ++ behind) := by
  have htwo : |(2 : Word32).toInt| < 2 ^ 31 := by decide
  have hx : ∀ {args : Nat → Word32} {k}, ∃ text, (plain none .x).text m args k = .ok text :=
    ⟨_, text_x⟩
  cases msg with
  | displayStart i stop =>
      obtain ⟨before, hbefore⟩ : Printable m
          (callArgs ([2, i + 1] ++ make64_32x2 0 ++ make64_32x2 stop)) 0 Message.lineItems :=
        .directive (text_ok nofun) (.literal ⟨[], rfl⟩)
      obtain ⟨after, hafter⟩ : Printable m
          (callArgs ([2, i + 1] ++ make64_32x2 0 ++ make64_32x2 stop)) 4
          (literal " - " :: addressItems) :=
        .literal (.literal (.directive hx (.directive hx ⟨[], rfl⟩)))
      refine ⟨before, after, print_split rfl (fun v => ?_) hbefore hafter⟩
      exact .directive (scannable_star htwo) (.literal (.literal (.directive scannable_plain
        (.directive scannable_plain (.literal (.literal (.directive scannable_plain
          (.directive scannable_plain .nil))))))))
  | displayEnd i start =>
      obtain ⟨before, hbefore⟩ : Printable m
          (callArgs ([2, i + 1] ++ make64_32x2 start ++ make64_32x2 0 ++ [])) 0
          (Message.lineItems ++ addressItems ++ [literal " - "]) :=
        .directive (text_ok nofun) (.literal (.literal (.directive hx (.directive hx
          (.literal ⟨[], rfl⟩)))))
      refine ⟨before, [], print_split rfl (fun v => ?_) hbefore rfl⟩
      exact .directive (scannable_star htwo) (.literal (.literal (.directive scannable_plain
        (.directive scannable_plain (.literal (.literal (.directive scannable_plain
          (.directive scannable_plain .nil))))))))
  | addRange =>
      obtain ⟨before, hbefore⟩ : Printable m (callArgs ([] ++ make64_32x2 0 ++ [])) 0
          [literal "Not enough space to add "] := .literal ⟨[], rfl⟩
      obtain ⟨after, hafter⟩ : Printable m (callArgs ([] ++ make64_32x2 0 ++ [])) 2 [newline] :=
        .literal ⟨[], rfl⟩
      refine ⟨before, after, print_split rfl (fun v => ?_) hbefore hafter⟩
      exact .literal (.literal (.directive scannable_plain (.directive scannable_plain
        (.literal .nil))))
  | error name terminated =>
      have hname : callArgs ([name] ++ make64_32x2 0 ++ []) (0 + (plain none .s).stars) = name := rfl
      obtain ⟨before, hbefore⟩ : Printable m (callArgs ([name] ++ make64_32x2 0 ++ [])) 0
          [literal "Invalid ELF64 ", .directive (plain none .s), literal ": "] :=
        .literal (.directive (text_ok fun _ => by rw [hname]; exact terminated)
          (.literal ⟨[], rfl⟩))
      obtain ⟨after, hafter⟩ : Printable m (callArgs ([name] ++ make64_32x2 0 ++ [])) 3 [newline] :=
        .literal ⟨[], rfl⟩
      refine ⟨before, after, print_split rfl (fun v => ?_) hbefore hafter⟩
      exact .literal (.directive scannable_plain (.literal (.literal (.directive scannable_plain
        (.directive scannable_plain (.literal .nil))))))

theorem address_print (v : Word64) :
    (vsprintf .loader m (formatOf addressItems) (callArgs (make64_32x2 v))).map Out.str =
      .ok (addressText v) := by
  have hall : AllScannable .loader (callArgs (make64_32x2 v)) 0 addressItems :=
    .literal (.directive scannable_plain (.directive scannable_plain .nil))
  have haddress := @render_address m v 0 [] rfl []
  rw [List.nil_append, List.append_nil] at haddress
  rw [vsprintf_eq_render hall, haddress]
  rfl

/-- Eight digits for each half. -/
theorem print64_read (v : Word64) : ∃ out, print64 m v = .ok out ∧
    readAddress out.str = some v.toNat := by
  obtain ⟨hhigh, hlow⟩ := toNat_halves v
  have hall : AllScannable .loader (callArgs [(v >>> 32).setWidth 32, v.setWidth 32]) 0
      [zeroX, .directive (plain none .p), .directive (plain none .p)] :=
    .literal (.directive scannable_plain (.directive scannable_plain .nil))
  have hrender : render m (callArgs [(v >>> 32).setWidth 32, v.setWidth 32]) 0
      [zeroX, .directive (plain none .p), .directive (plain none .p)] =
      .ok (ascii "0x" ++ (pointerText ((v >>> 32).setWidth 32) ++ pointerText (v.setWidth 32))) := by
    rw [render_literal, render_directive text_p, render_directive text_p]
    simp only [render_nil, ok_map, List.append_nil, BitVec.setWidth_eq]
    rfl
  refine ⟨_, by rw [print64, vsprintf_eq_render hall, hrender]; rfl, ?_⟩
  dsimp only
  have hread : readHex (pointerText ((v >>> 32).setWidth 32) ++ pointerText (v.setWidth 32)) =
      some (((v >>> 32).setWidth 32 : Word32).toNat * 16 ^ 8 + (v.setWidth 32 : Word32).toNat) :=
    (Digits.read_append (readHex_pointerText _)).trans (readFrom_pointerText _ _)
  have hsplit := Nat.div_add_mod v.toNat (2 ^ 32)
  rw [readAddress_append, hread, hhigh, hlow]
  congr 1
  omega

end

/-- **64-bit addresses in the loader.**  Two values printed with `"0x%x%x"` come out differently and
can be read back exactly when each has 32 bits or a low half of eight digits; every message prints the
address like that.  `PRINT_64` gives every value back. -/
theorem addresses_iff (m : Mem) :
    (∀ v, (vsprintf .loader m (formatOf addressItems) (callArgs (make64_32x2 v))).map Out.str =
      .ok (addressText v)) ∧
    (∀ msg : Message m, ∃ before behind : List Byte, ∀ v,
      (msg.print v).map Out.str = .ok (before ++ addressText v ++ behind)) ∧
    (∀ v v', ((v ≠ v' → addressText v ≠ addressText v') ∧
        readAddress (addressText v) = some v.toNat ∧
        readAddress (addressText v') = some v'.toNat) ↔ Readable v ∧ Readable v') ∧
    ∀ v, ∃ out, print64 m v = .ok out ∧ readAddress out.str = some v.toNat := by
  refine ⟨fun v => address_print v, message_print, fun v v' => ?_, print64_read⟩
  constructor
  · rintro ⟨-, hread, hread'⟩
    exact ⟨(readAddress_iff v).mp hread, (readAddress_iff v').mp hread'⟩
  · rintro ⟨h, h'⟩
    exact ⟨fun hne hsame => hne (addressText_injective h h' hsame), (readAddress_iff v).mpr h,
      (readAddress_iff v').mpr h'⟩

/-- The low half of 0x100000010 has two digits, that of 0x1100000000 has one. -/
theorem addresses_collide :
    (vsprintf .loader (fun _ => 0) (formatOf addressItems)
        (callArgs (make64_32x2 0x100000010))).map Out.str = .ok (ascii "0x110") ∧
      (vsprintf .loader (fun _ => 0) (formatOf addressItems)
        (callArgs (make64_32x2 0x1100000000))).map Out.str = .ok (ascii "0x110") ∧
      readAddress (ascii "0x110") = some 0x110 := by
  have hfirst : addressText 0x100000010 = ascii "0x110" := by decide +kernel
  have hsecond : addressText 0x1100000000 = ascii "0x110" := by decide +kernel
  refine ⟨?_, ?_, by decide +kernel⟩
  · rw [address_print, hfirst]
  · rw [address_print, hsecond]

end Printf
end ZineOS
