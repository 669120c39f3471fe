import ZineOS.Loader.Video
import ZineOS.Lib.Terminal

/-!
# The console is a window on a terminal

The reference is a terminal whose rows are never lost, with the attribute that the next character
gets.  `Window` relates it to the static variables and the video memory; every function of
`video.cpp` keeps the relation, so it holds after any number of calls and in the middle of a
string.
-/

namespace ZineOS
namespace Loader
namespace Video

open Lib

/-! ## The reference -/

/-- A terminal of cells (character and attribute) and the current attribute. -/
structure Console where
  term : Terminal (Byte × Byte)
  attr : Byte

namespace Console

def blank (k : Console) : Byte × Byte := (0x20, k.attr)

def newLine (k : Console) : Console := { k with term := k.term.newline k.blank }

/-- Seven-bit characters from the space on. -/
def Printable (c : Byte) : Prop := 0x20 ≤ c.toNat ∧ c.toNat < 0x80

instance (c : Byte) : Decidable (Printable c) := inferInstanceAs (Decidable (_ ∧ _))

def outChar (k : Console) (c : Byte) : Console :=
  if c = 0x08 then { k with term := k.term.backspace }
  else if c = 0x09 then { k with term := k.term.tab }
  else if c = 0x0D then { k with term := k.term.carriageReturn }
  else if c = 0x0A then k.newLine
  else if Printable c then { k with term := k.term.put (c, k.attr) }
  else k

def wrap (k : Console) : Console := { k with term := k.term.wrap 80 k.blank }

def out (k : Console) (c : Byte) : Console := (k.outChar c).wrap

def writeText (k : Console) (text : List Byte) : Console := (text.takeWhile (· ≠ 0)).foldl out k

def startLine (k : Console) : Console := if k.term.col = 0 then k else k.out 0x0A

def clear (k : Console) : Console := { k with term := k.term.clear 25 k.blank }

/-- The upper half of the attribute is the background, the lower half the foreground. -/
def step (k : Console) : Call → Console
  | .write ch => k.out ch
  | .writeText text => k.writeText text
  | .startLine => k.startLine
  | .clear => k.clear
  | .setFgColor fore => { k with attr := (k.attr &&& 0xF0) ||| (fore &&& 0xF) }
  | .setBgColor back => { k with attr := (k.attr &&& 0x0F) ||| ((back &&& 0xF) <<< 4) }
  | .setColors fore back => { k with attr := (back <<< 4) ||| (fore &&& 0xF) }
  | .setColorMask colors => { k with attr := colors.setWidth 8 }

/-- White on black, and no row yet. -/
def empty : Console := ⟨⟨fun _ _ => (0x20, 0x0F), 0, 0, 0⟩, 0x0F⟩

def start : Console := empty.clear

end Console

/-! ## Cells in video memory -/

/-- Character and attribute of cell `c` of row `r`. -/
def cellAt (m : Mem) (r c : Nat) : Byte × Byte :=
  (m (0xB8000 + 160 * r + 2 * c), m (0xB8000 + 160 * r + 2 * c + 1))

/-- A store of `w.2` bytes at `w.1` that stays inside the 80 × 25 cells. -/
def InScreen (w : Nat × Nat) : Prop := 0xB8000 ≤ w.1 ∧ w.1 + w.2 ≤ 0xB8000 + 80 * 25 * 2

variable {s : State} {k : Console} {p dest : Word32} {v : Word16} {ch attr : Byte} {r c x y n : Nat}

/-- A 16-bit word holding a character and an attribute. -/
def IsCell (v : Word16) (ch attr : Byte) : Prop := v.toNat = ch.toNat + 256 * attr.toNat

theorem isCell_or {a : Word16} (ha : a.toNat = 256 * attr.toNat) :
    IsCell (ch.setWidth 16 ||| a) ch attr := by
  have hch := ch.isLt
  have hsum := Words.toNat_or_of_aligned (x := a) (y := ch.setWidth 16) (k := 8)
    (by omega) (by rw [BitVec.toNat_setWidth]; omega)
  rw [IsCell, BitVec.or_comm, hsum, BitVec.toNat_setWidth]
  omega

theorem isCell_blank {a : Word16} (ha : a.toNat = 256 * attr.toNat) :
    IsCell (0x20 ||| a) 0x20 attr := by
  show IsCell ((0x20 : Byte).setWidth 16 ||| a) 0x20 attr
  exact isCell_or ha

theorem IsCell.low (h : IsCell v ch attr) : BitVec.ofNat 8 (v.toNat / 256 ^ 0) = ch := by
  apply BitVec.eq_of_toNat_eq
  rw [h, BitVec.toNat_ofNat]
  have hch := ch.isLt
  omega

theorem IsCell.high (h : IsCell v ch attr) : BitVec.ofNat 8 (v.toNat / 256 ^ 1) = attr := by
  apply BitVec.eq_of_toNat_eq
  rw [h, BitVec.toNat_ofNat]
  have hch := ch.isLt
  have hattr := attr.isLt
  omega

theorem toNat_add_two (h : p.toNat + 2 < 2 ^ 32) : (p + 2).toNat = p.toNat + 2 := by
  rw [BitVec.toNat_add]
  exact Nat.mod_eq_of_lt h

/-- `t` is `s` after `n` cells from cell `i` on have been filled. -/
structure Filled (s t : State) (i n : Nat) (cell : Byte × Byte) : Prop where
  attrib : t.attrib = s.attrib
  csrX : t.csrX = s.csrX
  cells : ∀ r c, cellAt t.mem r c =
    if i ≤ 80 * r + c ∧ 80 * r + c < i + n then cell else cellAt s.mem r c
  stores : (∀ w ∈ s.stores, InScreen w) → ∀ w ∈ t.stores, InScreen w

theorem store16_filled {i : Nat} (hv : IsCell v ch attr) (hp : p.toNat = 0xB8000 + 2 * i)
    (hi : i < 80 * 25) : Filled s (store16 s p v) i 1 (ch, attr) where
  attrib := rfl
  csrX := rfl
  cells := by
    intro r c
    simp only [cellAt, store16]
    by_cases hcell : 80 * r + c = i
    · have hlow : 0xB8000 + 160 * r + 2 * c - p.toNat = 0 := by omega
      have hhigh : 0xB8000 + 160 * r + 2 * c + 1 - p.toNat = 1 := by omega
      simp only [Mem.store, hlow, hhigh]
      rw [if_pos (by omega), if_pos (by omega), if_pos (by omega), hv.low, hv.high]
    · rw [if_neg (by omega), Mem.store_of_not (by omega), Mem.store_of_not (by omega)]
  stores := by
    intro hs w hw
    cases List.mem_cons.mp hw with
    | inl hw =>
        subst hw
        constructor
        · show 0xB8000 ≤ p.toNat
          omega
        · show p.toNat + 2 ≤ _
          omega
    | inr hw => exact hs w hw

/-- Filling one run after another. -/
theorem Filled.trans {s t u : State} {i m n : Nat} {cell : Byte × Byte}
    (h : Filled s t i m cell) (h' : Filled t u (i + m) n cell) : Filled s u i (m + n) cell where
  attrib := h'.attrib.trans h.attrib
  csrX := h'.csrX.trans h.csrX
  cells := by
    intro r c
    rw [h'.cells, h.cells]
    by_cases hlate : i + m ≤ 80 * r + c ∧ 80 * r + c < i + m + n
    · rw [if_pos hlate, if_pos (by omega)]
    · rw [if_neg hlate]
      exact if_congr (by omega) rfl rfl
  stores := fun hs => h'.stores (h.stores hs)

theorem memsetw_filled (hv : IsCell v ch attr) (n : Nat) {s : State} {dest : Word32} {i : Nat}
    (hdest : dest.toNat = 0xB8000 + 2 * i) (hn : i + n ≤ 80 * 25) :
    Filled s (memsetw s dest v n) i n (ch, attr) := by
  induction n generalizing s dest i with
  | zero => exact ⟨rfl, rfl, fun r c => (if_neg (by omega)).symm, id⟩
  | succ n ih =>
      have hnext : (dest + 2).toNat = 0xB8000 + 2 * (i + 1) := by
        rw [toNat_add_two (by omega)]
        omega
      rw [memsetw, Nat.add_comm n 1]
      exact (store16_filled hv hdest (by omega)).trans (ih hnext (by omega))

theorem toNat_rowAddr {y : Nat} (hy : y ≤ 25) :
    (rowAddr (BitVec.ofNat 32 y)).toNat = 0xB8000 + 160 * y := by
  have hbase : vgaMemory.toNat = 0xB8000 := rfl
  unfold rowAddr
  rw [BitVec.toNat_add, BitVec.toNat_mul, BitVec.toNat_mul, BitVec.toNat_ofNat, hbase]
  show (0xB8000 + y % 2 ^ 32 * 80 % 2 ^ 32 * 2 % 2 ^ 32) % 2 ^ 32 = _
  omega

/-! ## The relation -/

/-- The static variables and the screen show the console; the column may be over the edge. -/
structure Shows (s : State) (k : Console) : Prop where
  onScreen : k.term.Ok 25
  attrib : s.attrib.toNat = 256 * k.attr.toNat
  csrX : s.csrX = k.term.col
  csrY : s.csrY = k.term.screenRow 25
  lineptr : s.lineptr.toNat = 0xB8000 + 160 * k.term.screenRow 25
  cells : ∀ r c, r < 25 → c < 80 → cellAt s.mem r c = k.term.screen 25 r c
  stores : ∀ w ∈ s.stores, InScreen w

/-- The relation between two characters: the cursor is left of the edge. -/
structure Window (s : State) (k : Console) : Prop extends Shows s k where
  col_lt : k.term.col < 80

/-- `Scroll` below the last row copies the screen up by one row and clears the last. -/
theorem scroll_bottom (hy : s.csrY = 25) (ha : s.attrib.toNat = 256 * attr.toNat) :
    ∃ t, Filled (copy s vgaMemory (rowAddr 1) 3840) t (80 * 24) 80 (0x20, attr) ∧
      scroll s = { t with csrY := 24 } := by
  have hdest : (rowAddr 24).toNat = 0xB8000 + 2 * (80 * 24) := rfl
  refine ⟨_, memsetw_filled (isCell_blank ha) 80 hdest (by decide), ?_⟩
  unfold scroll
  rw [if_neg (by omega), hy]
  rfl

theorem copy_attrib {dst src n : Word32} : (copy s dst src n).attrib = s.attrib := rfl

theorem copy_csrX {dst src n : Word32} : (copy s dst src n).csrX = s.csrX := rfl

theorem copy_stores {dst src n : Word32} :
    (copy s dst src n).stores = (dst.toNat, n.toNat) :: s.stores := rfl

theorem cellAt_copy (hr : r < 24) (hc : c < 80) :
    cellAt (copy s vgaMemory (rowAddr 1) 3840).mem r c = cellAt s.mem (r + 1) c := by
  have hdst : vgaMemory.toNat = 0xB8000 := rfl
  have hsrc : (rowAddr 1).toNat = 0xB8000 + 160 := rfl
  have hn : (3840 : Word32).toNat = 3840 := rfl
  have hbyte : ∀ j, j < 3840 → memcpy s.mem vgaMemory (rowAddr 1) 3840 (0xB8000 + j) =
      s.mem (0xB8000 + 160 + j) := by
    intro j hj
    have hmove := memcpy_apply (m := s.mem) (n := 3840) (j := j) hj
      (Or.inr (show vgaMemory.toNat + j ≤ (rowAddr 1).toNat + j by omega))
    rw [hdst, hsrc] at hmove
    exact hmove
  simp only [cellAt, copy]
  rw [show 0xB8000 + 160 * r + 2 * c = 0xB8000 + (160 * r + 2 * c) by omega,
    show 0xB8000 + (160 * r + 2 * c) + 1 = 0xB8000 + (160 * r + 2 * c + 1) by omega,
    hbyte _ (by omega), hbyte _ (by omega)]
  congr 2 <;> omega

/-- What `Scroll` below the last row leaves behind. -/
structure ScrolledUp (s t : State) (attr : Byte) : Prop where
  attrib : t.attrib = s.attrib
  csrX : t.csrX = s.csrX
  csrY : t.csrY = 24
  cells : ∀ r c, r < 25 → c < 80 →
    cellAt t.mem r c = if r + 1 = 25 then (0x20, attr) else cellAt s.mem (r + 1) c
  stores : (∀ w ∈ s.stores, InScreen w) → ∀ w ∈ t.stores, InScreen w

theorem scroll_scrolledUp (hy : s.csrY = 25) (ha : s.attrib.toNat = 256 * attr.toNat) :
    ScrolledUp s (scroll s) attr := by
  obtain ⟨t, hfill, hscroll⟩ := scroll_bottom hy ha
  rw [hscroll]
  exact {
    attrib := hfill.attrib.trans copy_attrib
    csrX := hfill.csrX.trans copy_csrX
    csrY := rfl
    cells := by
      intro r c hr hc
      show cellAt t.mem r c = _
      rw [hfill.cells]
      by_cases hnew : r + 1 = 25
      · rw [if_pos (by omega), if_pos hnew]
      · rw [if_neg (by omega), if_neg hnew, cellAt_copy (by omega) hc]
    stores := by
      intro hs
      apply hfill.stores
      intro w hw
      rw [copy_stores] at hw
      cases List.mem_cons.mp hw with
      | inl hw => subst hw; exact ⟨by decide, by decide⟩
      | inr hw => exact hs w hw }

/-- The next row exists. -/
theorem Shows.newLine_fits (h : Shows s k) (hnext : k.term.row + 1 < k.term.height) :
    Shows (newLine s) k.newLine := by
  have hmoved : (k.term.newline k.blank).screenRow 25 = k.term.screenRow 25 + 1 :=
    (h.onScreen.screenRow_newline (by decide)).trans (if_pos hnext)
  have hcol : (k.term.newline k.blank).col = 0 := Terminal.newline_col
  have hfits := h.onScreen.row_succ_lt_iff.mp hnext
  have hy : s.csrY + 1 = ((k.term.screenRow 25 + 1 : Nat) : Int) := by
    rw [h.csrY]
    rfl
  -- only the cursor moves
  have hstay : Video.newLine s = { s with
      csrX := 0
      csrY := ((k.term.screenRow 25 + 1 : Nat) : Int)
      lineptr := rowAddr (BitVec.ofNat 32 (k.term.screenRow 25 + 1)) } := by
    unfold Video.newLine scroll
    simp only [hy]
    rw [if_pos (by omega)]
    rfl
  rw [hstay]
  exact {
    onScreen := h.onScreen.newline (by decide)
    attrib := h.attrib
    csrX := congrArg Int.ofNat hcol.symm
    csrY := congrArg Int.ofNat hmoved.symm
    lineptr := by
      show _ = 0xB8000 + 160 * (k.term.newline k.blank).screenRow 25
      rw [hmoved]
      exact toNat_rowAddr (by omega)
    cells := by
      intro r c hr hc
      show cellAt s.mem r c = (k.term.newline k.blank).screen 25 r c
      rw [Terminal.screen_newline h.onScreen, if_pos hnext]
      exact h.cells r c hr hc
    stores := h.stores }

/-- The cursor was in the last row: the screen scrolls. -/
theorem Shows.newLine_scrolls (h : Shows s k) (hlast : ¬ k.term.row + 1 < k.term.height) :
    Shows (newLine s) k.newLine := by
  have hmoved : (k.term.newline k.blank).screenRow 25 = 24 :=
    (h.onScreen.screenRow_newline (by decide)).trans (if_neg hlast)
  have hcol : (k.term.newline k.blank).col = 0 := Terminal.newline_col
  have hrow := h.onScreen.screenRow_lt
  have hbottom : k.term.screenRow 25 = 24 := by
    have hfits := h.onScreen.row_succ_lt_iff.not.mp hlast
    omega
  have hy : s.csrY + 1 = 25 := by
    rw [h.csrY, hbottom]
    rfl
  have hup : ScrolledUp { s with csrX := 0, csrY := s.csrY + 1 } _ k.attr :=
    scroll_scrolledUp hy h.attrib
  unfold Video.newLine
  generalize scroll { s with csrX := 0, csrY := s.csrY + 1 } = t at hup ⊢
  exact {
    onScreen := h.onScreen.newline (by decide)
    attrib := (congrArg BitVec.toNat hup.attrib).trans h.attrib
    csrX := hup.csrX.trans (congrArg Int.ofNat hcol.symm)
    csrY := hup.csrY.trans (congrArg Int.ofNat hmoved.symm)
    lineptr := by
      show (rowAddr (BitVec.ofInt 32 t.csrY)).toNat =
        0xB8000 + 160 * (k.term.newline k.blank).screenRow 25
      rw [hmoved, hup.csrY]
      rfl
    cells := by
      intro r c hr hc
      show cellAt t.mem r c = (k.term.newline k.blank).screen 25 r c
      rw [hup.cells r c hr hc, Terminal.screen_newline h.onScreen, if_neg hlast]
      -- the last row is blank, the others are those from below
      by_cases hnew : r + 1 = 25
      · rw [if_pos hnew, if_pos hnew]
        rfl
      · rw [if_neg hnew, if_neg hnew]
        exact h.cells (r + 1) c (by omega) hc
    stores := hup.stores h.stores }

theorem Shows.newLine (h : Shows s k) : Shows (newLine s) k.newLine := by
  by_cases hnext : k.term.row + 1 < k.term.height
  · exact h.newLine_fits hnext
  · exact h.newLine_scrolls hnext

/-! ## One character -/

theorem Shows.setCol (h : Shows s k) (n : Nat) :
    Shows { s with csrX := (n : Int) } { k with term := { k.term with col := n } } where
  onScreen := ⟨h.onScreen.window_le, h.onScreen.row_ge, h.onScreen.row_lt⟩
  attrib := h.attrib
  csrX := rfl
  csrY := h.csrY
  lineptr := h.lineptr
  cells := h.cells
  stores := h.stores

/-- `c >= ' '` on signed characters. -/
theorem sle_iff_printable (c : Byte) : (0x20 : Byte).sle c = true ↔ Console.Printable c := by
  have hlt := c.isLt
  rw [BitVec.sle_iff_toInt_le, BitVec.toInt_eq_toNat_cond c, Console.Printable]
  show (32 : Int) ≤ _ ↔ _
  split <;> omega

theorem signExtend_of_printable {c : Byte} (h : Console.Printable c) :
    c.signExtend 16 = c.setWidth 16 := by
  apply BitVec.signExtend_eq_setWidth_of_msb_false
  rw [BitVec.msb_eq_false_iff_two_mul_lt]
  have hlt := h.2
  omega

theorem Window.put (h : Window s k) {c : Byte} (hc : Console.Printable c) :
    Shows { store16 s (s.lineptr + 2 * BitVec.ofInt 32 s.csrX) (c.signExtend 16 ||| s.attrib) with
      csrX := s.csrX + 1 } { k with term := k.term.put (c, k.attr) } := by
  have hrow := h.onScreen.screenRow_lt
  have hcol := h.col_lt
  have haddr : (s.lineptr + 2 * BitVec.ofInt 32 s.csrX).toNat =
      0xB8000 + 2 * (80 * k.term.screenRow 25 + k.term.col) := by
    rw [h.csrX, BitVec.ofInt_natCast, BitVec.toNat_add, BitVec.toNat_mul, BitVec.toNat_ofNat,
      h.lineptr]
    show (_ + 2 * (k.term.col % 2 ^ 32) % 2 ^ 32) % 2 ^ 32 = _
    omega
  have hcell : IsCell (c.setWidth 16 ||| s.attrib) c k.attr := isCell_or h.attrib
  have hfill := store16_filled (s := s) hcell haddr (by omega)
  rw [signExtend_of_printable hc]
  exact {
    onScreen := ⟨h.onScreen.window_le, h.onScreen.row_ge, h.onScreen.row_lt⟩
    attrib := h.attrib
    csrX := congrArg (· + 1) h.csrX
    csrY := h.csrY
    lineptr := h.lineptr
    cells := by
      intro y x hy hx
      have hhere : 80 * k.term.screenRow 25 + k.term.col ≤ 80 * y + x ∧
          80 * y + x < 80 * k.term.screenRow 25 + k.term.col + 1 ↔
          y = k.term.screenRow 25 ∧ x = k.term.col := by omega
      rw [Terminal.screen_put h.onScreen, ← h.cells y x hy hx]
      exact (hfill.cells y x).trans (if_congr hhere rfl rfl)
    stores := hfill.stores h.stores }

theorem Window.outChar (h : Window s k) (c : Byte) : Shows (outChar s c) (k.outChar c) := by
  unfold Video.outChar Console.outChar
  by_cases hback : c = 0x08
  · rw [if_pos hback, if_pos hback]
    have hmove := h.setCol (k.term.col - 1)
    by_cases hzero : s.csrX ≠ 0
    · -- a backspace moves the cursor left and erases nothing
      have hx : s.csrX - 1 = ((k.term.col - 1 : Nat) : Int) := by
        have hcol := h.csrX
        omega
      rw [if_pos hzero, hx]
      exact hmove
    · -- in the first column it does nothing
      have hx : ((k.term.col - 1 : Nat) : Int) = s.csrX := by
        have hcol := h.csrX
        omega
      rw [hx] at hmove
      rw [if_neg hzero]
      exact hmove
  rw [if_neg hback, if_neg hback]
  by_cases htab : c = 0x09
  · -- the next tab stop
    have hx : (s.csrX + 8) / 8 * 8 = (((k.term.col / 8 + 1) * 8 : Nat) : Int) := by
      rw [h.csrX]
      omega
    rw [if_pos htab, if_pos htab, hx]
    exact h.setCol _
  rw [if_neg htab, if_neg htab]
  by_cases hreturn : c = 0x0D
  · rw [if_pos hreturn, if_pos hreturn]
    exact h.setCol 0
  rw [if_neg hreturn, if_neg hreturn]
  by_cases hnew : c = 0x0A
  · rw [if_pos hnew, if_pos hnew]
    exact h.toShows.newLine
  rw [if_neg hnew, if_neg hnew]
  by_cases hvisible : Console.Printable c
  · rw [if_pos ((sle_iff_printable c).mpr hvisible), if_pos hvisible]
    exact h.put hvisible
  · rw [if_neg (hvisible ∘ (sle_iff_printable c).mp), if_neg hvisible]
    exact h.toShows

theorem Window.out (h : Window s k) (c : Byte) : Window (out s c) (k.out c) := by
  have hchar := h.outChar c
  refine ⟨?_, Terminal.wrap_col_lt (by decide)⟩
  unfold Video.out Console.out Console.wrap Terminal.wrap
  have hedge : 80 ≤ (Video.outChar s c).csrX ↔ 80 ≤ (k.outChar c).term.col := by
    rw [hchar.csrX]
    omega
  by_cases hover : 80 ≤ (k.outChar c).term.col
  · simp only [if_pos (hedge.mpr hover), if_pos hover]
    exact hchar.newLine
  · simp only [if_neg (hover ∘ hedge.mp), if_neg hover]
    exact hchar

theorem Window.foldl_out (text : List Byte) {s : State} {k : Console} (h : Window s k) :
    Window (text.foldl Video.out s) (text.foldl Console.out k) := by
  induction text generalizing s k with
  | nil => exact h
  | cons c text ih => exact ih (h.out c)

/-! ## One call -/

theorem Window.moveCursor (h : Window s k) : Window (moveCursor s) k :=
  ⟨⟨h.onScreen, h.attrib, h.csrX, h.csrY, h.lineptr, h.cells, h.stores⟩, h.col_lt⟩

theorem Window.setAttrib (h : Window s k) {v : Word16} (hv : v.toNat = 256 * attr.toNat) :
    Window { s with attrib := v } { k with attr := attr } :=
  ⟨⟨h.onScreen, hv, h.csrX, h.csrY, h.lineptr, h.cells, h.stores⟩, h.col_lt⟩

theorem clear_eq (ha : s.attrib.toNat = 256 * attr.toNat) :
    ∃ t, Filled s t 0 (80 * 25) (0x20, attr) ∧
      clear s = moveCursor { t with csrX := 0, csrY := 0, lineptr := vgaMemory } := by
  have hdest : vgaMemory.toNat = 0xB8000 + 2 * 0 := rfl
  exact ⟨_, memsetw_filled (isCell_blank ha) (80 * 25) hdest (by decide), rfl⟩

/-- `Clear` needs nothing of the cursor, the line pointer and the screen. -/
theorem window_clear (ha : s.attrib.toNat = 256 * k.attr.toNat) (hs : ∀ w ∈ s.stores, InScreen w) :
    Window (clear s) k.clear := by
  obtain ⟨t, hfill, hclear⟩ := clear_eq ha
  have hrow : (k.term.clear 25 k.blank).screenRow 25 = 0 := by
    show k.term.height - (k.term.height + 25 - 25) = 0
    omega
  rw [hclear]
  apply Window.moveCursor
  refine ⟨?_, show 0 < 80 by decide⟩
  exact {
    onScreen := Terminal.Ok.clear (by decide)
    attrib := (congrArg BitVec.toNat hfill.attrib).trans ha
    csrX := rfl
    csrY := congrArg Int.ofNat hrow.symm
    lineptr := by
      show vgaMemory.toNat = 0xB8000 + 160 * (k.term.clear 25 k.blank).screenRow 25
      rw [hrow]
      rfl
    cells := by
      intro r c hr hc
      show cellAt t.mem r c = (k.term.clear 25 k.blank).screen 25 r c
      rw [hfill.cells, if_pos (by omega), Terminal.screen_clear]
      rfl
    stores := hfill.stores hs }

theorem toNat_shiftLeft_eight (a : Byte) : (a.setWidth 16 <<< 8 : Word16).toNat = 256 * a.toNat := by
  have ha := a.isLt
  rw [BitVec.toNat_shiftLeft, BitVec.toNat_setWidth, Nat.shiftLeft_eq]
  omega

theorem Shows.attrib_eq (h : Shows s k) : s.attrib = k.attr.setWidth 16 <<< 8 := by
  apply BitVec.eq_of_toNat_eq
  rw [h.attrib, toNat_shiftLeft_eight]

/-- The colour functions compute on the upper half of a 16-bit word what the reference computes on
the attribute. -/
theorem Window.setAttrib_bits (h : Window s k) {v : Word16}
    (hbits : ∀ i < 16, v.getLsbD i = (attr.setWidth 16 <<< 8 : Word16).getLsbD i) :
    Window { s with attrib := v } { k with attr := attr } := by
  apply h.setAttrib
  rw [← toNat_shiftLeft_eight]
  congr 1
  ext i hi
  exact hbits i hi

theorem Window.setFgColor (h : Window s k) (fore : Byte) :
    Window (setFgColor s fore) (k.step (.setFgColor fore)) := by
  apply h.setAttrib_bits
  intro i hi
  rw [h.attrib_eq]
  interval_cases i <;> simp

theorem Window.setBgColor (h : Window s k) (back : Byte) :
    Window (setBgColor s back) (k.step (.setBgColor back)) := by
  apply h.setAttrib_bits
  intro i hi
  rw [h.attrib_eq]
  interval_cases i <;> simp

theorem Window.setColors (h : Window s k) (fore back : Byte) :
    Window (setColors s fore back) (k.step (.setColors fore back)) := by
  apply h.setAttrib_bits
  intro i hi
  interval_cases i <;> simp

theorem Window.setColorMask (h : Window s k) (colors : Word16) :
    Window (setColorMask s colors) (k.step (.setColorMask colors)) := by
  apply h.setAttrib_bits
  intro i hi
  interval_cases i <;> simp

theorem Window.step (h : Window s k) (call : Call) : Window (step s call) (k.step call) := by
  cases call with
  | write ch => exact (h.out ch).moveCursor
  | writeText text => exact (h.foldl_out (text.takeWhile (· ≠ 0))).moveCursor
  | startLine =>
      show Window (startLine s) k.startLine
      unfold Video.startLine Console.startLine
      have hcol : s.csrX = 0 ↔ k.term.col = 0 := by
        rw [h.csrX]
        omega
      by_cases hstart : k.term.col = 0
      · rw [if_pos (hcol.mpr hstart), if_pos hstart]
        exact h
      · rw [if_neg (hstart ∘ hcol.mp), if_neg hstart]
        exact (h.out 0x0A).moveCursor
  | clear => exact window_clear h.attrib h.stores
  | setFgColor fore => exact h.setFgColor fore
  | setBgColor back => exact h.setBgColor back
  | setColors fore back => exact h.setColors fore back
  | setColorMask colors => exact h.setColorMask colors

theorem Window.foldl_step (calls : List Call) {s : State} {k : Console} (h : Window s k) :
    Window (calls.foldl Video.step s) (calls.foldl Console.step k) := by
  induction calls generalizing s k with
  | nil => exact h
  | cons call calls ih => exact ih (h.step call)

theorem window_install (mem : Mem) : Window (install (statics mem)) Console.start :=
  window_clear rfl (by intro w hw; cases hw)

/-- **The console is a window.**  After `Install`, any calls, and any further characters of a
string being written: the cursor is on the screen with the line pointer at its row, every store
made went into the cells, and these are the last 25 rows of the reference terminal. -/
theorem screen_refines_terminal (mem : Mem) (calls : List Call) (text : List Byte) :
    let s := text.foldl out (calls.foldl step (install (statics mem)))
    let k := text.foldl Console.out (calls.foldl Console.step Console.start)
    (0 ≤ s.csrX ∧ s.csrX < 80) ∧ (0 ≤ s.csrY ∧ s.csrY < 25) ∧
    (s.lineptr.toNat : Int) = 0xB8000 + 2 * 80 * s.csrY ∧
    (∀ w ∈ s.stores, InScreen w) ∧
    ∀ r c, r < 25 → c < 80 → cellAt s.mem r c = k.term.screen 25 r c := by
  intro s k
  have hwindow : Window s k := ((window_install mem).foldl_step calls).foldl_out text
  have hx := hwindow.csrX
  have hy := hwindow.csrY
  have hcol := hwindow.col_lt
  have hrow := hwindow.onScreen.screenRow_lt
  have hline := hwindow.lineptr
  exact ⟨by omega, by omega, by omega, hwindow.stores, hwindow.cells⟩

end Video
end Loader
end ZineOS
