import Mathlib

/-!
# A terminal with unbounded history

The purpose of a console, stated without a screen: an ever growing sequence of rows and a cursor in
one of them.  A display shows the last `window` rows.  The operations are those of a teletype; a new
row is opened only when the cursor leaves the last one.

`Terminal.Ok` keeps the cursor inside the last `window` rows, and the `screen_` lemmas say what each
operation does to the displayed part.
-/

namespace ZineOS
namespace Lib

/-- Rows of cells and a cursor.  Only the first `height` rows exist. -/
structure Terminal (α : Type*) where
  rows : Nat → Nat → α
  height : Nat
  row : Nat
  col : Nat

namespace Terminal

variable {α : Type*}

/-- The displayed part: cell `c` of row `r` of the last `window` rows. -/
def screen (window : Nat) (t : Terminal α) (r c : Nat) : α := t.rows (t.height - window + r) c

/-- The row of the screen that the cursor is in. -/
def screenRow (window : Nat) (t : Terminal α) : Nat := t.row - (t.height - window)

/-- To the start of the next row, which is opened if it does not exist. -/
def newline (blank : α) (t : Terminal α) : Terminal α :=
  if t.row + 1 < t.height then { t with row := t.row + 1, col := 0 }
  else ⟨fun r c => if r = t.row + 1 then blank else t.rows r c, t.row + 2, t.row + 1, 0⟩

/-- A new row when the cursor has run over the right edge. -/
def wrap (width : Nat) (blank : α) (t : Terminal α) : Terminal α :=
  if width ≤ t.col then t.newline blank else t

/-- Write a cell and move right. -/
def put (x : α) (t : Terminal α) : Terminal α :=
  { t with
    rows := fun r c => if r = t.row ∧ c = t.col then x else t.rows r c
    col := t.col + 1 }

def backspace (t : Terminal α) : Terminal α := { t with col := t.col - 1 }

/-- To the next multiple of eight. -/
def tab (t : Terminal α) : Terminal α := { t with col := (t.col / 8 + 1) * 8 }

def carriageReturn (t : Terminal α) : Terminal α := { t with col := 0 }

/-- Open a whole screen of new rows and go to the first of them. -/
def clear (window : Nat) (blank : α) (t : Terminal α) : Terminal α :=
  ⟨fun r c => if t.height ≤ r then blank else t.rows r c, t.height + window, t.height, 0⟩

/-- The cursor's row is on the screen. -/
structure Ok (window : Nat) (t : Terminal α) : Prop where
  window_le : window ≤ t.height
  row_ge : t.height - window ≤ t.row
  row_lt : t.row < t.height

variable {width window : Nat} {blank x : α} {t : Terminal α} {r c : Nat}

/-- On a new row, the screen stays or moves up by one. -/
theorem screen_newline (h : t.Ok window) :
    (t.newline blank).screen window r c =
      if t.row + 1 < t.height then t.screen window r c
      else if r + 1 = window then blank else t.screen window (r + 1) c := by
  have hrow := h.row_lt
  have hwindow := h.window_le
  unfold newline
  by_cases hlast : t.row + 1 < t.height
  · rw [if_pos hlast, if_pos hlast]
    rfl
  · rw [if_neg hlast, if_neg hlast]
    have hheight : t.height = t.row + 1 := by omega
    simp only [screen]
    by_cases hbottom : r + 1 = window
    · rw [if_pos (by omega), if_pos hbottom]
    · have hshift : t.row + 2 - window + r = t.height - window + (r + 1) := by omega
      rw [if_neg (by omega), if_neg hbottom, hshift]

theorem screen_put (h : t.Ok window) :
    (t.put x).screen window r c =
      if r = t.screenRow window ∧ c = t.col then x else t.screen window r c := by
  have hge := h.row_ge
  have hiff : t.height - window + r = t.row ↔ r = t.screenRow window := by
    unfold screenRow
    omega
  simp only [put, screen, hiff]

theorem screen_clear : (t.clear window blank).screen window r c = blank := by
  simp only [clear, screen]
  rw [if_pos (by omega)]

/-! ## The cursor stays on the screen -/

theorem Ok.screenRow_lt (h : t.Ok window) : t.screenRow window < window := by
  have hge := h.row_ge
  have hlt := h.row_lt
  have hle := h.window_le
  unfold screenRow
  omega

theorem Ok.newline (h : t.Ok window) (hwindow : 0 < window) : (t.newline blank).Ok window := by
  have hge := h.row_ge
  have hlt := h.row_lt
  have hle := h.window_le
  unfold Terminal.newline
  by_cases hlast : t.row + 1 < t.height
  · rw [if_pos hlast]
    exact ⟨hle, by show t.height - window ≤ t.row + 1; omega, hlast⟩
  · rw [if_neg hlast]
    exact ⟨by show window ≤ t.row + 2; omega, by show t.row + 2 - window ≤ t.row + 1; omega,
      Nat.lt_succ_self _⟩

/-- A new row moves the cursor down, or keeps it in the last row of the screen. -/
theorem Ok.screenRow_newline (h : t.Ok window) (hwindow : 0 < window) :
    (t.newline blank).screenRow window =
      if t.row + 1 < t.height then t.screenRow window + 1 else window - 1 := by
  have hge := h.row_ge
  have hle := h.window_le
  unfold Terminal.newline screenRow
  by_cases hlast : t.row + 1 < t.height
  · rw [if_pos hlast, if_pos hlast]
    show t.row + 1 - (t.height - window) = _
    omega
  · rw [if_neg hlast, if_neg hlast]
    show t.row + 1 - (t.row + 2 - window) = _
    omega

/-- The last row exists exactly when the cursor is in the last row of the screen. -/
theorem Ok.row_succ_lt_iff (h : t.Ok window) :
    t.row + 1 < t.height ↔ t.screenRow window + 1 < window := by
  have hge := h.row_ge
  have hlt := h.row_lt
  have hle := h.window_le
  unfold screenRow
  omega

@[simp] theorem newline_col : (t.newline blank).col = 0 := by
  unfold newline
  split <;> rfl

/-- After the check at the right edge the cursor is left of it. -/
theorem wrap_col_lt (hwidth : 0 < width) : (t.wrap width blank).col < width := by
  unfold wrap
  by_cases hedge : width ≤ t.col
  · rw [if_pos hedge, newline_col]
    exact hwidth
  · rw [if_neg hedge]
    omega

theorem Ok.clear (hwindow : 0 < window) : (t.clear window blank).Ok window where
  window_le := Nat.le_add_left _ _
  row_ge := by
    show t.height + window - window ≤ t.height
    omega
  row_lt := by
    show t.height < t.height + window
    omega

end Terminal
end Lib
end ZineOS
