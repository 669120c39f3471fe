import ZineOS.Printf.ModuleDump
import ZineOS.Loader.VideoTerminal
import ZineOS.Lib.Strings
import ZineOS.Lib.Transition

/-!
# `printf` on the screen

The loader's `printf` formats into `printbuf` and hands that to `Video::Write`.  Together with the other
functions of the console it is a terminal that is written the texts of the formats.

* `Logged` — nothing in memory changes but what `stores` lists.
* `CursorShown` — the hardware cursor stands where the next character goes.
* **`printf_refines_terminal`** — what is on the screen after any calls, what of the memory they have
  changed, and that the next `printf` returns.
-/

namespace ZineOS
namespace Printf

open Lib Loader
open Video (Console Window InScreen cellAt)

/-- `printf`, with `printbuf` where the linker has put it.  `vsprintf` ends with `Video::Write`. -/
def printf (printbuf : Word32) (s : Video.State) (call : Call) : Except (Fault 32) Video.State := do
  let out ← vsprintf .loader s.mem (formatOf call.items) (callArgs call.words)
  let s := { s with mem := s.mem.put printbuf.toNat (out.str ++ [0]) }
  match s.mem.string printbuf with
  | none => .error (.unterminated printbuf)
  | some text => .ok (Video.writeText s text)

/-- The calls that change the screen. -/
inductive ScreenCall
  | video (call : Video.Call)
  | printf (call : Call)

/-- The console from `Video::Install` on, with the reference terminal beside it: that is written the text
of a format. -/
def screen (printbuf : Word32) (mem : Mem) : System (Video.State × Console) ScreenCall where
  init := fun s => s = (Video.install (Video.statics mem), Console.start)
  step := fun s call s' =>
    match call with
    | .video call => s' = (Video.step s.1 call, s.2.step call)
    | .printf call => printf printbuf s.1 call = .ok s'.1 ∧
        ∃ text, render s.1.mem (callArgs call.words) 0 call.items = .ok text ∧
          s'.2 = s.2.writeText text

/-- What the loader's calls of `printf` keep to: the directives are scanned as they are written, the text
fits, and none of it comes from `printbuf` itself, which is written while the strings are read. -/
structure Call.Proper (printbuf : Word32) (m : Mem) (call : Call) : Prop where
  scannable : AllScannable .loader (callArgs call.words) 0 call.items
  fits : call.Fits m
  elsewhere : ∀ l, l.length ≤ printbufSize →
    render (m.put printbuf.toNat l) (callArgs call.words) 0 call.items =
      render m (callArgs call.words) 0 call.items

def ScreenCall.Proper (printbuf : Word32) (s : Video.State × Console) (call : ScreenCall)
    (_ : Video.State × Console) : Prop :=
  match call with
  | .video _ => True
  | .printf call => call.Proper printbuf s.1.mem

/-- `printbuf` is not in the video memory. -/
structure BufferApart (printbuf : Word32) : Prop where
  fits : printbuf.toNat + printbufSize ≤ 2 ^ 32
  apart : printbuf.toNat + printbufSize ≤ 0xB8000 ∨ 0xB8000 + 80 * 25 * 2 ≤ printbuf.toNat

/-- `a` is none of the `w.2` addresses from `w.1` on. -/
def Outside (w : Nat × Nat) (a : Nat) : Prop := ¬ (w.1 ≤ a ∧ a < w.1 + w.2)

/-- From `s` to `t`, only what `t` has stored on top has changed. -/
def Logged (s t : Video.State) : Prop :=
  ∃ new, t.stores = new ++ s.stores ∧ ∀ a, (∀ w ∈ new, Outside w a) → t.mem a = s.mem a

/-- The cursor registers hold the number of the cell that the next character goes to. -/
def CursorShown (s : Video.State) : Prop :=
  (s.crtc.1.toNat * 256 + s.crtc.2.toNat : Int) = 80 * s.csrY + s.csrX

variable {printbuf : Word32} {mem : Mem} {s t u : Video.State} {k : Console} {call : Call}
  {text : List Byte}

/-! ## What changes in memory -/

theorem Logged.refl : Logged s s := ⟨[], rfl, fun _ _ => rfl⟩

theorem Logged.trans (h : Logged s t) (h' : Logged t u) : Logged s u := by
  obtain ⟨new, hstores, hmem⟩ := h
  obtain ⟨new', hstores', hmem'⟩ := h'
  refine ⟨new' ++ new, by rw [hstores', hstores, List.append_assoc], fun a ha => ?_⟩
  rw [hmem' a fun w hw => ha w (List.mem_append_left _ hw),
    hmem a fun w hw => ha w (List.mem_append_right _ hw)]

/-- The variables do not matter. -/
theorem Logged.set (h : Logged s t) (hmem : u.mem = t.mem) (hstores : u.stores = t.stores) :
    Logged s u := by
  unfold Logged
  rw [hmem, hstores]
  exact h

theorem logged_store16 (p : Word32) (v : Word16) : Logged s (Video.store16 s p v) :=
  ⟨[(p.toNat, 2)], rfl, fun _ ha => Mem.store_of_not (ha _ (List.mem_singleton_self _))⟩

theorem logged_memsetw (dest : Word32) (val : Word16) (count : Nat) :
    Logged s (Video.memsetw s dest val count) := by
  induction count generalizing s dest with
  | zero => exact .refl
  | succ count ih => exact (logged_store16 dest val).trans (ih _)

theorem logged_copy (dst src n : Word32) : Logged s (Video.copy s dst src n) :=
  ⟨[(dst.toNat, n.toNat)], rfl,
    fun _ ha => memcpy_of_not (ha _ (List.mem_singleton_self _))⟩

theorem logged_scroll : Logged s (Video.scroll s) := by
  unfold Video.scroll
  by_cases hfits : s.csrY < 25
  · rw [if_pos hfits]
    exact .refl
  · rw [if_neg hfits]
    dsimp only
    have hcopy := @logged_copy s Video.vgaMemory (Video.rowAddr (BitVec.ofInt 32 (s.csrY - 25 + 1)))
      ((25 - BitVec.ofInt 32 (s.csrY - 25 + 1)) * 80 * 2)
    generalize Video.copy s _ _ _ = t at hcopy ⊢
    have hfill := @logged_memsetw t (Video.rowAddr (25 - BitVec.ofInt 32 (s.csrY - 25 + 1)))
      (0x20 ||| s.attrib) 80
    generalize Video.memsetw t _ _ _ = u at hfill ⊢
    exact (hcopy.trans hfill).set rfl rfl

theorem logged_newLine : Logged s (Video.newLine s) := by
  have hcursor : Logged s { s with csrX := 0, csrY := s.csrY + 1 } := Logged.refl.set rfl rfl
  have hscroll := hcursor.trans logged_scroll
  unfold Video.newLine
  dsimp only
  generalize Video.scroll { s with csrX := 0, csrY := s.csrY + 1 } = t at hscroll ⊢
  exact hscroll.set rfl rfl

theorem logged_outChar (c : Byte) : Logged s (Video.outChar s c) := by
  unfold Video.outChar
  split_ifs
  · exact Logged.refl.set rfl rfl
  · exact .refl
  · exact Logged.refl.set rfl rfl
  · exact Logged.refl.set rfl rfl
  · exact logged_newLine
  · exact (logged_store16 _ _).set rfl rfl
  · exact .refl

theorem logged_out (c : Byte) : Logged s (Video.out s c) := by
  unfold Video.out
  dsimp only
  split_ifs
  · exact (logged_outChar c).trans logged_newLine
  · exact logged_outChar c

theorem logged_writeText (text : List Byte) : Logged s (Video.writeText s text) := by
  have hfold : ∀ (l : List Byte) (s : Video.State), Logged s (l.foldl Video.out s) := by
    intro l
    induction l with
    | nil => exact fun _ => .refl
    | cons c l ih => exact fun _ => (logged_out c).trans (ih _)
  exact (hfold _ s).set rfl rfl

theorem logged_clear : Logged s (Video.clear s) := by
  have hfill := @logged_memsetw s Video.vgaMemory (0x20 ||| s.attrib) (80 * 25)
  unfold Video.clear
  dsimp only
  generalize Video.memsetw s _ _ _ = t at hfill ⊢
  exact hfill.set rfl rfl

theorem logged_step (call : Video.Call) : Logged s (Video.step s call) := by
  cases call with
  | write ch => exact (logged_out ch).set rfl rfl
  | writeText text => exact logged_writeText text
  | startLine =>
      show Logged s (Video.startLine s)
      unfold Video.startLine
      split_ifs
      · exact .refl
      · exact (logged_out 0x0A).set rfl rfl
  | clear => exact logged_clear
  | setFgColor fore => exact Logged.refl.set rfl rfl
  | setBgColor back => exact Logged.refl.set rfl rfl
  | setColors fore back => exact Logged.refl.set rfl rfl
  | setColorMask colors => exact Logged.refl.set rfl rfl

/-! ## The hardware cursor -/

theorem cursorShown_moveCursor (h : Window s k) : CursorShown (Video.moveCursor s) := by
  have hx := h.csrX
  have hy := h.csrY
  have hcol := h.col_lt
  have hrow := h.onScreen.screenRow_lt
  obtain ⟨n, hn⟩ : ∃ n : Nat, s.csrY * 80 + s.csrX = n ∧ n < 2 ^ 16 :=
    ⟨k.term.screenRow 25 * 80 + k.term.col, by omega, by omega⟩
  have htemp : (BitVec.ofNat 32 n).toNat = n := Nat.mod_eq_of_lt (by omega)
  unfold CursorShown Video.moveCursor
  dsimp only
  rw [hn.1, BitVec.ofInt_natCast, BitVec.toNat_setWidth, BitVec.toNat_setWidth, BitVec.toNat_ushiftRight,
    htemp, Nat.shiftRight_eq_div_pow]
  omega

theorem cursorShown_clear : CursorShown (Video.clear s) := by
  unfold CursorShown Video.clear Video.moveCursor
  dsimp only
  decide

theorem cursorShown_step (h : Window s k) (hcursor : CursorShown s) (call : Video.Call) :
    CursorShown (Video.step s call) := by
  cases call with
  | write ch => exact cursorShown_moveCursor (h.out ch)
  | writeText text => exact cursorShown_moveCursor (h.foldl_out (text.takeWhile (· ≠ 0)))
  | startLine =>
      show CursorShown (Video.startLine s)
      unfold Video.startLine
      split_ifs
      · exact hcursor
      · exact cursorShown_moveCursor (h.out 0x0A)
  | clear => exact cursorShown_clear
  | setFgColor fore => exact hcursor
  | setBgColor back => exact hcursor
  | setColors fore back => exact hcursor
  | setColorMask colors => exact hcursor

/-! ## `printf` -/

/-- The bytes in front of the video memory or behind it do not show. -/
theorem window_put (h : Window s k) {a : Nat} {l : List Byte}
    (hapart : a + l.length ≤ 0xB8000 ∨ 0xB8000 + 80 * 25 * 2 ≤ a) :
    Window { s with mem := s.mem.put a l } k := by
  refine ⟨⟨h.onScreen, h.attrib, h.csrX, h.csrY, h.lineptr, fun r c hr hc => ?_, h.stores⟩, h.col_lt⟩
  rw [← h.cells r c hr hc]
  unfold cellAt
  dsimp only
  rw [Mem.put_of_not (by omega), Mem.put_of_not (by omega)]

theorem Call.Proper.exists_text (h : call.Proper printbuf s.mem) :
    ∃ text, render s.mem (callArgs call.words) 0 call.items = .ok text ∧
      text.length < printbufSize := by
  obtain ⟨n, hstored, hn⟩ := h.fits
  rw [Call.stored, vsprintf_eq_render h.scannable] at hstored
  cases htext : render s.mem (callArgs call.words) 0 call.items with
  | error fault =>
      rw [htext] at hstored
      cases hstored
  | ok text =>
      rw [htext] at hstored
      cases hstored
      exact ⟨text, rfl, hn⟩

/-- The text is written up to its first NUL. -/
theorem printf_eq (hapart : BufferApart printbuf) (h : call.Proper printbuf s.mem)
    (htext : render s.mem (callArgs call.words) 0 call.items = .ok text)
    (hfits : text.length < printbufSize) :
    printf printbuf s call = .ok (Video.writeText
      { s with mem := s.mem.put printbuf.toNat (text ++ [0]) } text) := by
  have hend := hapart.fits
  have hstring : (s.mem.put printbuf.toNat (text ++ [0])).StringAt printbuf
      (text.takeWhile (· ≠ 0)) :=
    Mem.stringAt_of_holds (Mem.holds_put _ _ _) (by omega)
  have hrun := @vsprintf_eq_render .loader s.mem _ _ h.scannable
  have htwice : ∀ l : List Byte, (l.takeWhile (· ≠ 0)).takeWhile (· ≠ 0) = l.takeWhile (· ≠ 0) := by
    intro l
    rw [List.takeWhile_takeWhile]
    simp
  rw [htext] at hrun
  unfold printf
  rw [hrun]
  simp only [ok_map, ok_bind, hstring.string_eq]
  unfold Video.writeText
  rw [htwice]

theorem window_printf (h : Window s k) (hapart : BufferApart printbuf)
    (hfits : text.length < printbufSize) :
    Window { s with mem := s.mem.put printbuf.toNat (text ++ [0]) } k := by
  have happart := hapart.apart
  refine window_put h ?_
  rw [List.length_append, List.length_singleton]
  omega

/-! ## Runs -/

/-- What holds of the console between two calls. -/
structure Shown (printbuf : Word32) (mem : Mem) (s : Video.State) (k : Console) : Prop
    extends Window s k where
  cursor : CursorShown s
  logged : ∀ a, Outside (printbuf.toNat, printbufSize) a → (∀ w ∈ s.stores, Outside w a) →
    s.mem a = mem a

theorem Shown.set {mem : Mem} (h : Shown printbuf mem s k) {k' : Console} (hlogged : Logged s t)
    (hwindow : Window t k') (hcursor : CursorShown t) : Shown printbuf mem t k' := by
  obtain ⟨new, hstores, hmem⟩ := hlogged
  refine ⟨hwindow, hcursor, fun a hbuffer ha => ?_⟩
  rw [hstores] at ha
  rw [hmem a fun w hw => ha w (List.mem_append_left _ hw)]
  exact h.logged a hbuffer fun w hw => ha w (List.mem_append_right _ hw)

theorem shown_install (mem : Mem) :
    Shown printbuf mem (Video.install (Video.statics mem)) Console.start := by
  have hstart : Window (Video.install (Video.statics mem)) Console.start := Video.window_install mem
  obtain ⟨new, hstores, hmem⟩ : Logged (Video.statics mem) (Video.install (Video.statics mem)) :=
    logged_clear
  refine ⟨hstart, cursorShown_clear, fun a _ ha => hmem a fun w hw => ha w ?_⟩
  rw [hstores]
  exact List.mem_append_left _ hw

theorem Shown.step (h : Shown printbuf mem s k) (call : Video.Call) :
    Shown printbuf mem (Video.step s call) (k.step call) :=
  h.set (logged_step call) (h.toWindow.step call) (cursorShown_step h.toWindow h.cursor call)

/-- A call that keeps to the rules returns, and has written its text. -/
theorem Shown.printf (h : Shown printbuf mem s k) (hapart : BufferApart printbuf)
    (hproper : call.Proper printbuf s.mem) :
    ∃ text s', render s.mem (callArgs call.words) 0 call.items = .ok text ∧
      Printf.printf printbuf s call = .ok s' ∧ Shown printbuf mem s' (k.writeText text) := by
  obtain ⟨text, htext, hfits⟩ := hproper.exists_text
  have hput : Shown printbuf mem { s with mem := s.mem.put printbuf.toNat (text ++ [0]) } k := by
    refine ⟨window_printf h.toWindow hapart hfits, h.cursor, fun a hbuffer ha => ?_⟩
    rw [← h.logged a hbuffer ha]
    refine Mem.put_of_not fun hin => hbuffer ⟨hin.1, ?_⟩
    have hbehind := hin.2
    rw [List.length_append, List.length_singleton] at hbehind
    show a < printbuf.toNat + printbufSize
    omega
  exact ⟨text, _, htext, printf_eq hapart hproper htext hfits, hput.step (.writeText text)⟩

theorem shown_of_reachable (hapart : BufferApart printbuf)
    (h : ((screen printbuf mem).restrict (ScreenCall.Proper printbuf)).Reachable (s, k)) :
    Shown printbuf mem s k := by
  refine h.invariant (I := fun s => Shown printbuf mem s.1 s.2) ?_ ?_
  · rintro _ rfl
    exact shown_install mem
  · rintro ⟨s, k⟩ call ⟨s', k'⟩ - hshown ⟨hstep, hproper⟩
    cases call with
    | video call =>
        cases hstep
        exact hshown.step call
    | printf call =>
        obtain ⟨hprintf, text, htext, hwritten⟩ := hstep
        obtain ⟨text', s'', htext', hprintf', hshown'⟩ := hshown.printf hapart hproper
        -- the text and the state are the ones of the step
        cases htext.symm.trans htext'
        cases hprintf.symm.trans hprintf'
        cases hwritten
        exact hshown'

/-- **The calls of `printf` and of the console are a terminal.**  After any of them the screen shows the
last 25 rows of a terminal that was written the texts, with the hardware cursor at its cursor; nothing
but the video memory and `printbuf` has changed; and the next `printf` returns and writes its text. -/
theorem printf_refines_terminal (hapart : BufferApart printbuf)
    (h : ((screen printbuf mem).restrict (ScreenCall.Proper printbuf)).Reachable (s, k)) :
    (∀ r c, r < 25 → c < 80 → cellAt s.mem r c = k.term.screen 25 r c) ∧
    s.crtc.1.toNat * 256 + s.crtc.2.toNat = 80 * k.term.screenRow 25 + k.term.col ∧
    (∀ a, Outside (0xB8000, 80 * 25 * 2) a → Outside (printbuf.toNat, printbufSize) a →
      s.mem a = mem a) ∧
    ∀ call : Call, call.Proper printbuf s.mem → ∃ text s',
      render s.mem (callArgs call.words) 0 call.items = .ok text ∧
      printf printbuf s call = .ok s' ∧
      ∀ r c, r < 25 → c < 80 → cellAt s'.mem r c = (k.writeText text).term.screen 25 r c := by
  have hshown := shown_of_reachable hapart h
  refine ⟨hshown.cells, ?_, fun a hscreen hbuffer => ?_, fun call hproper => ?_⟩
  · have hcursor : (_ : Int) = _ := hshown.cursor
    rw [hshown.csrX, hshown.csrY] at hcursor
    omega
  · refine hshown.logged a hbuffer fun w hw hin => hscreen ?_
    have hw := hshown.stores w hw
    exact ⟨hw.1.trans hin.1, hin.2.trans_le hw.2⟩
  · obtain ⟨text, s', htext, hprintf, hshown'⟩ := hshown.printf hapart hproper
    exact ⟨text, s', htext, hprintf, hshown'.cells⟩

theorem addressesCall_proper (start stop : Word32) {m : Mem} :
    (addressesCall start stop).Proper printbuf m where
  scannable := addressesCall_scannable start stop
  fits := addressesCall_fits start stop
  elsewhere := fun _ _ =>
    (render_addressesCall start stop).trans (render_addressesCall start stop).symm

theorem reachable_video
    (h : ((screen printbuf mem).restrict (ScreenCall.Proper printbuf)).Reachable (s, k))
    (call : Video.Call) : ((screen printbuf mem).restrict (ScreenCall.Proper printbuf)).Reachable
      (Video.step s call, k.step call) :=
  .step (a := .video call) h ⟨rfl, trivial⟩

theorem reachable_printf
    (h : ((screen printbuf mem).restrict (ScreenCall.Proper printbuf)).Reachable (s, k))
    (hproper : call.Proper printbuf s.mem)
    (htext : render s.mem (callArgs call.words) 0 call.items = .ok text)
    (hprintf : Printf.printf printbuf s call = .ok t) :
    ((screen printbuf mem).restrict (ScreenCall.Proper printbuf)).Reachable
      (t, k.writeText text) :=
  .step (a := .printf call) h ⟨⟨hprintf, text, htext, rfl⟩, hproper⟩

/-- With `printbuf` at 64 KiB: the colour is set, a pair of addresses is printed in it, and a new line
is started. -/
theorem addresses_shown : ∃ s k,
    ((screen 0x10000 0).restrict (ScreenCall.Proper 0x10000)).Reachable (s, k) ∧
    ((List.range 25).map fun c => (cellAt s.mem 0 c).1) = ascii "0x00100000 - 0x00108000  " ∧
    (cellAt s.mem 0 0).2 = 0x0E ∧ s.crtc.1.toNat * 256 + s.crtc.2.toNat = 80 ∧
    ∃ s', printf 0x10000 s (addressesCall 0 0x9FC00) = .ok s' := by
  have hapart : BufferApart 0x10000 := ⟨by decide, by decide⟩
  have hcolored := (@shown_install 0x10000 0).step (.setFgColor 0x0E)
  obtain ⟨text, s, htext, hprintf, -⟩ :=
    hcolored.printf hapart (addressesCall_proper 0x100000 0x108000)
  have hprinted := reachable_printf (@reachable_video 0x10000 0 _ _ (.init rfl) (.setFgColor 0x0E))
    (addressesCall_proper _ _) htext hprintf
  have hreach := reachable_video hprinted .startLine
  obtain ⟨hcells, hcursor, -, hnext⟩ := printf_refines_terminal hapart hreach
  obtain ⟨-, s', -, hprintf', -⟩ := hnext (addressesCall 0 0x9FC00) (addressesCall_proper _ _)
  have hline : text = ascii "0x00100000 - 0x00108000  " := by
    refine (Except.ok.inj (htext.symm.trans (render_addressesCall _ _))).trans ?_
    decide +kernel
  subst hline
  have hrow : ∀ c ∈ List.range 25, (cellAt (Video.step s .startLine).mem 0 c).1 = _ := fun c hc =>
    congrArg Prod.fst (hcells 0 c (by decide) ((List.mem_range.mp hc).trans (by decide)))
  refine ⟨_, _, hreach, ?_, ?_, ?_, s', hprintf'⟩
  · rw [List.map_congr_left hrow]
    decide +kernel
  · rw [hcells 0 0 (by decide) (by decide)]
    decide +kernel
  · rw [hcursor]
    decide +kernel

end Printf
end ZineOS
