import ZineOS.Buildrd.Load

/-!
# The options of the tool

`main` goes over its arguments twice: first for `-f` and `-h`, then, when `InitRd::Load` has read the
image, for `-a`, `-r` and the rest.  The first loop knows only `-f` as an option with a value, so that
the value of `-a` or `-r` may be an option to it; the second one steps over the value of `-f` without
looking whether there is one, and the loop test is `i != argc`.

* An `Event` is what a loop makes of an argument.
* **`secondLoop_agrees`**, **`secondLoop_strays`** — what the second loop does behind the first one.
* **`options_inside_iff`** — which command lines are read within `argv`, and alike by both loops.
-/

namespace ZineOS
namespace Buildrd

open Loader

/-- What `main` is called with: `argv[1]` to `argv[argc - 1]`, and what a read finds at any other
index. -/
structure CommandLine where
  args : List String
  beyond : Word32 → String
  /-- `argc` is an `int`. -/
  short : args.length + 1 < 2 ^ 31

namespace CommandLine

def argc (cl : CommandLine) : Word32 := BitVec.ofNat 32 (cl.args.length + 1)

def argv (cl : CommandLine) (i : Word32) : String :=
  if i = 0 then cl.beyond 0 else cl.args.getD (i.toNat - 1) (cl.beyond i)

end CommandLine

/-- What a loop makes of `argv[i]`. -/
inductive Event where
  /-- It is an option. -/
  | option (i : Word32)
  /-- It is the value of the option `opt`. -/
  | value (opt : String) (i : Word32)
  /-- It is the value of `-f` and is not looked at. -/
  | skipped (i : Word32)
  /-- It is neither. -/
  | other (i : Word32)
  deriving DecidableEq

def Event.index : Event → Word32
  | .option i | .value _ i | .skipped i | .other i => i

/-- The argument is read. -/
def Event.Reads : Event → Prop
  | .option _ | .value _ _ | .other _ => True
  | .skipped _ => False

/-- `ramdisk_file` behind the first loop, and whether `main` has returned from it. -/
structure FirstLoop where
  ramdiskFile : Option String
  returned : Bool
  events : List Event

def FirstLoop.after (events : List Event) (r : FirstLoop) : FirstLoop :=
  { r with events := events ++ r.events }

/-- The first loop from index `i` on.  `none` when the rounds are used up. -/
def firstLoop (cl : CommandLine) : Nat → Word32 → Option String → Option FirstLoop
  | 0, _, _ => none
  | fuel + 1, i, ramdiskFile =>
      if i = cl.argc then some ⟨ramdiskFile, false, []⟩
      else if cl.argv i = "-f" then
        if i < cl.argc - 1 then
          (firstLoop cl fuel (i + 1 + 1) (some (cl.argv (i + 1)))).map
            (.after [.option i, .value "-f" (i + 1)])
        else (firstLoop cl fuel (i + 1) ramdiskFile).map (.after [.option i])
      else if cl.argv i = "-h" ∨ cl.argv i = "--help" then some ⟨ramdiskFile, true, [.option i]⟩
      else (firstLoop cl fuel (i + 1) ramdiskFile).map (.after [.other i])

/-- The second loop.  `AddReplace` and `Remove` are called with the values of `-a` and `-r`; at the
end of the loop the image is saved, and everything else returns from `main`. -/
def secondLoop (cl : CommandLine) : Nat → Word32 → Option (List Event)
  | 0, _ => none
  | fuel + 1, i =>
      if i = cl.argc then some []
      else if cl.argv i = "-a" then
        if i < cl.argc - 1 then
          (secondLoop cl fuel (i + 1 + 1)).map ([.option i, .value "-a" (i + 1)] ++ ·)
        else (secondLoop cl fuel (i + 1)).map ([.option i] ++ ·)
      else if cl.argv i = "-r" then
        if i < cl.argc - 1 then
          (secondLoop cl fuel (i + 1 + 1)).map ([.option i, .value "-r" (i + 1)] ++ ·)
        else (secondLoop cl fuel (i + 1)).map ([.option i] ++ ·)
      else if cl.argv i = "-e" then some [.option i]
      else if cl.argv i = "-d" then some [.option i]
      else if cl.argv i = "-f" then
        (secondLoop cl fuel (i + 1 + 1)).map ([.option i, .skipped (i + 1)] ++ ·)
      else some [.other i]

/-- What the two loops have made of the arguments. -/
structure Run where
  first : List Event
  second : List Event

/-- `main`, with `load` for the return value of `InitRd::Load`. -/
def main (cl : CommandLine) (load : String → Word32) (fuel : Nat) : Option Run :=
  if cl.argc.toInt < 2 then some ⟨[], []⟩
  else
    match firstLoop cl fuel 1 none with
    | none => none
    | some r =>
        if r.returned then some ⟨r.events, []⟩
        else
          let ret := load (r.ramdiskFile.getD "initrd.bin")
          if ret = initrdInvalidFile then some ⟨r.events, []⟩
          else if ret = initrdWrongVersion then some ⟨r.events, []⟩
          else (secondLoop cl fuel 1).map fun events => ⟨r.events, events⟩

/-- The first loop has treated the argument as the second one does: the value of `-f` as that, and
the value of `-a` or `-r` neither as an option nor as the value of one. -/
def SameWay (first : List Event) : Event → Prop
  | .value _ i => ∀ e ∈ first, e.index = i → e = .other i
  | .skipped i => .value "-f" i ∈ first
  | .option _ | .other _ => True

/-- Both loops end, read `argv[1]` to `argv[argc - 1]` only, and agree on the values. -/
structure Inside (cl : CommandLine) (run : Run) : Prop where
  reads : ∀ e ∈ run.first ++ run.second, e.Reads → 1 ≤ e.index.toNat ∧ e.index < cl.argc
  values : ∀ e ∈ run.second, SameWay run.first e

/-! ## Which command lines are in order -/

/-- One of the arguments is `-h` or `--help`, and not the value of `-f`. -/
def asksHelp : List String → Bool
  | [] => false
  | [a] => a = "-h" ∨ a = "--help"
  | a :: v :: rest =>
      if a = "-f" then asksHelp rest else (a = "-h" ∨ a = "--help") || asksHelp (v :: rest)

/-- The value of the last `-f`. -/
def lastFile (file : Option String) : List String → Option String
  | [] => file
  | [_] => file
  | a :: v :: rest => if a = "-f" then lastFile (some v) rest else lastFile file (v :: rest)

/-- The image that `main` has `InitRd::Load` read when help is not asked for. -/
def image (cl : CommandLine) : String := (lastFile none cl.args).getD "initrd.bin"

/-- Up to the first argument that ends the second loop: `-f` is not the value of `-a` or `-r`, and it
has a value of its own. -/
def clean : List String → Bool
  | [] => true
  | [a] => a ≠ "-f"
  | a :: v :: rest =>
      if a = "-a" ∨ a = "-r" then v ≠ "-f" && clean rest
      else if a = "-f" then clean rest
      else true

/-! ## Places in the command line -/

variable {cl : CommandLine} {n fuel : Nat} {a v : String} {rest suf : List String}
  {file : Option String} {r : FirstLoop} {events : List Event}

/-- The arguments from index `n` on. -/
structure From (cl : CommandLine) (n : Nat) (suf : List String) : Prop where
  pos : 1 ≤ n
  rest : cl.args.drop (n - 1) = suf
  total : n + suf.length = cl.args.length + 1

namespace From

theorem start (cl : CommandLine) : From cl 1 cl.args := ⟨le_rfl, rfl, by omega⟩

theorem next (h : From cl n (a :: rest)) : From cl (n + 1) rest := by
  have hpos := h.pos
  have htotal := h.total
  rw [List.length_cons] at htotal
  refine ⟨by omega, ?_, by omega⟩
  have hdrop := congrArg (List.drop 1) h.rest
  rw [List.drop_drop] at hdrop
  rw [show n + 1 - 1 = n - 1 + 1 by omega]
  exact hdrop

theorem toNat (h : From cl n suf) : (BitVec.ofNat 32 n).toNat = n := by
  have hshort := cl.short
  have htotal := h.total
  rw [BitVec.toNat_ofNat, Nat.mod_eq_of_lt (by omega)]

theorem toNat_argc (cl : CommandLine) : cl.argc.toNat = cl.args.length + 1 := by
  have hshort := cl.short
  unfold CommandLine.argc
  rw [BitVec.toNat_ofNat, Nat.mod_eq_of_lt (by omega)]

theorem argc_eq (h : From cl n []) : BitVec.ofNat 32 n = cl.argc := by
  have htotal := h.total
  unfold CommandLine.argc
  rw [← htotal]
  rfl

theorem argc_ne (h : From cl n (a :: rest)) : BitVec.ofNat 32 n ≠ cl.argc := by
  intro hsame
  have htotal := h.total
  have hvalue := congrArg BitVec.toNat hsame
  rw [h.toNat, toNat_argc] at hvalue
  rw [List.length_cons] at htotal
  omega

theorem argv (h : From cl n (a :: rest)) : cl.argv (BitVec.ofNat 32 n) = a := by
  have hpos := h.pos
  have hne : BitVec.ofNat 32 n ≠ 0 := by
    intro hzero
    have hvalue := congrArg BitVec.toNat hzero
    rw [h.toNat] at hvalue
    change n = 0 at hvalue
    omega
  have hget : cl.args[n - 1]? = some a := by
    have hhead := congrArg List.head? h.rest
    rwa [List.head?_drop] at hhead
  unfold CommandLine.argv
  rw [if_neg hne, h.toNat, List.getD_eq_getElem?_getD, hget]
  rfl

theorem index_succ (n : Nat) : BitVec.ofNat 32 n + 1 = BitVec.ofNat 32 (n + 1) := by
  rw [BitVec.ofNat_add]
  rfl

/-- There is an argument behind this one. -/
theorem lt_iff (h : From cl n (a :: rest)) :
    BitVec.ofNat 32 n < cl.argc - 1 ↔ rest ≠ [] := by
  have hshort := cl.short
  have htotal := h.total
  have hargc := toNat_argc cl
  have hlast : (cl.argc - 1).toNat = cl.args.length := by
    have hone : (1 : Word32).toNat = 1 := rfl
    rw [BitVec.toNat_sub_of_le (by rw [BitVec.le_def]; omega)]
    omega
  rw [List.length_cons] at htotal
  rw [BitVec.lt_def, h.toNat, hlast, ← List.length_pos_iff]
  omega

end From

/-! ## The first loop -/

/-- The event is about one of the arguments from index `n` on. -/
def Event.Within (cl : CommandLine) (n : Nat) (e : Event) : Prop :=
  n ≤ e.index.toNat ∧ e.index < cl.argc

theorem From.within (h : From cl n (a :: rest)) : ∀ e : Event, e.index = BitVec.ofNat 32 n →
    e.Within cl n := by
  intro e hindex
  have htotal := h.total
  rw [List.length_cons] at htotal
  unfold Event.Within
  rw [hindex, BitVec.lt_def, h.toNat, From.toNat_argc]
  omega

theorem within_mono {e : Event} {k : Nat} (h : e.Within cl k) (hle : n ≤ k) : e.Within cl n :=
  ⟨hle.trans h.1, h.2⟩

theorem firstLoop_nil (h : From cl n []) :
    firstLoop cl (fuel + 1) (BitVec.ofNat 32 n) file = some ⟨file, false, []⟩ := by
  rw [firstLoop, if_pos h.argc_eq]

theorem firstLoop_cons (h : From cl n (a :: rest)) :
    firstLoop cl (fuel + 1) (BitVec.ofNat 32 n) file =
      if a = "-f" then
        match rest with
        | [] => (firstLoop cl fuel (BitVec.ofNat 32 (n + 1)) file).map
            (.after [.option (BitVec.ofNat 32 n)])
        | v :: _ => (firstLoop cl fuel (BitVec.ofNat 32 (n + 2)) (some v)).map
            (.after [.option (BitVec.ofNat 32 n), .value "-f" (BitVec.ofNat 32 (n + 1))])
      else if a = "-h" ∨ a = "--help" then some ⟨file, true, [.option (BitVec.ofNat 32 n)]⟩
      else (firstLoop cl fuel (BitVec.ofNat 32 (n + 1)) file).map
        (.after [.other (BitVec.ofNat 32 n)]) := by
  rw [firstLoop, if_neg h.argc_ne, h.argv]
  cases rest with
  | nil => rw [if_neg (mt h.lt_iff.mp (not_not_intro rfl)), From.index_succ]
  | cons v rest =>
      rw [if_pos (h.lt_iff.mpr (List.cons_ne_nil _ _)), From.index_succ, From.index_succ,
        h.next.argv]

/-- What the first loop does from index `n` on. -/
structure FirstLoop.Spec (cl : CommandLine) (n : Nat) (file : Option String) (suf : List String)
    (r : FirstLoop) : Prop where
  returned : r.returned = asksHelp suf
  ramdiskFile : asksHelp suf = false → r.ramdiskFile = lastFile file suf
  within : ∀ e ∈ r.events, e.Within cl n

theorem FirstLoop.Spec.after {k : Nat} {file' : Option String} {suf' : List String}
    (h : r.Spec cl k file' suf') (hle : n ≤ k) (hhelp : asksHelp suf = asksHelp suf')
    (hfile : asksHelp suf = false → lastFile file suf = lastFile file' suf')
    (hevents : ∀ e ∈ events, e.Within cl n) : (r.after events).Spec cl n file suf where
  returned := h.returned.trans hhelp.symm
  ramdiskFile := fun hno => (h.ramdiskFile (hhelp ▸ hno)).trans (hfile hno).symm
  within := by
    intro e he
    rcases List.mem_append.mp he with hfirst | hlater
    · exact hevents e hfirst
    · exact within_mono (h.within e hlater) hle

/-- **The first loop** stays inside, and returns from `main` when help is asked for. -/
theorem firstLoop_spec (h : From cl n suf)
    (hr : firstLoop cl fuel (BitVec.ofNat 32 n) file = some r) : r.Spec cl n file suf := by
  induction fuel generalizing n suf file r with
  | zero => cases hr
  | succ fuel ih =>
      cases suf with
      | nil =>
          rw [firstLoop_nil h] at hr
          cases hr
          exact ⟨rfl, fun _ => rfl, nofun⟩
      | cons a rest =>
          have hthis : ∀ e ∈ [Event.option (BitVec.ofNat 32 n)], e.Within cl n := fun e he =>
            h.within e (by rw [List.mem_singleton.mp he]; rfl)
          have hother : ∀ e ∈ [Event.other (BitVec.ofNat 32 n)], e.Within cl n := fun e he =>
            h.within e (by rw [List.mem_singleton.mp he]; rfl)
          rw [firstLoop_cons h] at hr
          by_cases hf : a = "-f"
          · subst hf
            rw [if_pos rfl] at hr
            cases rest with
            | nil =>
                obtain ⟨r, hnext, rfl⟩ := Option.map_eq_some_iff.mp hr
                exact (ih h.next hnext).after (by omega) rfl (fun _ => rfl) hthis
            | cons v rest =>
                obtain ⟨r, hnext, rfl⟩ := Option.map_eq_some_iff.mp hr
                refine (ih h.next.next hnext).after (by omega) rfl (fun _ => rfl) ?_
                intro e he
                rcases List.mem_cons.mp he with rfl | hvalue
                · exact h.within _ rfl
                · rw [List.mem_singleton.mp hvalue]
                  exact within_mono (h.next.within _ rfl) (by omega)
          · rw [if_neg hf] at hr
            by_cases hhelp : a = "-h" ∨ a = "--help"
            · have hasks : asksHelp (a :: rest) = true := by
                cases rest <;> simp [asksHelp, hf, hhelp]
              rw [if_pos hhelp] at hr
              cases hr
              exact ⟨hasks.symm, fun hno => absurd (hasks.symm.trans hno) (by decide), hthis⟩
            · have hasks : asksHelp (a :: rest) = asksHelp rest := by
                cases rest <;> simp [asksHelp, hf, hhelp]
              have hfile : lastFile file (a :: rest) = lastFile file rest := by
                cases rest <;> simp [lastFile, hf]
              rw [if_neg hhelp] at hr
              obtain ⟨r, hnext, rfl⟩ := Option.map_eq_some_iff.mp hr
              exact (ih h.next hnext).after (by omega) hasks (fun _ => hfile) hother

/-- It ends. -/
theorem firstLoop_total (h : From cl n suf) (hfuel : suf.length < fuel) :
    ∃ r, firstLoop cl fuel (BitVec.ofNat 32 n) file = some r := by
  induction fuel generalizing n suf file with
  | zero => exact absurd hfuel (Nat.not_lt_zero _)
  | succ fuel ih =>
      cases suf with
      | nil => exact ⟨_, firstLoop_nil h⟩
      | cons a rest =>
          rw [List.length_cons] at hfuel
          obtain ⟨r, hr⟩ : ∃ r, firstLoop cl fuel (BitVec.ofNat 32 (n + 1)) file = some r :=
            ih h.next (by omega)
          rw [firstLoop_cons h, hr]
          by_cases hf : a = "-f"
          · rw [if_pos hf]
            cases rest with
            | nil => exact ⟨_, rfl⟩
            | cons v rest =>
                rw [List.length_cons] at hfuel
                obtain ⟨r', hr'⟩ :
                    ∃ r, firstLoop cl fuel (BitVec.ofNat 32 (n + 2)) (some v) = some r :=
                  ih h.next.next (by omega)
                dsimp only
                rw [hr']
                exact ⟨_, rfl⟩
          · rw [if_neg hf]
            split_ifs
            · exact ⟨_, rfl⟩
            · exact ⟨_, rfl⟩

/-! ## The second loop -/

theorem secondLoop_nil (h : From cl n []) :
    secondLoop cl (fuel + 1) (BitVec.ofNat 32 n) = some [] := by
  rw [secondLoop, if_pos h.argc_eq]

theorem secondLoop_cons (h : From cl n (a :: rest)) :
    secondLoop cl (fuel + 1) (BitVec.ofNat 32 n) =
      if a = "-a" ∨ a = "-r" then
        match rest with
        | [] => (secondLoop cl fuel (BitVec.ofNat 32 (n + 1))).map
            ([.option (BitVec.ofNat 32 n)] ++ ·)
        | _ :: _ => (secondLoop cl fuel (BitVec.ofNat 32 (n + 2))).map
            ([.option (BitVec.ofNat 32 n), .value a (BitVec.ofNat 32 (n + 1))] ++ ·)
      else if a = "-f" then
        (secondLoop cl fuel (BitVec.ofNat 32 (n + 2))).map
          ([.option (BitVec.ofNat 32 n), .skipped (BitVec.ofNat 32 (n + 1))] ++ ·)
      else if a = "-e" ∨ a = "-d" then some [.option (BitVec.ofNat 32 n)]
      else some [.other (BitVec.ofNat 32 n)] := by
  have hlast : BitVec.ofNat 32 n < cl.argc - 1 ↔ rest ≠ [] := h.lt_iff
  rw [secondLoop, if_neg h.argc_ne, h.argv, From.index_succ, From.index_succ]
  simp only [hlast]
  by_cases hadd : a = "-a"
  · subst hadd
    cases rest <;> simp
  · by_cases hremove : a = "-r"
    · subst hremove
      cases rest <;> simp
    · by_cases hf : a = "-f"
      · subst hf
        rfl
      · by_cases he : a = "-e"
        · subst he
          rfl
        · by_cases hd : a = "-d"
          · subst hd
            rfl
          · simp only [hadd, hremove, hf, he, hd, if_false, or_self]

/-- A round reads its argument. -/
theorem secondLoop_reads {i : Word32} (hne : i ≠ cl.argc)
    (h : secondLoop cl fuel i = some events) : ∃ e ∈ events, e.Reads ∧ e.index = i := by
  cases fuel with
  | zero => cases h
  | succ fuel =>
      rw [secondLoop, if_neg hne] at h
      have hfirst : ∀ {tail : List Event} {l : Option (List Event)},
          l.map ((.option i :: tail) ++ ·) = some events → ∃ e ∈ events, e.Reads ∧ e.index = i := by
        intro tail l hl
        obtain ⟨rest, -, rfl⟩ := Option.map_eq_some_iff.mp hl
        exact ⟨.option i, List.mem_cons_self, trivial, rfl⟩
      split_ifs at h
      all_goals first
        | exact hfirst h
        | (cases h; exact ⟨_, List.mem_singleton_self _, trivial, rfl⟩)

/-! ## The two loops -/

/-- What the first loop has made of earlier arguments does not matter. -/
theorem SameWay.after {e : Event} {earlier first : List Event} (h : SameWay first e)
    (hne : ∀ e' ∈ earlier, e'.index ≠ e.index) : SameWay (earlier ++ first) e := by
  cases e with
  | option i => trivial
  | other i => trivial
  | skipped i => exact List.mem_append_right _ h
  | value opt i =>
      intro e' he' hindex
      rcases List.mem_append.mp he' with hearlier | hlater
      · exact absurd hindex (hne e' hearlier)
      · exact h e' hlater hindex

/-- The first loop passes over an argument that is no option to it. -/
theorem firstLoop_pass (h : From cl n (a :: rest)) (hf : a ≠ "-f")
    (hhelp : ¬(a = "-h" ∨ a = "--help"))
    (hr : firstLoop cl fuel (BitVec.ofNat 32 n) file = some r) :
    ∃ fuel' r', firstLoop cl fuel' (BitVec.ofNat 32 (n + 1)) file = some r' ∧
      r.events = .other (BitVec.ofNat 32 n) :: r'.events := by
  cases fuel with
  | zero => cases hr
  | succ fuel =>
      rw [firstLoop_cons h, if_neg hf, if_neg hhelp] at hr
      obtain ⟨r', hr', rfl⟩ := Option.map_eq_some_iff.mp hr
      exact ⟨fuel, r', hr', rfl⟩

/-- It takes the value of `-f`. -/
theorem firstLoop_file (h : From cl n ("-f" :: v :: rest))
    (hr : firstLoop cl fuel (BitVec.ofNat 32 n) file = some r) :
    ∃ fuel' r', firstLoop cl fuel' (BitVec.ofNat 32 (n + 2)) (some v) = some r' ∧
      r.events = .option (BitVec.ofNat 32 n) :: .value "-f" (BitVec.ofNat 32 (n + 1)) ::
        r'.events := by
  cases fuel with
  | zero => cases hr
  | succ fuel =>
      rw [firstLoop_cons h, if_pos rfl] at hr
      obtain ⟨r', hr', rfl⟩ := Option.map_eq_some_iff.mp hr
      exact ⟨fuel, r', hr', rfl⟩

/-- An argument that is not asked for help with. -/
theorem asksHelp_cons (hf : a ≠ "-f") (h : asksHelp (a :: rest) = false) :
    ¬(a = "-h" ∨ a = "--help") ∧ asksHelp rest = false := by
  cases rest with
  | nil => simpa [asksHelp] using h
  | cons v rest => simpa [asksHelp, hf] using h

/-- What the second loop does from index `n` on is inside, and as in the first loop. -/
def Agrees (cl : CommandLine) (n : Nat) (first events : List Event) : Prop :=
  ∀ e ∈ events, e.Within cl n ∧ SameWay first e

/-- A pair of arguments, and what comes behind it. -/
theorem Agrees.pair {x y x' y' : Event} {first : List Event} (hrest : Agrees cl (n + 2) first events)
    (h : From cl n (a :: v :: rest)) (hx : x.index = BitVec.ofNat 32 n)
    (hy : y.index = BitVec.ofNat 32 (n + 1)) (hx' : x'.index = BitVec.ofNat 32 n)
    (hy' : y'.index = BitVec.ofNat 32 (n + 1)) (hsx : SameWay (x :: y :: first) x')
    (hsy : SameWay (x :: y :: first) y') :
    Agrees cl n (x :: y :: first) (x' :: y' :: events) := by
  intro e he
  rcases List.mem_cons.mp he with rfl | he
  · exact ⟨h.within _ hx', hsx⟩
  · rcases List.mem_cons.mp he with rfl | he
    · exact ⟨within_mono (h.next.within _ hy') (Nat.le_succ n), hsy⟩
    · obtain ⟨hwithin, hsame⟩ := hrest e he
      refine ⟨within_mono hwithin (Nat.le_add_right n 2),
        @SameWay.after e [x, y] first hsame ?_⟩
      have hlow := hwithin.1
      intro e' he' hindex
      have hvalue := congrArg BitVec.toNat hindex
      rcases List.mem_cons.mp he' with rfl | he'
      · rw [hx, h.toNat] at hvalue
        omega
      · rw [List.mem_singleton.mp he', hy, h.next.toNat] at hvalue
        omega

theorem Agrees.single {first : List Event} {e : Event} (h : From cl n (a :: rest))
    (hindex : e.index = BitVec.ofNat 32 n) (hsame : SameWay first e) : Agrees cl n first [e] :=
  fun _ he => List.mem_singleton.mp he ▸ ⟨h.within e hindex, hsame⟩

/-- **The second loop** on a command line that is in order ends, stays inside, and does as the first
one has done. -/
theorem secondLoop_agrees {fuel₁ : Nat} (h : From cl n suf) (hhelp : asksHelp suf = false)
    (hclean : clean suf = true) (hr : firstLoop cl fuel₁ (BitVec.ofNat 32 n) file = some r)
    (hfuel : suf.length < fuel) :
    ∃ events, secondLoop cl fuel (BitVec.ofNat 32 n) = some events ∧
      Agrees cl n r.events events := by
  induction fuel generalizing n suf file r fuel₁ with
  | zero => exact absurd hfuel (Nat.not_lt_zero _)
  | succ fuel ih =>
      cases suf with
      | nil => exact ⟨[], secondLoop_nil h, nofun⟩
      | cons a rest =>
          rw [List.length_cons] at hfuel
          rw [secondLoop_cons h]
          by_cases hvalue : a = "-a" ∨ a = "-r"
          · have hf : a ≠ "-f" := by
              rintro rfl
              simp at hvalue
            obtain ⟨hno, hhelp⟩ := asksHelp_cons hf hhelp
            rw [if_pos hvalue]
            cases rest with
            | nil =>
                cases fuel with
                | zero => exact absurd hfuel (by simp)
                | succ fuel =>
                    dsimp only
                    rw [secondLoop_nil h.next]
                    exact ⟨_, rfl, .single h rfl trivial⟩
            | cons v rest =>
                have hboth : v ≠ "-f" ∧ clean rest = true := by
                  simpa [clean, hvalue] using hclean
                obtain ⟨hno', hhelp⟩ := asksHelp_cons hboth.1 hhelp
                obtain ⟨fuel₂, r₁, hr₁, hevents₁⟩ := firstLoop_pass h hf hno hr
                obtain ⟨fuel₃, r₂, hr₂, hevents₂⟩ := firstLoop_pass h.next hboth.1 hno' hr₁
                rw [List.length_cons] at hfuel
                obtain ⟨events, hevents, hagrees⟩ := ih h.next.next hhelp hboth.2 hr₂ (by omega)
                dsimp only
                rw [hevents, hevents₁, hevents₂]
                refine ⟨_, rfl, hagrees.pair h rfl rfl rfl rfl trivial ?_⟩
                intro e he hindex
                have hat := congrArg BitVec.toNat hindex
                rw [h.next.toNat] at hat
                rcases List.mem_cons.mp he with rfl | he
                · change (BitVec.ofNat 32 n).toNat = n + 1 at hat
                  rw [h.toNat] at hat
                  omega
                · rcases List.mem_cons.mp he with rfl | he
                  · rfl
                  · have hlow := ((firstLoop_spec h.next.next hr₂).within e he).1
                    omega
          · rw [if_neg hvalue]
            by_cases hf : a = "-f"
            · subst hf
              cases rest with
              | nil => exact absurd hclean (by decide)
              | cons v rest =>
                  obtain ⟨fuel₂, r₁, hr₁, hevents₁⟩ := firstLoop_file h hr
                  rw [List.length_cons] at hfuel
                  obtain ⟨events, hevents, hagrees⟩ := ih h.next.next hhelp hclean hr₁ (by omega)
                  rw [if_pos rfl, hevents, hevents₁]
                  refine ⟨_, rfl, hagrees.pair h rfl rfl rfl rfl trivial ?_⟩
                  exact List.mem_cons_of_mem _ List.mem_cons_self
            · rw [if_neg hf]
              split_ifs
              · exact ⟨_, rfl, .single h rfl trivial⟩
              · exact ⟨_, rfl, .single h rfl trivial⟩

/-- What the second loop does wrong on a command line that is not in order: it reads beyond the last
argument, or takes for a value what the first loop has taken for an option. -/
def Strays (cl : CommandLine) (first events : List Event) : Prop :=
  (∃ e ∈ events, e.Reads ∧ ¬e.index < cl.argc) ∨
    ∃ opt i, .value opt i ∈ events ∧ .option i ∈ first

theorem Strays.mono {first events first' events' : List Event} (h : Strays cl first events)
    (hfirst : ∀ e ∈ first, e ∈ first') (hevents : ∀ e ∈ events, e ∈ events') :
    Strays cl first' events' := by
  rcases h with ⟨e, he, hreads⟩ | ⟨opt, i, hvalue, hoption⟩
  · exact .inl ⟨e, hevents e he, hreads⟩
  · exact .inr ⟨opt, i, hevents _ hvalue, hfirst _ hoption⟩

theorem Strays.not_inside {run : Run} (h : Strays cl run.first run.second) : ¬Inside cl run := by
  intro hinside
  rcases h with ⟨e, he, hreads, hbeyond⟩ | ⟨opt, i, hvalue, hoption⟩
  · exact hbeyond (hinside.reads e (List.mem_append_right _ he) hreads).2
  · exact Event.noConfusion (hinside.values _ hvalue _ hoption rfl)

/-- `-f` is an option to the first loop, wherever it comes to it. -/
theorem firstLoop_option (h : From cl n ("-f" :: rest))
    (hr : firstLoop cl fuel (BitVec.ofNat 32 n) file = some r) :
    .option (BitVec.ofNat 32 n) ∈ r.events := by
  cases fuel with
  | zero => cases hr
  | succ fuel =>
      rw [firstLoop_cons h, if_pos rfl] at hr
      cases rest with
      | nil =>
          obtain ⟨r', -, rfl⟩ := Option.map_eq_some_iff.mp hr
          exact List.mem_cons_self
      | cons v rest =>
          obtain ⟨r', -, rfl⟩ := Option.map_eq_some_iff.mp hr
          exact List.mem_cons_self

/-- On a command line that is not in order the second loop goes astray. -/
theorem secondLoop_strays {fuel₁ : Nat} (h : From cl n suf) (hhelp : asksHelp suf = false)
    (hclean : clean suf = false) (hr : firstLoop cl fuel₁ (BitVec.ofNat 32 n) file = some r)
    (hevents : secondLoop cl fuel (BitVec.ofNat 32 n) = some events) :
    Strays cl r.events events := by
  induction fuel generalizing n suf file r fuel₁ events with
  | zero => cases hevents
  | succ fuel ih =>
      cases suf with
      | nil => cases hclean
      | cons a rest =>
          rw [secondLoop_cons h] at hevents
          by_cases hvalue : a = "-a" ∨ a = "-r"
          · have hf : a ≠ "-f" := by
              rintro rfl
              simp at hvalue
            rw [if_pos hvalue] at hevents
            cases rest with
            | nil => simp [clean, hf] at hclean
            | cons v rest =>
                obtain ⟨hno, hhelp⟩ := asksHelp_cons hf hhelp
                obtain ⟨fuel₂, r₁, hr₁, hevents₁⟩ := firstLoop_pass h hf hno hr
                obtain ⟨later, hlater, rfl⟩ := Option.map_eq_some_iff.mp hevents
                rw [hevents₁]
                by_cases hv : v = "-f"
                · -- the first loop has taken it for an option
                  subst hv
                  exact .inr ⟨a, _, List.mem_cons_of_mem _ List.mem_cons_self,
                    List.mem_cons_of_mem _ (firstLoop_option h.next hr₁)⟩
                · have hrest : clean rest = false := by simpa [clean, hvalue, hv] using hclean
                  obtain ⟨hno', hhelp⟩ := asksHelp_cons hv hhelp
                  obtain ⟨fuel₃, r₂, hr₂, hevents₂⟩ := firstLoop_pass h.next hv hno' hr₁
                  rw [hevents₂]
                  exact (ih h.next.next hhelp hrest hr₂ hlater).mono (by simp +contextual)
                    (by simp +contextual)
          · rw [if_neg hvalue] at hevents
            have hf : a = "-f" := by
              by_contra hf
              cases rest <;> simp [clean, hvalue, hf] at hclean
            subst hf
            rw [if_pos rfl] at hevents
            obtain ⟨later, hlater, rfl⟩ := Option.map_eq_some_iff.mp hevents
            cases rest with
            | nil =>
                -- it steps beyond `argc` and goes on there
                have hshort := cl.short
                have htotal := h.total
                have hbeyond : (BitVec.ofNat 32 (n + 2)).toNat = cl.args.length + 2 := by
                  rw [List.length_singleton] at htotal
                  rw [BitVec.toNat_ofNat, Nat.mod_eq_of_lt (by omega)]
                  omega
                have hne : BitVec.ofNat 32 (n + 2) ≠ cl.argc := by
                  intro hsame
                  rw [hsame, From.toNat_argc] at hbeyond
                  omega
                obtain ⟨e, he, hreads, hindex⟩ := secondLoop_reads hne hlater
                refine .inl ⟨e, List.mem_append_right _ he, hreads, ?_⟩
                rw [hindex, BitVec.lt_def, hbeyond, From.toNat_argc]
                omega
            | cons v rest =>
                obtain ⟨fuel₂, r₁, hr₁, hevents₁⟩ := firstLoop_file h hr
                rw [hevents₁]
                exact (ih h.next.next hhelp hclean hr₁ hlater).mono (by simp +contextual)
                  (by simp +contextual)

/-! ## The whole run -/

/-- `main` behind the first loop. -/
theorem main_of_firstLoop {load : String → Word32} (htwo : ¬cl.argc.toInt < 2)
    (hr : firstLoop cl fuel 1 none = some r) :
    main cl load fuel =
      if asksHelp cl.args = true ∨ load (image cl) = initrdInvalidFile ∨
          load (image cl) = initrdWrongVersion then some ⟨r.events, []⟩
      else (secondLoop cl fuel 1).map fun events => ⟨r.events, events⟩ := by
  have hspec := firstLoop_spec (.start cl) hr
  rw [main, if_neg htwo, hr]
  dsimp only
  rw [hspec.returned]
  by_cases hhelp : asksHelp cl.args = true
  · rw [if_pos hhelp, if_pos (.inl hhelp)]
  · have hfile : r.ramdiskFile.getD "initrd.bin" = image cl := by
      rw [hspec.ramdiskFile (eq_false_of_ne_true hhelp)]
      rfl
    rw [if_neg hhelp, hfile]
    by_cases hinvalid : load (image cl) = initrdInvalidFile
    · rw [if_pos hinvalid, if_pos (.inr (.inl hinvalid))]
    · rw [if_neg hinvalid]
      by_cases hwrong : load (image cl) = initrdWrongVersion
      · rw [if_pos hwrong, if_pos (.inr (.inr hwrong))]
      · rw [if_neg hwrong, if_neg (by simp [hhelp, hinvalid, hwrong])]

theorem two_args (hargs : cl.args ≠ []) : ¬cl.argc.toInt < 2 := by
  have hshort := cl.short
  have hpos := List.length_pos_iff.mpr hargs
  have hargc := From.toNat_argc cl
  rw [BitVec.toInt_eq_toNat_of_lt (by omega)]
  omega

/-- A run over a command line that is not in order, when nothing keeps it from the second loop. -/
theorem main_strays {load : String → Word32} {run : Run} (hargs : cl.args ≠ [])
    (hearly : ¬(asksHelp cl.args = true ∨ load (image cl) = initrdInvalidFile ∨
      load (image cl) = initrdWrongVersion)) (hclean : clean cl.args = false)
    (hrun : main cl load fuel = some run) : Strays cl run.first run.second := by
  cases hr : firstLoop cl fuel 1 none with
  | none =>
      rw [main, if_neg (two_args hargs), hr] at hrun
      cases hrun
  | some r =>
      have hhelp : asksHelp cl.args = false := eq_false_of_ne_true fun hhelp => hearly (.inl hhelp)
      rw [main_of_firstLoop (two_args hargs) hr, if_neg hearly] at hrun
      obtain ⟨events, hevents, rfl⟩ := Option.map_eq_some_iff.mp hrun
      exact secondLoop_strays (.start cl) hhelp hclean hr hevents

/-- A run over a command line that is in order. -/
theorem main_agrees {load : String → Word32} (hargs : cl.args ≠ [])
    (hcond : asksHelp cl.args = true ∨ load (image cl) = initrdInvalidFile ∨
      load (image cl) = initrdWrongVersion ∨ clean cl.args = true) :
    ∃ run, main cl load (cl.args.length + 1) = some run ∧ Inside cl run := by
  have hstart := From.start cl
  obtain ⟨r, hr⟩ : ∃ r, firstLoop cl (cl.args.length + 1) 1 none = some r :=
    firstLoop_total hstart (Nat.lt_succ_self _)
  have hfirst := (firstLoop_spec hstart hr).within
  have hmain := @main_of_firstLoop cl _ r load (two_args hargs) hr
  by_cases hearly : asksHelp cl.args = true ∨ load (image cl) = initrdInvalidFile ∨
      load (image cl) = initrdWrongVersion
  · rw [if_pos hearly] at hmain
    refine ⟨_, hmain, fun e he _ => ?_, nofun⟩
    rw [List.append_nil] at he
    exact hfirst e he
  · rw [if_neg hearly] at hmain
    have hclean : clean cl.args = true := by
      rcases hcond with hhelp | hinvalid | hwrong | hclean
      · exact absurd (.inl hhelp) hearly
      · exact absurd (.inr (.inl hinvalid)) hearly
      · exact absurd (.inr (.inr hwrong)) hearly
      · exact hclean
    have hhelp : asksHelp cl.args = false := eq_false_of_ne_true fun hhelp => hearly (.inl hhelp)
    obtain ⟨events, hevents, hagrees⟩ :=
      secondLoop_agrees hstart hhelp hclean hr (Nat.lt_succ_self _)
    refine ⟨⟨r.events, events⟩, hmain.trans (congrArg _ hevents), fun e he _ => ?_,
      fun e he => (hagrees e he).2⟩
    rcases List.mem_append.mp he with hin | hin
    · exact hfirst e hin
    · exact (hagrees e hin).1

/-- **The loops over the options** of a command line are inside and alike exactly when help is asked
for, when `InitRd::Load` refuses the image, or when the command line is in order. -/
theorem options_inside_iff (cl : CommandLine) (load : String → Word32) :
    (∃ fuel run, main cl load fuel = some run ∧ Inside cl run) ↔
      asksHelp cl.args = true ∨ load (image cl) = initrdInvalidFile ∨
      load (image cl) = initrdWrongVersion ∨ clean cl.args = true := by
  by_cases hargs : cl.args = []
  · have hmain : main cl load 0 = some ⟨[], []⟩ := by
      rw [main, if_pos]
      rw [CommandLine.argc, hargs]
      decide
    refine iff_of_true ⟨0, _, hmain, nofun, nofun⟩ ?_
    rw [hargs]
    exact .inr (.inr (.inr rfl))
  · constructor
    · rintro ⟨fuel, run, hrun, hinside⟩
      by_contra hnot
      obtain ⟨hhelp, hinvalid, hwrong, hclean⟩ := by simpa only [not_or] using hnot
      have hearly : ¬(asksHelp cl.args = true ∨ load (image cl) = initrdInvalidFile ∨
          load (image cl) = initrdWrongVersion) := by
        simp only [not_or]
        exact ⟨hhelp, hinvalid, hwrong⟩
      exact (main_strays hargs hearly (eq_false_of_ne_true hclean) hrun).not_inside hinside
    · intro hcond
      exact ⟨_, main_agrees hargs hcond⟩

/-- `initrd -f` and `initrd -a -f x`: in the one the second loop steps beyond the end of `argv`, in the
other it adds a file `-f`, which is an option to the first loop. -/
theorem options_outside :
    (¬∃ fuel run, main ⟨["-f"], fun _ => "", by decide⟩ (fun _ => 0) fuel = some run ∧
      Inside ⟨["-f"], fun _ => "", by decide⟩ run) ∧
    ¬∃ fuel run,
      main ⟨["-a", "-f", "x"], fun _ => "", by decide⟩ (fun _ => 0) fuel = some run ∧
      Inside ⟨["-a", "-f", "x"], fun _ => "", by decide⟩ run := by
  constructor
  · rintro ⟨fuel, run, hrun, hinside⟩
    exact (main_strays (by simp) (by decide) (by decide) hrun).not_inside hinside
  · rintro ⟨fuel, run, hrun, hinside⟩
    exact (main_strays (by simp) (by decide) (by decide) hrun).not_inside hinside

end Buildrd
end ZineOS
