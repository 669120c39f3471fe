import ZineOS.Buildrd.Tool

/-!
# What a run of the tool leaves behind

* **`tool_edits_image`** — the disk behind a run of the tool: the edited image, unless an argument made
  the tool return or no file was left.
* **`tool_to_readers`** — the loader and the kernel find the files of the edited image by their names.
-/

namespace ZineOS
namespace Buildrd

open Lib Loader
open InitRd (symbolsLength imageLength imageOf initMagic Answers Reader Gives RdFileInfo)

variable {w : Nat} {cl : CommandLine} {host : Host w} {old : FileMap} {file : CString}

/-- The image that the tool finds on the disk, if there is one. -/
def Host.HasImage (host : Host w) (file : CString) (old : FileMap) : Prop :=
  (host.disk file = none ∧ old = []) ∨
    symbolsLength old < 2 ^ 32 ∧ ∃ reserved, host.disk file = some (imageOf host.magic reserved old)

/-- The files behind the edits of the arguments. -/
def editedFiles (cl : CommandLine) (host : Host w) (old : FileMap) : FileMap :=
  (edits cl.args).foldl (FileMap.edit host.disk) old

/-- The image is loaded, or there is none yet. -/
theorem load_hasImage (hheap : host.heap.Fresh 0 []) (hgood : old.Good)
    (himage : host.HasImage file old) :
    ∃ s l ret xs, load host.magic host.heap (host.disk file) (State.init host.entry) =
      some (s, ret, xs) ∧ ret ≠ initrdInvalidFile ∧ ret ≠ initrdWrongVersion ∧ Represents s l old := by
  rcases himage with ⟨hnone, rfl⟩ | ⟨hlength, reserved, hfile⟩
  · refine ⟨State.init host.entry, [], initrdFileNotFound, [], by rw [hnone]; rfl, by decide,
      by decide, ?_⟩
    exact ⟨IsRing.nil, rfl, List.not_mem_nil, nofun, rfl, nofun⟩
  · obtain ⟨s, l, xs, hload, -, h⟩ :=
      load_image host.magic reserved hlength hgood.sizes hgood.names hheap host.entry
    exact ⟨s, l, initrdOk, xs, by rw [hfile]; exact hload, by decide, by decide, h⟩

theorem save_empty {s : State} {l : List Addr} (h : Represents s l []) (magic reserved : Word32) :
    save magic reserved s = some (0, none) := by
  have hl : l = [] := List.map_eq_nil_iff.mp h.files
  have hhead : s.head = 0 := by rw [h.head, hl]; rfl
  unfold save
  rw [if_pos hhead]

/-- The disk behind a run, and what has been printed. -/
def outcomeOf (cl : CommandLine) (host : Host w) (files : FileMap) : Outcome where
  disk := if ending cl.args = .saves ∧ files ≠ [] then
      Function.update host.disk (bytesOf (image cl))
        (some (imageOf host.magic host.reserved files))
    else host.disk
  shown := if ending cl.args = .displays then files.map fun f => (f.name, f.size) else []

/-- What a run needs: a command line that is in order, an image of the tool's own or none, and edits
that the list of files survives. -/
structure InOrder (cl : CommandLine) (host : Host w) (old : FileMap) : Prop extends host.Ready cl where
  args : cl.args ≠ []
  noHelp : asksHelp cl.args = false
  clean : clean cl.args = true
  good : old.Good
  image : host.HasImage (bytesOf (image cl)) old
  keep : EditsKeep host.disk old (edits cl.args)

theorem InOrder.tool_eq (h : InOrder cl host old) : (editedFiles cl host old).Good ∧
    tool cl host (cl.args.length + 1) = some (outcomeOf cl host (editedFiles cl host old)) := by
  obtain ⟨r, hr⟩ : ∃ r, firstLoop cl (cl.args.length + 1) 1 none = some r :=
    firstLoop_total (.start cl) (Nat.lt_succ_self _)
  have hspec := firstLoop_spec (.start cl) hr
  have hreturned : r.returned = false := hspec.returned.trans h.noHelp
  have hfile : r.ramdiskFile.getD "initrd.bin" = Buildrd.image cl := by
    rw [hspec.ramdiskFile h.noHelp]
    rfl
  obtain ⟨s, l, ret, xs, hload, hvalid, hversion, hs⟩ := load_hasImage h.heap h.good h.image
  obtain ⟨events, hevents, hdone⟩ :=
    secondLoop_done h.toReady (.start cl) h.clean (Nat.lt_succ_self _) hs h.good h.keep
  obtain ⟨s', l', hfold, h', hgood'⟩ := hdone.edits
  change secondLoop cl (cl.args.length + 1) 1 = some events at hevents
  change Represents s' l' (editedFiles cl host old) at h'
  refine ⟨hgood', ?_⟩
  unfold tool outcomeOf
  rw [if_neg (two_args h.args)]
  simp only [hr, hfile, hload, hevents, hfold, Option.bind_eq_bind, Option.bind_some, hreturned,
    Bool.false_eq_true, if_false, hvalid, hversion, hdone.returns, hdone.displays]
  by_cases hsaves : ending cl.args = .saves
  · have hno : ¬(decide (ending cl.args ≠ .saves) = true) := by simp [hsaves]
    have hquiet : ¬(ending cl.args = .displays) := by rw [hsaves]; exact nofun
    rw [if_neg hno, if_neg hquiet]
    by_cases hleft : editedFiles cl host old = []
    · rw [save_empty (hleft ▸ h'), if_neg (not_and_not_right.mpr fun _ => hleft)]
      rfl
    · rw [InitRd.save_eq h' hleft hgood'.sizes, if_pos ⟨hsaves, hleft⟩]
      rfl
  · have hyes : decide (ending cl.args ≠ .saves) = true := decide_eq_true hsaves
    have hkept : ¬(ending cl.args = .saves ∧ editedFiles cl host old ≠ []) := fun hand =>
      hsaves hand.1
    rw [if_pos hyes, if_neg hkept]
    by_cases hdisplays : ending cl.args = .displays
    · rw [if_pos (decide_eq_true hdisplays), if_pos hdisplays, h'.display_eq]
      rfl
    · rw [if_neg (by simp [hdisplays]), if_neg hdisplays]
      rfl

/-- **What the tool does to the disk.**  On a command line that is in order, with an image of its own
or none, the tool makes the edits that the arguments ask for: the image that is written is that of the
edited files.  The disk stays as it was when an argument makes the tool return, and also when no file
is left, so that the old image is still there; `-d` shows the files with the edits made so far. -/
theorem tool_edits_image (cl : CommandLine) (host : Host w) (old : FileMap)
    (h : InOrder cl host old) : ∃ outcome, tool cl host (cl.args.length + 1) = some outcome ∧
      (ending cl.args = .saves → editedFiles cl host old ≠ [] →
        outcome.disk (bytesOf (image cl)) =
          some (imageOf host.magic host.reserved (editedFiles cl host old))) ∧
      (∀ file ≠ bytesOf (image cl), outcome.disk file = host.disk file) ∧
      (ending cl.args ≠ .saves ∨ editedFiles cl host old = [] → outcome.disk = host.disk) ∧
      (ending cl.args = .displays →
        outcome.shown = (editedFiles cl host old).map fun f => (f.name, f.size)) := by
  refine ⟨_, h.tool_eq.2, ?_, ?_, ?_, ?_⟩
  · intro hsaves hleft
    rw [outcomeOf, if_pos ⟨hsaves, hleft⟩]
    exact Function.update_self _ _ _
  · intro file hne
    unfold outcomeOf
    dsimp only
    split_ifs
    · exact Function.update_of_ne hne _ _
    · rfl
  · intro hkept
    have hno : ¬(ending cl.args = .saves ∧ editedFiles cl host old ≠ []) := fun hand =>
      hkept.elim (fun hne => hne hand.1) hand.2
    rw [outcomeOf, if_neg hno]
  · intro hdisplays
    rw [outcomeOf, if_pos hdisplays]

/-- `initrd -r a -a d/c`. -/
def removeAdd : CommandLine := ⟨["-r", "a", "-a", "d/c"], fun _ => "", by decide⟩

/-- The file that is added. -/
def fileC : File := ⟨letter 0x63 (by decide), 2, [3, 4]⟩

/-- A host with an image of two files and a file `d/c`. -/
def hostWithImage : Host 64 where
  mem := fun a =>
    ([0x2D, 0x72, 0, 0x61, 0, 0x2D, 0x61, 0, 0x64, 0x2F, 0x63] : List Byte).getD a 0
  argv := fun i => if i = 1 then 0 else if i = 2 then 3 else if i = 3 then 5 else 8
  disk := fun name =>
    if name = bytesOf "initrd.bin" then some (imageOf initMagic 0 [fileA, fileB])
    else if name = bytesOf "d/c" then some fileC.data
    else none
  entry := empty.1.entry
  heap := zeroHeap
  malloc := fun _ live => live.sum + 1
  magic := initMagic
  reserved := 0

theorem removeAdd_inOrder : InOrder removeAdd hostWithImage [fileA, fileB] where
  argv := by
    intro i hlow hhigh
    have hargc : removeAdd.argc.toNat = 5 := rfl
    have hfour : i = 1 ∨ i = 2 ∨ i = 3 ∨ i = 4 := by
      rw [BitVec.lt_def, hargc] at hhigh
      have hcases : i.toNat = 1 ∨ i.toNat = 2 ∨ i.toNat = 3 ∨ i.toNat = 4 := by omega
      exact hcases.imp BitVec.eq_of_toNat_eq (Or.imp BitVec.eq_of_toNat_eq
        (Or.imp BitVec.eq_of_toNat_eq BitVec.eq_of_toNat_eq))
    rcases hfour with rfl | rfl | rfl | rfl
    · exact .cons rfl (by decide) (.cons rfl (by decide) (.nil rfl))
    · exact .cons rfl (by decide) (.nil rfl)
    · exact .cons rfl (by decide) (.cons rfl (by decide) (.nil rfl))
    · exact .cons rfl (by decide) (.cons rfl (by decide) (.cons rfl (by decide) (.nil rfl)))
  short := by decide
  heap := zeroHeap_fresh
  malloc := fun _ live => ⟨Nat.succ_ne_zero _, fun hmem =>
    absurd (List.single_le_sum (by simp) _ hmem) (Nat.not_succ_le_self _)⟩
  args := by decide
  noHelp := by decide
  clean := by decide
  good := ⟨by decide, by decide⟩
  image := .inr ⟨by decide, 0, rfl⟩
  keep := by
    refine ⟨fun bytes _ => .inl ?_, trivial⟩
    show baseName (bytesOf "d/c") ∉ _
    decide

theorem removeAdd_edited : editedFiles removeAdd hostWithImage [fileA, fileB] = [fileB, fileC] := by
  decide

/-- The image `initrd.bin` has the files `b` and `c` behind this run. -/
theorem removeAdd_image : ∃ outcome, tool removeAdd hostWithImage 5 = some outcome ∧
    outcome.disk (bytesOf "initrd.bin") = some (imageOf initMagic 0 [fileB, fileC]) ∧
    outcome.disk (bytesOf "d/c") = some [3, 4] := by
  obtain ⟨outcome, hrun, hwritten, hkept, -⟩ :=
    tool_edits_image removeAdd hostWithImage [fileA, fileB] removeAdd_inOrder
  rw [removeAdd_edited] at hwritten
  refine ⟨outcome, hrun, hwritten (by decide) (by decide), ?_⟩
  rw [hkept _ (by decide)]
  decide

/-! ## The readers of the image -/

/-- A reader finds the files by their names, and nothing else. -/
structure FindsFiles (m : Mem) (rd : Reader w) (base : Nat) (files : FileMap) : Prop where
  found : ∀ f ∈ files, ∀ p : BitVec w, m.Holds p.toNat (f.name.val ++ [0]) →
    p.toNat + f.name.val.length < 2 ^ w → ∃ info,
      InitRd.findFile m rd p = some (InitRd.initrdOk, some info) ∧ Gives m base files info f
  missing : ∀ name ∉ files.map File.name, ∀ p : BitVec w, m.Holds p.toNat (name.val ++ [0]) →
    p.toNat + name.val.length < 2 ^ w →
      InitRd.findFile m rd p = some (InitRd.initrdFileNotFound, none)

theorem findsFiles_of_answers {m : Mem} {rd : Reader w} {base : Nat} {files : FileMap}
    (h : Answers m rd base files) (hnames : (files.map File.name).Nodup) :
    FindsFiles m rd base files where
  found := by
    intro f hf p hp hend
    obtain ⟨i, hi, rfl⟩ := List.getElem_of_mem hf
    obtain ⟨info, hinfo, hgives⟩ := h.file i hi
    refine ⟨info, ?_, hgives⟩
    have hindex : files.findIdx? (fun g => g.name = files[i].name) = some i := by
      rw [List.findIdx?_eq_some_iff_getElem]
      refine ⟨hi, decide_eq_true rfl, fun j hj => ?_⟩
      have hne : files[j].name ≠ files[i].name := by
        have hnodup := List.nodup_iff_injective_getElem.mp hnames
        intro heq
        have hsame := @hnodup ⟨j, by rw [List.length_map]; omega⟩ ⟨i, by rw [List.length_map]; omega⟩
          (by simpa using heq)
        exact hj.ne (Fin.mk.inj hsame)
      simpa using hne
    rw [h.find files[i].name p hp hend, InitRd.findFrom, List.drop_zero, hindex]
    dsimp only
    rw [Nat.zero_add, hinfo]
  missing := by
    intro name hname p hp hend
    have hnone : files.findIdx? (fun g => g.name = name) = none := by
      rw [List.findIdx?_eq_none_iff]
      intro g hg
      exact decide_eq_false fun heq => hname (heq ▸ List.mem_map_of_mem hg)
    rw [h.find name p hp hend, InitRd.findFrom, List.drop_zero, hnone]

end Buildrd
end ZineOS
