import ZineOS.Lib.Strings
import ZineOS.Buildrd.FileMap

/-!
# Adding a file by its path

`AddReplace` reads a file of the host and keeps it under the last part of its path.  `FindLast` counts
in `uint32_t` and returns -1 when there is no `/`; with the 1 that is added it is 0, in 32 bits and
therefore before it is added to a pointer of the host, which may have more.

The path lies in the memory of the host, whose pointers have `w` bits.

* **`findLast_add_one`** — the index is where the last part of the path begins.
* **`addReplace_baseName`** — the name that a file gets.
* `Represents.addReplace` — what that does to the map of files.
-/

namespace ZineOS
namespace Buildrd

open Lib Loader

/-- `'/'`. -/
def slash : Byte := 0x2F

section

variable {w : Nat} (m : Mem)

/-- The body of the loop of `FindLast`, with `loc` and `ctr`. -/
def seeChar (val : Byte) (x : Word32 × Word32) (c : Byte) : Word32 × Word32 :=
  (if c = val then x.2 else x.1, x.2 + 1)

/-- `FindLast`. -/
def findLast (var : BitVec w) (val : Byte) : Option Word32 :=
  (m.whileChars (seeChar val) (-1, 0) var).map Prod.fst

/-- The string a pointer of the host points to. -/
def readString (p : BitVec w) : Option CString :=
  (m.string p).pmap (fun s hs => (⟨s, hs⟩ : CString))
    fun _ hs => (Mem.string_eq_some_iff.mp hs).noNul

/-- `save_name` of `AddReplace`. -/
def saveName (fileName : BitVec w) : Option CString := do
  let loc ← findLast m fileName slash
  readString m (fileName + (loc + 1).setWidth w)

/-- `AddReplace`.  `disk` has the bytes of the files that can be opened, and `new` is for
`AddFromMemory`. -/
def addReplace (disk : CString → Option (List Byte)) (s : State) (fileName : BitVec w) (new : Addr) :
    Option (State × Word32) := do
  match disk (← readString m fileName) with
  | none => some (s, initrdFileNotFound)
  | some bytes =>
      let size := BitVec.ofNat 32 bytes.length
      addFromMemory s (← saveName m fileName) (bytes.take size.toNat) size new

end

section

variable {w : Nat} {m : Mem} {p fileName : BitVec w} {path s : List Byte} {val : Byte}

theorem readString_eq (h : m.StringAt p s) : readString m p = some ⟨s, h.noNul⟩ := by
  unfold readString
  simp [h.string_eq]

/-- Behind the bytes of `s`, `loc + 1` is where its last part begins; with no `/` yet that is 0. -/
theorem foldl_seeChar (val : Byte) (s : List Byte) :
    (s.foldl (seeChar val) (-1, 0)).1 + 1 = BitVec.ofNat 32 (s.rdropWhile (· ≠ val)).length ∧
      (s.foldl (seeChar val) (-1, 0)).2 = BitVec.ofNat 32 s.length := by
  induction s using List.reverseRecOn with
  | nil =>
      have hwrap : (-1 : Word32) + 1 = 0 := by decide
      rw [List.rdropWhile_nil]
      exact ⟨hwrap, rfl⟩
  | append_singleton s c ih =>
      obtain ⟨hloc, hctr⟩ := ih
      rw [List.foldl_concat, seeChar, hctr, List.length_append, List.length_singleton,
        BitVec.ofNat_add]
      refine ⟨?_, rfl⟩
      by_cases hc : c = val
      · rw [List.rdropWhile_concat_neg _ _ _ (by simp [hc]), if_pos hc, List.length_append,
          List.length_singleton, BitVec.ofNat_add]
        rfl
      · rw [List.rdropWhile_concat_pos _ _ _ (by simp [hc]), if_neg hc]
        exact hloc

/-- **`FindLast`** ends, and one behind the result the last part of the string begins. -/
theorem findLast_add_one (h : m.StringAt p s) : ∃ loc, findLast m p val = some loc ∧
    loc + 1 = BitVec.ofNat 32 (s.rdropWhile (· ≠ val)).length := by
  refine ⟨_, ?_, (foldl_seeChar val s).1⟩
  rw [findLast, h.whileChars_eq]
  rfl

/-- The last part of a path. -/
def baseName (path : CString) : CString :=
  ⟨path.val.rtakeWhile (· ≠ slash),
    fun hmem => path.property ((List.rtakeWhile_suffix _ _).mem hmem)⟩

/-- The index has not wrapped, so that it is the same as a pointer offset of any width. -/
theorem saveName_eq (h : m.StringAt fileName path) (hshort : path.length < 2 ^ 32) :
    saveName m fileName = some (baseName ⟨path, h.noNul⟩) := by
  obtain ⟨loc, hloc, hindex⟩ := @findLast_add_one w m fileName path slash h
  have hle : (path.rdropWhile (· ≠ slash)).length ≤ path.length :=
    (List.rdropWhile_prefix _ _).length_le
  have hoffset : (loc + 1).setWidth w =
      BitVec.ofNat w (path.rdropWhile (· ≠ slash)).length := by
    apply BitVec.eq_of_toNat_eq
    rw [hindex, BitVec.toNat_setWidth, BitVec.toNat_ofNat, BitVec.toNat_ofNat,
      Nat.mod_eq_of_lt (hle.trans_lt hshort)]
  have hsplit : path.rdropWhile (· ≠ slash) ++ path.rtakeWhile (· ≠ slash) = path :=
    List.rdropWhile_append_rtakeWhile
  have hbehind : m.StringAt (fileName + (loc + 1).setWidth w) (path.rtakeWhile (· ≠ slash)) := by
    rw [hoffset]
    rw [← hsplit] at h
    exact h.behind
  rw [saveName, hloc]
  exact readString_eq hbehind

theorem addReplace_of_path (disk : CString → Option (List Byte)) (st : State) (new : Addr)
    (h : m.StringAt fileName path) : addReplace m disk st fileName new =
      match disk ⟨path, h.noNul⟩ with
      | none => some (st, initrdFileNotFound)
      | some bytes => (saveName m fileName).bind fun name =>
          addFromMemory st name (bytes.take (BitVec.ofNat 32 bytes.length).toNat)
            (BitVec.ofNat 32 bytes.length) new := by
  rw [addReplace, readString_eq h]
  rfl

theorem addReplace_eq {disk : CString → Option (List Byte)} {st : State} {new : Addr}
    {bytes : List Byte} (h : m.StringAt fileName path) (hshort : path.length < 2 ^ 32)
    (hopen : disk ⟨path, h.noNul⟩ = some bytes) :
    addReplace m disk st fileName new =
      addFromMemory st (baseName ⟨path, h.noNul⟩)
        (bytes.take (BitVec.ofNat 32 bytes.length).toNat) (BitVec.ofNat 32 bytes.length) new := by
  rw [addReplace_of_path disk st new h, hopen]
  dsimp only
  rw [saveName_eq h hshort, Option.bind_some]

/-- A path that cannot be opened changes nothing. -/
theorem addReplace_not_found {disk : CString → Option (List Byte)} {st : State} {new : Addr}
    (h : m.StringAt fileName path) (hopen : disk ⟨path, h.noNul⟩ = none) :
    addReplace m disk st fileName new = some (st, initrdFileNotFound) := by
  rw [addReplace_of_path disk st new h, hopen]

/-- **A file added by its path** is added to the map under the last part of the path, in the place of
one that has that part already. -/
theorem Represents.addReplace {disk : CString → Option (List Byte)} {st : State} {l : List Addr}
    {files : FileMap} {new : Addr} {bytes : List Byte} (hst : Represents st l files)
    (hfiles : (files.map File.name).Nodup) (h : m.StringAt fileName path)
    (hshort : path.length + 1 < 2 ^ 32) (hopen : disk ⟨path, h.noNul⟩ = some bytes)
    (hnew : new ≠ 0 ∧ new ∉ st.live)
    (hkeeps : find st (baseName ⟨path, h.noNul⟩) = some none ∨ st.next st.head = st.head) :
    ∃ st' r l', Buildrd.addReplace m disk st fileName new = some (st', r) ∧
      Represents st' l' (files.add ⟨baseName ⟨path, h.noNul⟩, BitVec.ofNat 32 bytes.length,
        bytes.take (BitVec.ofNat 32 bytes.length).toNat⟩) := by
  have hle : (baseName ⟨path, h.noNul⟩).val.length ≤ path.length :=
    (List.rtakeWhile_suffix _ _).length_le
  let call : Call := .addFromMemory (baseName ⟨path, h.noNul⟩)
    (bytes.take (BitVec.ofNat 32 bytes.length).toNat) (BitVec.ofNat 32 bytes.length) new
  have hcall : Allowed st call := ⟨hnew.1, hnew.2, by omega⟩
  obtain ⟨st', r, l', hexec, h', -⟩ := hst.exec hfiles hcall hkeeps
  exact ⟨st', r, l', (addReplace_eq h (by omega) hopen).trans hexec, h'⟩

/-- **Stored names are base names**: what `AddReplace` hands to `AddFromMemory` as the name is the
longest part at the end of the path without a `/`. -/
theorem addReplace_baseName (hpath : m.StringAt fileName path) (hshort : path.length < 2 ^ 32) :
    ∃ name : CString, saveName m fileName = some name ∧ BehindLast slash path name.val ∧
      ∀ disk st new bytes, disk ⟨path, hpath.noNul⟩ = some bytes →
        addReplace m disk st fileName new =
          addFromMemory st name (bytes.take (BitVec.ofNat 32 bytes.length).toNat)
            (BitVec.ofNat 32 bytes.length) new :=
  ⟨baseName ⟨path, hpath.noNul⟩, saveName_eq hpath hshort, behindLast_rtakeWhile slash path,
    fun _ _ _ _ hopen => addReplace_eq hpath hshort hopen⟩

/-- The path `a/b` at address 0. -/
def twoParts : Mem := fun a => ([0x61, 0x2F, 0x62] : List Byte).getD a 0

theorem twoParts_stringAt : twoParts.StringAt (0 : BitVec 64) [0x61, 0x2F, 0x62] :=
  .cons rfl (by decide) (.cons rfl (by decide) (.cons rfl (by decide) (.nil rfl)))

theorem twoParts_baseName :
    ∃ name : CString, saveName twoParts (0 : BitVec 64) = some name ∧
      BehindLast slash [0x61, 0x2F, 0x62] name.val ∧
      ∀ disk st new bytes, disk ⟨[0x61, 0x2F, 0x62], twoParts_stringAt.noNul⟩ = some bytes →
        addReplace twoParts disk st (0 : BitVec 64) new =
          addFromMemory st name (bytes.take (BitVec.ofNat 32 bytes.length).toNat)
            (BitVec.ofNat 32 bytes.length) new :=
  addReplace_baseName twoParts_stringAt (by decide)

-- No `/` at all, and one at the end.
example : findLast (fun a => ([0x61, 0x62] : List Byte).getD a 0) (0 : BitVec 64) slash =
    some 0xFFFFFFFF := by decide +kernel
example : (saveName (fun a => ([0x61, 0x2F] : List Byte).getD a 0) (0 : BitVec 64)).map
    Subtype.val = some [] := by decide +kernel

end

end Buildrd
end ZineOS
