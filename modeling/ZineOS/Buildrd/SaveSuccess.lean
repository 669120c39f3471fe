import ZineOS.Buildrd.SaveLoad
import ZineOS.Lib.Transition

/-!
# What a successful `Save` means

A run of the tool loads an image, removes files and saves.  `Save` returns 0 for an empty list, which
is `INITRD_OK`, and leaves the file alone: the files that were removed last are still in it.

* `session` is the run up to `Save`; `Holds` says that loading a file gives a list.
* `holds_nil_iff` — which old contents of the file an empty list may leave there.
* **`save_success_holds`** — when the file holds the list after a `Save` that reports success.
-/

namespace ZineOS
namespace Buildrd

open Lib Loader
open InitRd (symbolsLength imageOf initMagic)

variable {magic : Word32} {heap : Heap} {bytes : List Byte} {s s' : State} {l : List Addr}
  {fs : List File} {n i pos : Nat} {xs : List Added}

/-! ## What is loaded -/

/-- A file is as long as its entry says. -/
def SizesOk (fs : List File) : Prop := ∀ f ∈ fs, f.data.length = f.size.toNat

instance (fs : List File) : Decidable (SizesOk fs) := inferInstanceAs (Decidable (∀ f ∈ fs, _))

theorem nextFile_size {x : Added} (h : nextFile heap bytes i pos = some x) :
    x.file.data.length = x.file.size.toNat := by
  obtain ⟨-, -, -, hdata, hsize⟩ := nextFile_eq_some h
  simp [Added.file, hdata, hsize, Block.cells]

theorem filesFrom_sizes (h : filesFrom heap bytes n i pos = some xs) :
    SizesOk (xs.map Added.file) := by
  induction n generalizing i pos xs with
  | zero =>
      cases h
      exact fun f hf => absurd hf List.not_mem_nil
  | succ n ih =>
      rw [filesFrom] at h
      cases hx : nextFile heap bytes i pos with
      | none =>
          rw [hx] at h
          cases h
      | some x =>
          rw [hx] at h
          obtain ⟨ys, hys, rfl⟩ := Option.map_eq_some_iff.mp h
          exact List.forall_mem_cons.mpr ⟨nextFile_size hx, ih hys⟩

theorem SizesOk.add {m : FileMap} (hm : SizesOk m) {f : File} (hf : f.data.length = f.size.toNat) :
    SizesOk (m.add f) := by
  intro g hg
  unfold FileMap.add at hg
  split_ifs at hg
  · -- the file takes the place of the old one
    obtain ⟨g', hg', rfl⟩ := List.mem_map.mp hg
    split_ifs
    · exact hf
    · exact hm g' hg'
  · rcases List.mem_append.mp hg with hold | hnew
    · exact hm g hold
    · exact List.mem_singleton.mp hnew ▸ hf

theorem SizesOk.addAll {m : FileMap} (hm : SizesOk m) (hfs : SizesOk fs) :
    SizesOk (fs.foldl FileMap.add m) := by
  induction fs generalizing m with
  | nil => exact hm
  | cons f fs ih =>
      obtain ⟨hf, hrest⟩ := List.forall_mem_cons.mp hfs
      exact ih (hm.add hf) hrest

/-- What the files that are loaded must be for the list to be theirs: each name is new or finds at
most one file, and its length fits the field. -/
def Addable (xs : List Added) : Prop :=
  NewOrOnly [] (xs.map Added.file) ∧ ∀ x ∈ xs, x.cname.val.length + 1 < 2 ^ 32

/-- The list in memory: a ring of files, each of its own name and as long as its entry says. -/
def Listed (s : State) (l : List Addr) (fs : List File) : Prop :=
  Represents s l fs ∧ (fs.map File.name).Nodup ∧ SizesOk fs

theorem init_represents (entry : Addr → RdListEntry) : Represents (State.init entry) [] [] :=
  ⟨IsRing.nil, rfl, List.not_mem_nil, nofun, rfl, nofun⟩

theorem listed_of_load {file : Option (List Byte)} {entry : Addr → RdListEntry}
    (hheap : heap.Fresh 0 []) (h : load magic heap file (State.init entry) = some (s, initrdOk, xs))
    (hxs : Addable xs) : ∃ l fs, Listed s l fs := by
  obtain ⟨bytes, rfl, -, -, hread, hadd⟩ := load_ok h
  obtain ⟨s', l, hadd', hs, hnodup⟩ :=
    (init_represents entry).addAll List.nodup_nil hheap hxs.1 hxs.2
  rw [hadd] at hadd'
  cases hadd'
  have hnil : SizesOk [] := fun f hf => absurd hf List.not_mem_nil
  exact ⟨l, _, hs, hnodup, hnil.addAll (filesFrom_sizes hread)⟩

theorem Listed.remove (h : Listed s l fs) {name : CString} {r : Word32}
    (hremove : Buildrd.remove s name = some (s', r)) : ∃ l' fs', Listed s' l' fs' := by
  obtain ⟨hs, hnames, hsizes⟩ := h
  obtain ⟨t, r', l', ht, h'⟩ := hs.remove hnames name
  rw [hremove] at ht
  cases ht
  exact ⟨l', _, h', FileMap.nodup_remove hnames name,
    fun f hf => hsizes f (List.mem_of_mem_filter hf)⟩

/-! ## Runs -/

/-- `Load` of any file into an empty list, where what it adds meets `P`, and any calls of `Remove`. -/
def session (magic : Word32) (P : List Added → Prop) : System State CString where
  init := fun s => ∃ heap file entry xs, Heap.Fresh heap 0 [] ∧
    load magic heap file (State.init entry) = some (s, initrdOk, xs) ∧ P xs
  step := fun s name s' => ∃ r, remove s name = some (s', r)

theorem session_listed (h : (session magic Addable).Reachable s) : ∃ l fs, Listed s l fs := by
  refine h.invariant (I := fun s => ∃ l fs, Listed s l fs) ?_ ?_
  · rintro s ⟨heap, file, entry, xs, hheap, hload, hxs⟩
    exact listed_of_load hheap hload hxs
  · rintro s name s' - ⟨l, fs, hs⟩ ⟨r, hremove⟩
    exact hs.remove hremove

/-! ## What the file holds -/

/-- Loading the file into an empty list returns `INITRD_OK` and gives the files `fs`. -/
def Holds (magic : Word32) (file : Option (List Byte)) (fs : List File) : Prop :=
  ∀ heap entry, Heap.Fresh heap 0 [] → ∃ s l xs,
    load magic heap file (State.init entry) = some (s, initrdOk, xs) ∧ Represents s l fs

/-- If `Save` to a file with the contents `old` reports success, the file then holds `fs`. -/
def SaveHolds (magic : Word32) (s : State) (old : Option (List Byte)) (fs : List File) : Prop :=
  ∀ reserved written, save magic reserved s = some (initrdOk, written) →
    Holds magic (written.or old) fs

/-- A file that begins with the magic value, the version and an `entry_count` of 0. -/
def EmptyImage (magic : Word32) (file : Option (List Byte)) : Prop :=
  ∃ bytes, file = some bytes ∧ 16 ≤ bytes.length ∧
    BitVec.ofNat 32 ((fileMem bytes).load 0 4) = magic ∧
    BitVec.ofNat 32 ((fileMem bytes).load 4 4) = initrdVersion ∧
    BitVec.ofNat 32 ((fileMem bytes).load 12 4) = 0

/-- The fields that a file of 16 bytes has. -/
theorem headerOf_fields (h : 16 ≤ bytes.length) :
    (headerOf heap bytes).magic = BitVec.ofNat 32 ((fileMem bytes).load 0 4) ∧
      (headerOf heap bytes).version = BitVec.ofNat 32 ((fileMem bytes).load 4 4) ∧
      (headerOf heap bytes).entryCount = BitVec.ofNat 32 ((fileMem bytes).load 12 4) := by
  unfold headerOf RdHeader.read
  simp only
  rw [word32_fread (by omega) (by omega), word32_fread (by omega) (by omega),
    word32_fread (by omega) (by omega)]
  exact ⟨rfl, rfl, rfl⟩

/-- Once a file has been added the list is not empty. -/
theorem addFromMemory_head {name : CString} {data : List Byte} {size r : Word32} {new : Addr}
    (hnew : new ≠ 0) (h : addFromMemory s name data size new = some (s', r)) : s'.head ≠ 0 := by
  have hlink : ∀ (t : State) (a : Addr), (t.head = 0 → a ≠ 0) → (link t a).head ≠ 0 := by
    intro t a ha
    by_cases hhead : t.head = 0
    · unfold link
      rw [if_pos hhead]
      exact ha hhead
    · rw [link_of_ne hhead]
      exact hhead
  unfold addFromMemory at h
  split at h
  · cases h
  · rename_i old hfind
    cases h
    refine hlink _ _ fun hhead => ?_
    unfold find at hfind
    rw [if_pos hhead] at hfind
    cases hfind
  · cases h
    exact hlink _ _ fun _ => hnew

theorem addAll_head (hheap : heap.Fresh i s.live) (hne : s.head ≠ 0 ∨ xs ≠ [])
    (h : addAll heap i s xs = some s') : s'.head ≠ 0 := by
  induction xs generalizing i s with
  | nil =>
      cases h
      exact hne.resolve_right (not_not_intro rfl)
  | cons x xs ih =>
      rw [addAll] at h
      split at h
      · cases h
      · rename_i t r hadd
        exact ih (hheap.next hadd) (Or.inl (addFromMemory_head (hheap.nonzero i le_rfl) hadd)) h

theorem length_filesFrom (h : filesFrom heap bytes n i pos = some xs) : xs.length = n := by
  induction n generalizing i pos xs with
  | zero =>
      cases h
      rfl
  | succ n ih =>
      rw [filesFrom] at h
      split at h
      · cases h
      · obtain ⟨ys, hys, rfl⟩ := Option.map_eq_some_iff.mp h
        rw [List.length_cons, ih hys]

/-- Loading gives an empty list only when the header says so, whatever the rest of the header is. -/
theorem entryCount_of_holds_nil (hheap : heap.Fresh 0 []) (h : Holds magic (some bytes) []) :
    (headerOf heap bytes).magic = magic ∧ (headerOf heap bytes).version = initrdVersion ∧
      (headerOf heap bytes).entryCount = 0 := by
  obtain ⟨s, l, xs, hload, hs⟩ := h heap empty.1.entry hheap
  obtain ⟨bytes', heq, hmagic, hversion, hread, hadd⟩ := load_ok hload
  cases heq
  obtain rfl : l = [] := List.map_eq_nil_iff.mp hs.files
  have hnil : xs = [] := by
    by_contra hne
    exact addAll_head hheap (Or.inr hne) hadd hs.head
  have hzero := length_filesFrom hread
  rw [hnil] at hzero
  exact ⟨hmagic, hversion, BitVec.eq_of_toNat_eq hzero.symm⟩

/-- `m_header` may hold a nonzero `entry_count` where the file has none. -/
def countHeap : Heap := { zeroHeap with header := fun k => if k = 15 then 1 else 0 }

/-- A file that ends before its `entry_count` leaves the old one there. -/
theorem entryCount_of_short (h : bytes.length < 16) :
    (headerOf countHeap bytes).entryCount ≠ 0 := by
  have hlast : (fread bytes 0 20 (junk countHeap.header)).mem 15 = 1 := by
    unfold Block.mem
    rw [fread_of_not (by omega)]
    rfl
  intro hzero
  change BitVec.ofNat 32 ((fread bytes 0 20 (junk countHeap.header)).mem.load 12 4) = 0 at hzero
  have hnat := congrArg BitVec.toNat hzero
  rw [BitVec.toNat_ofNat] at hnat
  simp only [Mem.load, Nat.reduceAdd, hlast] at hnat
  have h12 := ((fread bytes 0 20 (junk countHeap.header)).mem 12).isLt
  have h13 := ((fread bytes 0 20 (junk countHeap.header)).mem 13).isLt
  have h14 := ((fread bytes 0 20 (junk countHeap.header)).mem 14).isLt
  simp at hnat
  omega

/-- **Which files hold the empty list.** -/
theorem holds_nil_iff (file : Option (List Byte)) : Holds magic file [] ↔ EmptyImage magic file := by
  constructor
  · intro h
    cases file with
    | none =>
        obtain ⟨s, l, xs, hload, -⟩ := h zeroHeap empty.1.entry zeroHeap_fresh
        exact absurd hload (by simp [load, initrdOk, initrdFileNotFound])
    | some bytes =>
        have hlong : 16 ≤ bytes.length := by
          by_contra hshort
          have hfresh : countHeap.Fresh 0 [] :=
            ⟨zeroHeap_fresh.nonzero, zeroHeap_fresh.unused, zeroHeap_fresh.distinct⟩
          exact entryCount_of_short (by omega) (entryCount_of_holds_nil hfresh h).2.2
        obtain ⟨hmagic, hversion, hcount⟩ := entryCount_of_holds_nil zeroHeap_fresh h
        obtain ⟨hmagic', hversion', hcount'⟩ := @headerOf_fields zeroHeap bytes hlong
        exact ⟨bytes, rfl, hlong, hmagic' ▸ hmagic, hversion' ▸ hversion, hcount' ▸ hcount⟩
  · rintro ⟨bytes, rfl, hlong, hmagic, hversion, hcount⟩ heap entry -
    obtain ⟨hmagic', hversion', hcount'⟩ := @headerOf_fields heap bytes hlong
    refine ⟨State.init entry, [], [], ?_, init_represents entry⟩
    rw [load_of_accepted (hmagic'.trans hmagic) (hversion'.trans hversion), hcount', hcount]
    rfl

/-- `Save` of an empty list reports success and writes nothing. -/
theorem save_nil (h : Represents s l []) (magic reserved : Word32) :
    save magic reserved s = some (initrdOk, none) := by
  obtain rfl : l = [] := List.map_eq_nil_iff.mp h.files
  unfold save
  rw [if_pos (show s.head = 0 from h.head)]
  rfl

/-- **When `Save` may report success.**  In every run whose files can be added, the list in memory is
a list of files.  A list that is not empty is in the file after a successful `Save` when its symbol
table is shorter than 2^32 bytes; an empty one exactly when the file was an empty image before. -/
theorem save_success_holds (h : (session magic Addable).Reachable s) :
    ∃ l fs, Represents s l fs ∧
      (fs ≠ [] → symbolsLength fs < 2 ^ 32 → ∀ old, SaveHolds magic s old fs) ∧
      (fs = [] → ∀ old, SaveHolds magic s old fs ↔ EmptyImage magic old) := by
  obtain ⟨l, fs, hs, hnames, hsizes⟩ := session_listed h
  refine ⟨l, fs, hs, fun hne hS old reserved written hsave => ?_, ?_⟩
  · rw [InitRd.save_eq hs hne hsizes] at hsave
    cases hsave
    intro heap entry hheap
    obtain ⟨s', l', xs, hload, -, h'⟩ := load_image magic reserved hS hsizes hnames hheap entry
    exact ⟨s', l', xs, hload, h'⟩
  · rintro rfl old
    have hsave := save_nil hs magic
    constructor
    · exact fun hholds => (holds_nil_iff old).mp (hholds 0 none (hsave 0))
    · intro hempty reserved written hwritten
      rw [hsave] at hwritten
      cases hwritten
      exact (holds_nil_iff old).mpr hempty

/-- The run that loads an image. -/
theorem image_session {P : List Added → Prop} (hS : symbolsLength fs < 2 ^ 32) (hsizes : SizesOk fs)
    (hnames : (fs.map File.name).Nodup) (hP : ∀ xs, xs.map Added.file = fs → P xs) :
    ∃ s l, (session initMagic P).Reachable s ∧ Represents s l fs := by
  obtain ⟨s, l, xs, hload, hfiles, hs⟩ :=
    load_image initMagic 0 hS hsizes hnames zeroHeap_fresh empty.1.entry
  exact ⟨s, l, .init ⟨zeroHeap, _, _, xs, zeroHeap_fresh, hload, hP xs hfiles⟩, hs⟩

/-- Two files are loaded and the first is removed; the other one is saved. -/
theorem lastFile_saved : ∃ s l, Represents s l [fileB] ∧
    ∀ old, SaveHolds initMagic s old [fileB] := by
  have haddable : ∀ xs, xs.map Added.file = [fileA, fileB] → Addable xs := by
    intro xs hxs
    refine ⟨hxs ▸ (@newOrOnly_of_nodup [] [fileA, fileB] (by decide)).1, fun x hx => ?_⟩
    have hfile : x.file ∈ [fileA, fileB] := hxs ▸ List.mem_map_of_mem hx
    exact name_lt (by decide) hfile
  obtain ⟨s, l, hreach, hs⟩ := image_session (by decide) (by decide) (by decide) haddable
  obtain ⟨s', r, l', hremove, hs'⟩ := hs.remove (by decide) nameA
  obtain ⟨l'', fs, hfs, hsaved, -⟩ := save_success_holds (hreach.step (a := nameA) ⟨r, hremove⟩)
  obtain ⟨-, rfl⟩ := hs'.unique hfs
  have hleft : FileMap.remove [fileA, fileB] nameA = [fileB] := by decide
  rw [hleft] at hs' hsaved
  exact ⟨s', l', hs', hsaved (by decide) (by decide)⟩

/-- The only file is loaded and removed.  `Save` reports success and the file still has it. -/
theorem emptied_list_not_saved : ∃ s l, (session initMagic fun _ => True).Reachable s ∧
    Represents s l [] ∧ save initMagic 0 s = some (initrdOk, none) ∧
    ¬ SaveHolds initMagic s (some (imageOf initMagic 0 [fileA])) [] := by
  obtain ⟨s, l, hreach, hs⟩ := @image_session [fileA] (fun _ => True) (by decide) (by decide)
    (by decide) fun _ _ => trivial
  obtain ⟨s', r, l', hremove, hs'⟩ := hs.remove (by decide) nameA
  have hempty : FileMap.remove [fileA] nameA = [] := by decide
  rw [hempty] at hs'
  have hsave := save_nil hs' initMagic
  refine ⟨s', l', .step (a := nameA) hreach ⟨r, hremove⟩, hs', hsave 0, fun hholds => ?_⟩
  -- the header still counts one entry
  have hcount := (entryCount_of_holds_nil zeroHeap_fresh (hholds 0 none (hsave 0))).2.2
  rw [headerOf_image] at hcount
  exact absurd hcount (by decide)

end Buildrd
end ZineOS
