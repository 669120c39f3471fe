import ZineOS.Buildrd.InitRd
import ZineOS.Lib.Transition

/-!
# The builder's list as an ordered map of files

`FileMap` is what the list is for: files in the order in which their names were first added.
`Represents` relates it to the ring in the heap.  `remove` always follows the map.
`addFromMemory` does when the name is new or the list has a single entry: it puts a replaced entry
into the list a second time without taking it out first.
-/

namespace ZineOS
namespace Buildrd

open Lib Loader

structure File where
  name : CString
  size : Word32
  data : List Byte
  deriving DecidableEq

/-- Files in order, one for each name. -/
abbrev FileMap := List File

namespace FileMap

def add (m : FileMap) (f : File) : FileMap :=
  if f.name ∈ m.map File.name then m.map fun g => if g.name = f.name then f else g
  else m ++ [f]

def remove (m : FileMap) (name : CString) : FileMap := m.filter fun g => g.name ≠ name

end FileMap

/-- The file of an entry. -/
def State.file (s : State) (a : Addr) : File :=
  ⟨(s.entry a).name, (s.entry a).fileSize, (s.entry a).data⟩

/-- The ring of entries `l`, entered at `m_list_head`, holds the files `m`. -/
structure Represents (s : State) (l : List Addr) (m : List File) : Prop where
  ring : IsRing s.next s.prev l
  head : s.head = l.headD 0
  nonzero : 0 ∉ l
  live : ∀ a ∈ l, a ∈ s.live
  files : l.map s.file = m
  nameLength : ∀ a ∈ l, (s.entry a).nameLength.toNat = (s.entry a).name.val.length + 1

/-! ## The stores -/

variable {s s' : State} {l k : List Addr} {m : List File} {a e v x : Addr} {name : CString}

@[simp] theorem setNext_next : (s.setNext a v).next x = if x = a then v else s.next x := by
  unfold State.setNext State.next
  by_cases hx : x = a
  · subst hx
    simp
  · simp [hx]

@[simp] theorem setNext_prev : (s.setNext a v).prev x = s.prev x := by
  unfold State.setNext State.prev
  by_cases hx : x = a
  · subst hx
    simp
  · simp [hx]

@[simp] theorem setPrev_prev : (s.setPrev a v).prev x = if x = a then v else s.prev x := by
  unfold State.setPrev State.prev
  by_cases hx : x = a
  · subst hx
    simp
  · simp [hx]

@[simp] theorem setPrev_next : (s.setPrev a v).next x = s.next x := by
  unfold State.setPrev State.next
  by_cases hx : x = a
  · subst hx
    simp
  · simp [hx]

@[simp] theorem setNext_head : (s.setNext a v).head = s.head := rfl
@[simp] theorem setPrev_head : (s.setPrev a v).head = s.head := rfl

/-- Two states whose entries differ in their links only. -/
structure SameFiles (s s' : State) : Prop where
  file : ∀ a, s'.file a = s.file a
  nameLength : ∀ a, (s'.entry a).nameLength = (s.entry a).nameLength
  live : s'.live = s.live

theorem SameFiles.trans {u : State} (h : SameFiles s s') (h' : SameFiles s' u) : SameFiles s u :=
  ⟨fun a => (h'.file a).trans (h.file a), fun a => (h'.nameLength a).trans (h.nameLength a),
    h'.live.trans h.live⟩

theorem sameFiles_update {entry : RdListEntry} (hname : entry.name = (s.entry a).name)
    (hdata : entry.data = (s.entry a).data) (hsize : entry.fileSize = (s.entry a).fileSize)
    (hlen : entry.nameLength = (s.entry a).nameLength) :
    SameFiles s { s with entry := Function.update s.entry a entry } where
  file := by
    intro x
    unfold State.file
    by_cases hx : x = a
    · subst hx
      simp only [Function.update_self, hname, hdata, hsize]
    · simp only [Function.update_of_ne hx]
  nameLength := by
    intro x
    by_cases hx : x = a
    · subst hx
      simp only [Function.update_self, hlen]
    · simp only [Function.update_of_ne hx]
  live := rfl

theorem sameFiles_setNext : SameFiles s (s.setNext a v) := sameFiles_update rfl rfl rfl rfl

theorem sameFiles_setPrev : SameFiles s (s.setPrev a v) := sameFiles_update rfl rfl rfl rfl

/-! ## Finding -/

theorem Represents.head_cons {t : List Addr} (h : Represents s (a :: t) m) : s.head = a := h.head

theorem Represents.head_ne_zero {t : List Addr} (h : Represents s (a :: t) m) : s.head ≠ 0 := by
  rw [h.head_cons]
  rintro rfl
  exact h.nonzero List.mem_cons_self

/-- What is in memory is one list of files. -/
theorem Represents.unique {l' : List Addr} {m' : List File} (h : Represents s l m)
    (h' : Represents s l' m') : l = l' ∧ m = m' := by
  have hlist : l = l' := by
    cases l with
    | nil =>
        cases l' with
        | nil => rfl
        | cons a' t' => exact absurd h.head h'.head_ne_zero
    | cons a t =>
        cases l' with
        | nil => exact absurd h'.head h.head_ne_zero
        | cons a' t' =>
            obtain rfl : a = a' := h.head_cons.symm.trans h'.head_cons
            rw [h.ring.path.unique h'.ring.path]
  exact ⟨hlist, by rw [← h.files, ← h'.files, hlist]⟩

/-- `Find` returns, with the first entry of that name. -/
theorem Represents.find_eq (h : Represents s l m) (name : CString) :
    find s name = some (l.find? fun e => name = (s.entry e).name) := by
  unfold find
  cases l with
  | nil =>
      rw [if_pos (show s.head = 0 from h.head)]
      rfl
  | cons a t =>
      have hlen : (a :: t).length ≤ s.live.length := (h.ring.nodup.subperm h.live).length_le
      rw [if_neg h.head_ne_zero, h.head_cons]
      exact h.ring.search_eq (Nat.lt_of_succ_le hlen)

theorem Represents.find_eq_none (h : Represents s l m) (hname : name ∉ m.map File.name) :
    find s name = some none := by
  rw [h.find_eq, List.find?_eq_none.mpr]
  intro e he hfound
  apply hname
  rw [← h.files, List.map_map]
  exact List.mem_map.mpr ⟨e, he, (of_decide_eq_true hfound).symm⟩

/-- An entry that is found splits the ring, with no entry of that name before it. -/
theorem Represents.find_eq_some (h : Represents s l m) (hname : name ∈ m.map File.name) :
    ∃ l₁ e l₂, l = l₁ ++ e :: l₂ ∧ (s.entry e).name = name ∧ find s name = some (some e) := by
  rw [← h.files, List.map_map] at hname
  obtain ⟨x, hx, hxname⟩ := List.mem_map.mp hname
  have hsome : (l.find? fun e => name = (s.entry e).name).isSome :=
    List.find?_isSome.mpr ⟨x, hx, decide_eq_true hxname.symm⟩
  obtain ⟨e, he⟩ := Option.isSome_iff_exists.mp hsome
  obtain ⟨hfound, l₁, l₂, hl, -⟩ := List.find?_eq_some_iff_append.mp he
  exact ⟨l₁, e, l₂, hl, (of_decide_eq_true hfound).symm, by rw [h.find_eq, he]⟩

/-! ## Taking an entry out -/

theorem SameFiles.map_file (h : SameFiles s s') (l : List Addr) : l.map s'.file = l.map s.file :=
  List.map_congr_left fun a _ => h.file a

theorem sameFiles_unlink : SameFiles s (unlink s e) := sameFiles_setPrev.trans sameFiles_setNext

theorem Represents.rotated {l₁ l₂ : List Addr} (h : Represents s (l₁ ++ e :: l₂) m) :
    IsRing s.next s.prev (e :: (l₂ ++ l₁)) := h.ring.rotate

/-- The stores of `Remove` in a list of several entries. -/
theorem Represents.unlink {l₁ l₂ : List Addr} (h : Represents s (l₁ ++ e :: l₂) m)
    (hne : l₁ ++ l₂ ≠ []) :
    IsRing (unlink s e).next (unlink s e).prev (l₁ ++ l₂) ∧ (unlink s e).next e = s.next e := by
  have hother : s.next e ≠ e := by
    intro hself
    have hnil := h.rotated.path.next_eq_head_iff.mp hself
    rw [List.append_eq_nil_iff] at hnil
    exact hne (by rw [hnil.1, hnil.2]; rfl)
  have hback : s.prev e ≠ e := by
    intro hself
    have hlinked := h.rotated.head_linked.1
    rw [hself] at hlinked
    exact hother hlinked
  have hprev : (s.setPrev (s.next e) (s.prev e)).prev e = s.prev e := by
    rw [setPrev_prev, if_neg (Ne.symm hother)]
  unfold Buildrd.unlink
  -- neither store is to `e` itself, which has a neighbour on both sides
  constructor
  · apply h.ring.unlink hne
    · constructor
      · rw [setNext_next, if_pos hprev.symm, setPrev_next]
      · rw [setNext_prev, setPrev_prev, if_pos rfl]
    · intro x hx hxe
      rw [setNext_next, hprev, if_neg hxe, setPrev_next]
    · intro x hx hxe
      rw [setNext_prev, setPrev_prev, if_neg hxe]
  · rw [setNext_next, hprev, if_neg (Ne.symm hback), setPrev_next]

theorem Represents.unlink_first {b : Addr} {t : List Addr} (h : Represents s (e :: b :: t) m) :
    IsRing (Buildrd.unlink s e).next (Buildrd.unlink s e).prev (b :: t) ∧
      (Buildrd.unlink s e).next e = s.next e :=
  Represents.unlink (show Represents s ([] ++ e :: b :: t) m from h) (List.cons_ne_nil b t)

/-- Where names are distinct, taking one file out leaves the others. -/
theorem FileMap.remove_append {m₁ m₂ : List File} {f : File}
    (hm : ((m₁ ++ f :: m₂).map File.name).Nodup) :
    FileMap.remove (m₁ ++ f :: m₂) f.name = m₁ ++ m₂ := by
  have hperm : ((f :: (m₁ ++ m₂)).map File.name).Nodup :=
    ((List.perm_middle.map File.name).nodup_iff).mp hm
  have hothers : ∀ g ∈ m₁ ++ m₂, g.name ≠ f.name := by
    intro g hg heq
    exact (List.nodup_cons.mp hperm).1 (heq ▸ List.mem_map_of_mem hg)
  unfold FileMap.remove
  rw [List.filter_append, List.filter_cons_of_neg (by simp), ← List.filter_append]
  exact List.filter_eq_self.mpr fun g hg => decide_eq_true (hothers g hg)

/-- A ring of some of the entries, with their files untouched. -/
theorem Represents.sublist (h : Represents s l m) (hring : IsRing s'.next s'.prev k)
    (hhead : s'.head = k.headD 0) (hsub : ∀ a ∈ k, a ∈ l) (hlive : ∀ a ∈ k, a ∈ s'.live)
    (hfile : ∀ a, s'.file a = s.file a)
    (hlen : ∀ a, (s'.entry a).nameLength = (s.entry a).nameLength) :
    Represents s' k (k.map s.file) where
  ring := hring
  head := hhead
  nonzero := fun hzero => h.nonzero (hsub 0 hzero)
  live := hlive
  files := List.map_congr_left fun a _ => hfile a
  nameLength := by
    intro a ha
    rw [hlen, h.nameLength a (hsub a ha)]
    exact congrArg (fun n : CString => n.val.length + 1) (congrArg File.name (hfile a)).symm

theorem Represents.dropHead {t : List Addr} (h : Represents s (e :: t) m) :
    Represents (dropHead (Buildrd.unlink s e) e) t (t.map s.file) := by
  have hsame := sameFiles_unlink (s := s) (e := e)
  have hhead : (Buildrd.unlink s e).head = e := h.head
  have hlive : ∀ a ∈ t, a ∈ s.live.erase e := by
    intro a ha
    have hne : a ≠ e := by
      rintro rfl
      exact (List.nodup_cons.mp h.ring.nodup).1 ha
    exact (List.mem_erase_of_ne hne).mpr (h.live a (List.mem_cons_of_mem e ha))
  have hnext : (Buildrd.dropHead (Buildrd.unlink s e) e).head =
      if (Buildrd.unlink s e).next e = e then 0 else (Buildrd.unlink s e).next e := by
    unfold Buildrd.dropHead
    rw [hhead]
  refine h.sublist ?_ ?_ (fun a => List.mem_cons_of_mem e) hlive hsame.file hsame.nameLength
  · cases t with
    | nil => exact IsRing.nil
    | cons b t => exact h.unlink_first.1
  · rw [hnext]
    cases t with
    | nil =>
        -- the entry is its own neighbour, and the stores change nothing
        have hself := h.ring.path.next_eq_head_iff.mpr rfl
        have hstay : (Buildrd.unlink s e).next e = e := by
          unfold Buildrd.unlink
          rw [setNext_next, setPrev_next, hself, ite_self]
        rw [if_pos hstay]
        rfl
    | cons b t =>
        have hb := h.ring.path.tail.1
        have hne : b ≠ e := by
          rintro rfl
          exact (List.nodup_cons.mp h.ring.nodup).1 List.mem_cons_self
        rw [h.unlink_first.2, hb, if_neg hne]
        rfl

theorem Represents.unlink_inner {t l₂ : List Addr} (h : Represents s (a :: t ++ e :: l₂) m) :
    Represents (Buildrd.unlink s e) (a :: t ++ l₂) ((a :: t ++ l₂).map s.file) := by
  have hsame := sameFiles_unlink (s := s) (e := e)
  have hsub : ∀ x ∈ a :: t ++ l₂, x ∈ a :: t ++ e :: l₂ := by
    intro x hx
    rw [List.mem_append] at hx ⊢
    exact hx.imp_right (List.mem_cons_of_mem e)
  refine h.sublist (h.unlink (List.cons_ne_nil a _)).1 h.head hsub (fun x hx => ?_) hsame.file
    hsame.nameLength
  rw [hsame.live]
  exact h.live x (hsub x hx)

/-- `Remove` of an entry that is found takes it out of the ring. -/
theorem Represents.remove_entry {l₁ l₂ : List Addr} (h : Represents s (l₁ ++ e :: l₂) m)
    (hfind : find s name = some (some e)) :
    ∃ s', Buildrd.remove s name = some (s', initrdOk) ∧
      Represents s' (l₁ ++ l₂) ((l₁ ++ l₂).map s.file) := by
  unfold Buildrd.remove
  simp only [hfind]
  refine ⟨_, rfl, ?_⟩
  -- removing the first entry moves the head, removing another one does not
  by_cases hhead : (Buildrd.unlink s e).head = e
  · rw [if_pos hhead]
    cases l₁ with
    | nil => exact h.dropHead
    | cons a t =>
        have hae : a = e := h.head.symm.trans hhead
        have hmem : a ∈ t ++ e :: l₂ := hae ▸ List.mem_append_right t List.mem_cons_self
        exact absurd hmem (List.nodup_cons.mp h.ring.nodup).1
  · rw [if_neg hhead]
    cases l₁ with
    | nil => exact absurd h.head hhead
    | cons a t => exact h.unlink_inner

theorem Represents.remove_none (h : Represents s l m) (hname : name ∉ m.map File.name) :
    Buildrd.remove s name = some (s, initrdFileNotFound) := by
  unfold Buildrd.remove
  rw [h.find_eq_none hname]

/-- The map without the file of one entry. -/
theorem Represents.remove_files {l₁ l₂ : List Addr} (h : Represents s (l₁ ++ e :: l₂) m)
    (hm : (m.map File.name).Nodup) :
    FileMap.remove m (s.entry e).name = (l₁ ++ l₂).map s.file := by
  rw [← h.files, List.map_append, List.map_cons] at hm
  rw [← h.files, List.map_append, List.map_cons, List.map_append]
  exact FileMap.remove_append hm

/-- **`Remove` deletes exactly the named file.** -/
theorem Represents.remove (h : Represents s l m) (hm : (m.map File.name).Nodup) (name : CString) :
    ∃ s' r l', Buildrd.remove s name = some (s', r) ∧ Represents s' l' (FileMap.remove m name) := by
  by_cases hname : name ∈ m.map File.name
  · obtain ⟨l₁, e, l₂, rfl, rfl, hfind⟩ := h.find_eq_some hname
    obtain ⟨s', hremove, h'⟩ := h.remove_entry hfind
    exact ⟨s', initrdOk, l₁ ++ l₂, hremove, h.remove_files hm ▸ h'⟩
  · refine ⟨s, initrdFileNotFound, l, h.remove_none hname, ?_⟩
    have hkeep : FileMap.remove m name = m := by
      apply List.filter_eq_self.mpr
      intro g hg
      apply decide_eq_true
      rintro rfl
      exact hname (List.mem_map_of_mem hg)
    rw [hkeep]
    exact h

/-! ## Putting an entry in -/

theorem link_of_ne (hhead : s.head ≠ 0) :
    link s a =
      let s₁ := (s.setNext a s.head).setPrev a ((s.setNext a s.head).prev s.head)
      (s₁.setNext (s₁.prev s.head) a).setPrev s.head a := by
  unfold link
  rw [if_neg hhead]
  rfl

theorem sameFiles_link : SameFiles s (link s a) := by
  by_cases hhead : s.head = 0
  · unfold link
    rw [if_pos hhead]
    have hstart : SameFiles s { s with head := a } := ⟨fun _ => rfl, fun _ => rfl, rfl⟩
    exact (hstart.trans sameFiles_setNext).trans sameFiles_setPrev
  · rw [link_of_ne hhead]
    exact ((sameFiles_setNext.trans sameFiles_setPrev).trans sameFiles_setNext).trans
      sameFiles_setPrev

/-- The links that `AddFromMemory` makes for an entry that is not in the list. -/
theorem Represents.link_ring {b : Addr} (h : Represents s l m) (hb : b ∉ l) :
    IsRing (link s b).next (link s b).prev (l ++ [b]) ∧ (link s b).head = (l ++ [b]).headD 0 := by
  cases l with
  | nil =>
      have hzero : s.head = 0 := h.head
      unfold link
      rw [if_pos hzero]
      refine ⟨IsRing.singleton ⟨?_, ?_⟩, rfl⟩
      · simp
      · simp
  | cons a t =>
      have hhead := h.head_cons
      have hab : a ≠ b := by
        rintro rfl
        exact hb List.mem_cons_self
      have hlast : s.prev a ∈ a :: t := List.mem_of_getLast? h.ring.prev_head_mem_getLast?
      have hlastb : s.prev a ≠ b := by
        rintro heq
        exact hb (heq ▸ hlast)
      have hprev : ((s.setNext b s.head).setPrev b ((s.setNext b s.head).prev s.head)).prev s.head =
          s.prev a := by
        rw [setPrev_prev, hhead, if_neg hab, setNext_prev]
      rw [link_of_ne h.head_ne_zero]
      simp only [hprev]
      -- four stores: two links of the new entry, one of the last and one of the first
      constructor
      · apply h.ring.snoc hb
        · constructor
          · simp [hhead, Ne.symm hlastb]
          · simp [hhead]
        · constructor
          · simp
          · simp [hhead, Ne.symm hab]
        · intro x hx hne
          have hxb : x ≠ b := by
            rintro rfl
            exact hb hx
          simp [hne, hxb]
        · intro x hx
          have hxb : x ≠ b := by
            rintro rfl
            exact hb (List.mem_cons_of_mem a hx)
          have hxa : x ≠ a := by
            rintro rfl
            exact (List.nodup_cons.mp h.ring.nodup).1 hx
          simp [hhead, hxb, hxa]
      · exact hhead

/-- Only the entries of the list and the head matter. -/
theorem Represents.congr (h : Represents s l m) (hhead : s'.head = s.head)
    (hlive : ∀ x ∈ s.live, x ∈ s'.live) (hentry : ∀ x ∈ l, s'.entry x = s.entry x) :
    Represents s' l m where
  ring := h.ring.congr (fun x hx => congrArg RdListEntry.next (hentry x hx))
    fun x hx => congrArg RdListEntry.prev (hentry x hx)
  head := hhead.trans h.head
  nonzero := h.nonzero
  live := fun x hx => hlive x (h.live x hx)
  files := by
    rw [← h.files]
    refine List.map_congr_left fun x hx => ?_
    unfold State.file
    rw [hentry x hx]
  nameLength := by
    intro x hx
    rw [hentry x hx]
    exact h.nameLength x hx

/-- **Adding a new name appends it.** -/
theorem Represents.add_new (h : Represents s l m) {b : Addr} (data : List Byte) (size : Word32)
    (hname : name ∉ m.map File.name) (hb : b ≠ 0) (hfresh : b ∉ s.live)
    (hlen : name.val.length + 1 < 2 ^ 32) :
    ∃ s', addFromMemory s name data size b = some (s', initrdOk) ∧
      Represents s' (l ++ [b]) (m ++ [⟨name, size, data⟩]) := by
  have hbl : b ∉ l := fun hmem => hfresh (h.live b hmem)
  let entry : RdListEntry := { s.entry b with
    name := name
    nameLength := BitVec.ofNat 32 name.val.length + 1
    fileSize := size
    data := data }
  let s₁ : State := ⟨s.head, Function.update s.entry b entry, b :: s.live⟩
  have hnew : s₁.entry b = entry := Function.update_self _ _ _
  have h₁ : Represents s₁ l m := by
    refine h.congr rfl (fun a ha => List.mem_cons_of_mem b ha) fun a ha => ?_
    have hne : a ≠ b := by
      rintro rfl
      exact hbl ha
    exact Function.update_of_ne hne _ _
  have hsame := sameFiles_link (s := s₁) (a := b)
  refine ⟨link s₁ b, ?_, (h₁.link_ring hbl).1, (h₁.link_ring hbl).2, ?_, ?_, ?_, ?_⟩
  · unfold addFromMemory
    rw [h.find_eq_none hname]
  · rw [List.mem_append, List.mem_singleton]
    exact not_or.mpr ⟨h.nonzero, Ne.symm hb⟩
  · intro a ha
    rw [hsame.live]
    cases List.mem_append.mp ha with
    | inl hold => exact List.mem_cons_of_mem b (h.live a hold)
    | inr hlast => rw [List.mem_singleton.mp hlast]; exact List.mem_cons_self
  · have hfile : s₁.file b = ⟨name, size, data⟩ := by
      unfold State.file
      rw [hnew]
    rw [hsame.map_file, List.map_append, h₁.files, List.map_singleton, hfile]
  · intro a ha
    have hnames := congrArg File.name (hsame.file a)
    rw [hsame.nameLength, show ((link s₁ b).entry a).name = (s₁.entry a).name from hnames]
    cases List.mem_append.mp ha with
    | inl hold => exact h₁.nameLength a hold
    | inr hlast =>
        rw [List.mem_singleton.mp hlast, hnew]
        show (BitVec.ofNat 32 name.val.length + 1).toNat = name.val.length + 1
        rw [BitVec.toNat_add, BitVec.toNat_ofNat]
        show (name.val.length % 2 ^ 32 + 1) % 2 ^ 32 = _
        omega

/-- Linking the only entry once more leaves it linked to itself. -/
theorem link_self (hhead : s.head = a) (hzero : a ≠ 0) (hprev : s.prev a = a) :
    Linked (link s a).next (link s a).prev a a := by
  rw [link_of_ne (hhead ▸ hzero), hhead]
  constructor
  · simp [hprev]
  · simp [hprev]

/-- **Replacing the only file keeps its place.** -/
theorem Represents.add_only {f : File} (h : Represents s [a] [f]) (data : List Byte)
    (size : Word32) (b : Addr) :
    ∃ s', addFromMemory s f.name data size b = some (s', initrdOk) ∧
      Represents s' [a] [⟨f.name, size, data⟩] := by
  have hfile : s.file a = f := List.singleton_inj.mp h.files
  have hname : (s.entry a).name = f.name := congrArg File.name hfile
  have hfind : find s f.name = some (some a) := by
    rw [h.find_eq]
    simp [hname]
  have hprev : s.prev a = a := (h.ring.closed a rfl a rfl).2
  let entry : RdListEntry := { s.entry a with fileSize := size, data := data }
  let s₁ : State := { s with entry := Function.update s.entry a entry }
  have hnew : s₁.entry a = entry := Function.update_self _ _ _
  have hlinks : s₁.prev a = a := by
    unfold State.prev
    rw [hnew]
    exact hprev
  -- linking the only entry again links it to itself
  have hsame := sameFiles_link (s := s₁) (a := a)
  have hzero : a ≠ 0 := h.head_cons ▸ h.head_ne_zero
  refine ⟨link s₁ a, ?_, IsRing.singleton (link_self h.head hzero hlinks), ?_, h.nonzero, ?_, ?_, ?_⟩
  · unfold addFromMemory
    rw [hfind]
  · rw [link_of_ne (s := s₁) h.head_ne_zero]
    exact h.head
  · rw [hsame.live]
    exact h.live
  · have hfile₁ : s₁.file a = ⟨f.name, size, data⟩ := by
      unfold State.file
      rw [hnew, ← hname]
    rw [List.map_singleton, hsame.file, hfile₁]
  · intro x hx
    rw [List.mem_singleton.mp hx]
    have hnames := congrArg File.name (hsame.file a)
    rw [hsame.nameLength, show ((link s₁ a).entry a).name = (s₁.entry a).name from hnames, hnew]
    exact h.nameLength a List.mem_cons_self

/-! ## Replacing one of several entries -/

/-- The links after an entry `e` that is already in the list has been linked once more. -/
theorem Represents.link_again {t : List Addr} (h : Represents s (a :: t) m) (e : Addr) :
    (∀ x, (link s e).next x =
      if x = s.prev a then e else if x = e then a else s.next x) ∧ (link s e).prev a = e := by
  have hprev : ((s.setNext e a).setPrev e (s.prev a)).prev a = s.prev a := by
    rw [setPrev_prev, setNext_prev, ite_self]
  rw [link_of_ne h.head_ne_zero, h.head_cons]
  simp [hprev]

/-- After that the ring at the head, if it is one, has lost entries: it would have to end with `e`,
and the entries behind `e` are no longer reached. -/
theorem Represents.link_again_length {l₁ l₂ : List Addr} {m' : List File}
    (h : Represents s (l₁ ++ e :: l₂) m) (hnext : s.next s.head ≠ s.head)
    (h' : Represents (link s e) k m') : k.length < (l₁ ++ e :: l₂).length := by
  obtain ⟨a, t, hl⟩ : ∃ a t, l₁ ++ e :: l₂ = a :: t :=
    List.exists_cons_of_ne_nil (List.append_ne_nil_of_right_ne_nil l₁ (List.cons_ne_nil e l₂))
  have hold : Represents s (a :: t) m := hl ▸ h
  have hhead := hold.head_cons
  obtain ⟨hnext', hprev'⟩ := hold.link_again e
  have hstart : (link s e).head = a := by
    rw [link_of_ne hold.head_ne_zero]
    exact hhead
  obtain ⟨u, rfl⟩ : ∃ u, k = a :: u := by
    cases k with
    | nil => exact absurd (hhead ▸ hstart ▸ h'.head) hold.head_ne_zero
    | cons b u => exact ⟨u, by rw [← hstart, h'.head_cons]⟩
  have hback : (link s e).next e = a := by
    have hlinked := h'.ring.head_linked.1
    rw [hprev'] at hlinked
    exact hlinked
  have hlast : e ≠ s.prev a := by
    intro heq
    rw [hnext', if_pos heq] at hback
    -- then `e` is both the head and the last entry
    have hself := hold.ring.head_linked.1
    rw [← heq, hback] at hself
    exact hnext (hhead ▸ hself)
  have hz : s.prev a ∈ l₂ := by
    have hmem := hold.ring.prev_head_mem_getLast?
    rw [← hl, List.getLast?_append_of_ne_nil _ (List.cons_ne_nil e l₂)] at hmem
    exact (List.mem_cons.mp (List.mem_of_getLast? hmem)).resolve_left (Ne.symm hlast)
  have ha : a ∈ l₁ ++ [e] := by
    cases l₁ with
    | nil => exact List.mem_singleton.mpr (List.cons.inj hl).1.symm
    | cons b l₁ => exact (List.cons.inj hl).1 ▸ List.mem_cons_self
  have hclosed : ∀ y ∈ l₁ ++ [e], (link s e).next y ∈ l₁ ++ [e] := by
    intro y hy
    rw [hnext']
    by_cases hye : y = e
    · rw [if_neg (hye ▸ hlast), if_pos hye]
      exact ha
    · have hy₁ : y ∈ l₁ := (List.mem_append.mp hy).resolve_right fun hsingle =>
        hye (List.mem_singleton.mp hsingle)
      have hyz : y ≠ s.prev a := by
        rintro rfl
        exact (List.nodup_append.mp h.ring.nodup).2.2 _ hy₁ _ (List.mem_cons_of_mem e hz) rfl
      rw [if_neg hyz, if_neg hye]
      exact IsRing.next_mem_of_chain (List.isChain_split.mp h.ring.chain).1 hy₁
  have hsub := h'.ring.path.forall_mem ha hclosed
  have hle := (h'.ring.nodup.subperm hsub).length_le
  have hpos := List.length_pos_of_mem hz
  simp only [List.length_append, List.length_cons, List.length_nil] at hle ⊢
  omega

/-- The stores of `AddFromMemory` to an entry that it has found. -/
theorem Represents.set_file (h : Represents s l m) (e : Addr) (data : List Byte) (size : Word32) :
    let entry := { s.entry e with fileSize := size, data := data }
    let s₁ : State := { s with entry := Function.update s.entry e entry }
    Represents s₁ l (l.map s₁.file) ∧ s₁.next s₁.head = s.next s.head := by
  intro entry s₁
  have hfield : ∀ {β : Type} (g : RdListEntry → β), g entry = g (s.entry e) →
      ∀ a, g (s₁.entry a) = g (s.entry a) := by
    intro β g hg a
    by_cases ha : a = e
    · subst ha
      rw [show s₁.entry a = entry from Function.update_self _ _ _, hg]
    · rw [show s₁.entry a = s.entry a from Function.update_of_ne ha _ _]
  have hnext := hfield RdListEntry.next rfl
  have hname := hfield RdListEntry.name rfl
  have hlen := hfield RdListEntry.nameLength rfl
  refine ⟨⟨?_, h.head, h.nonzero, h.live, rfl, fun a ha => ?_⟩, hnext s.head⟩
  · exact h.ring.congr (fun a _ => hnext a) fun a _ => hfield RdListEntry.prev rfl a
  · rw [hlen, hname]
    exact h.nameLength a ha

/-- **Replacing one of several files breaks the list.** -/
theorem Represents.add_existing (h : Represents s l m) (hname : name ∈ m.map File.name)
    (hnext : s.next s.head ≠ s.head) {data : List Byte} {size r : Word32} {b : Addr}
    (hadd : addFromMemory s name data size b = some (s', r)) {m' : List File}
    (h' : Represents s' k m') : m'.length < m.length := by
  obtain ⟨l₁, e, l₂, rfl, -, hfind⟩ := h.find_eq_some hname
  obtain ⟨h₁, hnext₁⟩ := h.set_file e data size
  unfold addFromMemory at hadd
  rw [hfind] at hadd
  cases hadd
  have hlt := h₁.link_again_length (hnext₁ ▸ hnext) h'
  rw [← h'.files, ← h.files, List.length_map, List.length_map]
  exact hlt

/-! ## Runs -/

inductive Call
  | addFromMemory (name : CString) (data : List Byte) (size : Word32) (new : Addr)
  | remove (name : CString)

def exec (s : State) : Call → Option (State × Word32)
  | .addFromMemory name data size new => Buildrd.addFromMemory s name data size new
  | .remove name => Buildrd.remove s name

/-- What the same call does to the map. -/
def FileMap.exec (m : FileMap) : Call → FileMap
  | .addFromMemory name data size _ => m.add ⟨name, size, data⟩
  | .remove name => m.remove name

/-- `malloc` returns an address that is not in use, and the length of a name fits its field. -/
def Allowed (s : State) : Call → Prop
  | .addFromMemory name _ _ new => new ≠ 0 ∧ new ∉ s.live ∧ name.val.length + 1 < 2 ^ 32
  | .remove _ => True

/-- The calls of a builder that starts empty, with the map kept beside it. -/
def builder : System (State × FileMap) Call where
  init := fun s => s.1.head = 0 ∧ s.1.live = [] ∧ s.2 = []
  step := fun s call s' =>
    Allowed s.1 call ∧ (∃ r, exec s.1 call = some (s'.1, r)) ∧ s'.2 = s.2.exec call

/-- A file is added under a new name, or to a list whose head is its own successor. -/
def KeepsOthers (s : State) : Call → Prop
  | .addFromMemory name _ _ _ => find s name = some none ∨ s.next s.head = s.head
  | .remove _ => True

theorem FileMap.add_of_not_mem {m : FileMap} {f : File} (h : f.name ∉ m.map File.name) :
    m.add f = m ++ [f] := by
  unfold FileMap.add
  rw [if_neg h]

theorem FileMap.nodup_remove {m : FileMap} (h : (m.map File.name).Nodup) (name : CString) :
    ((m.remove name).map File.name).Nodup :=
  h.sublist (List.filter_sublist.map File.name)

theorem FileMap.nodup_append {m : FileMap} {f : File} (h : (m.map File.name).Nodup)
    (hf : f.name ∉ m.map File.name) : ((m ++ [f]).map File.name).Nodup := by
  rw [List.map_append, List.map_singleton, List.nodup_append]
  refine ⟨h, List.nodup_singleton _, fun x hx y hy hxy => hf ?_⟩
  rw [List.mem_singleton] at hy
  exact hy ▸ hxy ▸ hx

/-- One call that keeps the other files. -/
theorem Represents.exec (h : Represents s l m) (hm : (m.map File.name).Nodup) {call : Call}
    (hcall : Allowed s call) (hkeeps : KeepsOthers s call) :
    ∃ s' r l', Buildrd.exec s call = some (s', r) ∧ Represents s' l' (FileMap.exec m call) ∧
      ((FileMap.exec m call).map File.name).Nodup := by
  cases call with
  | remove name =>
      obtain ⟨s', r, l', hremove, h'⟩ := h.remove hm name
      exact ⟨s', r, l', hremove, h', FileMap.nodup_remove hm name⟩
  | addFromMemory name data size new =>
      obtain ⟨hzero, hfresh, hlen⟩ := hcall
      by_cases hname : name ∈ m.map File.name
      · -- the name is found, so the list has one entry
        obtain ⟨l₁, e, l₂, -, -, hfind⟩ := h.find_eq_some hname
        have hself : s.next s.head = s.head := by
          cases hkeeps with
          | inl hnone => rw [hfind] at hnone; cases hnone
          | inr hself => exact hself
        have hone : ∃ a f, l = [a] ∧ m = [f] := by
          cases l with
          | nil => rw [← h.files] at hname; cases hname
          | cons a t =>
              rw [h.head_cons] at hself
              obtain rfl := h.ring.path.next_eq_head_iff.mp hself
              exact ⟨a, s.file a, rfl, h.files.symm⟩
        obtain ⟨a, f, rfl, rfl⟩ := hone
        obtain rfl : name = f.name := List.mem_singleton.mp hname
        obtain ⟨s', hadd, h'⟩ := h.add_only data size new
        have hmap : FileMap.add [f] ⟨f.name, size, data⟩ = [⟨f.name, size, data⟩] := by
          simp [FileMap.add]
        refine ⟨s', initrdOk, [a], hadd, ?_, ?_⟩
        · show Represents s' [a] (FileMap.add [f] _)
          rw [hmap]
          exact h'
        · show ((FileMap.add [f] _).map File.name).Nodup
          rw [hmap]
          exact List.nodup_singleton _
      · obtain ⟨s', hadd, h'⟩ := h.add_new data size hname hzero hfresh hlen
        refine ⟨s', initrdOk, l ++ [new], hadd, ?_, ?_⟩
        · show Represents s' _ (FileMap.add m _)
          rw [FileMap.add_of_not_mem hname]
          exact h'
        · show ((FileMap.add m _).map File.name).Nodup
          rw [FileMap.add_of_not_mem hname]
          exact FileMap.nodup_append hm hname

/-- The list holds exactly the files of the map, and its ring is well formed. -/
def Refines (s : State × FileMap) : Prop := ∃ l, Represents s.1 l s.2

theorem restrict_refines {s : State × FileMap}
    (h : (builder.restrict fun s call _ => KeepsOthers s.1 call).Reachable s) :
    Refines s ∧ (s.2.map File.name).Nodup := by
  refine h.invariant (I := fun s => Refines s ∧ (s.2.map File.name).Nodup) ?_ ?_
  · rintro ⟨s, m⟩ ⟨hhead, hlive, rfl⟩
    exact ⟨⟨[], IsRing.nil, hhead, List.not_mem_nil, nofun, rfl, nofun⟩, List.nodup_nil⟩
  · rintro ⟨s, m⟩ call ⟨s', m'⟩ - ⟨⟨l, h⟩, hm⟩ ⟨⟨hcall, ⟨r, hexec⟩, rfl⟩, hkeeps⟩
    obtain ⟨t, r', l', hexec', h', hm'⟩ := h.exec hm hcall hkeeps
    rw [hexec] at hexec'
    cases hexec'
    exact ⟨⟨l', h'⟩, hm'⟩

/-- What happens at the next call, whichever it is. -/
theorem Represents.exec_iff (h : Represents s l m) (hm : (m.map File.name).Nodup) {call : Call}
    (hcall : Allowed s call) :
    (∃ s' r, Buildrd.exec s call = some (s', r) ∧ Refines (s', FileMap.exec m call)) ↔
      KeepsOthers s call := by
  constructor
  · rintro ⟨s', r, hexec, l', h'⟩
    cases call with
    | remove name => trivial
    | addFromMemory name data size new =>
        by_cases hname : name ∈ m.map File.name
        · right
          by_contra hnext
          have hlt := h.add_existing hname hnext hexec h'
          have hsame : (FileMap.add m ⟨name, size, data⟩).length = m.length := by
            unfold FileMap.add
            rw [if_pos hname, List.length_map]
          exact absurd (hsame ▸ hlt) (lt_irrefl _)
        · exact .inl (h.find_eq_none hname)
  · intro hkeeps
    obtain ⟨s', r, l', hexec, h', -⟩ := h.exec hm hcall hkeeps
    exact ⟨s', r, hexec, l', h'⟩

/-- **When the builder's list is an ordered file map.**  It is one in every run whose additions use
a new name or find a single entry.  In such a run, the next call returns with the list of the new
map exactly when it is of that kind too. -/
theorem builder_refines_fileMap (s : State × FileMap)
    (h : (builder.restrict fun s call _ => KeepsOthers s.1 call).Reachable s) :
    Refines s ∧ ∀ call, Allowed s.1 call →
      ((∃ s' r, exec s.1 call = some (s', r) ∧ Refines (s', s.2.exec call)) ↔
        KeepsOthers s.1 call) := by
  obtain ⟨⟨l, hl⟩, hm⟩ := restrict_refines h
  exact ⟨⟨l, hl⟩, fun call hcall => hl.exec_iff hm hcall⟩

/-! ## Two runs -/

/-- The state after a call that returns. -/
def after (s : State × FileMap) (call : Call) : State × FileMap :=
  (((exec s.1 call).map Prod.fst).getD s.1, s.2.exec call)

theorem builder_step {s : State × FileMap} {call : Call} (hcall : Allowed s.1 call)
    (hexec : (exec s.1 call).isSome) : builder.step s call (after s call) := by
  obtain ⟨⟨s', r⟩, hr⟩ := Option.isSome_iff_exists.mp hexec
  refine ⟨hcall, ⟨r, ?_⟩, rfl⟩
  unfold after
  rw [hr]
  rfl

theorem reachable_after {s : State × FileMap} {call : Call} (h : builder.Reachable s)
    (hcall : Allowed s.1 call) (hexec : (exec s.1 call).isSome) :
    builder.Reachable (after s call) := .step h (builder_step hcall hexec)

theorem restrict_reachable_after {s : State × FileMap} {call : Call}
    (h : (builder.restrict fun s call _ => KeepsOthers s.1 call).Reachable s)
    (hcall : Allowed s.1 call) (hexec : (exec s.1 call).isSome) (hkeeps : KeepsOthers s.1 call) :
    (builder.restrict fun s call _ => KeepsOthers s.1 call).Reachable (after s call) :=
  .step h ⟨builder_step hcall hexec, hkeeps⟩

def empty : State × FileMap := (State.init fun _ => ⟨⟨[], List.not_mem_nil⟩, [], 0, 0, 0, 0⟩, [])

/-- The name of one letter. -/
def letter (c : Byte) (h : c ≠ 0) : CString := ⟨[c], by simpa using Ne.symm h⟩

def nameA : CString := letter 0x61 (by decide)
def nameB : CString := letter 0x62 (by decide)

theorem empty_represents : Represents empty.1 [] [] :=
  ⟨IsRing.nil, rfl, List.not_mem_nil, nofun, rfl, nofun⟩

/-- The files of one byte each that the examples use. -/
def fileA : File := ⟨nameA, 1, [1]⟩
def fileB : File := ⟨nameB, 1, [2]⟩

theorem exists_twoFiles : ∃ s, Represents s [0x1000, 0x2000] [fileA, fileB] := by
  have hnew : nameA ∉ ([] : List File).map File.name := List.not_mem_nil
  obtain ⟨sA, hA, h₁⟩ := empty_represents.add_new [1] 1 hnew (show (0x1000 : Addr) ≠ 0 by decide)
    (by decide) (by decide)
  have hlive : sA.live = [0x1000] := by
    cases hA
    rfl
  have hother : nameB ∉ [fileA].map File.name := by decide
  obtain ⟨s, -, h⟩ := h₁.add_new [2] 1 hother (show (0x2000 : Addr) ≠ 0 by decide)
    (by rw [hlive]; decide) (by decide)
  exact ⟨s, h⟩

/-- Two files are added, the first is removed and the other, by now alone, replaced. -/
theorem replaceLast_refines :
    let s := after (after (after (after empty (.addFromMemory nameA [1] 1 0x1000))
      (.addFromMemory nameB [2] 1 0x2000)) (.remove nameA)) (.addFromMemory nameB [3] 1 0x3000)
    Refines s ∧ ∀ call, Allowed s.1 call →
      ((∃ s' r, exec s.1 call = some (s', r) ∧ Refines (s', s.2.exec call)) ↔
        KeepsOthers s.1 call) := by
  intro s
  apply builder_refines_fileMap
  refine restrict_reachable_after ?_ ⟨by decide, by decide, by decide⟩
    (by decide +kernel) (.inr (by decide +kernel))
  refine restrict_reachable_after ?_ trivial (by decide +kernel) trivial
  refine restrict_reachable_after ?_ ⟨by decide, by decide, by decide⟩
    (by decide +kernel) (.inl (by decide +kernel))
  refine restrict_reachable_after ?_ ⟨by decide, by decide, by decide⟩
    (by decide +kernel) (.inl (by decide +kernel))
  exact .init ⟨rfl, rfl, rfl⟩

/-- Two files are added and the first is replaced: it is then its own successor, and the second
one is lost. -/
theorem replaceFirst_loses_file : ∃ s, builder.Reachable s ∧ ¬ Refines s := by
  let s := after (after (after empty (.addFromMemory nameA [1] 1 0x1000))
    (.addFromMemory nameB [2] 1 0x2000)) (.addFromMemory nameA [3] 1 0x3000)
  refine ⟨s, ?_, ?_⟩
  · refine reachable_after ?_ ⟨by decide, by decide, by decide⟩ (by decide +kernel)
    refine reachable_after ?_ ⟨by decide, by decide, by decide⟩ (by decide +kernel)
    refine reachable_after ?_ ⟨by decide, by decide, by decide⟩ (by decide +kernel)
    exact .init ⟨rfl, rfl, rfl⟩
  · rintro ⟨l, h⟩
    have hfiles := congrArg List.length h.files
    have hself : s.1.next s.1.head = s.1.head := rfl
    have hmap : s.2.length = 2 := rfl
    rw [List.length_map, hmap] at hfiles
    cases l with
    | nil => cases hfiles
    | cons a t =>
        rw [h.head_cons] at hself
        rw [h.ring.path.next_eq_head_iff.mp hself] at hfiles
        cases hfiles

end Buildrd
end ZineOS
