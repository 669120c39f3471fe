import ZineOS.Buildrd.FileMap

/-!
# Emptying the builder's list

`Unload` removes the first entry until there is none.  The number of entries is what makes it stop:
`Remove` of the head leaves the ring of the others, entered at the old head's successor.

* `removeTouches` lists the entries whose fields one call of `Remove` reads or writes, which
  `remove_touches` says of it.
* **`remove_and_unload`** — what `Remove` returns and leaves for any name, and that `Unload` makes one
  call for each entry and touches no entry that an earlier call has taken out.
-/

namespace ZineOS
namespace Buildrd

open Lib

/-- `Unload`, with the states in which it has called `Remove`; `none` when the fuel runs out. -/
def unload : Nat → State → Option (State × List State)
  | 0, _ => none
  | fuel + 1, s =>
      if s.head = 0 then some (s, [])
      else
        match remove s (s.entry s.head).name with
        | none => none
        | some (s', _) => (unload fuel s').map fun run => (run.1, s :: run.2)

/-- The entries that `Find` looks at. -/
def findTouches (s : State) (fileName : CString) : List Addr :=
  if s.head = 0 then []
  else visited s.next s.head (fun e => fileName = (s.entry e).name) s.live.length s.head

/-- The entries that `Remove` looks at or writes to: those of `Find`, then the entry itself and its
two neighbours, the second of them read after the first store. -/
def removeTouches (s : State) (fileName : CString) : List Addr :=
  findTouches s fileName ++
    match find s fileName with
    | some (some entry) =>
        [entry, s.next entry, (s.setPrev (s.next entry) (s.prev entry)).prev entry]
    | _ => []

variable {s s' : State} {l : List Addr} {m : List File} {a e : Addr} {name : CString}

theorem Represents.findTouches_subset (h : Represents s l m) (name : CString) :
    findTouches s name ⊆ l := by
  unfold findTouches
  cases l with
  | nil =>
      rw [if_pos (show s.head = 0 from h.head)]
      exact List.nil_subset _
  | cons a t =>
      rw [if_neg h.head_ne_zero, h.head_cons]
      exact h.ring.path.visited_subset

/-- One call of `Remove` stays inside the ring. -/
theorem Represents.removeTouches_subset (h : Represents s l m) (name : CString) :
    removeTouches s name ⊆ l := by
  unfold removeTouches
  refine List.append_subset.mpr ⟨h.findTouches_subset name, ?_⟩
  by_cases hname : name ∈ m.map File.name
  · obtain ⟨l₁, e, l₂, rfl, -, hfind⟩ := h.find_eq_some hname
    obtain ⟨hnext, hprev⟩ := h.rotated.neighbours_mem
    have hperm : ∀ x ∈ e :: (l₂ ++ l₁), x ∈ l₁ ++ e :: l₂ := by
      intro x hx
      simp only [List.mem_cons, List.mem_append] at hx ⊢
      exact hx.elim (fun he => Or.inr (Or.inl he))
        fun hx => hx.elim (fun h₂ => Or.inr (Or.inr h₂)) Or.inl
    have hback : (s.setPrev (s.next e) (s.prev e)).prev e = s.prev e := by
      rw [setPrev_prev, ite_self]
    rw [hfind]
    simp only [hback]
    intro x hx
    apply hperm
    simp only [List.mem_cons, List.not_mem_nil, or_false] at hx
    rcases hx with rfl | rfl | rfl
    · exact List.mem_cons_self
    · exact hnext
    · exact hprev
  · rw [h.find_eq_none hname]
    exact List.nil_subset _

/-! ## What `Remove` reads and changes -/

/-- The same head, the same blocks in use, and the same entries in `k`. -/
structure AgreesOn (k : List Addr) (s t : State) : Prop where
  head : t.head = s.head
  live : t.live = s.live
  entry : ∀ a ∈ k, t.entry a = s.entry a

section

variable {t : State} {k : List Addr} {v : Addr} {r : Loader.Word32}

theorem AgreesOn.next_eq (h : AgreesOn k s t) (ha : a ∈ k) : t.next a = s.next a :=
  congrArg RdListEntry.next (h.entry a ha)

theorem AgreesOn.prev_eq (h : AgreesOn k s t) (ha : a ∈ k) : t.prev a = s.prev a :=
  congrArg RdListEntry.prev (h.entry a ha)

theorem AgreesOn.update (h : AgreesOn k s t) (f : RdListEntry → RdListEntry) :
    AgreesOn k { s with entry := Function.update s.entry a (f (s.entry a)) }
      { t with entry := Function.update t.entry a (f (t.entry a)) } where
  head := h.head
  live := h.live
  entry := by
    intro x hx
    by_cases hxa : x = a
    · subst hxa
      simp only [Function.update_self, h.entry x hx]
    · simp only [Function.update_of_ne hxa, h.entry x hx]

theorem AgreesOn.setNext (h : AgreesOn k s t) : AgreesOn k (s.setNext a v) (t.setNext a v) :=
  h.update fun entry => { entry with next := v }

theorem AgreesOn.setPrev (h : AgreesOn k s t) : AgreesOn k (s.setPrev a v) (t.setPrev a v) :=
  h.update fun entry => { entry with prev := v }

theorem AgreesOn.unlink (h : AgreesOn k s t) (he : e ∈ k) :
    AgreesOn k (unlink s e) (unlink t e) := by
  have hfirst : AgreesOn k (s.setPrev (s.next e) (s.prev e)) (t.setPrev (t.next e) (t.prev e)) := by
    rw [h.next_eq he, h.prev_eq he]
    exact h.setPrev
  unfold Buildrd.unlink
  dsimp only
  rw [hfirst.next_eq he, hfirst.prev_eq he]
  exact hfirst.setNext

theorem AgreesOn.dropHead (h : AgreesOn k s t) (hhead : s.head ∈ k) :
    AgreesOn k (dropHead s e) (dropHead t e) where
  head := by
    unfold Buildrd.dropHead
    dsimp only
    rw [h.head, h.next_eq hhead]
  live := congrArg (List.erase · e) h.live
  entry := h.entry

theorem AgreesOn.find_eq (h : AgreesOn (findTouches s name) s t) : find t name = find s name := by
  unfold find
  rw [h.head, h.live]
  by_cases hhead : s.head = 0
  · rw [if_pos hhead, if_pos hhead]
  · have hentry := h.entry
    unfold findTouches at hentry
    rw [if_neg hhead] at hentry ⊢
    rw [if_neg hhead]
    refine (IsRing.search_congr fun y hy => ⟨?_, ?_⟩).1
    · exact congrArg RdListEntry.next (hentry y hy)
    · rw [hentry y hy]

theorem entry_unlink (ha : a ≠ s.next e)
    (ha' : a ≠ (s.setPrev (s.next e) (s.prev e)).prev e) : (unlink s e).entry a = s.entry a :=
  (Function.update_of_ne ha' _ _).trans (Function.update_of_ne ha _ _)

/-- `Remove` changes the entries of `removeTouches` only, and what it does to them depends on no
others. -/
theorem remove_touches (hremove : remove s name = some (s', r)) :
    (∀ a ∉ removeTouches s name, s'.entry a = s.entry a) ∧
    ∀ t, AgreesOn (removeTouches s name) s t →
      ∃ t', remove t name = some (t', r) ∧ AgreesOn (removeTouches s name) s' t' := by
  have hfindEq : ∀ t, AgreesOn (removeTouches s name) s t → find t name = find s name :=
    fun t h => AgreesOn.find_eq ⟨h.head, h.live, fun a ha => h.entry a (List.mem_append_left _ ha)⟩
  unfold remove at hremove
  cases hfind : find s name with
  | none =>
      rw [hfind] at hremove
      cases hremove
  | some found =>
      cases found with
      | none =>
          rw [hfind] at hremove
          cases hremove
          refine ⟨fun a _ => rfl, fun t h => ⟨t, ?_, h⟩⟩
          unfold remove
          rw [hfindEq t h, hfind]
      | some e =>
          rw [hfind] at hremove
          cases hremove
          have htouched : ∀ x ∈ [e, s.next e, (s.setPrev (s.next e) (s.prev e)).prev e],
              x ∈ removeTouches s name := by
            intro x hx
            unfold removeTouches
            rw [hfind]
            exact List.mem_append_right _ hx
          have he := htouched e List.mem_cons_self
          refine ⟨fun a ha => ?_, fun t h => ?_⟩
          · have hunlink : (unlink s e).entry a = s.entry a := by
              refine entry_unlink ?_ ?_
              · rintro rfl
                exact ha (htouched _ (by simp))
              · rintro rfl
                exact ha (htouched _ (by simp))
            by_cases hhead : (unlink s e).head = e
            · rw [if_pos hhead]
              exact hunlink
            · rw [if_neg hhead]
              exact hunlink
          · have hunlink := h.unlink he
            refine ⟨_, by unfold remove; rw [hfindEq t h, hfind], ?_⟩
            rw [hunlink.head]
            by_cases hhead : (unlink s e).head = e
            · rw [if_pos hhead, if_pos hhead]
              exact hunlink.dropHead (hhead ▸ he)
            · rw [if_neg hhead, if_neg hhead]
              exact hunlink

end

/-- Where the list starts after `Remove`: at the old head, or at its successor when the head itself
was removed. -/
theorem Represents.head_of_remove {l₁ l₂ : List Addr} {m' : List File}
    (h : Represents s (l₁ ++ e :: l₂) m) (h' : Represents s' (l₁ ++ l₂) m') :
    s'.head = if e = s.head then (if s.next e = e then 0 else s.next e) else s.head := by
  cases l₁ with
  | nil =>
      rw [if_pos h.head_cons.symm, h'.head, List.nil_append]
      cases l₂ with
      | nil =>
          rw [if_pos (h.ring.path.next_eq_head_iff.mpr rfl)]
          rfl
      | cons b t =>
          rw [if_neg (h.ring.path.next_eq_head_iff.not.mpr (List.cons_ne_nil b t)),
            h.ring.path.tail.1]
          rfl
  | cons a t =>
      have hne : e ≠ s.head := by
        rw [h.head_cons]
        rintro rfl
        exact (List.nodup_cons.mp h.ring.nodup).1 (List.mem_append_right t List.mem_cons_self)
      rw [if_neg hne, h.head_cons, h'.head]
      rfl

/-- `Remove(m_list_head->name_ptr)` takes out the head. -/
theorem Represents.remove_head {t : List Addr} (h : Represents s (a :: t) m) :
    ∃ s', Buildrd.remove s (s.entry s.head).name = some (s', initrdOk) ∧
      Represents s' t (t.map s.file) := by
  have hfind : find s (s.entry s.head).name = some (some a) := by
    rw [h.find_eq, h.head_cons]
    simp
  have h' : Represents s ([] ++ a :: t) m := h
  exact h'.remove_entry hfind

/-- **The loop of `Unload`.**  Before call `k` the list is the ring of all entries but the first
`k`. -/
theorem Represents.unload (h : Represents s l m) {fuel : Nat} (hfuel : l.length < fuel) :
    ∃ s' calls, Buildrd.unload fuel s = some (s', calls) ∧ Represents s' [] [] ∧
      calls.length = l.length ∧
      ∀ k (hk : k < calls.length), Represents calls[k] (l.drop k) (m.drop k) := by
  induction fuel generalizing s l m with
  | zero => omega
  | succ fuel ih =>
      cases l with
      | nil =>
          obtain rfl : m = [] := h.files.symm
          refine ⟨s, [], ?_, h, rfl, nofun⟩
          rw [Buildrd.unload, if_pos (show s.head = 0 from h.head)]
      | cons a t =>
          obtain ⟨s₁, hremove, h₁⟩ := h.remove_head
          obtain ⟨s', calls, hrun, hempty, hlength, hcalls⟩ :=
            ih h₁ (Nat.lt_of_succ_lt_succ hfuel)
          refine ⟨s', s :: calls, ?_, hempty, by rw [List.length_cons, hlength]; rfl, ?_⟩
          · rw [Buildrd.unload, if_neg h.head_ne_zero, hremove]
            simp only [hrun]
            rfl
          · intro k hk
            cases k with
            | zero => exact h
            | succ k =>
                have hfiles : m.drop (k + 1) = (t.map s.file).drop k := by
                  rw [← h.files, List.map_cons, List.drop_succ_cons]
                rw [hfiles]
                exact hcalls k (Nat.lt_of_succ_lt_succ hk)

/-- **`Remove` and `Unload` on a ring.**  An entry of the name is taken out, and the others stay in
their order; without one nothing happens.  `Unload` ends with an empty list after one call for each
entry, each of which touches only entries that are still in the ring. -/
theorem remove_and_unload (h : Represents s l m) (hm : (m.map File.name).Nodup) :
    (∀ name, name ∉ m.map File.name → remove s name = some (s, initrdFileNotFound)) ∧
    (∀ name, name ∈ m.map File.name → ∃ l₁ e l₂ s', l = l₁ ++ e :: l₂ ∧
      (s.entry e).name = name ∧ remove s name = some (s', initrdOk) ∧
      Represents s' (l₁ ++ l₂) (FileMap.remove m name) ∧
      (∀ a ∈ l₁ ++ l₂, s'.file a = s.file a) ∧
      s'.head = if e = s.head then (if s.next e = e then 0 else s.next e) else s.head) ∧
    (∀ fuel, l.length < fuel → ∃ s' calls, unload fuel s = some (s', calls) ∧ s'.head = 0 ∧
      calls.length = l.length ∧ ∀ k (hk : k < calls.length),
        Represents calls[k] (l.drop k) (m.drop k) ∧
        removeTouches calls[k] (calls[k].entry calls[k].head).name ⊆ l.drop k) := by
  refine ⟨fun name hname => h.remove_none hname, fun name hname => ?_, fun fuel hfuel => ?_⟩
  · obtain ⟨l₁, e, l₂, rfl, rfl, hfind⟩ := h.find_eq_some hname
    obtain ⟨s', hremove, h'⟩ := h.remove_entry hfind
    refine ⟨l₁, e, l₂, s', rfl, rfl, hremove, h.remove_files hm ▸ h', ?_, h.head_of_remove h'⟩
    exact List.map_inj_left.mp h'.files
  · obtain ⟨s', calls, hrun, hempty, hlength, hcalls⟩ := h.unload hfuel
    exact ⟨s', calls, hrun, hempty.head, hlength, fun k hk =>
      ⟨hcalls k hk, (hcalls k hk).removeTouches_subset _⟩⟩

/-- A list of two files: the second one is removed, or both. -/
theorem twoFiles_unloaded : ∃ s s₁ s₂ calls, s.head = 0x1000 ∧
    remove s nameB = some (s₁, initrdOk) ∧ unload 3 s = some (s₂, calls) ∧ s₂.head = 0 ∧
    calls.length = 2 := by
  obtain ⟨s, h⟩ := exists_twoFiles
  obtain ⟨-, hremove, hunload⟩ := remove_and_unload h (by decide)
  obtain ⟨-, -, -, s₁, -, -, hremoved, -⟩ := hremove nameB (by decide)
  obtain ⟨s₂, calls, hrun, hempty, hlength, -⟩ := hunload 3 (by decide)
  exact ⟨s, s₁, s₂, calls, h.head, hremoved, hrun, hempty, hlength⟩

end Buildrd
end ZineOS
