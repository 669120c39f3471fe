import ZineOS.Buildrd.Options
import ZineOS.Buildrd.AddReplace
import ZineOS.Buildrd.SaveLoad

/-!
# The tool as a whole

`main` with what it does to the disk: it loads the image, goes over the arguments, and saves the image
unless one of them makes it return.  What is to happen is a list of edits of the map of files
(`edits`), which ends where the tool returns (`ending`); `secondLoop_done` is that the second loop does
it.
-/

namespace ZineOS
namespace Buildrd

open Lib Loader

/-! ## `main` -/

/-- The bytes of an argument, one for each character. -/
def bytesOf (arg : String) : CString := cstring (arg.toList.map fun c => BitVec.ofNat 8 c.toNat)

abbrev Disk := CString → Option (List Byte)

/-- What the tool finds in memory, on the disk, and gets from `malloc`. -/
structure Host (w : Nat) where
  mem : Mem
  /-- The pointers in `argv`. -/
  argv : Word32 → BitVec w
  disk : Disk
  entry : Addr → RdListEntry
  heap : Heap
  /-- The list entry for the file that the argument at an index names, with these ones in use. -/
  malloc : Word32 → List Addr → Addr
  /-- The compiler's value of `'init'`, and what the local of `Save` holds. -/
  magic : Word32
  reserved : Word32

variable {w : Nat}

/-- What the second loop does for one of its events. -/
def applyEvent (cl : CommandLine) (host : Host w) (s : State) : Event → Option State
  | .value opt i =>
      if opt = "-a" then
        (addReplace host.mem host.disk s (host.argv i) (host.malloc i s.live)).map Prod.fst
      else if opt = "-r" then (remove s (bytesOf (cl.argv i))).map Prod.fst
      else some s
  | _ => some s

/-- `Display`: the names and sizes that are printed. -/
def display (s : State) : Option (List (CString × Word32)) :=
  if s.head = 0 then some []
  else forEntries s (fun out e => out ++ [(e.name, e.fileSize)]) []

/-- `main` returns from the second loop. -/
def Event.returns (cl : CommandLine) : Event → Bool
  | .other _ => true
  | .option i => cl.argv i = "-e" || cl.argv i = "-d"
  | _ => false

def Event.displays (cl : CommandLine) : Event → Bool
  | .option i => cl.argv i = "-d"
  | _ => false

structure Outcome where
  disk : Disk
  shown : List (CString × Word32)

/-- `main`, with an image that can be written. -/
def tool (cl : CommandLine) (host : Host w) (fuel : Nat) : Option Outcome :=
  if cl.argc.toInt < 2 then some ⟨host.disk, []⟩
  else do
    let r ← firstLoop cl fuel 1 none
    if r.returned then return ⟨host.disk, []⟩
    let file := bytesOf (r.ramdiskFile.getD "initrd.bin")
    let (s, ret, _) ← load host.magic host.heap (host.disk file) (State.init host.entry)
    if ret = initrdInvalidFile then return ⟨host.disk, []⟩
    if ret = initrdWrongVersion then return ⟨host.disk, []⟩
    let events ← secondLoop cl fuel 1
    let s ← events.foldlM (applyEvent cl host) s
    if events.any (Event.returns cl) then
      let shown ← if events.any (Event.displays cl) then display s else some []
      return ⟨host.disk, shown⟩
    let (_, bytes) ← save host.magic host.reserved s
    return ⟨match bytes with
      | none => host.disk
      | some bytes => Function.update host.disk file (some bytes), []⟩

/-! ## What it is for -/

inductive Edit
  | add (path : String)
  | remove (name : String)

/-- The edits that the arguments ask for, up to the first one that makes the tool return. -/
def edits : List String → List Edit
  | a :: v :: rest =>
      if a = "-a" then .add v :: edits rest
      else if a = "-r" then .remove v :: edits rest
      else if a = "-f" then edits rest
      else []
  | _ => []

inductive Ending
  | saves | displays | returns
  deriving DecidableEq

/-- How the tool ends. -/
def ending : List String → Ending
  | [] => .saves
  | [a] => if a = "-a" ∨ a = "-r" then .saves else if a = "-d" then .displays else .returns
  | a :: _ :: rest =>
      if a = "-a" ∨ a = "-r" then ending rest
      else if a = "-f" then ending rest
      else if a = "-d" then .displays
      else .returns

/-- The file that is kept for a path. -/
def fileAt (path : String) (bytes : List Byte) : File :=
  ⟨baseName (bytesOf path), BitVec.ofNat 32 bytes.length,
    bytes.take (BitVec.ofNat 32 bytes.length).toNat⟩

def FileMap.edit (disk : Disk) (m : FileMap) : Edit → FileMap
  | .add path =>
      match disk (bytesOf path) with
      | none => m
      | some bytes => m.add (fileAt path bytes)
  | .remove name => m.remove (bytesOf name)

/-- Each file that is added has a new name, or finds at most one file. -/
def EditsKeep (disk : Disk) : FileMap → List Edit → Prop
  | _, [] => True
  | m, .add path :: es =>
      (∀ bytes, disk (bytesOf path) = some bytes →
        (fileAt path bytes).name ∉ m.map File.name ∨ m.length ≤ 1) ∧
      EditsKeep disk (m.edit disk (.add path)) es
  | m, .remove name :: es => EditsKeep disk (m.edit disk (.remove name)) es

/-- The arguments lie where `argv` points to, and `malloc` gives out what is not in use. -/
structure Host.Ready (host : Host w) (cl : CommandLine) : Prop where
  argv : ∀ i : Word32, 1 ≤ i.toNat → i < cl.argc →
    host.mem.StringAt (host.argv i) (bytesOf (cl.argv i)).val
  short : ∀ a ∈ cl.args, (bytesOf a).val.length + 1 < 2 ^ 32
  heap : host.heap.Fresh 0 []
  malloc : ∀ i live, host.malloc i live ≠ 0 ∧ host.malloc i live ∉ live

/-- Distinct names, and all of each file. -/
structure FileMap.Good (m : FileMap) : Prop where
  names : (m.map File.name).Nodup
  sizes : ∀ f ∈ m, f.data.length = f.size.toNat

variable {cl : CommandLine} {host : Host w} {n fuel : Nat} {a v : String} {suf rest : List String}
  {s : State} {l : List Addr} {m : FileMap} {disk : Disk} {e : Edit}

/-! ## One edit -/

theorem Represents.display_eq (h : Represents s l m) :
    display s = some (m.map fun f => (f.name, f.size)) := by
  unfold display
  by_cases hne : m = []
  · subst hne
    have hl : l = [] := List.map_eq_nil_iff.mp h.files
    have hhead : s.head = 0 := by rw [h.head, hl]; rfl
    rw [if_pos hhead]
    rfl
  · have hhead : s.head ≠ 0 := by
      cases l with
      | nil => exact absurd h.files.symm hne
      | cons a t => exact h.head_ne_zero
    have hfold : ∀ (es : List RdListEntry) (out : List (CString × Word32)),
        es.foldl (fun out e => out ++ [(e.name, e.fileSize)]) out =
          out ++ es.map fun e => (e.name, e.fileSize) := by
      intro es out
      induction es generalizing out with
      | nil => exact (List.append_nil out).symm
      | cons e es ih => rw [List.foldl_cons, ih, List.map_cons, List.append_assoc]; rfl
    rw [if_neg hhead, InitRd.forEntries_eq h hne, hfold, List.nil_append, List.map_map, ← h.files,
      List.map_map]
    rfl

theorem length_fileAt (path : String) (bytes : List Byte) :
    (fileAt path bytes).data.length = (fileAt path bytes).size.toNat := by
  unfold fileAt
  rw [List.length_take, BitVec.toNat_ofNat]
  exact Nat.min_eq_left (Nat.mod_le _ _)

theorem FileMap.mem_add {f g : File} (h : g ∈ m.add f) : g = f ∨ g ∈ m := by
  unfold FileMap.add at h
  split_ifs at h
  · obtain ⟨x, hx, rfl⟩ := List.mem_map.mp h
    split_ifs
    · exact .inl rfl
    · exact .inr hx
  · rcases List.mem_append.mp h with hold | hnew
    · exact .inr hold
    · exact .inl (List.mem_singleton.mp hnew)

theorem FileMap.Good.remove (h : m.Good) (name : CString) : (FileMap.remove m name).Good where
  names := FileMap.nodup_remove h.names name
  sizes := fun f hf => h.sizes f (List.mem_of_mem_filter hf)

/-- **Adding a file by an argument.** -/
theorem Represents.applyAdd (h : Represents s l m) (hm : m.Good) (hready : host.Ready cl)
    {i : Word32} (hone : 1 ≤ i.toNat) (hlt : i < cl.argc) (hmem : cl.argv i ∈ cl.args)
    (hkeep : ∀ bytes, host.disk (bytesOf (cl.argv i)) = some bytes →
      (fileAt (cl.argv i) bytes).name ∉ m.map File.name ∨ m.length ≤ 1) :
    ∃ s' l', applyEvent cl host s (.value "-a" i) = some s' ∧
      Represents s' l' (m.edit host.disk (.add (cl.argv i))) ∧
      (m.edit host.disk (.add (cl.argv i))).Good := by
  have hstring := hready.argv i hone hlt
  have hshort := hready.short _ hmem
  simp only [applyEvent, if_true]
  cases hopen : host.disk (bytesOf (cl.argv i)) with
  | none =>
      have hedit : m.edit host.disk (.add (cl.argv i)) = m := by simp only [FileMap.edit, hopen]
      rw [addReplace_not_found hstring hopen, hedit]
      exact ⟨s, l, rfl, h, hm⟩
  | some bytes =>
      have hedit : m.edit host.disk (.add (cl.argv i)) = m.add (fileAt (cl.argv i) bytes) := by
        simp only [FileMap.edit, hopen]
      obtain ⟨hnew, hfresh⟩ := hready.malloc i s.live
      have hname : (baseName (bytesOf (cl.argv i))).val.length ≤ (bytesOf (cl.argv i)).val.length :=
        (List.rtakeWhile_suffix _ _).length_le
      have hallowed : Allowed s (.addFromMemory (fileAt (cl.argv i) bytes).name
          (fileAt (cl.argv i) bytes).data (fileAt (cl.argv i) bytes).size (host.malloc i s.live)) :=
        ⟨hnew, hfresh, Nat.lt_of_le_of_lt (Nat.succ_le_succ hname) hshort⟩
      obtain ⟨s', r, l', hexec, h', hnodup⟩ := h.exec hm.names hallowed
        (h.keepsOthers (hkeep bytes hopen) _)
      refine ⟨s', l', ?_, ?_, ?_⟩
      · rw [addReplace_eq hstring (by omega) hopen]
        exact congrArg (Option.map Prod.fst) hexec
      · rw [hedit]
        exact h'
      · rw [hedit]
        refine ⟨hnodup, fun f hf => ?_⟩
        rcases FileMap.mem_add hf with rfl | hf
        · exact length_fileAt _ _
        · exact hm.sizes f hf

/-- **Removing one.** -/
theorem Represents.applyRemove (h : Represents s l m) (hm : m.Good) (cl : CommandLine)
    (host : Host w) (i : Word32) :
    ∃ s' l', applyEvent cl host s (.value "-r" i) = some s' ∧
      Represents s' l' (m.edit host.disk (.remove (cl.argv i))) ∧
      (m.edit host.disk (.remove (cl.argv i))).Good := by
  obtain ⟨s', r, l', hremove, h'⟩ := h.remove hm.names (bytesOf (cl.argv i))
  refine ⟨s', l', ?_, h', hm.remove _⟩
  have hother : ¬ "-r" = "-a" := by decide
  simp only [applyEvent, if_neg hother, if_true, hremove, Option.map_some]

/-! ## The loop -/

/-- What the second loop has done to the list from `s` on: its edits, and how it has ended. -/
structure LoopDone (cl : CommandLine) (host : Host w) (s : State) (m : FileMap) (suf : List String)
    (events : List Event) : Prop where
  edits : ∃ s' l', events.foldlM (applyEvent cl host) s = some s' ∧
    Represents s' l' ((Buildrd.edits suf).foldl (FileMap.edit host.disk) m) ∧
    ((Buildrd.edits suf).foldl (FileMap.edit host.disk) m).Good
  returns : events.any (Event.returns cl) = decide (ending suf ≠ .saves)
  displays : events.any (Event.displays cl) = decide (ending suf = .displays)

/-- The events of an argument that is no edit, in front of others. -/
theorem LoopDone.cons {events first : List Event} {suf' : List String}
    (h : LoopDone cl host s m suf' events) (hedits : Buildrd.edits suf = Buildrd.edits suf')
    (hending : ending suf = ending suf')
    (happly : first.foldlM (applyEvent cl host) s = some s)
    (hfirst : ∀ e ∈ first, e.returns cl = false ∧ e.displays cl = false) :
    LoopDone cl host s m suf (first ++ events) where
  edits := by
    rw [hedits, List.foldlM_append, happly]
    exact h.edits
  returns := by
    rw [hending, List.any_append, List.any_eq_false.mpr fun e he => by simp [(hfirst e he).1]]
    exact h.returns
  displays := by
    rw [hending, List.any_append, List.any_eq_false.mpr fun e he => by simp [(hfirst e he).2]]
    exact h.displays

/-- An edit in front of others. -/
theorem LoopDone.edit {events : List Event} {s' : State} {suf' : List String} {i j : Word32}
    (h : LoopDone cl host s' (m.edit host.disk e) suf' events)
    (hedits : Buildrd.edits suf = e :: Buildrd.edits suf') (hending : ending suf = ending suf')
    (hoption : cl.argv i = a) (ha : a = "-a" ∨ a = "-r")
    (happly : applyEvent cl host s (.value a j) = some s') :
    LoopDone cl host s m suf ([.option i, .value a j] ++ events) where
  edits := by
    have hfold : ([.option i, .value a j] : List Event).foldlM (applyEvent cl host) s = some s' := by
      have hoption : applyEvent cl host s (.option i) = some s := rfl
      simp only [List.foldlM_cons, List.foldlM_nil, hoption, happly, Option.bind_eq_bind,
        Option.bind_some, Option.pure_def]
    rw [hedits, List.foldlM_append, hfold]
    exact h.edits
  returns := by
    have hfirst : Event.returns cl (.option i) = false := by
      rw [Event.returns, hoption]
      rcases ha with rfl | rfl <;> decide
    rw [hending, List.any_append, List.any_cons, hfirst]
    exact h.returns
  displays := by
    have hfirst : Event.displays cl (.option i) = false := by
      rw [Event.displays, hoption]
      rcases ha with rfl | rfl <;> decide
    rw [hending, List.any_append, List.any_cons, hfirst]
    exact h.displays

theorem From.mem (h : From cl n (a :: rest)) : a ∈ cl.args :=
  List.mem_of_mem_drop (h.rest ▸ List.mem_cons_self)

/-- An argument that ends the loop. -/
theorem loopDone_last (hcl : From cl n (a :: rest)) (hvalue : ¬(a = "-a" ∨ a = "-r"))
    (hf : a ≠ "-f") (h : Represents s l m) (hm : m.Good) :
    LoopDone cl host s m (a :: rest)
      (if a = "-e" ∨ a = "-d" then [.option (BitVec.ofNat 32 n)] else [.other (BitVec.ofNat 32 n)]) := by
  obtain ⟨hadd, hremove⟩ := not_or.mp hvalue
  have hedits : edits (a :: rest) = [] := by
    cases rest <;> simp [edits, hadd, hremove, hf]
  have hending : ending (a :: rest) = if a = "-d" then .displays else .returns := by
    cases rest <;> simp [ending, hadd, hremove, hf]
  have hargv := hcl.argv
  have hdone : ∀ e : Event, (∀ opt i, e ≠ .value opt i) → [e].foldlM (applyEvent cl host) s = some s := by
    intro e he
    cases e with
    | value opt i => exact absurd rfl (he opt i)
    | _ => rfl
  by_cases hoption : a = "-e" ∨ a = "-d"
  · rw [if_pos hoption]
    refine ⟨⟨s, l, hdone _ nofun, hedits ▸ h, hedits ▸ hm⟩, ?_, ?_⟩
    · rcases hoption with rfl | rfl <;> simp [Event.returns, hargv, hending]
    · rcases hoption with rfl | rfl <;> simp [Event.displays, hargv, hending]
  · rw [if_neg hoption]
    have hd : a ≠ "-d" := fun hd => hoption (.inr hd)
    rw [if_neg hd] at hending
    refine ⟨⟨s, l, hdone _ nofun, hedits ▸ h, hedits ▸ hm⟩, ?_, ?_⟩
    · simp [Event.returns, hending]
    · simp [Event.displays, hending]

/-- The second loop from index `n` on. -/
theorem secondLoop_done (hready : host.Ready cl) (hcl : From cl n suf)
    (hclean : clean suf = true) (hfuel : suf.length < fuel) (h : Represents s l m) (hm : m.Good)
    (hkeep : EditsKeep host.disk m (edits suf)) :
    ∃ events, secondLoop cl fuel (BitVec.ofNat 32 n) = some events ∧
      LoopDone cl host s m suf events := by
  induction fuel generalizing n suf s l m with
  | zero => exact absurd hfuel (Nat.not_lt_zero _)
  | succ fuel ih =>
      cases suf with
      | nil => exact ⟨[], secondLoop_nil hcl, ⟨⟨s, l, rfl, h, hm⟩, rfl, rfl⟩⟩
      | cons a rest =>
          rw [List.length_cons] at hfuel
          rw [secondLoop_cons hcl]
          have hargv := hcl.argv
          by_cases hvalue : a = "-a" ∨ a = "-r"
          · rw [if_pos hvalue]
            cases rest with
            | nil =>
                obtain ⟨events, hevents, hdone⟩ := ih hcl.next rfl (by simpa using hfuel) h hm trivial
                dsimp only
                rw [hevents]
                refine ⟨_, rfl, hdone.cons rfl (by simp [ending, hvalue]) rfl ?_⟩
                intro e he
                obtain rfl := List.mem_singleton.mp he
                rcases hvalue with rfl | rfl <;> simp [Event.returns, Event.displays, hargv]
            | cons v rest =>
                have hboth : v ≠ "-f" ∧ clean rest = true := by
                  simpa [clean, hvalue] using hclean
                rw [List.length_cons] at hfuel
                obtain ⟨hpos, hlt⟩ := hcl.next.within (.option (BitVec.ofNat 32 (n + 1))) rfl
                have hone : 1 ≤ (BitVec.ofNat 32 (n + 1)).toNat := le_trans (Nat.succ_pos n) hpos
                have hname : cl.argv (BitVec.ofNat 32 (n + 1)) = v := hcl.next.argv
                have hend : ending (a :: v :: rest) = ending rest := by simp [ending, hvalue]
                rcases hvalue with rfl | rfl
                · obtain ⟨hkeep₁, hkeep₂⟩ := hkeep
                  obtain ⟨s₁, l₁, happly, h₁, hm₁⟩ := h.applyAdd hm hready hone hlt
                    (by rw [hname]; exact hcl.next.mem) (by rw [hname]; exact hkeep₁)
                  rw [hname] at h₁ hm₁
                  obtain ⟨events, hevents, hdone⟩ :=
                    ih hcl.next.next hboth.2 (by omega) h₁ hm₁ hkeep₂
                  dsimp only
                  rw [hevents]
                  exact ⟨_, rfl, hdone.edit rfl hend hargv (.inl rfl) happly⟩
                · obtain ⟨s₁, l₁, happly, h₁, hm₁⟩ :=
                    h.applyRemove hm cl host (BitVec.ofNat 32 (n + 1))
                  rw [hname] at h₁ hm₁
                  obtain ⟨events, hevents, hdone⟩ :=
                    ih hcl.next.next hboth.2 (by omega) h₁ hm₁ hkeep
                  dsimp only
                  rw [hevents]
                  exact ⟨_, rfl, hdone.edit rfl hend hargv (.inr rfl) happly⟩
          · rw [if_neg hvalue]
            by_cases hf : a = "-f"
            · subst hf
              cases rest with
              | nil => exact absurd hclean (by decide)
              | cons v rest =>
                  rw [List.length_cons] at hfuel
                  obtain ⟨events, hevents, hdone⟩ := ih hcl.next.next hclean (by omega) h hm hkeep
                  rw [if_pos rfl, hevents]
                  refine ⟨_, rfl, hdone.cons rfl rfl rfl ?_⟩
                  intro e he
                  rcases List.mem_cons.mp he with rfl | he
                  · simp [Event.returns, Event.displays, hargv]
                  · obtain rfl := List.mem_singleton.mp he
                    exact ⟨rfl, rfl⟩
            · rw [if_neg hf]
              refine ⟨_, ?_, loopDone_last hcl hvalue hf h hm⟩
              split_ifs <;> rfl

end Buildrd
end ZineOS
