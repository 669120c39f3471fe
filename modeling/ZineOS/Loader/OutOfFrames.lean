import ZineOS.Loader.PageMap

/-!
# `Map` when the frames run out

`Map` takes what `Frame::Alloc` returns for a frame.  When it is null, `Map` zeroes frame 0, links it
as the missing table and goes on from there.

* `mapTrace` is `map` with a list of what it stores.  Every frame that it allocates is zeroed
  (`stored_map`), and the null pointer is zeroed like any other.
* `Lost` — the call has left the page tables through a slot that names frame 0.  Whatever it does
  from there on stays outside the tables, so the slot stays.
* `Progress` — one level of a call either goes on down the tables or gets lost (`progress_descend`).
* **`outOfFrames_never_survives`** — no call that runs out of frames survives: page 0 is written
  whatever the call, and with the flags the loader uses a slot is left naming frame 0.
-/

namespace ZineOS
namespace Loader
namespace VirtualMemory

open Lib
open Lib.RadixTree (follow lookup setEntry)

/-- The blocks that `Frame::Alloc` did hand out. -/
def nonNull (log : List (Word32 × Word64)) : List (Word32 × Word64) := log.filter fun a => a.1 ≠ 0

/-- The pointers that `Frame::Alloc` returned during a call. -/
def callAllocs (s : Machine) (c : MapCall) : List (Word32 × Word64) :=
  (map s c.phys c.virt c.flags).allocs.drop s.allocs.length

/-- `Frame::Alloc` returned 0 at one of the levels. -/
def RunsOut (s : Machine) (c : MapCall) : Prop := ∃ a ∈ callAllocs s c, a.1 = 0

instance (s : Machine) (c : MapCall) : Decidable (RunsOut s c) :=
  inferInstanceAs (Decidable (∃ a ∈ callAllocs s c, a.1 = 0))

/-! ## What a call stores -/

/-- `descend` with its stores, each with its address and length. -/
def descendTrace (s : Machine) (table index : Word32) (flags : Word64) :
    Word32 × Machine × List (Nat × Nat) :=
  let (s, stores) :=
    if load64 s.mem (slot table index) = 0 then
      let (ptr, s) := s.alloc Frame.frameNoLimit 4096 Frame.frameUsed
      let mem := memzero s.mem ptr 4096
      ({ s with mem := store64 mem (slot table index) (ptr.setWidth 64 ||| flags) },
        [(ptr.toNat, 4096), ((slot table index).toNat, 8)])
    else (s, [])
  ((load64 s.mem (slot table index) &&& addressMask).setWidth 32, s, stores)

/-- `map` with its stores. -/
def mapTrace (s : Machine) (phys virt flags : Word64) : Machine × List (Nat × Nat) :=
  let phys := alignFloor phys 0x1000
  let virt := alignFloor virt 0x1000
  let (pml3Table, s, stores3) := descendTrace s s.pml4Table (tableIndex virt 39) flags
  let (pml2Table, s, stores2) := descendTrace s pml3Table (tableIndex virt 30) flags
  let (pml1Table, s, stores1) := descendTrace s pml2Table (tableIndex virt 21) flags
  let leaf := slot pml1Table (tableIndex virt 12)
  ({ s with mem := store64 s.mem leaf ((phys &&& addressMask) ||| flags) },
    stores3 ++ stores2 ++ stores1 ++ [(leaf.toNat, 8)])

/-- From `s` to `s'` only the bytes of `stores` are written, and among them is every frame that was
allocated. -/
structure Stored (s s' : Machine) (stores : List (Nat × Nat)) : Prop where
  frame : ∀ x, ¬ Mem.Covers stores x → s'.mem x = s.mem x
  zeroed : ∃ new, s'.allocs = s.allocs ++ new ∧ ∀ a ∈ new, (a.1.toNat, 4096) ∈ stores

theorem Stored.trans {s s' s'' : Machine} {stores stores' : List (Nat × Nat)}
    (h : Stored s s' stores) (h' : Stored s' s'' stores') : Stored s s'' (stores ++ stores') := by
  obtain ⟨new, hnew, hzeroed⟩ := h.zeroed
  obtain ⟨new', hnew', hzeroed'⟩ := h'.zeroed
  refine ⟨fun x hx => ?_, new ++ new', by rw [hnew', hnew, List.append_assoc], fun a ha => ?_⟩
  · rw [Mem.covers_append, not_or] at hx
    rw [h'.frame x hx.2, h.frame x hx.1]
  · rcases List.mem_append.mp ha with ha | ha
    · exact List.mem_append_left _ (hzeroed a ha)
    · exact List.mem_append_right _ (hzeroed' a ha)

/-- One store of an entry. -/
theorem stored_store64 (s : Machine) (addr : Word32) (e : Word64) :
    Stored s { s with mem := store64 s.mem addr e } [(addr.toNat, 8)] := by
  refine ⟨fun x hx => ?_, [], by simp, by simp⟩
  rw [Mem.covers_cons, not_or] at hx
  exact Mem.store_of_not hx.1

theorem stored_descend {s s' : Machine} {table index ptr : Word32} {flags : Word64}
    {stores : List (Nat × Nat)} (h : descendTrace s table index flags = (ptr, s', stores)) :
    descend s table index flags = (ptr, s') ∧ Stored s s' stores := by
  unfold descendTrace at h
  by_cases hzero : load64 s.mem (slot table index) = 0
  · -- the frame is zeroed and then linked
    simp only [if_pos hzero, Machine.alloc, Prod.mk.injEq] at h
    obtain ⟨rfl, rfl, rfl⟩ := h
    refine ⟨by simp only [descend, if_pos hzero, Machine.alloc], fun x hx => ?_, _, rfl, by simp⟩
    simp only [Mem.covers_cons, not_or] at hx
    show store64 (memzero s.mem _ 4096) _ _ x = s.mem x
    unfold store64 memzero
    rw [Mem.store_of_not hx.2.1, Mem.fill_of_not hx.1]
  · simp only [if_neg hzero, Prod.mk.injEq] at h
    obtain ⟨rfl, rfl, rfl⟩ := h
    exact ⟨descend_of_ne_zero hzero, fun _ _ => rfl, [], by simp, by simp⟩

/-- The trace is that of `map`. -/
theorem stored_map (s : Machine) (phys virt flags : Word64) :
    (mapTrace s phys virt flags).1 = map s phys virt flags ∧
      Stored s (map s phys virt flags) (mapTrace s phys virt flags).2 := by
  cases h3 : descendTrace s s.pml4Table (tableIndex (alignFloor virt 0x1000) 39) flags with
  | mk p3 r3 =>
  obtain ⟨s3, stores3⟩ := r3
  cases h2 : descendTrace s3 p3 (tableIndex (alignFloor virt 0x1000) 30) flags with
  | mk p2 r2 =>
  obtain ⟨s2, stores2⟩ := r2
  cases h1 : descendTrace s2 p2 (tableIndex (alignFloor virt 0x1000) 21) flags with
  | mk p1 r1 =>
  obtain ⟨s1, stores1⟩ := r1
  obtain ⟨hd3, hs3⟩ := stored_descend h3
  obtain ⟨hd2, hs2⟩ := stored_descend h2
  obtain ⟨hd1, hs1⟩ := stored_descend h1
  have htrace : mapTrace s phys virt flags = ({ s1 with
      mem := store64 s1.mem (slot p1 (tableIndex (alignFloor virt 0x1000) 12))
        ((alignFloor phys 0x1000 &&& addressMask) ||| flags) },
      stores3 ++ stores2 ++ stores1 ++
        [((slot p1 (tableIndex (alignFloor virt 0x1000) 12)).toNat, 8)]) := by
    unfold mapTrace
    simp only [h3, h2, h1]
  rw [map_eq hd3 hd2 hd1, htrace]
  exact ⟨rfl, ((hs3.trans hs2).trans hs1).trans (stored_store64 s1 _ _)⟩

/-- A call that runs out of frames zeroes page 0. -/
theorem frameZero_stored {s : Machine} {c : MapCall} (hout : RunsOut s c) :
    (0, 4096) ∈ (mapTrace s c.phys c.virt c.flags).2 := by
  obtain ⟨a, ha, hzero⟩ := hout
  obtain ⟨new, hnew, hzeroed⟩ := (stored_map s c.phys c.virt c.flags).2.zeroed
  have hmem : a ∈ new := by
    unfold callAllocs at ha
    rwa [hnew, List.drop_left] at ha
  have hstore := hzeroed a hmem
  rw [hzero] at hstore
  exact hstore

/-- The call leaves the page tables in order: every other page keeps its translation, nothing is
stored in page 0, and no slot of an upper table names frame 0. -/
structure Survives (s : Machine) (c : MapCall) : Prop where
  others : ∀ v, ¬ SamePage c.virt v →
    translate (map s c.phys c.virt c.flags).mem s.pml4Table.toNat v =
      translate s.mem s.pml4Table.toNat v
  frameZero : ∀ x, x < 0x1000 → ¬ Mem.Covers (mapTrace s c.phys c.virt c.flags).2 x
  noNull : ∀ p, p ≠ [] → p.length ≤ 3 → Machine.follow (map s c.phys c.virt c.flags) p ≠ some 0

/-! ## A call that has left the tables -/

/-- The call is at `ptr`, outside the tables, and path `p` ends at frame 0.  The path runs through
`tables` only, so nothing that happens outside of them can repair it. -/
structure Lost (s : Machine) (tables : List Nat) (p : List (BitVec 9)) (ptr : Word32) : Prop where
  zeroFree : 0 ∉ tables
  owned : ∀ t ∈ tables, ∃ a ∈ (s.pml4Table, 4096) :: nonNull s.allocs,
    a.1.toNat = t * 0x1000 ∧ a.2 = 4096
  path : ∀ c, (∀ t ∈ tables, ∀ i, c t i = entryAt s.mem t i) →
    follow pageFormat c (s.pml4Table.toNat / 0x1000) p = some 0
  /-- the entries of the frame at `ptr` are empty or name that frame itself -/
  frame : ∃ v, ptr.toNat = v * 0x1000 ∧ v ∉ tables ∧
    ∀ j, entryAt s.mem v j = 0 ∨ nextTable (entryAt s.mem v j) = some v

/-- The blocks that back tables other than frame 0 are no null pointers. -/
theorem PageTables.owned_nonNull {s : Machine} {tables : List Nat} (h : PageTables s tables)
    (hnull : 0 ∉ tables) : ∀ t ∈ tables, ∃ a ∈ (s.pml4Table, 4096) :: nonNull s.allocs,
      a.1.toNat = t * 0x1000 ∧ a.2 = 4096 := by
  intro t ht
  obtain ⟨a, ha, haddr, hsize⟩ := h.owned t ht
  have hne : a.1 ≠ 0 := by
    intro hzero
    have ht0 : t = 0 := by
      rw [hzero] at haddr
      simp at haddr
      exact haddr
    exact hnull (ht0 ▸ ht)
  refine ⟨a, ?_, haddr, hsize⟩
  rcases List.mem_cons.mp ha with rfl | ha
  · exact List.mem_cons_self ..
  · exact List.mem_cons_of_mem _ (List.mem_filter.mpr ⟨ha, by simpa using hne⟩)

/-- Blocks stay in the log. -/
theorem owned_of_prefix {pml4 : Word32} {log log' : List (Word32 × Word64)} {tables : List Nat}
    (howned : ∀ t ∈ tables, ∃ a ∈ (pml4, 4096) :: nonNull log,
      a.1.toNat = t * 0x1000 ∧ a.2 = 4096) (hlog : log <+: log') :
    ∀ t ∈ tables, ∃ a ∈ (pml4, 4096) :: nonNull log',
      a.1.toNat = t * 0x1000 ∧ a.2 = 4096 := by
  intro t ht
  obtain ⟨a, ha, hblock⟩ := howned t ht
  exact ⟨a, ((List.prefix_cons_inj _).mpr (hlog.filter _)).subset ha, hblock⟩

/-- A frame that is null or really handed out is none of the tables. -/
theorem fresh_of_nonNull {pml4 : Word32} {log : List (Word32 × Word64)} {tables : List Nat}
    (hnull : 0 ∉ tables) (howned : ∀ t ∈ tables, ∃ a ∈ (pml4, 4096) :: nonNull log,
      a.1.toNat = t * 0x1000 ∧ a.2 = 4096) {ptr : Word32} {u : Nat}
    (hsep : Separate pml4 (nonNull (log ++ [(ptr, 4096)]))) (hptr : ptr.toNat = u * 0x1000) :
    u ∉ tables := by
  by_cases hzero : ptr = 0
  · have hu : u = 0 := by
      rw [hzero] at hptr
      simp at hptr
      exact hptr
    rwa [hu]
  · have hlog : nonNull (log ++ [(ptr, 4096)]) = nonNull log ++ [(ptr, 4096)] := by
      unfold nonNull
      rw [List.filter_append]
      refine congrArg (nonNull log ++ ·) (List.filter_cons_of_pos ?_)
      simpa using hzero
    rw [hlog] at hsep
    exact hsep.fresh howned hptr

/-- A level that is given the null pointer for a table. -/
theorem lost_of_null {s s' : Machine} {tables : List Nat} (h : PageTables s tables)
    (hnull : 0 ∉ tables) {p : List (BitVec 9)} (hlen : p.length < 3) {t : Nat}
    (hp : Machine.follow s p = some t) {table index ptr : Word32} {flags : Word64}
    (htable : table.toNat = t * 0x1000) {i : BitVec 9} (hindex : index.toNat = i.toNat)
    (hflags : IsMapFlags flags) (hzero : entryAt s.mem t i = 0) {frame : Frame.Table}
    (halloc : Frame.alloc s.frame Frame.frameNoLimit 4096 Frame.frameUsed = (0, frame))
    (hd : descend s table index flags = (ptr, s')) : Lost s' tables (p ++ [i]) ptr := by
  have ht : t ∈ tables := h.tree.mem_of_follow hlen.le hp
  have ht0 : (0 : Nat) ≠ t := (ne_of_mem_of_not_mem ht hnull).symm
  obtain ⟨f, s1, heq, hptr, hpml4, -, hentries⟩ :=
    descend_missing (u := 0) htable hindex hflags halloc rfl hzero
  have hlog := logged_descend hd
  rw [hd, Prod.mk.injEq] at heq
  obtain ⟨rfl, rfl⟩ := heq
  constructor
  · exact hnull
  · rw [hpml4]
    exact owned_of_prefix (h.owned_nonNull hnull) hlog.isPrefix
  · -- the slot of the missing level names frame 0 now, in any memory with these tables
    intro c hc
    have hnone : pageFormat.next (entryAt s.mem t i) = none := by
      rw [hzero]
      exact pageFormat.next_empty
    have hsame : ∀ v ∈ tables, ∀ j, c v j =
        setEntry (entryAt s.mem) t i (BitVec.ofNat 64 (0 * 0x1000) ||| flags) v j := by
      intro v hv j
      rw [hc v hv j, hentries]
      unfold setEntry zeroTable
      rw [if_neg (ne_of_mem_of_not_mem hv hnull)]
    rw [hpml4, h.tree.follow_concat_of_agree hlen hp hnone hsame]
    exact nextTable_frame (by decide) hflags
  · refine ⟨0, hptr, hnull, fun j => Or.inl ?_⟩
    rw [hentries, RadixTree.setEntry_of_table_ne ht0]
    exact if_pos rfl

/-- A lost call that needs another table gets a frame that is none of the tables. -/
theorem Lost.descend_missing {s s' : Machine} {tables : List Nat} {p : List (BitVec 9)}
    {table index ptr : Word32} (h : Lost s tables p table) {flags : Word64} {i : BitVec 9}
    (hindex : index.toNat = i.toNat) (hflags : IsMapFlags flags)
    (hsep : Separate s.pml4Table (nonNull s'.allocs)) {v : Nat} (htable : table.toNat = v * 0x1000)
    (hv : v ∉ tables) (hzero : entryAt s.mem v i = 0)
    (hd : VirtualMemory.descend s table index flags = (ptr, s')) : Lost s' tables p ptr := by
  cases halloc : Frame.alloc s.frame Frame.frameNoLimit 4096 Frame.frameUsed with
  | mk f frame =>
  obtain ⟨u, hu⟩ := frame_of_alloc halloc
  have hload : load64 s.mem (slot table index) = 0 := (load64_slot htable hindex).trans hzero
  have hlinked : s'.allocs = s.allocs ++ [(f, 4096)] := by
    rw [descend_of_eq_zero hload, Prod.mk.injEq] at hd
    rw [← hd.2, linked_eq halloc]
  obtain ⟨q, s1, heq, hptr, hpml4, -, hnew⟩ :=
    VirtualMemory.descend_missing htable hindex hflags halloc hu hzero
  rw [hd, Prod.mk.injEq] at heq
  obtain ⟨rfl, rfl⟩ := heq
  have hfresh : u ∉ tables := by
    rw [hlinked] at hsep
    exact fresh_of_nonNull h.zeroFree h.owned hsep hu
  -- both frames that are written lie outside the tables
  have hkeep : ∀ t ∈ tables, ∀ j, entryAt s'.mem t j = entryAt s.mem t j := by
    intro t ht j
    rw [hnew, RadixTree.setEntry_of_table_ne (ne_of_mem_of_not_mem ht hv)]
    exact if_neg (ne_of_mem_of_not_mem ht hfresh)
  constructor
  · exact h.zeroFree
  · rw [hpml4]
    exact owned_of_prefix h.owned (logged_descend hd).isPrefix
  · intro c hc
    rw [hpml4]
    exact h.path c fun t ht j => (hc t ht j).trans (hkeep t ht j)
  · refine ⟨u, hptr, hfresh, fun j => ?_⟩
    rw [hnew]
    by_cases hslot : u = v ∧ j = i
    · -- frame 0 handed out again for a slot of frame 0
      obtain ⟨rfl, rfl⟩ := hslot
      have hlt := f.isLt
      right
      rw [RadixTree.setEntry_same]
      exact nextTable_frame (by omega) hflags
    · left
      rw [RadixTree.setEntry_of_ne hslot]
      exact if_pos rfl

/-- A lost call stays lost. -/
theorem Lost.descend {s s' : Machine} {tables : List Nat} {p : List (BitVec 9)}
    {table index ptr : Word32} (h : Lost s tables p table) {flags : Word64} {i : BitVec 9}
    (hindex : index.toNat = i.toNat) (hflags : IsMapFlags flags)
    (hsep : Separate s.pml4Table (nonNull s'.allocs))
    (hd : VirtualMemory.descend s table index flags = (ptr, s')) : Lost s' tables p ptr := by
  obtain ⟨v, htable, hv, hentries⟩ := h.frame
  have hlt := table.isLt
  rcases hentries i with hzero | hself
  · exact h.descend_missing hindex hflags hsep htable hv hzero hd
  · -- the slot names the frame itself
    obtain ⟨q, heq, hq⟩ := descend_present flags htable hindex hself (by omega)
    rw [hd, Prod.mk.injEq] at heq
    obtain ⟨rfl, rfl⟩ := heq
    exact ⟨h.zeroFree, h.owned, h.path, v, hq, hv, hentries⟩

/-- The last store of a lost call does not repair the path. -/
theorem Lost.follow_storeLeaf {s : Machine} {tables : List Nat} {p : List (BitVec 9)}
    {table index : Word32} (h : Lost s tables p table) {i : BitVec 9}
    (hindex : index.toNat = i.toNat) (e : Word64) :
    Machine.follow { s with mem := store64 s.mem (slot table index) e } p = some 0 := by
  obtain ⟨v, htable, hv, -⟩ := h.frame
  refine h.path _ fun t ht j => ?_
  show entryAt (store64 s.mem (slot table index) e) t j = _
  rw [entryAt_store64 _ htable hindex,
    RadixTree.setEntry_of_table_ne (ne_of_mem_of_not_mem ht hv)]

/-! ## The three levels -/

/-- How far a call has come.  `n` is the length of the log before it. -/
inductive Progress (n : Nat) (s : Machine) (p : List (BitVec 9)) (ptr : Word32) : Prop
  | onTree {tables : List Nat} {t : Nat} (inv : PageTables s tables) (zeroFree : 0 ∉ tables)
      (path : Machine.follow s p = some t) (frame : ptr.toNat = t * 0x1000)
      (log : ∀ a ∈ s.allocs.drop n, a.1 ≠ 0)
  | lost {tables : List Nat} {q : List (BitVec 9)} (ne_nil : q ≠ []) (upper : q.length ≤ 3)
      (lost : Lost s tables q ptr)

/-- A level on the tables, when it is there or gets a frame. -/
theorem progress_of_grows {n : Nat} {s s' : Machine} {p : List (BitVec 9)} {ptr : Word32}
    {tables tables' : List Nat} {u : Nat} (hnull : 0 ∉ tables)
    (hlog : ∀ a ∈ s.allocs.drop n, a.1 ≠ 0) (hn : n ≤ s.allocs.length)
    (hgrows : Grows pageFormat s s' tables tables') (hpath : Machine.follow s' p = some u)
    (hptr : ptr.toNat = u * 0x1000) {f : Word32}
    (hnew : s'.allocs = s.allocs ∨ (s'.allocs = s.allocs ++ [(f, 4096)] ∧ f ≠ 0)) :
    Progress n s' p ptr := by
  obtain ⟨new, hlogNew, -, hadded⟩ := hgrows.log
  have hnewNe : ∀ a ∈ new, a.1 ≠ 0 := by
    intro a ha
    rw [hlogNew] at hnew
    rcases hnew with hnil | ⟨hone, hf⟩
    · rw [List.append_right_eq_self.mp hnil] at ha
      exact absurd ha (by simp)
    · rw [List.append_cancel_left hone, List.mem_singleton] at ha
      rwa [ha]
  -- a new table lies in a new block, which does not start at 0
  refine .onTree hgrows.inv ?_ hpath hptr ?_
  · intro hmem
    rcases hadded 0 hmem with hold | ⟨a, ha, haddr, -⟩
    · exact hnull hold
    · exact hnewNe a ha (BitVec.eq_of_toNat_eq haddr)
  · intro a ha
    rw [hlogNew, List.drop_append_of_le_length hn] at ha
    rcases List.mem_append.mp ha with hold | hlast
    · exact hlog a hold
    · exact hnewNe a hlast

/-- **One level.** -/
theorem progress_descend {n : Nat} {s s' : Machine} {p : List (BitVec 9)}
    {table index ptr : Word32} (h : Progress n s p table) (hn : n ≤ s.allocs.length)
    (hlen : p.length < 3) {i : BitVec 9} (hindex : index.toNat = i.toNat) {flags : Word64}
    (hflags : IsMapFlags flags) (hsep : Separate s.pml4Table (nonNull s'.allocs))
    (hd : descend s table index flags = (ptr, s')) : Progress n s' (p ++ [i]) ptr := by
  cases h with
  | lost hne hupper hlost => exact .lost hne hupper (hlost.descend hindex hflags hsep hd)
  | @onTree tables t inv hnull hp htable hlog =>
      have hload := load64_slot (m := s.mem) htable hindex
      cases halloc : Frame.alloc s.frame Frame.frameNoLimit 4096 Frame.frameUsed with
      | mk f frame =>
      by_cases hout : entryAt s.mem t i = 0 ∧ f = 0
      · -- the level is missing and no frame is left
        obtain ⟨hzero, rfl⟩ := hout
        have hlost := lost_of_null inv hnull hlen hp htable hindex hflags hzero halloc hd
        exact .lost (by simp) (by simpa using hlen) hlost
      · -- the level was there, or it gets a frame
        have hnew : s'.allocs = s.allocs ∨ (s'.allocs = s.allocs ++ [(f, 4096)] ∧ f ≠ 0) := by
          by_cases hzero : entryAt s.mem t i = 0
          · right
            rw [descend_of_eq_zero (hload.trans hzero), Prod.mk.injEq] at hd
            rw [← hd.2, linked_eq halloc]
            exact ⟨rfl, fun hf => hout ⟨hzero, hf⟩⟩
          · left
            rw [descend_of_ne_zero (hload ▸ hzero), Prod.mk.injEq] at hd
            rw [← hd.2]
        have hfresh : FreshAlloc pageFormat flags s s' tables := by
          intro g u hg hu
          have hlt := g.isLt
          rw [hg] at hsep
          refine ⟨fresh_of_nonNull hnull (inv.owned_nonNull hnull) hsep hu, ?_⟩
          rw [setWidth_frameAddress hu]
          exact nextTable_frame (by omega) hflags
        obtain ⟨tables', u, hgrows, hpath, hptr⟩ :=
          descend_grows inv hd hlen hp htable hindex hfresh
        exact progress_of_grows hnull hlog hn hgrows hpath hptr hnew

/-- A call that runs out of frames ends with a path to frame 0. -/
theorem map_dangles {s : Machine} (h : Built s) (hroot : s.pml4Table ≠ 0) {c : MapCall}
    (hflags : IsMapFlags c.flags)
    (hsep : Separate s.pml4Table (nonNull (map s c.phys c.virt c.flags).allocs))
    (hout : RunsOut s c) :
    ∃ p, p ≠ [] ∧ p.length ≤ 3 ∧ Machine.follow (map s c.phys c.virt c.flags) p = some 0 := by
  obtain ⟨phys, virt, flags⟩ := c
  obtain ⟨tables, htables, hnull⟩ := h.pageTables_nonNull
  have hframe : s.pml4Table.toNat = s.pml4Table.toNat / 0x1000 * 0x1000 := by
    have hmod := htables.aligned
    omega
  have hidx := fun shift (hs : 12 ≤ shift) => toNat_tableIndex virt hs
  have hstart : Progress s.allocs.length s [] s.pml4Table :=
    .onTree htables (hnull hroot) rfl hframe (by simp)
  unfold RunsOut callAllocs at hout
  simp only at hflags hsep hout ⊢
  cases h3 : descend s s.pml4Table (tableIndex (alignFloor virt 0x1000) 39) flags with
  | mk p3 s3 =>
  cases h2 : descend s3 p3 (tableIndex (alignFloor virt 0x1000) 30) flags with
  | mk p2 s2 =>
  cases h1 : descend s2 p2 (tableIndex (alignFloor virt 0x1000) 21) flags with
  | mk p1 s1 =>
  rw [map_eq h3 h2 h1] at hsep hout ⊢
  have hlog3 := (logged_descend h3).isPrefix
  have hlog2 := (logged_descend h2).isPrefix
  have hlog1 := (logged_descend h1).isPrefix
  have hsep1 : Separate s.pml4Table (nonNull s1.allocs) := hsep
  have hsep2 := hsep1.of_prefix (hlog1.filter _)
  have hsep3 := hsep2.of_prefix (hlog2.filter _)
  have hroot3 : s3.pml4Table = s.pml4Table := pml4Table_descend h3
  have hroot2 : s2.pml4Table = s3.pml4Table := pml4Table_descend h2
  have hprogress3 := progress_descend hstart le_rfl (by simp) (hidx 39 (by omega)) hflags hsep3 h3
  have hprogress2 := progress_descend hprogress3 hlog3.length_le (by simp) (hidx 30 (by omega))
    hflags (hroot3 ▸ hsep2) h2
  have hprogress1 := progress_descend hprogress2 (hlog3.trans hlog2).length_le (by simp)
    (hidx 21 (by omega)) hflags (hroot2 ▸ hroot3 ▸ hsep1) h1
  cases hprogress1 with
  | onTree _ _ _ _ hlog =>
      -- no level was refused
      obtain ⟨a, ha, hzero⟩ := hout
      exact absurd hzero (hlog a ha)
  | @lost tables' q hne hupper hlost =>
      exact ⟨q, hne, hupper, hlost.follow_storeLeaf (hidx 12 (by omega)) _⟩

/-- **No call that runs out of frames survives.**  In whatever state, with whatever arguments, and
wherever on the way down `Frame::Alloc` returns 0: page 0 is written.  On page tables that calls of
`Map` have built, and with the flags that the loader passes, a slot is left naming frame 0 as well. -/
theorem outOfFrames_never_survives {s : Machine} {c : MapCall} (hout : RunsOut s c) :
    ¬ Survives s c ∧
      (Built s → s.pml4Table ≠ 0 → IsMapFlags c.flags →
        Separate s.pml4Table (nonNull (map s c.phys c.virt c.flags).allocs) →
        ∃ p, p ≠ [] ∧ p.length ≤ 3 ∧ Machine.follow (map s c.phys c.virt c.flags) p = some 0) := by
  refine ⟨fun hsurvives => ?_, fun h hroot hflags hsep => map_dangles h hroot hflags hsep hout⟩
  exact hsurvives.frameZero 0 (by decide) ⟨_, frameZero_stored hout, le_rfl, by decide⟩

/-- A zeroed PML4 at 64 KB, memory full of 0xff elsewhere, and the frames of `frame`. -/
def withFrames (frame : Frame.Table) : Machine :=
  ⟨memzero (fun _ => 0xff) 0x10000 4096, frame, 0x10000, []⟩

/-- A page with a different index at every level: 1, 2, 3 and 4. -/
def scatteredPage : MapCall := ⟨0x200000, 0x8080604000, flagPresent ||| flagReadWrite⟩

/-- With two frames left, the last level of tables is refused: its slot names frame 0, whether the
call asks for a page that is there or for one that is not. -/
theorem twoFrames_not_survives :
    ¬ Survives (withFrames (Frame.addRange Frame.empty 0x1000000 0x2000)) scatteredPage ∧
      (∃ p, p ≠ [] ∧ p.length ≤ 3 ∧
        Machine.follow (map (withFrames (Frame.addRange Frame.empty 0x1000000 0x2000))
          scatteredPage.phys scatteredPage.virt scatteredPage.flags) p = some 0) ∧
      ¬ Survives (withFrames (Frame.addRange Frame.empty 0x1000000 0x2000))
        { scatteredPage with flags := 0 } := by
  have hlog : nonNull (map (withFrames (Frame.addRange Frame.empty 0x1000000 0x2000))
      scatteredPage.phys scatteredPage.virt scatteredPage.flags).allocs =
        [(0x1000000, 4096), (0x1001000, 4096)] := by decide +kernel
  have hbuilt : Built (withFrames (Frame.addRange Frame.empty 0x1000000 0x2000)) :=
    built_zeroed _ _
  have hout : RunsOut (withFrames (Frame.addRange Frame.empty 0x1000000 0x2000)) scatteredPage := by
    decide +kernel
  obtain ⟨hpage, hslot⟩ := outOfFrames_never_survives hout
  refine ⟨hpage, hslot hbuilt (by decide) (by decide) ?_,
    (outOfFrames_never_survives (by decide +kernel)).1⟩
  rw [hlog]
  refine FreshFrames.separate (by decide) (by decide) fun a ha => ?_
  rcases List.mem_cons.mp ha with rfl | ha
  · decide
  · rw [List.mem_singleton.mp ha]
    decide

/-- Without any frame, slot 1 of the PML4 names frame 0, frame 0 is overwritten, and instead of the
page asked for the one with the indices 1, 3, 3 and 4 is mapped. -/
theorem noFrames_not_survives :
    Built (withFrames Frame.empty) ∧ RunsOut (withFrames Frame.empty) scatteredPage ∧
      ¬ Survives (withFrames Frame.empty) scatteredPage ∧
      Machine.follow (map (withFrames Frame.empty) scatteredPage.phys scatteredPage.virt
        scatteredPage.flags) [1] = some 0 ∧
      (map (withFrames Frame.empty) scatteredPage.phys scatteredPage.virt
        scatteredPage.flags).mem 0 ≠ (withFrames Frame.empty).mem 0 ∧
      translate (map (withFrames Frame.empty) scatteredPage.phys scatteredPage.virt
        scatteredPage.flags).mem 0x10000 0x80C0604000 = some (0x200000, 3) ∧
      translate (withFrames Frame.empty).mem 0x10000 0x80C0604000 = none := by
  have hslot : Machine.follow (map (withFrames Frame.empty) scatteredPage.phys scatteredPage.virt
      scatteredPage.flags) [1] = some 0 := by decide +kernel
  refine ⟨built_zeroed _ _, by decide +kernel, fun hsurvives => ?_, hslot, by decide +kernel,
    by decide +kernel, by decide +kernel⟩
  exact hsurvives.noNull [1] (by simp) (by simp) hslot

end VirtualMemory
end Loader
end ZineOS
