import ZineOS.Loader.BootOwnership
import ZineOS.Loader.KeptMappings

/-!
# The page tables of a boot

`Booting` is the invariant of `kmain` from `VirtualMemory::Install` on: the page tables are a tree
of pages that the boot owns.  The record of all calls of `Alloc` is not what it speaks about.  The
PML4 stands apart in the theorems on page tables, and a page that is freed and handed out again is
in the record twice.  `live` is the part of the record that counts.

The loader's functions do not look at the record, so that a run from one record says what a run from
another does: `Twins`.
-/

namespace ZineOS
namespace Loader

open Lib VirtualMemory

/-- What `Alloc` returned, with the sizes. -/
abbrev AllocLog := List (Word32 × Word64)

/-- The machine with another record. -/
def Machine.withLog (s : Machine) (log : AllocLog) : Machine := { s with allocs := log }

/-- Two machines that are the same but for what their records start with. -/
structure Twins (old old' : AllocLog) (s t : Machine) : Prop where
  same : t = s.withLog t.allocs
  log : ∃ new, s.allocs = old ++ new ∧ t.allocs = old' ++ new

namespace Twins

variable {old old' : AllocLog} {s t : Machine}

theorem refl (s : Machine) (log : AllocLog) : Twins s.allocs log s (s.withLog log) :=
  ⟨rfl, [], (List.append_nil _).symm, (List.append_nil _).symm⟩

theorem mem (h : Twins old old' s t) : t.mem = s.mem := by
  rw [h.same]
  rfl

theorem pml4Table (h : Twins old old' s t) : t.pml4Table = s.pml4Table := by
  rw [h.same]
  rfl

theorem physical (h : Twins old old' s t) (v : Word64) :
    VirtualMemory.physical t v = VirtualMemory.physical s v := by
  unfold VirtualMemory.physical
  rw [h.mem, h.pml4Table]

theorem write (h : Twins old old' s t) (m : Mem) :
    Twins old old' { s with mem := m } { t with mem := m } :=
  ⟨by rw [h.same]; rfl, h.log⟩

theorem alloc (h : Twins old old' s t) (maxAddr size type : Word64) :
    (t.alloc maxAddr size type).1 = (s.alloc maxAddr size type).1 ∧
      Twins old old' (s.alloc maxAddr size type).2 (t.alloc maxAddr size type).2 := by
  obtain ⟨hsame, new, hs, ht⟩ := h
  rw [hsame]
  refine ⟨rfl, rfl, new ++ [((s.alloc maxAddr size type).1, size)], ?_, ?_⟩
  · simp only [Machine.alloc, hs, List.append_assoc]
  · simp only [Machine.alloc, Machine.withLog, ht, List.append_assoc]

theorem descend (h : Twins old old' s t) (table index : Word32) (flags : Word64) :
    (VirtualMemory.descend t table index flags).1 = (VirtualMemory.descend s table index flags).1 ∧
      Twins old old' (VirtualMemory.descend s table index flags).2
        (VirtualMemory.descend t table index flags).2 := by
  by_cases hzero : load64 s.mem (slot table index) = 0
  · obtain ⟨hptr, htwins⟩ := h.alloc Frame.frameNoLimit 4096 Frame.frameUsed
    rw [descend_of_eq_zero hzero, descend_of_eq_zero (by rw [h.mem]; exact hzero)]
    have hlinked : (linked t table index flags).mem = (linked s table index flags).mem := by
      simp only [linked, hptr, h.mem]
    refine ⟨by rw [hlinked], ?_⟩
    have hnext := htwins.write (linked s table index flags).mem
    rw [show linked t table index flags = { (t.alloc Frame.frameNoLimit 4096 Frame.frameUsed).2 with
      mem := (linked s table index flags).mem } by rw [← hlinked]; rfl]
    exact hnext
  · rw [descend_of_ne_zero hzero, descend_of_ne_zero (by rw [h.mem]; exact hzero), h.mem]
    exact ⟨rfl, h⟩

theorem map (h : Twins old old' s t) (phys virt flags : Word64) :
    Twins old old' (VirtualMemory.map s phys virt flags) (VirtualMemory.map t phys virt flags) := by
  obtain ⟨hp3, h3⟩ := h.descend s.pml4Table (tableIndex (alignFloor virt 0x1000) 39) flags
  obtain ⟨hp2, h2⟩ := h3.descend
    (VirtualMemory.descend s s.pml4Table (tableIndex (alignFloor virt 0x1000) 39) flags).1
    (tableIndex (alignFloor virt 0x1000) 30) flags
  obtain ⟨hp1, h1⟩ := h2.descend _ (tableIndex (alignFloor virt 0x1000) 21) flags
  have hlast := h1.write
  unfold VirtualMemory.map
  dsimp only
  rw [h.pml4Table, hp3, hp2, hp1, h1.mem]
  exact hlast _

theorem mapAll (h : Twins old old' s t) (calls : List MapCall) :
    Twins old old' (VirtualMemory.mapAll s calls) (VirtualMemory.mapAll t calls) := by
  induction calls generalizing s t with
  | nil => exact h
  | cons c calls ih => exact ih (h.map c.phys c.virt c.flags)

theorem mapRange (h : Twins old old' s t) (phys virt size flags : Word64) :
    Twins old old' (VirtualMemory.mapRange s phys virt size flags)
      (VirtualMemory.mapRange t phys virt size flags) := by
  rw [mapRange_eq, mapRange_eq]
  exact h.mapAll _

theorem mapSection (h : Twins old old' s t) (sh ptr : Word32) :
    Twins old old' (Elf.mapSection s sh ptr) (Elf.mapSection t sh ptr) := by
  have hfirst := h.mapRange (Elf.castU64 ptr) (Elf.shAddr s.mem sh) (Elf.shSize s.mem sh)
    Elf.sectionFlags
  rw [Elf.mapSection_eq, Elf.mapSection_eq, h.mem, hfirst.mem]
  exact hfirst.mapRange _ _ _ _

theorem loadSection (h : Twins old old' s t) (elf sh : Word32) (entry : Word64) :
    (Elf.loadSection t elf sh entry).1 = (Elf.loadSection s elf sh entry).1 ∧
      Twins old old' (Elf.loadSection s elf sh entry).2 (Elf.loadSection t elf sh entry).2 := by
  obtain ⟨hptr, htwins⟩ := h.alloc Frame.frameSub4GB (Elf.shSize s.mem sh) Frame.frameUsed
  have hmem := h.mem
  have hfilled (m : Mem) (p : Word32) := (htwins.write m).mapSection sh p
  unfold Elf.loadSection Elf.loadProgbits Elf.loadNobits
  rw [hmem]
  dsimp only
  rw [hptr, htwins.mem]
  split_ifs
  · exact ⟨rfl, htwins⟩
  · exact ⟨congrArg (fun m => some (Elf.updateEntry m elf sh _ entry)) (hfilled _ _).mem,
      hfilled _ _⟩
  · exact ⟨rfl, htwins⟩
  · exact ⟨rfl, hfilled _ _⟩
  · exact ⟨rfl, h⟩

theorem loadLoop (h : Twins old old' s t) (fuel : Nat) (elf base i : Word32) (entry : Word64) :
    (Elf.loadLoop fuel t elf base i entry).1 = (Elf.loadLoop fuel s elf base i entry).1 ∧
      Twins old old' (Elf.loadLoop fuel s elf base i entry).2
        (Elf.loadLoop fuel t elf base i entry).2 := by
  induction fuel generalizing s t i entry with
  | zero => exact ⟨rfl, h⟩
  | succ fuel ih =>
      obtain ⟨hresult, hnext⟩ := h.loadSection elf (Elf.sectionAt base i) entry
      unfold Elf.loadLoop
      rw [h.mem]
      split_ifs
      · exact ⟨rfl, h⟩
      · cases hs : Elf.loadSection s elf (Elf.sectionAt base i) entry with
        | mk a s1 =>
        cases ht : Elf.loadSection t elf (Elf.sectionAt base i) entry with
        | mk b t1 =>
        rw [hs, ht] at hresult hnext
        dsimp only at hresult hnext
        subst hresult
        cases b with
        | none => exact ⟨rfl, hnext⟩
        | some entry => exact ih hnext (i + 1) entry

theorem load (h : Twins old old' s t) (fuel : Nat) (elf : Word32) :
    (Elf.load fuel t elf).1 = (Elf.load fuel s elf).1 ∧
      Twins old old' (Elf.load fuel s elf).2 (Elf.load fuel t elf).2 := by
  unfold Elf.load
  rw [h.mem]
  cases Elf.check s.mem elf with
  | none => exact h.loadLoop fuel elf _ 0 0
  | some failed => exact ⟨rfl, h⟩

end Twins

/-! ## The invariant -/

/-- No call in the record failed, and with `n` rows to begin with the frame table has a row for every
call. -/
structure Ample (n : Nat) (log : AllocLog) : Prop where
  nonNull : ∀ a ∈ log, a.1 ≠ 0
  rows : n + log.length ≤ 253

theorem Ample.of_prefix {n : Nat} {log log' : AllocLog} (h : Ample n log') (hlog : log <+: log') :
    Ample n log :=
  ⟨fun a ha => h.nonNull a (hlog.subset ha), (Nat.add_le_add_left hlog.length_le n).trans h.rows⟩

variable {avail device : Nat → Prop} {n : Nat} {live : AllocLog} {tables : List Nat}

/-- Every page that `Map` asks for is a new one. -/
theorem Frame.Owns.pageRun {t : Frame.Table} {log : AllocLog} (h : Frame.Owns avail n t log) {k : Nat}
    (hrows : n + k ≤ 254) (hnull : ∀ a ∈ (VirtualMemory.pageRun k t).1, a.1 ≠ 0) :
    Frame.Owns avail (n + k) (VirtualMemory.pageRun k t).2
      (log ++ (VirtualMemory.pageRun k t).1) := by
  induction k generalizing n t log with
  | zero =>
      rw [VirtualMemory.pageRun, List.append_nil]
      exact h
  | succ k ih =>
      unfold VirtualMemory.pageRun at hnull ⊢
      dsimp only at hnull ⊢
      have hfirst := h.alloc_page (by omega) Frame.frameNoLimit (Or.inl rfl)
        (hnull _ List.mem_cons_self)
      have hrest := ih hfirst (by omega) fun a ha => hnull a (List.mem_cons_of_mem _ ha)
      rw [List.append_assoc, List.singleton_append] at hrest
      rw [show n + (k + 1) = n + 1 + k by omega]
      exact hrest

theorem length_pageRun (k : Nat) (t : Frame.Table) :
    (VirtualMemory.pageRun k t).1.length = k := by
  induction k generalizing t with
  | zero => rfl
  | succ k ih => exact congrArg Nat.succ (ih _)

/-- Calls of `Map` only ask for pages. -/
theorem Frame.Owns.logged {s s' : Machine} {log : AllocLog} {k : Nat}
    (h : Frame.Owns avail (n + s.allocs.length) s.frame log) (hlogged : Logged k s s')
    (hample : Ample n s'.allocs) :
    ∃ new, s'.allocs = s.allocs ++ new ∧ (∀ a ∈ new, a.1 ≠ 0) ∧
      Frame.Owns avail (n + s'.allocs.length) s'.frame (log ++ new) := by
  obtain ⟨j, -, hlog, hframe⟩ := hlogged
  have hrows := hample.rows
  have hnull := hample.nonNull
  rw [hlog] at hrows hnull
  rw [List.length_append, length_pageRun] at hrows
  have hnew : ∀ a ∈ (VirtualMemory.pageRun j s.frame).1, a.1 ≠ 0 :=
    fun a ha => hnull a (List.mem_append_right _ ha)
  refine ⟨_, hlog, hnew, ?_⟩
  rw [hlog, hframe, List.length_append, length_pageRun, ← Nat.add_assoc]
  exact h.pageRun (by omega) hnew

/-- The tables are a tree of pages that are owned, with what else is in `live`. -/
structure Booting (avail : Nat → Prop) (n : Nat) (s : Machine) (live : AllocLog)
    (tables : List Nat) : Prop where
  owns : Frame.Owns avail (n + s.allocs.length) s.frame ((s.pml4Table, 4096) :: live)
  nonNull : ∀ a ∈ live, a.1 ≠ 0
  counted : live.length ≤ s.allocs.length
  inv : PageTables (s.withLog live) tables

/-- The pages of the tables were free once. -/
theorem Booting.table_avail {s : Machine} (h : Booting avail n s live tables) {t : Nat}
    (ht : t ∈ tables) : avail t := by
  obtain ⟨a, ha, haddr, hsize⟩ := h.inv.owned t ht
  refine h.owns.blocks a ha t ⟨?_, ?_⟩
  · rw [← haddr]
    rfl
  · simp only [Frame.block, haddr, hsize]
    exact Nat.lt_add_of_pos_right (by decide)

/-- The boot with the record of the blocks that count. -/
theorem Booting.view {s : Machine} (h : Booting avail n s live tables) :
    Booting avail (n + (s.allocs.length - live.length)) (s.withLog live) (s.withLog live).allocs
      tables := by
  have hcounted := h.counted
  have howns := h.owns
  rw [show n + s.allocs.length = n + (s.allocs.length - live.length) + live.length by omega]
    at howns
  exact ⟨howns, h.nonNull, le_rfl, h.inv⟩

/-- There is as much memory in either run. -/
theorem Twins.ample {old old' : AllocLog} {s t : Machine} (h : Twins old old' s t)
    (hlen : old'.length ≤ old.length) (hold : ∀ a ∈ old, a.1 ≠ 0) (hold' : ∀ a ∈ old', a.1 ≠ 0) :
    Ample n s.allocs ↔ Ample (n + (old.length - old'.length)) t.allocs := by
  obtain ⟨-, new, hs, ht⟩ := h
  rw [hs, ht]
  constructor
  · rintro ⟨hnull, hrows⟩
    rw [List.forall_mem_append] at hnull
    rw [List.length_append] at hrows
    exact ⟨List.forall_mem_append.mpr ⟨hold', hnull.2⟩, by rw [List.length_append]; omega⟩
  · rintro ⟨hnull, hrows⟩
    rw [List.forall_mem_append] at hnull
    rw [List.length_append] at hrows
    exact ⟨List.forall_mem_append.mpr ⟨hold, hnull.2⟩, by rw [List.length_append]; omega⟩

/-- What the part of the boot from `s` to `s'` leaves alone: memory that cannot be handed out and is
no device, and the addresses below 2 GB that are mapped to themselves. -/
structure Preserves (avail device : Nat → Prop) (s s' : Machine) : Prop where
  pml4 : s'.pml4Table = s.pml4Table
  mem : ∀ x, ¬ avail (x / 0x1000) → ¬ device x → s'.mem x = s.mem x
  identity : ∀ v, v.toNat < 2 ^ 31 → physical s v = some v.toNat → physical s' v = some v.toNat

theorem Preserves.refl (s : Machine) : Preserves avail device s s :=
  ⟨rfl, fun _ _ _ => rfl, fun _ _ h => h⟩

theorem Preserves.trans {s s' s'' : Machine} (h : Preserves avail device s s')
    (h' : Preserves avail device s' s'') : Preserves avail device s s'' where
  pml4 := h'.pml4.trans h.pml4
  mem := fun x hx hd => (h'.mem x hx hd).trans (h.mem x hx hd)
  identity := fun v hv hs => h'.identity v hv (h.identity v hv hs)

/-! ## Calls of `Map` -/

/-- `Map` called for pages on themselves. -/
def IdentityCalls (calls : List MapCall) : Prop :=
  ∀ c ∈ calls, c.phys = c.virt ∧ c.virt.toNat < 2 ^ 48 ∧ IsMapFlags c.flags

theorem IdentityCalls.ok {calls : List MapCall} (h : IdentityCalls calls) : ∀ c ∈ calls, c.Ok := by
  intro c hc
  obtain ⟨heq, hlt, hflags⟩ := h c hc
  refine ⟨?_, hflags⟩
  rw [heq]
  omega

/-- The image of an address under a call for its page. -/
theorem IdentityCalls.image {calls : List MapCall} (h : IdentityCalls calls) {c : MapCall}
    (hc : c ∈ calls) {v : Word64} (hv : v.toNat < 2 ^ 48) (hsame : SamePage c.virt v) :
    (c.image v).1 = v.toNat := by
  obtain ⟨heq, hlt, -⟩ := h c hc
  rw [samePage_iff_pageNumber] at hsame
  unfold pageNumber at hsame
  unfold MapCall.image
  rw [heq]
  dsimp only
  omega

theorem physical_of_mapped {s s' : Machine} {tables' : List Nat} {calls : List MapCall}
    (h : Mapped s s' tables tables' calls) (v : Word64) :
    physical s' v = ((lastCall calls v).map fun c => (c.image v).1).or (physical s v) := by
  unfold physical
  rw [h.pml4, h.translate]
  cases lastCall calls v <;> rfl

/-- An address is mapped to itself when one of the calls is for its page, or when it was before. -/
theorem IdentityCalls.physical {calls : List MapCall} (h : IdentityCalls calls) {s s' : Machine}
    {tables' : List Nat} (hmapped : Mapped s s' tables tables' calls) {v : Word64}
    (hv : v.toNat < 2 ^ 48)
    (hwas : physical s v = some v.toNat ∨ ∃ c ∈ calls, SamePage c.virt v) :
    physical s' v = some v.toNat := by
  rw [physical_of_mapped hmapped]
  cases hlast : lastCall calls v with
  | none =>
      rcases hwas with hbefore | ⟨c, hc, hsame⟩
      · exact hbefore
      · have hnone := List.find?_eq_none.mp hlast c (List.mem_reverse.mpr hc)
        exact absurd (decide_eq_true hsame) hnone
  | some c =>
      have hc := List.mem_reverse.mp (List.mem_of_find?_eq_some hlast)
      have hsame := List.find?_some hlast
      exact congrArg some (h.image hc hv (of_decide_eq_true hsame))

/-- **Calls of `Map`.**  The new tables are owned. -/
theorem Booting.mapAll {s : Machine} (h : Booting avail n s live tables) {calls : List MapCall}
    (hcalls : ∀ c ∈ calls, c.Ok) (hample : Ample n (VirtualMemory.mapAll s calls).allocs) :
    ∃ live' tables', Booting avail n (VirtualMemory.mapAll s calls) live' tables' ∧
      Mapped (s.withLog live) ((VirtualMemory.mapAll s calls).withLog live') tables tables'
        calls := by
  obtain ⟨hsame, new, hs, ht⟩ := (Twins.refl s live).mapAll calls
  obtain ⟨new', hlog, hnull, howns⟩ := h.owns.logged (logged_mapAll s calls) hample
  obtain rfl : new = new' := List.append_cancel_left (hs.symm.trans hlog)
  have hnonNull : ∀ a ∈ live ++ new, a.1 ≠ 0 := fun a ha =>
    (List.mem_append.mp ha).elim (h.nonNull a) (hnull a)
  have hsep : Separate s.pml4Table (VirtualMemory.mapAll (s.withLog live) calls).allocs := by
    rw [ht]
    exact ⟨hnonNull, howns.apart⟩
  obtain ⟨tables', hmapped⟩ := mapAll_spec h.inv hcalls hsep
  rw [hsame, ht] at hmapped
  refine ⟨live ++ new, tables', ⟨?_, hnonNull, ?_, hmapped.inv⟩, hmapped⟩
  · have hpml4 : (VirtualMemory.mapAll s calls).pml4Table = s.pml4Table := hmapped.pml4
    rw [hpml4]
    exact howns
  · rw [hlog, List.length_append, List.length_append]
    exact Nat.add_le_add_right h.counted _

/-- **Pages mapped to themselves.** -/
theorem Booting.mapIdentity {s : Machine} (h : Booting avail n s live tables)
    (device : Nat → Prop) {calls : List MapCall} (hcalls : IdentityCalls calls)
    (hample : Ample n (VirtualMemory.mapAll s calls).allocs) :
    ∃ live' tables', Booting avail n (VirtualMemory.mapAll s calls) live' tables' ∧
      Preserves avail device s (VirtualMemory.mapAll s calls) ∧
      ∀ v, v.toNat < 2 ^ 48 → (∃ c ∈ calls, SamePage c.virt v) →
        physical (VirtualMemory.mapAll s calls) v = some v.toNat := by
  obtain ⟨live', tables', hbooting, hmapped⟩ := h.mapAll hcalls.ok hample
  refine ⟨live', tables', hbooting, ⟨hmapped.pml4, ?_, ?_⟩, ?_⟩
  · exact fun x hx _ => hmapped.frame x fun hmem => hx (hbooting.table_avail hmem)
  · exact fun v hv hbefore => hcalls.physical hmapped (by omega) (Or.inl hbefore)
  · exact fun v hv hpage => hcalls.physical hmapped hv (Or.inr hpage)

theorem isMapFlags_sectionFlags : IsMapFlags Elf.sectionFlags := by decide

/-- The calls of a `MapRange` below 4 GB on itself. -/
theorem identityCalls_range {p size : Word64} (hp : p.toNat < 2 ^ 32) (hsize : size.toNat < 2 ^ 32) :
    IdentityCalls (rangeCalls p p size Elf.sectionFlags) := by
  intro c hc
  obtain ⟨k, hk, rfl⟩ := List.mem_map.mp hc
  refine ⟨rfl, ?_, isMapFlags_sectionFlags⟩
  have hlt := List.mem_range.mp hk
  rw [toNat_align (by omega)] at hlt
  have hfloor := toNat_alignFloor p
  have hdown := pageDown_le p.toNat
  have hup : pageUp size.toNat ≤ 2 ^ 32 := by
    unfold pageUp
    omega
  rw [BitVec.toNat_add, BitVec.toNat_ofNat, hfloor]
  omega

/-- The bytes of the pages that `MapRange` maps for `size` bytes at `p`. -/
def InPages (p size x : Nat) : Prop := pageDown p ≤ x ∧ x < pageDown p + pageUp size

/-- One of the calls is for a page of the range. -/
theorem exists_samePage {p size v : Word64} (hsize : size.toNat < 2 ^ 32)
    (hv : InPages p.toNat size.toNat v.toNat) :
    ∃ c ∈ rangeCalls p p size Elf.sectionFlags, SamePage c.virt v := by
  obtain ⟨hlo, hhi⟩ := hv
  have hfloor := toNat_alignFloor p
  have hmod := pageDown_mod p.toNat
  have hupmod := pageUp_mod size.toNat
  have hdown := pageDown_le p.toNat
  have hup : pageUp size.toNat ≤ 2 ^ 32 := by
    unfold pageUp
    omega
  refine ⟨_, List.mem_map.mpr ⟨v.toNat / 0x1000 - pageDown p.toNat / 0x1000,
    List.mem_range.mpr ?_, rfl⟩, ?_⟩
  · rw [toNat_align (by omega)]
    omega
  · rw [samePage_iff_pageNumber]
    unfold pageNumber
    dsimp only
    rw [BitVec.toNat_add, BitVec.toNat_ofNat, hfloor]
    omega

/-- **`MapRange` of addresses on themselves.** -/
theorem Booting.mapRange {s : Machine} (h : Booting avail n s live tables) (device : Nat → Prop)
    {p size : Word64} (hp : p.toNat < 2 ^ 32) (hsize : size.toNat < 2 ^ 32)
    (hample : Ample n (VirtualMemory.mapRange s p p size Elf.sectionFlags).allocs) :
    ∃ live' tables', Booting avail n (VirtualMemory.mapRange s p p size Elf.sectionFlags) live'
        tables' ∧
      Preserves avail device s (VirtualMemory.mapRange s p p size Elf.sectionFlags) ∧
      ∀ v, InPages p.toNat size.toNat v.toNat →
        physical (VirtualMemory.mapRange s p p size Elf.sectionFlags) v = some v.toNat := by
  rw [mapRange_eq] at hample ⊢
  obtain ⟨live', tables', hbooting, hpreserves, hpages⟩ :=
    h.mapIdentity device (identityCalls_range hp hsize) hample
  refine ⟨live', tables', hbooting, hpreserves, fun v hv => ?_⟩
  refine hpages v ?_ (exists_samePage hsize hv)
  obtain ⟨-, hhi⟩ := hv
  have hdown := pageDown_le p.toNat
  have hup : pageUp size.toNat ≤ 2 ^ 32 := by
    unfold pageUp
    omega
  omega

/-! ## `VirtualMemory::Install` -/

/-- The state in which `Install` starts to map. -/
def rooted (s : Machine) : Machine :=
  let (ptr, s) := s.alloc Frame.frameNoLimit 4096 Frame.frameUsed
  { s with pml4Table := ptr }

theorem identityCalls_install : IdentityCalls installCalls := by
  intro c hc
  obtain ⟨k, hk, rfl⟩ := List.mem_map.mp hc
  have hlt := List.mem_range.mp hk
  refine ⟨rfl, ?_, isMapFlags_sectionFlags⟩
  dsimp only
  rw [BitVec.toNat_ofNat]
  omega

/-- The first megabyte has a call for every page. -/
theorem exists_installCall {v : Word64} (hv : v.toNat < 2 ^ 20) :
    ∃ c ∈ installCalls, SamePage c.virt v := by
  refine ⟨_, List.mem_map.mpr ⟨v.toNat / 0x1000, List.mem_range.mpr (by omega), rfl⟩, ?_⟩
  rw [samePage_iff_pageNumber]
  unfold pageNumber
  dsimp only
  rw [BitVec.toNat_ofNat]
  omega

/-- **`Install`**, when the page of the PML4 comes zeroed. -/
theorem booting_install {s : Machine} (hlog : s.allocs = [])
    (howns : Frame.Owns avail n s.frame [])
    (hzero : ∀ i, entryAt s.mem ((rooted s).pml4Table.toNat / 0x1000) i = 0)
    (hample : Ample n (install s).allocs) :
    ∃ live tables, Booting avail n (install s) live tables ∧
      (∀ x, ¬ avail (x / 0x1000) → (install s).mem x = s.mem x) ∧
      ∀ v, v.toNat < 2 ^ 20 → physical (install s) v = some v.toNat := by
  have hinstall : install s = VirtualMemory.mapAll (rooted s) installCalls := rfl
  have hfirst : Ample n (rooted s).allocs := by
    refine hample.of_prefix ?_
    rw [hinstall]
    exact (logged_mapAll _ _).isPrefix
  have hrows := hfirst.rows
  have hlogged : (rooted s).allocs = [((rooted s).pml4Table, 4096)] := by
    show s.allocs ++ _ = _
    rw [hlog]
    rfl
  rw [hlogged, List.length_singleton] at hrows
  have hnull := hfirst.nonNull ((rooted s).pml4Table, 4096)
    (by rw [hlogged]; exact List.mem_singleton_self _)
  have hroot := howns.alloc_page (by omega) Frame.frameNoLimit (Or.inl rfl) hnull
  have hbooting : Booting avail n (rooted s) [] [(rooted s).pml4Table.toNat / 0x1000] := by
    refine ⟨?_, fun a ha => absurd ha List.not_mem_nil, Nat.zero_le _, pageTables_init ?_ hzero⟩
    · rw [hlogged]
      exact hroot
    · exact alloc_aligned _ _ _ _
  rw [hinstall] at hample ⊢
  obtain ⟨live, tables, hnext, hpreserves, hpages⟩ :=
    hbooting.mapIdentity (fun _ => False) identityCalls_install hample
  refine ⟨live, tables, hnext, fun x hx => hpreserves.mem x hx id, fun v hv => ?_⟩
  exact hpages v (by omega) (exists_installCall hv)

end Loader
end ZineOS
