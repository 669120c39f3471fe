import ZineOS.Loader.FrameUse
import ZineOS.Loader.FrameRows
import ZineOS.Loader.FrameOwnership

/-!
# What becomes of the boot data

The information structure, the modules table, the modules and their command lines lie in memory that
the memory map calls available.  `kmain` reserves all of them but the command lines, and a
reservation that does not fit into one free row is dropped without notice.

The invariant of the boot is about single rows.  `U` is the set of addresses that the allocator may
hand out: every row in use either keeps inside `U`, or it is not free and does not start in `U`, so
that no `Free` of a block can make it so.
-/

namespace ZineOS
namespace Loader

open Lib MBoot

/-! ## Confined rows -/

namespace Frame

/-- A row below 4 GB that keeps inside `U` or cannot become free. -/
structure Confined (U : Nat → Prop) (e : Entry) : Prop where
  ok : e.Ok
  lo_le : e.span.lo ≤ 2 ^ 32
  hi_le : e.span.hi ≤ 2 ^ 32
  addresses : (e.status ≠ .free ∧ ¬ U e.span.lo) ∨ ∀ x, e.span.Covers x → U x

variable {U : Nat → Prop} {t : Table}

theorem Confined.piece {a b : Word64} (ha : a.toNat % 0x1000 = 0) (hb : b.toNat % 0x1000 = 0)
    (hlo : a.toNat ≤ 2 ^ 32) (hhi : b.toNat ≤ 2 ^ 32)
    (hin : ∀ x, a.toNat ≤ x → x < b.toNat → U x) (st : Status) :
    Confined U ⟨a ||| st.flag, b⟩ := by
  have hspan := Entry.span_mk ha hb st
  constructor
  · exact Entry.ok_mk ha hb st
  · rw [hspan]
    exact hlo
  · rw [hspan]
    exact hhi
  · rw [hspan]
    exact Or.inr fun x hx => hin x hx.1 hx.2

/-- A free row keeps inside `U`. -/
theorem Confined.of_free {e : Entry} (h : Confined U e) (hfree : e.status = .free) {x : Nat}
    (hlo : e.span.lo ≤ x) (hhi : x < e.span.hi) : U x := by
  rcases h.addresses with ⟨hne, -⟩ | hin
  · exact absurd hfree hne
  · exact hin x ⟨hlo, hhi⟩

theorem Confined.span_hi {e : Entry} (h : Confined U e) : e.span.hi = e.stop.toNat := by
  unfold Entry.span
  rw [frameClearFlags_of_aligned h.ok.stop_aligned]

/-- `AddRange` of a range below 4 GB, as long as every address may be handed out. -/
theorem confined_addRange (h : ∀ e ∈ t.live, Confined (fun _ => True) e) {addr length : Word64}
    (hend : addr.toNat + length.toNat ≤ 2 ^ 32) :
    ∀ e ∈ (addRange t addr length).live, Confined (fun _ => True) e := by
  have hlo : (align addr 0x1000).toNat = pageUp addr.toNat := toNat_align (by omega)
  have hhi : (alignFloor (addr + length) 0x1000).toNat =
      pageDown (addr.toNat + length.toNat) := by
    rw [toNat_alignFloor, BitVec.toNat_add, Nat.mod_eq_of_lt (by omega)]
  refine forall_live_addRange h (Confined.piece ?_ ?_ ?_ ?_ (fun _ _ _ => trivial) .free)
  · rw [hlo]
    exact pageUp_mod _
  · rw [hhi]
    exact pageDown_mod _
  · rw [hlo]
    unfold pageUp
    omega
  · rw [hhi]
    exact (pageDown_le _).trans hend

/-- `ReserveRange` cuts a free row.  The rounded range may be inverted only while every address may
be handed out. -/
theorem confined_reserveRange (h : ∀ e ∈ t.live, Confined U e) {addr length : Word64}
    (haddr : addr.toNat ≤ 2 ^ 32) (st : Status)
    (hord : (alignFloor addr 0x1000).toNat ≤ (align (addr + length) 0x1000).toNat ∨ ∀ x, U x) :
    ∀ e ∈ (reserveRange t addr length st.flag).live, Confined U e := by
  have hstart : (alignFloor addr 0x1000).toNat % 0x1000 = 0 := by
    rw [toNat_alignFloor]
    exact pageDown_mod _
  have hstop := toNat_align_mod (addr + length)
  have hstartLe : (alignFloor addr 0x1000).toNat ≤ 2 ^ 32 := by
    rw [toNat_alignFloor]
    exact (pageDown_le _).trans haddr
  refine forall_live_reserveRange h ?_
  intro e he hfree hlo hhi
  have hrow := h e he
  have hstatus := hrow.ok.isFree_iff.mp hfree
  have hin : ∀ x, e.span.lo ≤ x → x < e.span.hi → U x := fun x => hrow.of_free hstatus
  have hrowHi := hrow.hi_le
  have hrowStop := hrow.span_hi
  -- the piece that is set aside, then what is left behind it and in front of it
  constructor
  · exact .piece hstart hstop hstartLe (hhi.trans hrowHi)
      (fun x h1 h2 => hin x (hlo.trans h1) (lt_of_lt_of_le h2 hhi)) st
  constructor
  · refine .piece hstop hrow.ok.stop_aligned (hhi.trans hrowHi) (hrowStop ▸ hrowHi) ?_ .free
    intro x h1 h2
    rcases hord with hle | hall
    · exact hin x (by omega) (by omega)
    · exact hall x
  · have hspan := Entry.span_setStop e hstart
    constructor
    · exact hrow.ok.setStop hstart
    · rw [hspan]
      exact hrow.lo_le
    · rw [hspan]
      exact hstartLe
    · rw [hspan]
      refine Or.inr fun x hx => ?_
      rcases hord with hle | hall
      · exact hin x hx.1 (lt_of_lt_of_le hx.2 (hle.trans hhi))
      · exact hall x

/-- A size that `Alloc` can round up and add to a 32-bit address. -/
def SaneSize (size : Word64) : Prop := size.toNat + 2 ^ 32 ≤ 2 ^ 64

/-- `Alloc` hands out addresses in `U`, all of them behind the first page. -/
theorem confined_alloc (h : ∀ e ∈ t.live, Confined U e) (maxAddr : Word64) {size : Word64}
    (hsize : SaneSize size) (st : Status) :
    (∀ e ∈ (alloc t maxAddr size st.flag).2.live, Confined U e) ∧
      ((alloc t maxAddr size st.flag).1 ≠ 0 →
        ∀ x, (block (alloc t maxAddr size st.flag).1 size).1 ≤ x →
          x < (block (alloc t maxAddr size st.flag).1 size).2 → 0x1000 ≤ x ∧ U x) := by
  rcases alloc_cases t maxAddr size st.flag with ⟨i, hi, -, hfit, heq⟩ | ⟨-, heq⟩
  · rw [heq]
    unfold SaneSize at hsize
    have hrow := h _ (t.gMem_mem_live hi)
    have hrounded : (align size 0x1000).toNat = pageUp size.toNat := toNat_align (by omega)
    have hlt := (allocStart t i).isLt
    have hup : pageUp size.toNat + 2 ^ 32 ≤ 2 ^ 64 := by
      unfold pageUp
      omega
    have hwrap : (allocStart t i).toNat + (align size 0x1000).toNat < 2 ^ 64 := by omega
    have hwide : ((allocStart t i).setWidth 64).toNat = (allocStart t i).toNat := by
      rw [BitVec.toNat_setWidth, Nat.mod_eq_of_lt (by omega)]
    constructor
    · -- the rounded request does not wrap, so its end is not below its start
      refine confined_reserveRange h (by omega) st (Or.inl ?_)
      have hreq := alloc_request_noWrap hwrap
      rw [toNat_alignFloor, toNat_align (by rw [BitVec.toNat_add, Nat.mod_eq_of_lt] <;> omega),
        BitVec.toNat_add, Nat.mod_eq_of_lt (by omega)]
      exact (pageDown_le _).trans ((Nat.le_add_right _ _).trans (le_pageUp _))
    · intro hne x h1 h2
      have hneNat : (allocStart t i).toNat ≠ 0 := fun h0 => hne (BitVec.eq_of_toNat_eq h0)
      obtain ⟨hfree, hstart, hend, -⟩ := span_of_allocFits hrow.ok hwrap hrow.lo_le hneNat hfit
      have haligned : (allocStart t i).toNat % 0x1000 = 0 := by
        rw [← hstart, show (t.gMem i).span.lo = _ from toNat_frameClearFlags _]
        exact pageDown_mod _
      simp only [block] at h1 h2
      exact ⟨by omega, hrow.of_free hfree (by omega) (by omega)⟩
  · rw [heq]
    exact ⟨h, fun hne => absurd rfl hne⟩

/-- `Free` of an address in `U` frees a row that keeps inside `U`. -/
theorem confined_free (h : ∀ e ∈ t.live, Confined U e) {frame : Word32} (hframe : U frame.toNat) :
    ∀ e ∈ (free t frame).live, Confined U e := by
  refine forall_live_free h ?_
  intro e he hlo
  have hrow := h e he
  have hlow := hrow.lo_le
  have hstart : e.span.lo = frame.toNat := by
    rw [hlo] at hlow ⊢
    exact toNat_signExtend_of_le hlow
  have hin : ∀ x, e.span.Covers x → U x := by
    rcases hrow.addresses with ⟨-, hout⟩ | hin
    · rw [hstart] at hout
      exact absurd hframe hout
    · exact hin
  have haligned : (frameClearFlags e.start).toNat % 0x1000 = 0 := by
    rw [toNat_frameClearFlags]
    exact pageDown_mod _
  have hhi := hrow.hi_le
  rw [hrow.span_hi] at hhi
  refine .piece haligned hrow.ok.stop_aligned hrow.lo_le hhi ?_ .free
  intro x h1 h2
  exact hin x ⟨h1, by rw [hrow.span_hi]; exact h2⟩

end Frame

open ZineOS.Loader.Frame

/-! ## The invariant of a boot -/

/-- Every row is confined to `U`, and so is every block that has been handed out. -/
structure Spared (U : Nat → Prop) (s : Machine) : Prop where
  rows : ∀ e ∈ s.frame.live, Confined U e
  blocks : ∀ r ∈ s.allocs, r.1 ≠ 0 →
    ∀ x, (block r.1 r.2).1 ≤ x → x < (block r.1 r.2).2 → 0x1000 ≤ x ∧ U x

/-- A call of `Alloc` with a sane size keeps the invariant. -/
theorem Spared.alloc {U : Nat → Prop} {s : Machine} (h : Spared U s) {maxAddr size type : Word64}
    (hsize : SaneSize size) (htype : IsReserveType type) :
    Spared U (s.alloc maxAddr size type).2 := by
  obtain ⟨st, -, rfl⟩ := htype.exists_status
  obtain ⟨hrows, hblock⟩ := confined_alloc h.rows maxAddr hsize st
  constructor
  · exact hrows
  · intro r hr
    rcases List.mem_append.mp hr with hold | hnew
    · exact h.blocks r hold
    · rw [List.mem_singleton.mp hnew]
      exact hblock

/-- A call of `Free` for a page that `Alloc` was asked for keeps it.  If `Alloc` failed, the pointer
is null. -/
theorem Spared.free {U : Nat → Prop} (hzero : U 0) {s : Machine} (h : Spared U s) {frame : Word32}
    (hframe : (frame, 4096) ∈ s.allocs) :
    Spared U { s with frame := Frame.free s.frame frame } := by
  refine ⟨confined_free h.rows ?_, h.blocks⟩
  by_cases hnull : frame = 0
  · rw [hnull]
    exact hzero
  · refine (h.blocks _ hframe hnull frame.toNat le_rfl ?_).2
    show frame.toNat < frame.toNat + pageUp 4096
    unfold pageUp
    omega

/-- Every program that uses the allocator with sane sizes keeps the invariant. -/
theorem Spared.uses {U : Nat → Prop} (hzero : U 0) {asks : Word64 → Prop} {s s' : Machine}
    (h : Spared U s) (huses : Uses asks s s') (hsizes : ∀ r ∈ s'.allocs, SaneSize r.2) :
    Spared U s' := by
  refine huses.invariant (I := fun s' => (∀ r ∈ s'.allocs, SaneSize r.2) → Spared U s')
    ?_ ?_ hsizes
  · rintro s' rfl
    exact fun _ => h
  · intro s' use s'' _ ih hstep hsane
    cases use with
    | alloc maxAddr size type =>
        obtain ⟨-, htype, rfl⟩ := hstep
        have hnew := hsane _ (List.mem_append_right _ (List.mem_singleton_self _))
        exact (ih fun r hr => hsane r (List.mem_append_left _ hr)).alloc hnew htype
    | free frame =>
        obtain ⟨hframe, rfl⟩ := hstep
        exact (ih hsane).free hzero hframe
    | other =>
        obtain ⟨hframe, hlog⟩ := hstep
        rw [hlog] at hsane
        have hs' := ih hsane
        constructor
        · rw [hframe]
          exact hs'.rows
        · rw [hlog]
          exact hs'.blocks

/-! ## The boot data -/

/-- The addresses of what the boot loader left for `kmain`. -/
inductive BootData (m : Mem) (info : Word32) : Nat → Prop where
  | info {x : Nat} (hlo : info.toNat ≤ x) (hhi : x < info.toNat + sizeofInfoTable.toNat) :
      BootData m info x
  | modules {x : Nat} (hlo : (modsAddr m info).toNat ≤ x)
      (hhi : x < (modsAddr m info).toNat + sizeofModuleTable.toNat * (getModuleCount m info).toNat) :
      BootData m info x
  | module (i : Nat) {x : Nat} (hi : i < (getModuleCount m info).toNat)
      (hlo : (modStart m (moduleAt m info (BitVec.ofNat 32 i))).toNat ≤ x)
      (hhi : x < (modEnd m (moduleAt m info (BitVec.ofNat 32 i))).toNat) : BootData m info x
  /-- up to and including the first zero byte -/
  | cmdline (i : Nat) {x : Nat} (hi : i < (getModuleCount m info).toNat)
      (hlo : (cmdline m (moduleAt m info (BitVec.ofNat 32 i))).toNat ≤ x)
      (hstr : ∀ y, (cmdline m (moduleAt m info (BitVec.ofNat 32 i))).toNat ≤ y → y < x → m y ≠ 0) :
      BootData m info x

/-- No block in the log overlaps the boot data. -/
def SparesBootData (m : Mem) (info : Word32) (log : List (Word32 × Word64)) : Prop :=
  ∀ r ∈ log, r.1 ≠ 0 → ∀ x, BootData m info x →
    ¬ ((block r.1 r.2).1 ≤ x ∧ x < (block r.1 r.2).2)

/-- The row has an address of `D` behind the first page, which is nobody's to hand out. -/
def Carries (D : Nat → Prop) (e : Entry) : Prop := ∃ x, 0x1000 ≤ x ∧ D x ∧ e.span.Covers x

/-- No row that carries some of `D` is free, or can become free because it starts inside a row that
carries nothing of `D`, or at address 0. -/
structure Protected (D : Nat → Prop) (t : Table) : Prop where
  withheld : ∀ e ∈ t.live, Carries D e → e.isFree = false
  apart : ∀ e ∈ t.live, Carries D e → ∀ f ∈ t.live, ¬ Carries D f → ¬ f.span.Covers e.span.lo
  above : ∀ e ∈ t.live, Carries D e → 0x1000 ≤ e.span.lo

/-- What the allocator may hand out: the first page and the rows that carry nothing of `D`. -/
def Spare (D : Nat → Prop) (t : Table) (x : Nat) : Prop :=
  x < 0x1000 ∨ ∃ e ∈ t.live, ¬ Carries D e ∧ e.span.Covers x

theorem Spare.not_data {D : Nat → Prop} {t : Table} {x : Nat} (h : Spare D t x)
    (hx : 0x1000 ≤ x) : ¬ D x := by
  intro hD
  rcases h with hlow | ⟨e, -, hnot, hcov⟩
  · omega
  · exact hnot ⟨x, hx, hD, hcov⟩

theorem Protected.confined {D : Nat → Prop} {t : Table} (h : Protected D t)
    (hrows : ∀ e ∈ t.live, Confined (fun _ => True) e) : ∀ e ∈ t.live, Confined (Spare D t) e := by
  intro e he
  have hrow := hrows e he
  refine ⟨hrow.ok, hrow.lo_le, hrow.hi_le, ?_⟩
  by_cases hcarries : Carries D e
  · left
    constructor
    · intro hfree
      have hheld := h.withheld e he hcarries
      rw [hrow.ok.isFree_iff.mpr hfree] at hheld
      exact Bool.noConfusion hheld
    · rintro (hlow | ⟨f, hf, hnot, hcov⟩)
      · have habove := h.above e he hcarries
        omega
      · exact h.apart e he hcarries f hf hnot hcov
  · exact Or.inr fun x hx => Or.inr ⟨e, he, hcarries, hx⟩

/-! ## The table at `VirtualMemory::Install` -/

theorem confined_addMemoryMap {m : Mem} {info : Word32}
    (hmap : ∀ r ∈ availableRanges m info, r.1.toNat + r.2.toNat ≤ 2 ^ 32) {t : Table}
    (h : ∀ e ∈ t.live, Confined (fun _ => True) e) :
    ∀ e ∈ (addMemoryMap m info t).live, Confined (fun _ => True) e := by
  refine List.foldlRecOn (motive := fun t : Table => ∀ e ∈ t.live, Confined (fun _ => True) e) _ _ h ?_
  intro t ht r hr
  exact confined_addRange ht (hmap r hr)

/-- A reservation at a 32-bit address. -/
theorem confined_reserve {t : Table} (h : ∀ e ∈ t.live, Confined (fun _ => True) e) (p : Word32)
    (length : Word64) (st : Status) :
    ∀ e ∈ (reserveRange t (ptrToU64 p) length st.flag).live, Confined (fun _ => True) e := by
  refine confined_reserveRange h ?_ st (Or.inr fun _ => trivial)
  have hlt := p.isLt
  unfold ptrToU64
  rw [BitVec.toNat_setWidth, Nat.mod_eq_of_lt (by omega)]
  omega

theorem confined_bootTable (img : Image) {m : Mem} {info : Word32}
    (hmap : ∀ r ∈ availableRanges m info, r.1.toNat + r.2.toNat ≤ 2 ^ 32) {t : Table}
    (h : ∀ e ∈ t.live, Confined (fun _ => True) e) :
    ∀ e ∈ (bootTable img m info t).live, Confined (fun _ => True) e := by
  have hmem := confined_addMemoryMap hmap h
  have hinfo : ∀ e ∈ (reserveInfo info (addMemoryMap m info t)).live, Confined (fun _ => True) e :=
    confined_reserve (confined_reserve hmem 0 4096 .used) info sizeofInfoTable .available
  refine confined_reserve (confined_reserve ?_ _ _ .available) _ _ .available
  refine List.foldlRecOn (motive := fun t : Table => ∀ e ∈ t.live, Confined (fun _ => True) e) _ _
    hinfo ?_
  intro t ht i _
  exact confined_reserve ht _ _ .used

/-- **Boot data survives, if it is withheld.**  Memory lies below 4 GB, when
`VirtualMemory::Install` is called the boot data is protected in the frame table, and no size that
is asked for wraps: then no block that `Alloc` hands out overlaps the boot data. -/
theorem boot_data_survives (img : Image) (others : Word32 → Mem → Mem) (fuel : Nat) {s : Machine}
    (hframe : s.frame = Frame.empty) (hlog : s.allocs = []) (magic info : Word32)
    (hmap : ∀ r ∈ availableRanges s.mem info, r.1.toNat + r.2.toNat ≤ 2 ^ 32)
    (hprotected : Protected (BootData s.mem info) (bootTable img s.mem info s.frame))
    (hsizes : ∀ r ∈ (kmain img others fuel s magic info).2.allocs, SaneSize r.2) :
    SparesBootData s.mem info (kmain img others fuel s magic info).2.allocs := by
  have hempty : ∀ e ∈ s.frame.live, Confined (fun _ => True) e := by
    rw [hframe]
    simp [Table.live, Frame.empty]
  have hrows := hprotected.confined (confined_bootTable img hmap hempty)
  have hkmain : (kmain img others fuel s magic info).2.allocs = s.allocs ∨
      Uses (fun _ => True) { s with frame := bootTable img s.mem info s.frame }
        (kmain img others fuel s magic info).2 :=
    Uses.kmain trivial img others (fun _ _ => trivial) s magic info
  rcases hkmain with hnone | huses
  · rw [hnone, hlog]
    exact fun r hr => absurd hr List.not_mem_nil
  · have hstart : Spared (Spare (BootData s.mem info) (bootTable img s.mem info s.frame))
        { s with frame := bootTable img s.mem info s.frame } := by
      refine ⟨hrows, ?_⟩
      rw [hlog]
      exact fun r hr => absurd hr List.not_mem_nil
    -- whatever the loader does with the table, no block meets what is spared
    have hend := hstart.uses (Or.inl (by decide)) huses hsizes
    intro r hr hne x hx hin
    obtain ⟨habove, hspare⟩ := hend.blocks r hr hne x hin.1 hin.2
    exact hspare.not_data habove hx

/-! ## Two boots -/

/-- 32-bit words at the given addresses, zeros elsewhere. -/
def wordsAt (l : List (Nat × Nat)) : Mem := l.foldl (fun m w => m.store w.1 4 w.2) fun _ => 0

/-- A PC with one module, `initrd`, whose command line is at `cmd`.  Everything is in the second
megabyte, the information structure and the memory map at `0x101000`, the modules table at
`0x102000` and the module behind it. -/
def pcMemory (cmd : Nat) : Mem := wordsAt
  [(0x101000, 0x48), (0x101014, 1), (0x101018, 0x102000), (0x10102c, 48), (0x101030, 0x101100),
    (0x101100, 20), (0x101108, 0), (0x10110c, 0x9f000), (0x101114, 1),
    (0x101118, 20), (0x10111c, 0x100000), (0x101124, 0x100000), (0x10112c, 1),
    (0x102000, 0x103000), (0x102004, 0x104000), (0x102008, cmd),
    (cmd, 0x74696e69), (cmd + 4, 0x6472)]

def pcBoot (cmd : Nat) : Machine := ⟨pcMemory cmd, Frame.empty, 0, []⟩

def pcInfo : Word32 := 0x101000

/-- The loader lies at `[0x180000, 0x190000)`. -/
def pcImage : Image := ⟨0x180000, 0x190000, 0x180100, 0x180110, 0x180200, 0x696e6974⟩

theorem VirtualMemory.install_log (s : Machine) :
    s.allocs ++ [((Frame.alloc s.frame frameNoLimit 4096 frameUsed).1, 4096)] <+:
      (VirtualMemory.install s).allocs := by
  have hmaps := (VirtualMemory.logged_mapAll
    { (s.alloc frameNoLimit 4096 frameUsed).2 with
      pml4Table := (s.alloc frameNoLimit 4096 frameUsed).1 } VirtualMemory.installCalls).isPrefix
  exact hmaps

/-- The PML4 is the first block in the log of a boot that gets as far as `Install`. -/
theorem first_block (img : Image) (others : Word32 → Mem → Mem) (fuel : Nat) (s : Machine)
    (info : Word32) (hinfo : info ≠ 0) (hmap : getMemMapCount s.mem info ≠ 0)
    (hmods : getModuleCount s.mem info ≠ 0) :
    s.allocs ++ [((Frame.alloc (bootTable img s.mem info s.frame) frameNoLimit 4096 frameUsed).1,
      4096)] <+: (kmain img others fuel s bootloaderMagic info).2.allocs := by
  have hrest : Uses (fun _ => True)
      (VirtualMemory.install { s with frame := bootTable img s.mem info s.frame })
      (afterInstall img others fuel
        (VirtualMemory.install { s with frame := bootTable img s.mem info s.frame }) info).2 :=
    Uses.afterInstall trivial img others (fun _ _ => trivial) _ _
  unfold kmain
  rw [if_neg (not_or.mpr ⟨fun h => h rfl, hinfo⟩), if_neg hmap, if_neg hmods]
  refine List.IsPrefix.trans ?_ hrest.log
  exact VirtualMemory.install_log { s with frame := bootTable img s.mem info s.frame }

/-- A check of the rows that meet an interval around the data. -/
theorem Protected.of_check {D : Nat → Prop} {t : Table} {a b : Nat}
    (hD : ∀ x, D x → a ≤ x ∧ x < b)
    (hrows : ∀ e ∈ t.live, e.span.lo < b → a < e.span.hi → e.isFree = false ∧
      0x1000 ≤ e.span.lo ∧ ∀ f ∈ t.live, f.span.lo ≤ e.span.lo → e.span.lo < f.span.hi → f = e) :
    Protected D t := by
  have hcheck : ∀ e ∈ t.live, Carries D e → e.isFree = false ∧ 0x1000 ≤ e.span.lo ∧
      ∀ f ∈ t.live, f.span.lo ≤ e.span.lo → e.span.lo < f.span.hi → f = e := by
    rintro e he ⟨x, -, hx, hlo, hhi⟩
    obtain ⟨hax, hxb⟩ := hD x hx
    exact hrows e he (by omega) (by omega)
  constructor
  · exact fun e he hc => (hcheck e he hc).1
  · intro e he hc f hf hnot hcov
    have hsame := (hcheck e he hc).2.2 f hf hcov.1 hcov.2
    exact hnot (hsame ▸ hc)
  · exact fun e he hc => (hcheck e he hc).2.1

theorem pcBoot_ranges :
    availableRanges (pcBoot 0x101200).mem pcInfo = [(0, 0x9f000), (0x100000, 0x100000)] := by
  decide +kernel

theorem pcBoot_count : (getModuleCount (pcBoot 0x101200).mem pcInfo).toNat = 1 := by decide +kernel

theorem pcBoot_modsAddr : (modsAddr (pcBoot 0x101200).mem pcInfo).toNat = 0x102000 := by
  decide +kernel

theorem pcBoot_modStart : (modStart (pcBoot 0x101200).mem
    (moduleAt (pcBoot 0x101200).mem pcInfo (BitVec.ofNat 32 0))).toNat = 0x103000 := by
  decide +kernel

theorem pcBoot_modEnd : (modEnd (pcBoot 0x101200).mem
    (moduleAt (pcBoot 0x101200).mem pcInfo (BitVec.ofNat 32 0))).toNat = 0x104000 := by
  decide +kernel

theorem pcBoot_cmdline : (cmdline (pcBoot 0x101200).mem
    (moduleAt (pcBoot 0x101200).mem pcInfo (BitVec.ofNat 32 0))).toNat = 0x101200 := by
  decide +kernel

theorem pcBoot_data {x : Nat} (h : BootData (pcBoot 0x101200).mem pcInfo x) :
    0x101000 ≤ x ∧ x < 0x104000 := by
  cases h with
  | info hlo hhi =>
      rw [show pcInfo.toNat = 0x101000 from rfl] at hlo hhi
      rw [show sizeofInfoTable.toNat = 88 from rfl] at hhi
      omega
  | modules hlo hhi =>
      rw [pcBoot_modsAddr] at hlo hhi
      rw [pcBoot_count, show sizeofModuleTable.toNat = 16 from rfl] at hhi
      omega
  | module i hi hlo hhi =>
      rw [pcBoot_count, Nat.lt_one_iff] at hi
      subst hi
      rw [pcBoot_modStart] at hlo
      rw [pcBoot_modEnd] at hhi
      omega
  | cmdline i hi hlo hstr =>
      rw [pcBoot_count, Nat.lt_one_iff] at hi
      subst hi
      rw [pcBoot_cmdline] at hlo hstr
      -- the string ends at `0x101206`
      have hle : x ≤ 0x101206 := by
        by_contra hlt
        exact hstr 0x101206 (by decide) (by omega) (by decide +kernel)
      omega

/-- The command line at `0x101200` shares the page of the information structure, which is
reserved.  The run is followed up to the loop of `Elf::Load`. -/
theorem pcBoot_survives :
    SparesBootData (pcBoot 0x101200).mem pcInfo
      (kmain pcImage (fun _ m => m) 0 (pcBoot 0x101200) bootloaderMagic pcInfo).2.allocs := by
  have hprotected : Protected (BootData (pcBoot 0x101200).mem pcInfo)
      (bootTable pcImage (pcBoot 0x101200).mem pcInfo (pcBoot 0x101200).frame) :=
    .of_check (fun x hx => pcBoot_data hx) (by decide +kernel)
  -- without rounds for `Elf::Load`, every request is for a page
  have hkmain : (kmain pcImage (fun _ m => m) 0 (pcBoot 0x101200) bootloaderMagic pcInfo).2.allocs =
        (pcBoot 0x101200).allocs ∨ Uses (Eq 4096)
      { pcBoot 0x101200 with
        frame := bootTable pcImage (pcBoot 0x101200).mem pcInfo (pcBoot 0x101200).frame }
      (kmain pcImage (fun _ m => m) 0 (pcBoot 0x101200) bootloaderMagic pcInfo).2 :=
    Uses.kmain rfl pcImage (fun _ m => m) (fun h => absurd h (Nat.lt_irrefl 0)) (pcBoot 0x101200)
      bootloaderMagic pcInfo
  refine boot_data_survives pcImage (fun _ m => m) 0 (s := pcBoot 0x101200) rfl rfl _ _
    (by simp [pcBoot_ranges]) hprotected ?_
  intro r hr
  rcases hkmain with hnone | huses
  · rw [hnone] at hr
    exact absurd hr List.not_mem_nil
  · have hsize := huses.sizes (fun r hr => absurd hr List.not_mem_nil) r hr
    rw [SaneSize, ← hsize]
    decide

/-- With the command line in the page behind the loader, that page becomes the PML4. -/
theorem pcBoot_loses_cmdline :
    ¬ SparesBootData (pcBoot 0x190000).mem pcInfo
      (kmain pcImage (fun _ m => m) 0 (pcBoot 0x190000) bootloaderMagic pcInfo).2.allocs := by
  have hpml4 : (Frame.alloc
      (bootTable pcImage (pcBoot 0x190000).mem pcInfo (pcBoot 0x190000).frame) frameNoLimit
      4096 frameUsed).1 = 0x190000 := by decide +kernel
  obtain ⟨l, hl⟩ := first_block pcImage (fun _ m => m) 0 (pcBoot 0x190000) pcInfo
    (by decide) (by decide +kernel) (by decide +kernel)
  intro hspared
  have hmem : ((0x190000 : Word32), (4096 : Word64)) ∈
      (kmain pcImage (fun _ m => m) 0 (pcBoot 0x190000) bootloaderMagic pcInfo).2.allocs := by
    rw [← hl, ← hpml4]
    exact List.mem_append_left _ (List.mem_append_right _ (List.mem_singleton_self _))
  have hcmd : (cmdline (pcBoot 0x190000).mem
      (moduleAt (pcBoot 0x190000).mem pcInfo (BitVec.ofNat 32 0))).toNat = 0x190000 := by
    decide +kernel
  refine hspared _ hmem (by decide) 0x190000 (.cmdline 0 (by decide +kernel) ?_ ?_)
    (by decide +kernel)
  · exact hcmd.le
  · intro y h1 h2
    omega

end Loader
end ZineOS
