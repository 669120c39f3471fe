import ZineOS.Loader.Memory
import ZineOS.Kernel.InterruptFrame

/-!
# The interrupt descriptor table

`idt.cpp` keeps 256 packed entries of 16 bytes.  The fields of a handler's address and the bit fields
of the attributes lie where the processor looks for them when it reads an entry as four doublewords.

* `setGate` makes the stores of `Idt::SetGate` one by one.
* **`idt_refines_gateMap`** — what the processor finds for each vector after any calls of `SetGate`.
* **`installed_vector`** — after the three installations each vector leads to its own stub, which calls
  the handler with that vector's number.
-/

namespace ZineOS
namespace Kernel
namespace Idt

open Lib Loader
open Isr (Cpu Instr Regs)

/-! ## The table -/

/-- `Idt::Gate`. -/
inductive Gate
  | ldt | freeTss | busyTss | call | interrupt | trap
  deriving DecidableEq

def Gate.code : Gate → Byte
  | .ldt => 0b0010
  | .freeTss => 0b1001
  | .busyTss => 0b1011
  | .call => 0b1100
  | .interrupt => 0b1110
  | .trap => 0b1111

/-- `Idt::Ptr`. -/
structure Ptr where
  limit : Word16
  base : Word64

/-- `Idt::Install`: what `lidt` loads. -/
def install (idt : Word64) : Ptr := ⟨16 * 256 - 1, idt⟩

/-- `&idt[num]`. -/
def entryAddr (idt : Word64) (num : Byte) : Nat := idt.toNat + 16 * num.toNat

/-- The word `x` after a store of `v` to its `width` bits from bit `lo` on. -/
def setBits (x : Word16) (lo width : Nat) (v : Word16) : Word16 :=
  (x &&& ~~~(BitVec.ofNat 16 (2 ^ width - 1) <<< lo)) |||
    ((v &&& BitVec.ofNat 16 (2 ^ width - 1)) <<< lo)

/-- A store to a bit field of the 16-bit word at `p`. -/
def storeBits (m : Mem) (p lo width : Nat) (v : Word16) : Mem :=
  m.store p 2 (setBits (BitVec.ofNat 16 (m.load p 2)) lo width v).toNat

/-- The arguments of `Idt::SetGate`. -/
structure Call where
  num : Byte
  handler : Word64
  sel : Word16
  dpl : Byte
  type : Gate
  deriving DecidableEq

/-- `Idt::SetGate`. -/
def setGate (idt : Word64) (m : Mem) (c : Call) : Mem :=
  let p := entryAddr idt c.num
  let m := m.store p 2 (c.handler &&& 0xFFFF).toNat
  let m := m.store (p + 6) 2 ((c.handler >>> 16) &&& 0xFFFF).toNat
  let m := m.store (p + 8) 4 (c.handler >>> 32).toNat
  let m := m.store (p + 2) 2 c.sel.toNat
  let m := m.store (p + 4) 2 0
  let m := storeBits m (p + 4) 15 1 1
  let m := storeBits m (p + 4) 13 2 (c.dpl.setWidth 16)
  storeBits m (p + 4) 8 4 (c.type.code.setWidth 16)

/-! ## What the processor makes of it -/

/-- A gate descriptor as the processor reads it. -/
structure Descriptor where
  offset : Word64
  selector : Word16
  ist : BitVec 3
  type : BitVec 4
  /-- Bit 12 of the second doubleword, which tells system descriptors from the others. -/
  storage : Bool
  dpl : BitVec 2
  present : Bool
  deriving DecidableEq

/-- Doubleword `k` of a descriptor. -/
def dword (m : Mem) (p k : Nat) : Word32 := BitVec.ofNat 32 (m.load (p + 4 * k) 4)

/-- The descriptor at `p`. -/
def descriptorAt (m : Mem) (p : Nat) : Descriptor where
  offset := dword m p 2 ++ (dword m p 1).extractLsb' 16 16 ++ (dword m p 0).extractLsb' 0 16
  selector := (dword m p 0).extractLsb' 16 16
  ist := (dword m p 1).extractLsb' 0 3
  type := (dword m p 1).extractLsb' 8 4
  storage := (dword m p 1).getLsbD 12
  dpl := (dword m p 1).extractLsb' 13 2
  present := (dword m p 1).getLsbD 15

/-- The descriptor of vector `v`, if it lies within the limit. -/
def fetch (m : Mem) (idtr : Ptr) (v : Byte) : Option Descriptor :=
  if 16 * v.toNat + 15 ≤ idtr.limit.toNat then some (descriptorAt m (entryAddr idtr.base v)) else none

/-- What the processor loads for the handler from a present interrupt or trap gate, when it stays in
ring 0: the flags `TF`, `NT`, `RF` and `VM` are cleared, and `IF` at an interrupt gate. -/
def Descriptor.gate (d : Descriptor) (c : Cpu) : Option Isr.Gate :=
  if d.present ∧ ¬ d.storage ∧ (d.type = 0xE ∨ d.type = 0xF) then
    some {
      rip := d.offset
      cs := d.selector
      rflags := c.rflags &&& ~~~(if d.type = 0xE then 0x34300 else 0x34100)
      ss := c.ss
      stack := c.rsp &&& ~~~0xF }
  else none

/-! ## The gates as a map -/

/-- The last call for each vector. -/
abbrev GateMap := Byte → Option Call

def GateMap.set (g : GateMap) (c : Call) : GateMap := Function.update g c.num (some c)

/-- What a call asks for. -/
def Call.descriptor (c : Call) : Descriptor :=
  ⟨c.handler, c.sel, 0, c.type.code.setWidth 4, false, c.dpl.setWidth 2, true⟩

/-- An entry of zeros. -/
def Descriptor.absent : Descriptor := ⟨0, 0, 0, 0, false, 0, false⟩

/-- The table in memory is the map. -/
def Shows (idt : Word64) (m : Mem) (g : GateMap) : Prop :=
  ∀ v, descriptorAt m (entryAddr idt v) = ((g v).map Call.descriptor).getD .absent

variable {idt : Word64} {m m' : Mem} {c : Call} {g : GateMap} {p : Nat} {v : Byte}

/-! ## One entry -/

theorem dword_eq {k : Nat} {lo hi : Word16} (hlo : m.load (p + 4 * k) 2 = lo.toNat)
    (hhi : m.load (p + 4 * k + 2) 2 = hi.toNat) : dword m p k = hi ++ lo := by
  apply BitVec.eq_of_toNat_eq
  have hsplit : m.load (p + 4 * k) 4 = _ := Mem.load_add m (p + 4 * k) 2 2
  have hlt := Mem.load_lt m (p + 4 * k) 4
  rw [dword, BitVec.toNat_ofNat, Nat.mod_eq_of_lt (by simpa using hlt), BitVec.toNat_append,
    ← Nat.shiftLeft_add_eq_or_of_lt lo.isLt, Nat.shiftLeft_eq]
  rw [hlo, hhi] at hsplit
  omega

/-- The attributes that `SetGate` leaves. -/
def Call.attribs (c : Call) : Word16 :=
  setBits (setBits (setBits 0 15 1 1) 13 2 (c.dpl.setWidth 16)) 8 4 (c.type.code.setWidth 16)

/-- What the 16 bytes of an entry hold, but for the reserved ones. -/
structure Entry (m : Mem) (p : Nat) (c : Call) : Prop where
  offsetLow : m.load p 2 = (c.handler.extractLsb' 0 16).toNat
  selector : m.load (p + 2) 2 = c.sel.toNat
  attribs : m.load (p + 4) 2 = c.attribs.toNat
  offsetMid : m.load (p + 6) 2 = (c.handler.extractLsb' 16 16).toNat
  offsetHigh : m.load (p + 8) 4 = (c.handler.extractLsb' 32 32).toNat

theorem load_storeBits (lo width : Nat) (x v : Word16) (h : m.load p 2 = x.toNat) :
    (storeBits m p lo width v).load p 2 = (setBits x lo width v).toNat := by
  have hlt := (setBits x lo width v).isLt
  rw [storeBits, Mem.load_store_same, h, BitVec.ofNat_toNat, BitVec.setWidth_eq]
  exact Nat.mod_eq_of_lt hlt

theorem storeBits_of_disjoint {lo width b k : Nat} {v : Word16} (h : p + 2 ≤ b ∨ b + k ≤ p) :
    (storeBits m p lo width v).load b k = m.load b k := Mem.load_store_of_disjoint h

/-- The three parts of an address, each masked or cut to its width. -/
theorem low_part (v : Word64) : (v &&& 0xFFFF).toNat % 256 ^ 2 = (v.extractLsb' 0 16).toNat := by
  have hmask : (v &&& 0xFFFF).toNat = v.toNat % 2 ^ 16 :=
    Words.toNat_and_lowMask v (k := 16) (by decide)
  rw [hmask, BitVec.extractLsb'_toNat, Nat.shiftRight_zero]
  omega

theorem mid_part (v : Word64) :
    ((v >>> 16) &&& 0xFFFF).toNat % 256 ^ 2 = (v.extractLsb' 16 16).toNat := by
  rw [low_part, BitVec.extractLsb'_toNat, BitVec.extractLsb'_toNat, BitVec.toNat_ushiftRight,
    Nat.shiftRight_zero]

theorem high_part (v : Word64) : (v >>> 32).toNat % 256 ^ 4 = (v.extractLsb' 32 32).toNat := by
  rw [BitVec.extractLsb'_toNat, BitVec.toNat_ushiftRight]
  rfl

theorem join_parts (v : Word64) :
    v.extractLsb' 32 32 ++ v.extractLsb' 16 16 ++ v.extractLsb' 0 16 = v := by
  have hupper : v.extractLsb' 32 32 ++ v.extractLsb' 16 16 = v.extractLsb' 16 48 :=
    BitVec.extractLsb'_append_extractLsb'_eq_extractLsb' rfl
  have hwhole : v.extractLsb' 16 48 ++ v.extractLsb' 0 16 = v.extractLsb' 0 64 :=
    BitVec.extractLsb'_append_extractLsb'_eq_extractLsb' rfl
  rw [hupper, hwhole, BitVec.extractLsb'_eq_self]

theorem setGate_entry (idt : Word64) (m : Mem) (c : Call) :
    Entry (setGate idt m c) (entryAddr idt c.num) c := by
  have hsel := Nat.mod_eq_of_lt (show c.sel.toNat < 256 ^ 2 from c.sel.isLt)
  generalize hp : entryAddr idt c.num = p
  unfold setGate
  simp only [hp]
  constructor
  · simp (disch := omega) only [storeBits_of_disjoint, Mem.load_store_of_disjoint,
      Mem.load_store_same, low_part]
  · simp (disch := omega) only [storeBits_of_disjoint, Mem.load_store_of_disjoint,
      Mem.load_store_same, hsel]
  · -- one bit field after the other
    refine load_storeBits _ _ _ _ (load_storeBits _ _ _ _ (load_storeBits _ _ 0 _ ?_))
    exact Mem.load_store_same _ _ 2 0
  · simp (disch := omega) only [storeBits_of_disjoint, Mem.load_store_of_disjoint,
      Mem.load_store_same, mid_part]
  · simp (disch := omega) only [storeBits_of_disjoint, Mem.load_store_of_disjoint,
      Mem.load_store_same, high_part]

/-- The attributes as the processor divides them. -/
theorem attribs_fields (c : Call) (hi : Word16) :
    let w : Word32 := hi ++ c.attribs
    w.extractLsb' 0 3 = 0 ∧ w.extractLsb' 8 4 = c.type.code.setWidth 4 ∧
      w.getLsbD 12 = false ∧ w.extractLsb' 13 2 = c.dpl.setWidth 2 ∧ w.getLsbD 15 = true := by
  intro w
  have hlow : ∀ i < 16, w.getLsbD i = c.attribs.getLsbD i := by
    intro i hi
    rw [BitVec.getLsbD_append, if_pos (by simpa using hi)]
  refine ⟨?_, ?_, ?_, ?_, ?_⟩
  · ext i hi
    rw [BitVec.getElem_extractLsb', hlow _ (by omega)]
    interval_cases i <;> simp [Call.attribs, setBits]
  · ext i hi
    rw [BitVec.getElem_extractLsb', hlow _ (by omega)]
    interval_cases i <;> simp [Call.attribs, setBits]
  · rw [hlow _ (by omega)]
    simp [Call.attribs, setBits]
  · ext i hi
    rw [BitVec.getElem_extractLsb', hlow _ (by omega)]
    interval_cases i <;> simp [Call.attribs, setBits]
  · rw [hlow _ (by omega)]
    simp [Call.attribs, setBits]

/-- **One entry**: the processor finds what the call asks for. -/
theorem Entry.descriptorAt_eq (h : Entry m p c) : descriptorAt m p = c.descriptor := by
  have h₀ : dword m p 0 = c.sel ++ c.handler.extractLsb' 0 16 := dword_eq h.offsetLow h.selector
  have h₁ : dword m p 1 = c.handler.extractLsb' 16 16 ++ c.attribs := dword_eq h.attribs h.offsetMid
  have h₂ : dword m p 2 = c.handler.extractLsb' 32 32 := by
    apply BitVec.eq_of_toNat_eq
    have hlt := (c.handler.extractLsb' 32 32).isLt
    rw [dword, BitVec.toNat_ofNat, ← Nat.mod_eq_of_lt hlt, ← h.offsetHigh]
  obtain ⟨hist, htype, hstorage, hdpl, hpresent⟩ := attribs_fields c (c.handler.extractLsb' 16 16)
  unfold descriptorAt Call.descriptor
  rw [h₀, h₁, h₂, hist, htype, hstorage, hdpl, hpresent, BitVec.extractLsb'_append_eq_left,
    BitVec.extractLsb'_append_eq_left, BitVec.extractLsb'_append_eq_right, join_parts]

/-! ## The table -/

/-- The entry of another vector. -/
theorem agreeOn_setGate (idt : Word64) (m : Mem) (c : Call) {b k : Nat}
    (h : entryAddr idt c.num + 16 ≤ b ∨ b + k ≤ entryAddr idt c.num) :
    Mem.AgreeOn (setGate idt m c) m b k := by
  intro x hlo hhi
  generalize hp : entryAddr idt c.num = p at h
  unfold setGate storeBits
  simp only [hp]
  simp (disch := omega) only [Mem.store_of_not]

theorem descriptorAt_congr (h : Mem.AgreeOn m m' p 16) : descriptorAt m p = descriptorAt m' p := by
  have hword : ∀ k < 4, dword m p k = dword m' p k := fun k hk =>
    congrArg (BitVec.ofNat 32) (Mem.load_congr fun x hlo hhi => h x (by omega) (by omega))
  unfold descriptorAt
  rw [hword 0 (by decide), hword 1 (by decide), hword 2 (by decide)]

/-- One call of `SetGate` sets one vector. -/
theorem Shows.setGate (h : Shows idt m g) (c : Call) : Shows idt (setGate idt m c) (g.set c) := by
  intro v
  unfold GateMap.set
  by_cases hv : v = c.num
  · subst hv
    rw [(setGate_entry idt m c).descriptorAt_eq, Function.update_self]
    rfl
  · have hne : v.toNat ≠ c.num.toNat := fun heq => hv (BitVec.eq_of_toNat_eq heq)
    rw [Function.update_of_ne hv, ← h v]
    apply descriptorAt_congr
    apply agreeOn_setGate
    unfold entryAddr
    omega

theorem Shows.foldl (h : Shows idt m g) (calls : List Call) :
    Shows idt (calls.foldl (Idt.setGate idt) m) (calls.foldl GateMap.set g) := by
  induction calls generalizing m g with
  | nil => exact h
  | cons c calls ih => exact ih (h.setGate c)

/-- No gate is set in a table of zeros. -/
theorem shows_zero (h : ∀ x, idt.toNat ≤ x → x < idt.toNat + 4096 → m x = 0) :
    Shows idt m fun _ => none := by
  intro v
  have hlt := v.isLt
  have hload : ∀ k < 4, dword m (entryAddr idt v) k = 0 := by
    intro k hk
    have hzero : m.load (entryAddr idt v + 4 * k) 4 = (Mem.fill m idt.toNat 4096 0).load
        (entryAddr idt v + 4 * k) 4 := by
      refine Mem.load_congr fun x hlo hhi => ?_
      unfold entryAddr at hlo hhi
      rw [h x (by omega) (by omega), Mem.fill_of_mem ⟨by omega, by omega⟩]
    unfold dword
    rw [hzero, Mem.load_fill_zero]
    · rfl
    · unfold entryAddr
      omega
  unfold descriptorAt
  rw [hload 0 (by decide), hload 1 (by decide), hload 2 (by decide)]
  rfl

theorem fetch_install (idt : Word64) (m : Mem) (v : Byte) :
    fetch m (install idt) v = some (descriptorAt m (entryAddr idt v)) := by
  have hlimit : (install idt).limit.toNat = 4095 := rfl
  have hlt := v.isLt
  unfold fetch
  rw [if_pos (by omega)]
  rfl

/-- What lies outside of the table does not change. -/
theorem foldl_setGate_of_not (calls : List Call) {x : Nat}
    (hx : ¬ (idt.toNat ≤ x ∧ x < idt.toNat + 4096)) : calls.foldl (setGate idt) m x = m x := by
  induction calls generalizing m with
  | nil => rfl
  | cons c calls ih =>
      have hlt := c.num.isLt
      refine ih.trans (agreeOn_setGate idt m c (b := x) (k := 1) ?_ x le_rfl (by omega))
      unfold entryAddr
      omega

/-- The map behind some calls. -/
theorem foldl_set (calls : List Call) (g : GateMap) (v : Byte) :
    calls.foldl GateMap.set g v = (calls.reverse.find? fun c => c.num = v).or (g v) := by
  induction calls generalizing g with
  | nil => rfl
  | cons c calls ih =>
      rw [List.foldl_cons, ih, List.reverse_cons, List.find?_append, Option.or_assoc]
      congr 1
      unfold GateMap.set
      by_cases hv : v = c.num
      · subst hv
        simp
      · simp [hv, Ne.symm hv]

theorem fetch_foldl (hzero : ∀ x, idt.toNat ≤ x → x < idt.toNat + 4096 → m x = 0)
    (calls : List Call) (v : Byte) : fetch (calls.foldl (setGate idt) m) (install idt) v =
      some (((calls.reverse.find? fun c => c.num = v).map Call.descriptor).getD .absent) := by
  rw [fetch_install, (shows_zero hzero).foldl calls v, foldl_set, Option.or_none]

/-- **The table is a map of gates.**  After any calls of `SetGate` on a table of zeros, the processor
finds for each vector what the last call for it has asked for, and an absent gate where there was
none.  Nothing outside of the table has changed. -/
theorem idt_refines_gateMap (idt : Word64) (m : Mem)
    (hzero : ∀ x, idt.toNat ≤ x → x < idt.toNat + 4096 → m x = 0) (calls : List Call) :
    (∀ v, fetch (calls.foldl (setGate idt) m) (install idt) v =
      some (((calls.reverse.find? fun c => c.num = v).map Call.descriptor).getD .absent)) ∧
    ∀ x, ¬ (idt.toNat ≤ x ∧ x < idt.toNat + 4096) → calls.foldl (setGate idt) m x = m x :=
  ⟨fetch_foldl hzero calls, fun _ hx => foldl_setGate_of_not calls hx⟩

/-- Two gates for one vector: the second call counts, with its two bits of a privilege level. -/
theorem secondGate_found :
    (∀ v, fetch ([⟨3, 0x1000, 8, 0, .trap⟩, ⟨3, 0x123456789A, 8, 7, .interrupt⟩].foldl
        (setGate 0x2000) fun _ => 0) (install 0x2000) v =
      some ((([⟨3, 0x1000, 8, 0, .trap⟩, ⟨3, 0x123456789A, 8, 7, .interrupt⟩].reverse.find?
        fun c => c.num = v).map Call.descriptor).getD .absent)) ∧
    ∀ x, ¬ ((0x2000 : Word64).toNat ≤ x ∧ x < (0x2000 : Word64).toNat + 4096) →
      [⟨3, 0x1000, 8, 0, .trap⟩, ⟨3, 0x123456789A, 8, 7, .interrupt⟩].foldl
        (setGate 0x2000) (fun _ => 0) x = 0 :=
  idt_refines_gateMap 0x2000 (fun _ => 0) (fun _ _ _ => rfl) _

/-! ## The installations -/

/-- `KERNEL_CODE_SEGMENT`. -/
def kernelCodeSegment : Word16 := 0x08

/-- The labels `_isr0` to `_isr31` and `_irq0` to `_irq15`. -/
inductive Label
  | isr (n : Nat)
  | irq (n : Nat)

/-- The code at a label up to the call: the stub and the common code it jumps to. -/
def Label.entry : Label → List Instr
  | .isr n => Isr.isrStubs.getD n [] ++ Isr.isrCommonEntry
  | .irq n => Isr.irqStubs.getD n [] ++ Isr.irqCommonEntry

/-- The code behind the call. -/
def Label.exit : Label → List Instr
  | .isr _ => Isr.isrCommonExit
  | .irq _ => Isr.irqCommonExit

/-- `Isr::install`: one call for each of the numbers 0 to 31.  `addr` is where the linker has put the
labels. -/
def isrInstall (addr : Label → Word64) : List Call :=
  (List.range 32).map fun n => ⟨BitVec.ofNat 8 n, addr (.isr n), kernelCodeSegment, 0, .trap⟩

/-- The calls of `SetGate` in `Irq::Install`: one for each of the IRQs 0 to 15. -/
def irqInstall (addr : Label → Word64) : List Call :=
  (List.range 16).map fun n =>
    ⟨BitVec.ofNat 8 (32 + n), addr (.irq n), kernelCodeSegment, 0, .interrupt⟩

/-- The table behind `Isr::install` and `Irq::Install`. -/
def installed (idt : Word64) (addr : Label → Word64) (m : Mem) : Mem :=
  (isrInstall addr ++ irqInstall addr).foldl (setGate idt) m

/-- The label for vector `v`. -/
def labelOf (v : Nat) : Label := if v < 32 then .isr v else .irq (v - 32)

/-- The call for vector `v`. -/
def callFor (addr : Label → Word64) (v : Nat) : Call :=
  ⟨BitVec.ofNat 8 v, addr (labelOf v), kernelCodeSegment, 0,
    if v < 32 then .trap else .interrupt⟩

theorem install_calls (addr : Label → Word64) :
    isrInstall addr ++ irqInstall addr = (List.range 48).map (callFor addr) := rfl

theorem find_install (addr : Label → Word64) (v : Nat) (hv : v < 256) :
    ((isrInstall addr ++ irqInstall addr).reverse.find? fun c => c.num = BitVec.ofNat 8 v) =
      if v < 48 then some (callFor addr v) else none := by
  have hsame : ∀ n < 48, (BitVec.ofNat 8 n = BitVec.ofNat 8 v ↔ n = v) := by
    intro n hn
    rw [← BitVec.toNat_inj, BitVec.toNat_ofNat, BitVec.toNat_ofNat, Nat.mod_eq_of_lt (by omega),
      Nat.mod_eq_of_lt hv]
  rw [install_calls, ← List.map_reverse, List.find?_map]
  cases hfind : (List.range 48).reverse.find?
      ((fun c : Call => decide (c.num = BitVec.ofNat 8 v)) ∘ callFor addr) with
  | none =>
      have hno := List.find?_eq_none.mp hfind v
      have hv : ¬ v < 48 := fun hlt =>
        hno (List.mem_reverse.mpr (List.mem_range.mpr hlt)) (decide_eq_true rfl)
      rw [if_neg hv]
      rfl
  | some n =>
      have hn : n < 48 := List.mem_range.mp (List.mem_reverse.mp (List.mem_of_find?_eq_some hfind))
      have hfound := List.find?_some hfind
      have hnum : BitVec.ofNat 8 n = BitVec.ofNat 8 v := of_decide_eq_true hfound
      obtain rfl := (hsame n hn).mp hnum
      rw [if_pos hn]
      rfl

/-- The code for a vector is what its number is taken to stand for. -/
theorem labelOf_code (v : Nat) :
    (labelOf v).entry = Isr.entryCode v ∧ (labelOf v).exit = Isr.exitCode v := by
  unfold labelOf Isr.entryCode Isr.exitCode
  split_ifs <;> exact ⟨rfl, rfl⟩

/-- What is loaded from the gate of an installed vector. -/
def Label.gate (addr : Label → Word64) (c : Cpu) (l : Label) : Isr.Gate where
  rip := addr l
  cs := kernelCodeSegment
  rflags := c.rflags &&& ~~~(match l with
    | .isr _ => 0x34100
    | .irq _ => 0x34300)
  ss := c.ss
  stack := c.rsp &&& ~~~0xF

theorem gate_callFor (addr : Label → Word64) (c : Cpu) (v : Nat) :
    (callFor addr v).descriptor.gate c = some ((labelOf v).gate addr c) := by
  unfold callFor labelOf
  by_cases hisr : v < 32
  · simp only [if_pos hisr]
    rfl
  · simp only [if_neg hisr]
    rfl

/-- Interrupts are off behind the gate of an IRQ. -/
theorem interruptFlag_of_irq (addr : Label → Word64) (c : Cpu) {v : Nat} (h : 32 ≤ v) :
    ((labelOf v).gate addr c).rflags &&& 0x200 = 0 := by
  have hmask : ~~~(0x34300 : Word64) &&& 0x200 = 0 := by decide
  unfold labelOf
  rw [if_neg (by omega)]
  simp only [Label.gate]
  rw [BitVec.and_assoc, hmask]
  exact BitVec.and_zero

/-- **Every interrupt finds its stub, and the handler what it expects.**  Behind the installations an
exception from 0 to 20 other than the alignment check, or an IRQ, is taken through a gate to the label
of its number.  From there the handler is called with that number and the registers of the interrupted
code, which goes on when the handler returns; during an IRQ interrupts are off from the first
instruction.  No vector from 48 on has a gate. -/
theorem installed_vector (idt : Word64) (m : Mem) (addr : Label → Word64)
    (hzero : ∀ x, idt.toNat ≤ x → x < idt.toNat + 4096 → m x = 0) (c : Cpu) (v : Nat)
    (hv : v < 256) :
    ∃ d, fetch (installed idt addr m) (install idt) (BitVec.ofNat 8 v) = some d ∧
      (48 ≤ v → d.gate c = none) ∧
      (v < 48 → ∃ gate, d.gate c = some gate ∧ gate.rip = addr (labelOf v) ∧
        gate.cs = kernelCodeSegment ∧ (32 ≤ v → gate.rflags &&& 0x200 = 0) ∧
        (v ≤ 20 ∨ 32 ≤ v → v ≠ 17 → ∀ errorCode handler,
          let called := Isr.run handler (labelOf v).entry (Isr.interrupt gate errorCode v c)
          (Regs.load called.mem (called.reg .rdi)).Of v c ∧
          (Isr.Keeps handler → Isr.Resumes (Isr.run handler
            ((labelOf v).entry ++ [.call] ++ (labelOf v).exit)
            (Isr.interrupt gate errorCode v c)) c))) := by
  have hfetch := fetch_foldl hzero (isrInstall addr ++ irqInstall addr) (BitVec.ofNat 8 v)
  rw [find_install addr v hv] at hfetch
  refine ⟨_, hfetch, fun hbeyond => ?_, fun hset => ?_⟩
  · rw [if_neg (by omega)]
    rfl
  · obtain ⟨hentry, hexit⟩ := labelOf_code v
    rw [if_pos hset, hentry, hexit]
    refine ⟨(labelOf v).gate addr c, gate_callFor addr c v, rfl, rfl, interruptFlag_of_irq addr c,
      fun hused hne errorCode handler => ?_⟩
    have hright : Isr.FrameRight v := Isr.frameRight_of_ne (by omega) hne
    exact ⟨hright.passed _ errorCode c handler, hright.resumed _ errorCode c handler⟩

/-- The timer: IRQ 0 is vector 32. -/
theorem installed_timer :
    let addr : Label → Word64 := fun _ => 0x101000
    let c : Cpu := ⟨fun _ => 0, 0x9000, 0x100000, 8, 0x202, 0x10, fun _ => 0⟩
    ∃ d, fetch (installed 0x5000 addr fun _ => 0) (install 0x5000) (BitVec.ofNat 8 32) = some d ∧
      ∃ gate, d.gate c = some gate ∧ gate.rip = 0x101000 := by
  intro addr c
  obtain ⟨d, hfetch, -, hset⟩ := installed_vector 0x5000 (fun _ => 0) addr (fun _ _ _ => rfl) c 32
    (by decide)
  obtain ⟨gate, hgate, hrip, -⟩ := hset (by decide)
  exact ⟨d, hfetch, gate, hgate, hrip⟩

end Idt
end Kernel
end ZineOS
