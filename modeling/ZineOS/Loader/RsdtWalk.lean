import ZineOS.Loader.Acpi
import ZineOS.Lib.RecordWalk

/-!
# The pointers of the RSDT

`ParseRsdp` takes the number of pointers from the length field: `(length - 36) / 4` in unsigned
numbers of 32 bits.  The checksum is that of `length` bytes, so that a table shorter than its own
header can pass it; then the loop reads through the whole address space.

* `rsdtScan` is the loop with a list of the pointers it has read and of the calls it has made, and
  `rsdtScan_progress` says that it is the same loop.
* **`rsdt_walk_iff`** — exactly the complete pointers behind the header are read, and exactly those
  that lead to a MADT are parsed, whenever the length is 36 or more.
-/

namespace ZineOS
namespace Loader
namespace Acpi

open Lib InitRd

/-- One round of the loop: the memory of the moment, where the pointer lies, the pointer, and whether
`ParseMadt` is called with it. -/
structure Visit where
  mem : Mem
  slot : Word32
  table : Word32
  parsed : Bool

section

variable (img : Image) (others : Word32 → Mem → Mem) (fuel : Nat)

/-- The loop of `ParseRsdp` with its visits. -/
def rsdtScan (rd : Reader 32) (offsetPtr : Word32) : Nat → Machine → Word32 → Progress × List Visit
  | 0, s, _ => (.returned s, [])
  | n + 1, s, i =>
      let slot := offsetPtr + 4 * i
      let tablePtr := load32 s.mem slot
      if memcmp s.mem madtSignature tablePtr = 0 then
        match parseMadt img others fuel s rd tablePtr with
        | .returned s' =>
            let rest := rsdtScan rd offsetPtr n s' (i + 1)
            (rest.1, ⟨s.mem, slot, tablePtr, true⟩ :: rest.2)
        | .running s' => (.running s', [⟨s.mem, slot, tablePtr, true⟩])
      else
        let rest := rsdtScan rd offsetPtr n s (i + 1)
        (rest.1, ⟨s.mem, slot, tablePtr, false⟩ :: rest.2)

/-- `rsdt_ptr`. -/
def rsdtOf (m : Mem) (rsdp : Word32) : Word32 := load32 m (rsdp + 16)

/-- `rsdt_ptr->length`. -/
def rsdtLength (m : Mem) (rsdp : Word32) : Word32 := load32 m (rsdtOf m rsdp + 4)

/-- `ParseRsdp` with the visits of its loop. -/
def parseRsdpScan (s : Machine) (rd : Reader 32) (rsdp : Word32) : Progress × List Visit :=
  let rsdt := rsdtOf s.mem rsdp
  let length := rsdtLength s.mem rsdp
  if checkSum s.mem rsdt length ≠ 0 then (.returned s, [])
  else
    let tableCount := (length - sizeofRsdt) / 4
    rsdtScan img others fuel rd (rsdt + 36) tableCount.toNat s 0

/-- The visits change nothing. -/
theorem rsdtScan_progress {rd : Reader 32} {offsetPtr : Word32} (n : Nat) {s : Machine} {i : Word32} :
    (rsdtScan img others fuel rd offsetPtr n s i).1 =
      rsdtLoop img others fuel rd offsetPtr n s i := by
  induction n generalizing s i with
  | zero => rfl
  | succ n ih =>
      rw [rsdtScan, rsdtLoop]
      by_cases hmadt : memcmp s.mem madtSignature (load32 s.mem (offsetPtr + 4 * i)) = 0
      · simp only [hmadt, if_true]
        cases parseMadt img others fuel s rd (load32 s.mem (offsetPtr + 4 * i)) with
        | returned s' => exact ih
        | running s' => rfl
      · simp only [hmadt, if_false]
        exact ih

theorem parseRsdpScan_progress (s : Machine) (rd : Reader 32) (rsdp : Word32) :
    (parseRsdpScan img others fuel s rd rsdp).1 = parseRsdp img others fuel s rd rsdp := by
  unfold parseRsdpScan parseRsdp
  by_cases hsum : checkSum s.mem (rsdtOf s.mem rsdp) (rsdtLength s.mem rsdp) = 0
  · rw [if_neg (not_not_intro hsum)]
    refine (rsdtScan_progress img others fuel _).trans ?_
    exact (if_neg (not_not_intro hsum)).symm
  · rw [if_pos hsum]
    exact (if_pos hsum).symm

end

/-- The addresses of the complete pointers in bytes 36 to `length` of the table. -/
def pointers (rsdt length : Word32) : List Word32 :=
  (strided 4 length.toNat 36).map fun k => rsdt + BitVec.ofNat 32 k

/-- The bytes at `p` begin with `l`. -/
def StartsWith (m : Mem) (p : Word32) (l : List Byte) : Prop :=
  ∀ k (hk : k < l.length), load8 m (p + BitVec.ofNat 32 k) = l[k]

/-- The loop has visited the pointers of the table in order, all of them if it has come to its end,
and each one as it should. -/
structure VisitsPointers (rsdt length : Word32) (run : Progress × List Visit) : Prop where
  slots : run.2.map Visit.slot <+: pointers rsdt length
  all : ∀ s, run.1 = .returned s → run.2.map Visit.slot = pointers rsdt length
  each : ∀ v ∈ run.2, v.table = load32 v.mem v.slot ∧
    (v.parsed = true ↔ StartsWith v.mem v.table madtSignature)

theorem startsWith_cons {m : Mem} {p : Word32} {c : Byte} {l : List Byte} :
    StartsWith m p (c :: l) ↔ load8 m p = c ∧ StartsWith m (p + 1) l := by
  have hnext : ∀ k, p + BitVec.ofNat 32 (k + 1) = p + 1 + BitVec.ofNat 32 k := by
    intro k
    rw [Nat.add_comm, BitVec.ofNat_add, BitVec.add_assoc]
    rfl
  constructor
  · intro h
    have hfirst := h 0 (Nat.succ_pos _)
    rw [BitVec.add_zero] at hfirst
    exact ⟨hfirst, fun k hk => hnext k ▸ h (k + 1) (Nat.succ_lt_succ hk)⟩
  · rintro ⟨hfirst, hrest⟩ k hk
    cases k with
    | zero =>
        rw [BitVec.add_zero]
        exact hfirst
    | succ k =>
        rw [hnext]
        exact hrest k (Nat.lt_of_succ_lt_succ hk)

/-- `memcmp` returns 0 for equal strings. -/
theorem memcmp_eq_zero_iff {m : Mem} {p : Word32} {l : List Byte} :
    memcmp m l p = 0 ↔ StartsWith m p l := by
  induction l generalizing p with
  | nil => simp [memcmp, StartsWith]
  | cons c l ih =>
      have hval : c.setWidth 32 - (load8 m p).setWidth 32 = (0 : Word32) ↔ load8 m p = c := by
        rw [sub_eq_zero, ← BitVec.toNat_inj, ← BitVec.toNat_inj,
          BitVec.toNat_setWidth_of_le (by decide), BitVec.toNat_setWidth_of_le (by decide), eq_comm]
      rw [startsWith_cons, ← ih, ← hval, memcmp]
      by_cases hsame : c.setWidth 32 - (load8 m p).setWidth 32 = (0 : Word32)
      · simp only [hsame, ne_eq, not_true_eq_false, if_false, true_and]
      · simp only [hsame, ne_eq, not_false_eq_true, if_true, false_and]

section

variable (img : Image) (others : Word32 → Mem → Mem) (fuel : Nat) (rd : Reader 32)
  (offsetPtr : Word32) {rsdt length : Word32}

/-! ## The loop -/

/-- **`n` rounds from number `i` on.** -/
theorem rsdtScan_slots (n : Nat) (s : Machine) (i : Word32) :
    let run := rsdtScan img others fuel rd offsetPtr n s i
    let slots := (List.range n).map fun k => offsetPtr + 4 * (i + BitVec.ofNat 32 k)
    run.2.map Visit.slot <+: slots ∧ ∀ s', run.1 = .returned s' → run.2.map Visit.slot = slots := by
  induction n generalizing s i with
  | zero => exact ⟨List.prefix_rfl, fun _ _ => rfl⟩
  | succ n ih =>
      have hslots : (List.range (n + 1)).map (fun k => offsetPtr + 4 * (i + BitVec.ofNat 32 k)) =
          (offsetPtr + 4 * i) ::
            (List.range n).map fun k => offsetPtr + 4 * (i + 1 + BitVec.ofNat 32 k) := by
        rw [List.range_succ_eq_map, List.map_cons, List.map_map, BitVec.add_zero]
        refine congrArg _ (List.map_congr_left fun k _ => ?_)
        show offsetPtr + 4 * (i + BitVec.ofNat 32 (k + 1)) = _
        rw [Nat.add_comm k 1, BitVec.ofNat_add, ← BitVec.add_assoc]
        rfl
      dsimp only at ih ⊢
      rw [hslots, rsdtScan]
      by_cases hmadt : memcmp s.mem madtSignature (load32 s.mem (offsetPtr + 4 * i)) = 0
      · simp only [hmadt, if_true]
        cases parseMadt img others fuel s rd (load32 s.mem (offsetPtr + 4 * i)) with
        | returned s' =>
            obtain ⟨hslots, hall⟩ := ih s' (i + 1)
            exact ⟨(List.prefix_cons_inj _).mpr hslots, fun t ht => congrArg _ (hall t ht)⟩
        | running s' =>
            exact ⟨(List.prefix_cons_inj _).mpr List.nil_prefix, nofun⟩
      · simp only [hmadt, if_false]
        obtain ⟨hslots, hall⟩ := ih s (i + 1)
        exact ⟨(List.prefix_cons_inj _).mpr hslots, fun t ht => congrArg _ (hall t ht)⟩

/-- Each of them reads a pointer and parses what is a MADT. -/
theorem rsdtScan_each (n : Nat) (s : Machine) (i : Word32) :
    ∀ v ∈ (rsdtScan img others fuel rd offsetPtr n s i).2,
      v.table = load32 v.mem v.slot ∧
        (v.parsed = true ↔ StartsWith v.mem v.table madtSignature) := by
  induction n generalizing s i with
  | zero => exact nofun
  | succ n ih =>
      rw [rsdtScan]
      by_cases hmadt : memcmp s.mem madtSignature (load32 s.mem (offsetPtr + 4 * i)) = 0
      · have hstarts := memcmp_eq_zero_iff.mp hmadt
        simp only [hmadt, if_true]
        cases parseMadt img others fuel s rd (load32 s.mem (offsetPtr + 4 * i)) with
        | returned s' =>
            exact List.forall_mem_cons.mpr ⟨⟨rfl, iff_of_true rfl hstarts⟩, ih s' (i + 1)⟩
        | running s' => exact List.forall_mem_cons.mpr ⟨⟨rfl, iff_of_true rfl hstarts⟩, nofun⟩
      · have hother := fun h => hmadt (memcmp_eq_zero_iff.mpr h)
        simp only [hmadt, if_false]
        exact List.forall_mem_cons.mpr
          ⟨⟨rfl, iff_of_false Bool.false_ne_true hother⟩, ih s (i + 1)⟩

/-- The loop that goes round at all reads the word behind the header. -/
theorem rsdtScan_first (n : Nat) (s : Machine) : ∃ v l,
    (rsdtScan img others fuel rd offsetPtr (n + 1) s 0).2 = v :: l ∧ v.slot = offsetPtr := by
  have hslot : offsetPtr + 4 * 0 = offsetPtr := by simp
  rw [rsdtScan]
  by_cases hmadt : memcmp s.mem madtSignature (load32 s.mem (offsetPtr + 4 * 0)) = 0
  · simp only [hmadt, if_true]
    cases parseMadt img others fuel s rd (load32 s.mem (offsetPtr + 4 * 0)) with
    | returned s' => exact ⟨_, _, rfl, hslot⟩
    | running s' => exact ⟨_, _, rfl, hslot⟩
  · simp only [hmadt, if_false]
    exact ⟨_, _, rfl, hslot⟩

/-! ## The number of rounds -/

/-- With a header's length or more, the rounds are the pointers. -/
theorem pointers_eq (h : 36 ≤ length.toNat) : pointers rsdt length =
    (List.range ((length - sizeofRsdt) / 4).toNat).map
      fun k => rsdt + 36 + 4 * (0 + BitVec.ofNat 32 k) := by
  have hcount : ((length - sizeofRsdt) / 4).toNat = (length.toNat - 36) / 4 := by
    have hheader : sizeofRsdt.toNat = 36 := rfl
    have hsub : (length - sizeofRsdt).toNat = length.toNat - 36 :=
      BitVec.toNat_sub_of_le (by rw [BitVec.le_def, hheader]; exact h)
    rw [BitVec.toNat_udiv, hsub]
    rfl
  unfold pointers strided
  rw [hcount, List.map_map]
  refine List.map_congr_left fun k _ => ?_
  show rsdt + BitVec.ofNat 32 (36 + 4 * k) = _
  rw [BitVec.ofNat_add, BitVec.ofNat_mul, zero_add, BitVec.add_assoc]
  rfl

/-- With less, there is no pointer but at least one round. -/
theorem rounds_of_short (rsdt : Word32) (h : length.toNat < 36) :
    pointers rsdt length = [] ∧ 0 < ((length - sizeofRsdt) / 4).toNat := by
  constructor
  · unfold pointers
    rw [strided_nil (by omega)]
    rfl
  · have hsub : (length - sizeofRsdt).toNat = 2 ^ 32 - 36 + length.toNat := by
      rw [BitVec.toNat_sub]
      show (2 ^ 32 - 36 + length.toNat) % 2 ^ 32 = _
      omega
    rw [BitVec.toNat_udiv, hsub]
    show 0 < (2 ^ 32 - 36 + length.toNat) / 4
    omega

/-- A table that is shorter than its header has no pointer, and one is read. -/
theorem short_table_read {s : Machine} {rsdp : Word32}
    (hsum : checkSum s.mem (rsdtOf s.mem rsdp) (rsdtLength s.mem rsdp) = 0)
    (hshort : (rsdtLength s.mem rsdp).toNat < 36) :
    pointers (rsdtOf s.mem rsdp) (rsdtLength s.mem rsdp) = [] ∧
      ∃ v ∈ (parseRsdpScan img others fuel s rd rsdp).2, v.slot = rsdtOf s.mem rsdp + 36 := by
  obtain ⟨hnone, hrounds⟩ := rounds_of_short (rsdtOf s.mem rsdp) hshort
  obtain ⟨n, hn⟩ := Nat.exists_eq_succ_of_ne_zero (Nat.pos_iff_ne_zero.mp hrounds)
  obtain ⟨v, l, hfirst, hslot⟩ := rsdtScan_first img others fuel rd
    (rsdtOf s.mem rsdp + 36) n s
  refine ⟨hnone, v, ?_, hslot⟩
  unfold parseRsdpScan
  rw [if_neg (not_not_intro hsum)]
  simp only [hn]
  rw [hfirst]
  exact List.mem_cons_self

/-- Reading a pointer is wrong where there is none. -/
theorem not_visitsPointers {run : Progress × List Visit} {slot : Word32}
    (hnone : pointers rsdt length = []) (hread : ∃ v ∈ run.2, v.slot = slot) :
    ¬ VisitsPointers rsdt length run := by
  intro hvisits
  obtain ⟨v, hv, -⟩ := hread
  have hslots := hvisits.slots
  rw [hnone, List.prefix_nil, List.map_eq_nil_iff] at hslots
  rw [hslots] at hv
  exact absurd hv List.not_mem_nil

/-- **When the walk through the RSDT is right.**  For every machine and every RSDT that passes the
checksum test: `ParseRsdp` visits its pointers exactly when the length is that of the header or
more. -/
theorem rsdt_walk_iff (s : Machine) (rd : Reader 32) (rsdp : Word32)
    (hsum : checkSum s.mem (rsdtOf s.mem rsdp) (rsdtLength s.mem rsdp) = 0) :
    (parseRsdpScan img others fuel s rd rsdp).1 = parseRsdp img others fuel s rd rsdp ∧
    (VisitsPointers (rsdtOf s.mem rsdp) (rsdtLength s.mem rsdp)
      (parseRsdpScan img others fuel s rd rsdp) ↔ 36 ≤ (rsdtLength s.mem rsdp).toNat) := by
  refine ⟨parseRsdpScan_progress img others fuel s rd rsdp, ?_⟩
  constructor
  · intro hvisits
    by_contra hshort
    obtain ⟨hnone, hread⟩ := short_table_read img others fuel rd hsum
      (Nat.lt_of_not_le hshort)
    exact not_visitsPointers hnone hread hvisits
  · intro hlong
    obtain ⟨hslots, hall⟩ := rsdtScan_slots img others fuel rd (rsdtOf s.mem rsdp + 36)
      ((rsdtLength s.mem rsdp - sizeofRsdt) / 4).toNat s 0
    rw [← pointers_eq hlong] at hslots hall
    unfold parseRsdpScan
    rw [if_neg (not_not_intro hsum)]
    exact ⟨hslots, hall, rsdtScan_each img others fuel rd _ _ _ _⟩

end

/-- A machine whose RSDP at `0x1000` leads to a table at `0x2000` with this length and this checksum
byte, and zeros everywhere else. -/
def rsdtMachine (length sum : Nat) : Machine :=
  ⟨((Mem.store (fun _ => 0) 0x1010 4 0x2000).store 0x2004 4 length).store 0x2009 1 sum,
    Frame.empty, 0x10000, []⟩

/-- A loader whose literals do not matter. -/
def anyImage : Image := ⟨0, 0, 0, 0, 0, 0⟩

/-- Three pointers, the second one to a MADT with a Local APIC. -/
def threeTables : Machine :=
  { rsdtMachine 48 16 with
    mem := ((((((rsdtMachine 48 16).mem.store 0x2024 4 0x3000).store 0x2028 4 0x4000).store
      0x202C 4 0x5000).store 0x4000 4 0x43495041).store 0x4004 4 52).store 0x402C 2 0x0800 }

/-- All three are visited, and the MADT is parsed. -/
theorem threeTables_visited :
    let run := parseRsdpScan anyImage (fun _ m => m) 2 threeTables ⟨0, 0, 0⟩ 0x1000
    run.2.map (fun v => (v.table, v.parsed)) = [(0x3000, false), (0x4000, true), (0x5000, false)] ∧
      VisitsPointers 0x2000 48 run := by
  have htable : rsdtOf threeTables.mem 0x1000 = 0x2000 := by decide +kernel
  have hlength : rsdtLength threeTables.mem 0x1000 = 48 := by decide +kernel
  have hiff := (rsdt_walk_iff anyImage (fun _ m => m) 2 threeTables ⟨0, 0, 0⟩ 0x1000
    (by decide +kernel)).2
  rw [htable, hlength] at hiff
  exact ⟨by decide +kernel, hiff.mpr (by decide)⟩

/-- A table of length 0 passes the test, has no pointer, and is read all the same. -/
theorem emptyTable_read : checkSum (rsdtMachine 0 0).mem 0x2000 0 = 0 ∧
    pointers 0x2000 0 = [] ∧
      (∃ v ∈ (parseRsdpScan anyImage (fun _ m => m) 0 (rsdtMachine 0 0) ⟨0, 0, 0⟩ 0x1000).2,
        v.slot = 0x2024) ∧
      ¬ VisitsPointers 0x2000 0
        (parseRsdpScan anyImage (fun _ m => m) 0 (rsdtMachine 0 0) ⟨0, 0, 0⟩ 0x1000) := by
  have htable : rsdtOf (rsdtMachine 0 0).mem 0x1000 = 0x2000 := by decide +kernel
  have hlength : rsdtLength (rsdtMachine 0 0).mem 0x1000 = 0 := by decide +kernel
  obtain ⟨hnone, hread⟩ := @short_table_read anyImage (fun _ m => m) 0 ⟨0, 0, 0⟩
    (rsdtMachine 0 0) 0x1000 (by decide +kernel) (by decide +kernel)
  rw [htable, hlength] at hnone
  rw [htable] at hread
  exact ⟨rfl, hnone, hread, not_visitsPointers hnone hread⟩

end Acpi
end Loader
end ZineOS
