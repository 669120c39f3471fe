import ZineOS.Loader.Kmain
import ZineOS.Lib.RecordWalk

/-!
# The memory map as a chain of entries

In the multiboot format every entry of the memory map begins with the number of bytes behind this
field, at least 20, and the next entry lies behind these bytes.  `GetMemMapCount` and `GetMemMap`
divide and multiply by the size of `MemoryMapTable` instead; nobody reads the field `size`.

* `SameBehindLonger` says of one map that this makes no difference, `SizesFit` says it of the sizes
  alone: only the last entry is longer, and by less than a whole record.
* **`memoryMap_walk_iff`** — exactly then `kmain` adds the ranges of the chain: in this map, and in
  every map with these sizes.
-/

namespace ZineOS
namespace Loader
namespace MBoot

open Lib

/-- `MemoryMapTable::size` of the entry at `p`. -/
def mapSize (m : Mem) (p : Nat) : Nat := m.load p 4

def mapStart (m : Mem) (info : Word32) : Nat := (mmapAddr m info).toNat

def mapStop (m : Mem) (info : Word32) : Nat := mapStart m info + (mmapLength m info).toNat

/-- The entries of the chain. -/
def entries (m : Mem) (info : Word32) : List Nat :=
  walk (fun p => mapSize m p + 4) (mapStop m info) (mapStart m info)

/-- The range of the entry at `p`, if its type is 1. -/
def rangeAt (m : Mem) (p : Nat) : Option (Word64 × Word64) :=
  let map := BitVec.ofNat 32 p
  if mapType m map = 1 then some (mapAddr m map, mapLen m map) else none

/-- What the format says is available. -/
def chainRanges (m : Mem) (info : Word32) : List (Word64 × Word64) :=
  (entries m info).filterMap (rangeAt m)

/-- There is a memory map, and it is a chain that ends where the buffer does. -/
structure IsChain (m : Mem) (info : Word32) : Prop where
  present : flags m info &&& infoMemMap ≠ 0
  fits : mapStop m info ≤ 2 ^ 32
  entry : ∀ p ∈ entries m info, 20 ≤ mapSize m p ∧ p + (mapSize m p + 4) ≤ mapStop m info

/-- Behind the first entry of another size, the records of 24 bytes have the same ranges as the
entries. -/
def SameBehindLonger (m : Mem) (info : Word32) : Prop :=
  ∀ before p rest, entries m info = before ++ p :: rest → (∀ q ∈ before, mapSize m q = 20) →
    mapSize m p ≠ 20 →
      (strided 24 (mapStop m info) (p + 24)).filterMap (rangeAt m) = rest.filterMap (rangeAt m)

/-- The first entry of another size is the last entry, and longer by less than a record. -/
def SizesFit (m : Mem) (info : Word32) : Prop :=
  ∀ before p rest, entries m info = before ++ p :: rest → (∀ q ∈ before, mapSize m q = 20) →
    mapSize m p ≠ 20 → rest = [] ∧ mapSize m p < 44

variable {m m' : Mem} {info : Word32} {p q x : Nat}

/-! ## What `kmain` reads -/

/-- The loop goes through records of 24 bytes. -/
theorem availableRanges_eq (h : flags m info &&& infoMemMap ≠ 0) : availableRanges m info =
    (strided 24 (mapStop m info) (mapStart m info)).filterMap (rangeAt m) := by
  have hcount : (getMemMapCount m info).toNat = (mmapLength m info).toNat / 24 := by
    unfold getMemMapCount
    by_cases hzero : mmapLength m info = 0
    · rw [if_pos (Or.inr hzero), hzero]
      rfl
    · rw [if_neg (not_or.mpr ⟨h, hzero⟩)]
      exact BitVec.toNat_udiv
  have hlength : mapStop m info - mapStart m info = (mmapLength m info).toNat :=
    Nat.add_sub_cancel_left _ _
  unfold availableRanges strided
  rw [hcount, hlength, List.filterMap_map]
  refine List.filterMap_congr fun i hi => ?_
  have hlt := List.mem_range.mp hi
  have hlength := (mmapLength m info).isLt
  have hindex : ¬ getMemMapCount m info ≤ BitVec.ofNat 32 i := by
    rw [BitVec.le_def, hcount, BitVec.toNat_ofNat, Nat.mod_eq_of_lt (by omega)]
    omega
  have hmap : getMemMap m info (BitVec.ofNat 32 i) = BitVec.ofNat 32 (mapStart m info + 24 * i) := by
    unfold getMemMap mapStart
    rw [if_neg hindex, BitVec.ofNat_add, BitVec.ofNat_mul, BitVec.ofNat_toNat, BitVec.setWidth_eq]
    rfl
  simp only [hmap, Function.comp_apply, rangeAt]

/-- **One map.** -/
theorem availableRanges_iff (h : IsChain m info) :
    availableRanges m info = chainRanges m info ↔ SameBehindLonger m info := by
  rw [availableRanges_eq h.present]
  unfold chainRanges SameBehindLonger
  have hsizes : ∀ q, mapSize m q + 4 = 24 ↔ mapSize m q = 20 := fun q => by omega
  have hiff := strided_eq_walk_iff (w := 24) (rangeAt m) (by decide)
    (fun q hq => ⟨by have hsize := (h.entry q hq).1; omega, (h.entry q hq).2⟩)
  simp only [hsizes, ne_eq] at hiff
  exact hiff

/-! ## Maps with the same sizes -/

/-- A memory map of the same place and length, with the same sizes. -/
structure SameLayout (m m' : Mem) (info : Word32) : Prop where
  flags : flags m' info = flags m info
  addr : mmapAddr m' info = mmapAddr m info
  length : mmapLength m' info = mmapLength m info
  size : ∀ p ∈ entries m info, mapSize m' p = mapSize m p

theorem SameLayout.start (h : SameLayout m m' info) : mapStart m' info = mapStart m info :=
  congrArg BitVec.toNat h.addr

theorem SameLayout.stop (h : SameLayout m m' info) : mapStop m' info = mapStop m info := by
  unfold mapStop
  rw [h.start, h.length]

theorem SameLayout.entries (h : SameLayout m m' info) : entries m' info = entries m info := by
  unfold MBoot.entries
  rw [h.start, h.stop]
  exact walk_congr fun p hp => congrArg (· + 4) (h.size p hp)

theorem SameLayout.isChain (h : SameLayout m m' info) (hchain : IsChain m info) :
    IsChain m' info where
  present := h.flags ▸ hchain.present
  fits := h.stop ▸ hchain.fits
  entry := by
    rw [h.entries, h.stop]
    intro p hp
    rw [h.size p hp]
    exact hchain.entry p hp

/-- These sizes are right for every contents. -/
theorem SizesFit.same (hfit : SizesFit m info) (hchain : IsChain m info)
    (h : SameLayout m m' info) : SameBehindLonger m' info := by
  intro before p rest hsplit hbefore hne
  rw [h.entries] at hsplit
  have hmem : ∀ q ∈ before ++ p :: rest, mapSize m' q = mapSize m q := fun q hq =>
    h.size q (hsplit ▸ hq)
  have hp : p ∈ before ++ p :: rest := List.mem_append_right _ List.mem_cons_self
  obtain ⟨rfl, hshort⟩ := hfit before p rest hsplit
    (fun q hq => (hmem q (List.mem_append_left _ hq)).symm.trans (hbefore q hq))
    (fun heq => hne ((hmem p hp).trans heq))
  -- the last entry ends where the buffer does, less than two records behind its start
  have hlast : mapStop m info = p + (mapSize m p + 4) := by
    have hend := walk_eq_nil_iff.mp (walk_behind hsplit (Nat.succ_pos _))
    have hinside := (hchain.entry p (hsplit ▸ hp)).2
    omega
  rw [h.stop, strided_nil (by omega)]

/-! ## Contents for which other sizes go wrong -/

/-- A byte of the field `size` of an entry. -/
def IsSizeByte (m : Mem) (info : Word32) (x : Nat) : Prop :=
  ∃ p ∈ entries m info, p ≤ x ∧ x < p + 4

instance : Decidable (IsSizeByte m info x) := inferInstanceAs (Decidable (∃ _, _ ∧ _))

/-- The map with its sizes and zeros everywhere else. -/
def blank (m : Mem) (info : Word32) : Mem := fun x =>
  if mapStart m info ≤ x ∧ x < mapStop m info ∧ ¬ IsSizeByte m info x then 0 else m x

/-- The fields of the multiboot structure that lead to the map lie outside of it. -/
def InfoApart (m : Mem) (info : Word32) : Prop :=
  ∀ d ∈ [0, 44, 48], ∀ x, (info + BitVec.ofNat 32 d).toNat ≤ x →
    x < (info + BitVec.ofNat 32 d).toNat + 4 → ¬ (mapStart m info ≤ x ∧ x < mapStop m info)

/-- Writing to the map, but not to a size. -/
theorem sameLayout_of (hapart : InfoApart m info)
    (h : ∀ x, IsSizeByte m info x ∨ ¬ (mapStart m info ≤ x ∧ x < mapStop m info) → m' x = m x) :
    SameLayout m m' info := by
  have hfield : ∀ d ∈ [0, 44, 48],
      load32 m' (info + BitVec.ofNat 32 d) = load32 m (info + BitVec.ofNat 32 d) := by
    intro d hd
    exact load32_congr fun x hlo hhi => h x (Or.inr (hapart d hd x hlo hhi))
  constructor
  · have hflags := hfield 0 (by decide)
    rwa [BitVec.add_zero] at hflags
  · exact hfield 48 (by decide)
  · exact hfield 44 (by decide)
  · intro p hp
    exact Mem.load_congr fun x hlo hhi => h x (Or.inl ⟨p, hp, hlo, hhi⟩)

theorem mapType_eq (h : p + 24 ≤ 2 ^ 32) :
    mapType m (BitVec.ofNat 32 p) = BitVec.ofNat 32 (m.load (p + 20) 4) := by
  have haddr : (BitVec.ofNat 32 p + 20).toNat = p + 20 := by
    rw [BitVec.toNat_add, BitVec.toNat_ofNat]
    show (p % 2 ^ 32 + 20) % 2 ^ 32 = p + 20
    omega
  unfold mapType load32
  rw [haddr]

/-- A type of 1, byte by byte. -/
theorem mapType_eq_one_iff (h : p + 24 ≤ 2 ^ 32) : mapType m (BitVec.ofNat 32 p) = 1 ↔
    m (p + 20) = 1 ∧ m (p + 21) = 0 ∧ m (p + 22) = 0 ∧ m (p + 23) = 0 := by
  have hload : m.load (p + 20) 4 = (m (p + 20)).toNat + 256 * ((m (p + 21)).toNat +
      256 * ((m (p + 22)).toNat + 256 * (m (p + 23)).toNat)) := by
    simp only [Mem.load, Nat.mul_zero, Nat.add_zero, Nat.add_assoc]
  have hone : mapType m (BitVec.ofNat 32 p) = 1 ↔ m.load (p + 20) 4 = 1 := by
    have hlt : m.load (p + 20) 4 < 2 ^ 32 := Mem.load_lt m (p + 20) 4
    rw [mapType_eq h, ← BitVec.toNat_inj, BitVec.toNat_ofNat, Nat.mod_eq_of_lt hlt]
    rfl
  rw [hone, hload, ← BitVec.toNat_inj, ← BitVec.toNat_inj, ← BitVec.toNat_inj, ← BitVec.toNat_inj]
  show _ ↔ _ = 1 ∧ _ = 0 ∧ _ = 0 ∧ _ = 0
  omega

theorem rangeAt_eq_none_iff : rangeAt m p = none ↔ mapType m (BitVec.ofNat 32 p) ≠ 1 := by
  simp [rangeAt]

theorem entries_apart (hp : p ∈ entries m info) (hq : q ∈ entries m info) (hne : p ≠ q) :
    p + (mapSize m p + 4) ≤ q ∨ q + (mapSize m q + 4) ≤ p := by
  rcases Nat.lt_or_gt_of_ne hne with hlt | hgt
  · exact Or.inl (walk_separated hp hq hlt)
  · exact Or.inr (walk_separated hq hp hgt)

theorem rangeAt_of_zero (h : p + 24 ≤ 2 ^ 32) (hzero : m (p + 20) = 0) : rangeAt m p = none := by
  rw [rangeAt_eq_none_iff, ne_eq, mapType_eq_one_iff h, hzero]
  exact fun hone => absurd hone.1 (by decide)

theorem store_one_same (m : Mem) (x : Nat) : m.store x 1 1 x = 1 := by
  unfold Mem.store
  rw [if_pos (by omega), Nat.sub_self]
  rfl

/-- A 1 that is stored in the type of the record at `q` gives no other record the type 1. -/
theorem eq_of_store_one (h : p + 24 ≤ 2 ^ 32) (hold : mapType m (BitVec.ofNat 32 p) ≠ 1)
    (hnew : mapType (m.store (q + 20) 1 1) (BitVec.ofNat 32 p) = 1) : p = q := by
  by_contra hne
  rw [ne_eq, mapType_eq_one_iff h] at hold
  rw [mapType_eq_one_iff h] at hnew
  obtain ⟨h20, h21, h22, h23⟩ := hnew
  -- the other three bytes are zeros, so none of them is the one that was stored
  have hkept : ∀ x, m.store (q + 20) 1 1 x = 0 → m x = 0 := by
    intro x hx
    have hother : x ≠ q + 20 := by
      rintro rfl
      rw [store_one_same] at hx
      exact absurd hx (by decide)
    rw [Mem.store_of_not (by omega)] at hx
    exact hx
  rw [Mem.store_of_not (by omega)] at h20
  exact hold ⟨h20, hkept _ h21, hkept _ h22, hkept _ h23⟩

section

variable (hchain : IsChain m info)

include hchain in
/-- What lies behind the size of an entry is not a size. -/
theorem body (hp : p ∈ entries m info) (hlo : p + 4 ≤ x) (hhi : x < p + (mapSize m p + 4)) :
    mapStart m info ≤ x ∧ x < mapStop m info ∧ ¬ IsSizeByte m info x := by
  have hstart := (mem_walk hp).1
  have hend := (hchain.entry p hp).2
  refine ⟨by omega, by omega, ?_⟩
  rintro ⟨q, hq, hqlo, hqhi⟩
  by_cases hsame : p = q
  · omega
  · rcases entries_apart hp hq hsame with hbefore | hbehind
    · omega
    · omega

include hchain in
theorem blank_body (hp : p ∈ entries m info) (hlo : p + 4 ≤ x)
    (hhi : x < p + (mapSize m p + 4)) : blank m info x = 0 :=
  if_pos (body hchain hp hlo hhi)

omit hchain in
theorem blank_of (h : IsSizeByte m info x ∨ ¬ (mapStart m info ≤ x ∧ x < mapStop m info)) :
    blank m info x = m x :=
  if_neg fun hin => h.elim hin.2.2 fun hn => hn ⟨hin.1, hin.2.1⟩

include hchain in
/-- A store into the body of an entry. -/
theorem sameLayout_store (hapart : InfoApart m info) (hp : p ∈ entries m info) {a n v : Nat}
    (hlo : p + 4 ≤ a) (hhi : a + n ≤ p + (mapSize m p + 4)) :
    SameLayout m ((blank m info).store a n v) info := by
  refine sameLayout_of hapart fun x hx => ?_
  have hout : ¬ (a ≤ x ∧ x < a + n) := by
    rintro ⟨hax, hxa⟩
    obtain ⟨hstart, hstop, hsize⟩ := body hchain hp (x := x) (by omega) (by omega)
    exact hx.elim hsize fun h => h ⟨hstart, hstop⟩
  rw [Mem.store_of_not hout]
  exact blank_of hx

include hchain in
/-- Entries whose type is not stored have type 0. -/
theorem rangeAt_blank_store {a n v : Nat} (hq : q ∈ entries m info)
    (hout : q + 20 < a ∨ a + n ≤ q + 20) : rangeAt ((blank m info).store a n v) q = none := by
  obtain ⟨hsize, hend⟩ := hchain.entry q hq
  have hfits := hchain.fits
  refine rangeAt_of_zero (by omega) ?_
  rw [Mem.store_of_not (by omega)]
  exact blank_body hchain hq (by omega) (by omega)

include hchain in
/-- An entry that is longer by a whole record: with a 1 in its padding there is one range too
many. -/
theorem exists_padding (hapart : InfoApart m info) {before rest : List Nat}
    (hsplit : entries m info = before ++ p :: rest) (hbefore : ∀ q ∈ before, mapSize m q = 20)
    (hlong : 44 ≤ mapSize m p) : ∃ m', SameLayout m m' info ∧ ¬ SameBehindLonger m' info := by
  have hp : p ∈ entries m info := hsplit ▸ List.mem_append_right _ List.mem_cons_self
  have hend := (hchain.entry p hp).2
  have hfits := hchain.fits
  have hlayout := sameLayout_store (v := 1) hchain hapart hp (a := p + 44) (n := 4) (by omega)
    (by omega)
  refine ⟨_, hlayout, fun hsame => ?_⟩
  have hsizes := hlayout.size
  rw [hsplit] at hsizes
  have hbehind := hsame before p rest (hlayout.entries.trans hsplit)
    (fun q hq => (hsizes q (List.mem_append_left _ hq)).trans (hbefore q hq))
    (by rw [hsizes p (List.mem_append_right _ List.mem_cons_self)]; omega)
  -- the chain has no range, but the record behind the first 24 bytes of the entry has one
  have hnone : rest.filterMap (rangeAt ((blank m info).store (p + 44) 4 1)) = [] := by
    refine List.filterMap_eq_nil_iff.mpr fun q hq => ?_
    have hq' : q ∈ entries m info := hsplit ▸ List.mem_append_right _ (List.mem_cons_of_mem _ hq)
    refine rangeAt_blank_store hchain hq' ?_
    by_cases heq : p = q
    · omega
    · have hsize := (hchain.entry q hq').1
      rcases entries_apart hp hq' heq with h | h
      · omega
      · omega
  have htype : mapType ((blank m info).store (p + 44) 4 1) (BitVec.ofNat 32 (p + 24)) = 1 := by
    rw [mapType_eq (by omega)]
    exact congrArg (BitVec.ofNat 32) (Mem.load_store_same _ (p + 44) 4 1)
  rw [hlayout.stop, hnone, strided_cons (by decide) (by omega)] at hbehind
  have hrecord := List.filterMap_eq_nil_iff.mp hbehind _ List.mem_cons_self
  exact rangeAt_eq_none_iff.mp hrecord htype

include hchain in
/-- An entry that is longer by less than a record, with another one behind it: the records are
shifted, and none of them has the type of that other entry. -/
theorem exists_shifted (hapart : InfoApart m info) {before rest : List Nat} {r : Nat}
    (hsplit : entries m info = before ++ p :: r :: rest)
    (hbefore : ∀ q ∈ before, mapSize m q = 20) (hlonger : mapSize m p ≠ 20)
    (hshort : mapSize m p < 44) : ∃ m', SameLayout m m' info ∧ ¬ SameBehindLonger m' info := by
  have hmem : ∀ q, q ∈ before ++ p :: r :: rest → q ∈ entries m info := fun q hq => hsplit ▸ hq
  have hp := hmem p (by simp)
  have hr := hmem r (by simp)
  obtain ⟨hsize, -⟩ := hchain.entry p hp
  obtain ⟨hsizeR, hend⟩ := hchain.entry r hr
  have hfits := hchain.fits
  have hnext : r = p + (mapSize m p + 4) :=
    eq_of_walk_eq_cons (walk_behind hsplit (Nat.succ_pos _))
  have hbehind : ∀ m', SameLayout m m' info → SameBehindLonger m' info →
      (strided 24 (mapStop m info) (p + 24)).filterMap (rangeAt m') =
        (r :: rest).filterMap (rangeAt m') := by
    intro m' hlayout hsame
    have hsizes := fun q hq => hlayout.size q (hmem q hq)
    have hthis := hsame before p (r :: rest) (hlayout.entries.trans hsplit)
      (fun q hq => (hsizes q (List.mem_append_left _ hq)).trans (hbefore q hq))
      (by rw [hsizes p (by simp)]; exact hlonger)
    rwa [hlayout.stop] at hthis
  -- the map without any range, and the map with the one of the entry at `r`
  have hlayout₀ : SameLayout m (blank m info) info := sameLayout_of hapart fun x hx => blank_of hx
  have hlayout₁ : SameLayout m ((blank m info).store (r + 20) 1 1) info :=
    sameLayout_store hchain hapart hr (by omega) (by omega)
  have hempty : (r :: rest).filterMap (rangeAt (blank m info)) = [] := by
    refine List.filterMap_eq_nil_iff.mpr fun q hq => ?_
    have hq' := hmem q (List.mem_append_right _ (List.mem_cons_of_mem _ hq))
    obtain ⟨hsizeQ, hendQ⟩ := hchain.entry q hq'
    exact rangeAt_of_zero (by omega) (blank_body hchain hq' (by omega) (by omega))
  have htype : mapType ((blank m info).store (r + 20) 1 1) (BitVec.ofNat 32 r) = 1 := by
    have hzero : ∀ d, 20 < d → d < 24 → (blank m info).store (r + 20) 1 1 (r + d) = 0 := by
      intro d hlo hhi
      rw [Mem.store_of_not (by omega)]
      exact blank_body hchain hr (by omega) (by omega)
    rw [mapType_eq_one_iff (by omega)]
    exact ⟨store_one_same _ _, hzero 21 (by decide) (by decide), hzero 22 (by decide) (by decide),
      hzero 23 (by decide) (by decide)⟩
  by_contra hall
  push Not at hall
  have hnone := hbehind _ hlayout₀ (hall _ hlayout₀)
  have hsome := hbehind _ hlayout₁ (hall _ hlayout₁)
  rw [hempty] at hnone
  have hshifted : (strided 24 (mapStop m info) (p + 24)).filterMap
      (rangeAt ((blank m info).store (r + 20) 1 1)) = [] := by
    refine List.filterMap_eq_nil_iff.mpr fun y hy => rangeAt_eq_none_iff.mpr fun hnew => ?_
    have hold := rangeAt_eq_none_iff.mp (List.filterMap_eq_nil_iff.mp hnone y hy)
    obtain ⟨i, hi, rfl⟩ := mem_strided.mp hy
    have hdiv := Nat.div_mul_le_self (mapStop m info - (p + 24)) 24
    have hsame := eq_of_store_one (by omega) hold hnew
    omega
  rw [hshifted] at hsome
  exact rangeAt_eq_none_iff.mp (List.filterMap_eq_nil_iff.mp hsome.symm r List.mem_cons_self) htype

end

/-- **When the memory map is read as the format says.**  For every map that is a chain: the ranges
that `kmain` adds are those of the entries of type 1, in order, exactly when it makes no difference
behind the first longer entry; and sizes are right whatever else the map contains exactly when only
the last entry is longer, by less than a record. -/
theorem memoryMap_walk_iff (hchain : IsChain m info) :
    (availableRanges m info = chainRanges m info ↔ SameBehindLonger m info) ∧
    (InfoApart m info →
      ((∀ m', SameLayout m m' info → availableRanges m' info = chainRanges m' info) ↔
        SizesFit m info)) := by
  refine ⟨availableRanges_iff hchain, fun hapart => ?_⟩
  constructor
  · intro hall before p rest hsplit hbefore hlonger
    have hsame : ∀ m', SameLayout m m' info → SameBehindLonger m' info := fun m' hlayout =>
      (availableRanges_iff (hlayout.isChain hchain)).mp (hall m' hlayout)
    by_contra hnot
    rcases Nat.lt_or_ge (mapSize m p) 44 with hshort | hlong
    · cases rest with
      | nil => exact hnot ⟨rfl, hshort⟩
      | cons r rest =>
          obtain ⟨m', hlayout, hbad⟩ := exists_shifted hchain hapart hsplit hbefore hlonger hshort
          exact hbad (hsame m' hlayout)
    · obtain ⟨m', hlayout, hbad⟩ := exists_padding hchain hapart hsplit hbefore hlong
      exact hbad (hsame m' hlayout)
  · intro hfit m' hlayout
    exact (availableRanges_iff (hlayout.isChain hchain)).mpr (hfit.same hchain hlayout)

/-- A multiboot structure at `0x1000` for a map of `length` bytes at `0x2000`. -/
def infoMem (length : Nat) : Mem :=
  ((Mem.store (fun _ => 0) 0x1000 4 0x40).store 0x102C 4 length).store 0x1030 4 0x2000

/-- An entry of the map. -/
def putEntry (m : Mem) (p size addr len type : Nat) : Mem :=
  (((m.store p 4 size).store (p + 4) 8 addr).store (p + 12) 8 len).store (p + 20) 4 type

/-- Two entries of size 20. -/
def plainMap : Mem :=
  putEntry (putEntry (infoMem 48) 0x2000 20 0 0x9FC00 1) 0x2018 20 0x100000 0x7F00000 1

/-- A reserved entry of size 24 in front of one that is available. -/
def longerMap : Mem :=
  putEntry (putEntry (infoMem 52) 0x2000 24 0x9FC00 0x400 2) 0x201C 20 0x100000 0x7F00000 1

theorem entries_two {a b : Nat} (hstart : mapStart m info = a) (hb : a + (mapSize m a + 4) = b)
    (hstop : b + (mapSize m b + 4) = mapStop m info) : entries m info = [a, b] := by
  have hentry : ∀ p, p < mapStop m info → walk (fun p => mapSize m p + 4) (mapStop m info) p =
      p :: walk (fun p => mapSize m p + 4) (mapStop m info) (p + (mapSize m p + 4)) :=
    fun p hp => walk_of_pos hp (Nat.succ_pos _)
  unfold entries
  rw [hstart, hentry a (by omega), hb, hentry b (by omega), hstop, walk_of_le le_rfl]

theorem entries_plainMap : entries plainMap 0x1000 = [0x2000, 0x2018] :=
  entries_two (by decide +kernel) (by decide +kernel) (by decide +kernel)

theorem entries_longerMap : entries longerMap 0x1000 = [0x2000, 0x201C] :=
  entries_two (by decide +kernel) (by decide +kernel) (by decide +kernel)

theorem plainMap_isChain : IsChain plainMap 0x1000 where
  present := by decide +kernel
  fits := by decide +kernel
  entry := by
    rw [entries_plainMap]
    decide +kernel

theorem plainMap_added :
    availableRanges plainMap 0x1000 = chainRanges plainMap 0x1000 ∧
      ∀ m', SameLayout plainMap m' 0x1000 → availableRanges m' 0x1000 = chainRanges m' 0x1000 := by
  obtain ⟨-, hlayouts⟩ := memoryMap_walk_iff plainMap_isChain
  have hapart : InfoApart plainMap 0x1000 := by
    have hfields : ∀ d ∈ [0, 44, 48], (0x1000 + BitVec.ofNat 32 d : Word32).toNat + 4 ≤ 0x2000 := by
      decide
    have hstart : mapStart plainMap 0x1000 = 0x2000 := by decide +kernel
    intro d hd x _ hhi hmap
    have hfield := hfields d hd
    omega
  have hsizes : ∀ p ∈ entries plainMap 0x1000, mapSize plainMap p = 20 := by
    rw [entries_plainMap]
    decide +kernel
  have hfit : SizesFit plainMap 0x1000 := fun before p rest hsplit _ hlonger =>
    absurd (hsizes p (hsplit ▸ List.mem_append_right _ List.mem_cons_self)) hlonger
  have hall := (hlayouts hapart).mpr hfit
  exact ⟨hall plainMap ⟨rfl, rfl, rfl, fun _ _ => rfl⟩, hall⟩

/-- The second entry is read four bytes too early, and its memory is not added. -/
theorem longerMap_not_added : IsChain longerMap 0x1000 ∧
    chainRanges longerMap 0x1000 = [(0x100000, 0x7F00000)] ∧
      availableRanges longerMap 0x1000 = [] := by
  refine ⟨⟨by decide +kernel, by decide +kernel, ?_⟩, ?_, by decide +kernel⟩
  · rw [entries_longerMap]
    decide +kernel
  · unfold chainRanges
    rw [entries_longerMap]
    decide +kernel

end MBoot
end Loader
end ZineOS
