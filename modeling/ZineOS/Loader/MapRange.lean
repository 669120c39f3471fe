import ZineOS.Loader.PageMap

/-!
# Mapping a range

`MapRange` maps a range page by page.  Its loop makes exactly the calls of `pageCalls`, so what it
does to the page map is read off the last call for each page: inside the range the page at the same
distance from the start, outside the range nothing.
-/

namespace ZineOS
namespace Loader
namespace VirtualMemory

open Lib

/-- The page number of an address, its bits 47-12. -/
def pageNumber (v : Word64) : Nat := v.toNat / 0x1000 % 2 ^ 36

theorem samePage_iff_pageNumber {v w : Word64} : SamePage v w ↔ pageNumber v = pageNumber w := by
  unfold SamePage pageNumber
  rw [← BitVec.toNat_inj, toNat_extractLsb', toNat_extractLsb']
  exact Iff.rfl

/-- The page calls that map `n` pages from `phys` to `virt`. -/
def pageCalls (phys virt : Word64) (n : Nat) (flags : Word64) : List MapCall :=
  (List.range n).map fun k =>
    ⟨phys + BitVec.ofNat 64 (k * 0x1000), virt + BitVec.ofNat 64 (k * 0x1000), flags⟩

theorem pageCalls_succ (phys virt flags : Word64) (n : Nat) :
    pageCalls phys virt (n + 1) flags =
      ⟨phys, virt, flags⟩ :: pageCalls (phys + 0x1000) (virt + 0x1000) n flags := by
  have hfirst : ∀ a : Word64, a + BitVec.ofNat 64 (0 * 0x1000) = a := by
    intro a
    rw [Nat.zero_mul]
    exact BitVec.add_zero a
  have hnext : ∀ (a : Word64) (k : Nat), a + BitVec.ofNat 64 ((k + 1) * 0x1000) =
      a + 0x1000 + BitVec.ofNat 64 (k * 0x1000) := by
    intro a k
    rw [Nat.succ_mul, Nat.add_comm, BitVec.ofNat_add, BitVec.add_assoc]
    rfl
  unfold pageCalls
  rw [List.range_succ_eq_map, List.map_cons, List.map_map, hfirst, hfirst]
  refine congrArg _ (List.map_congr_left fun k _ => ?_)
  simp only [Function.comp_apply, Nat.succ_eq_add_one, hnext]

/-- The loop of `MapRange` runs to its end, one call a page. -/
theorem mapLoop_eq {n fuel : Nat} (hn : n * 0x1000 < 2 ^ 64) (hfuel : n ≤ fuel) (s : Machine)
    (phys virt flags : Word64) :
    mapLoop fuel s phys virt (BitVec.ofNat 64 (n * 0x1000)) flags =
      mapAll s (pageCalls phys virt n flags) := by
  induction n generalizing fuel s phys virt with
  | zero =>
      cases fuel with
      | zero => rfl
      | succ fuel =>
          rw [mapLoop, if_pos (by simp)]
          rfl
  | succ n ih =>
      obtain ⟨fuel, rfl⟩ : ∃ f, fuel = f + 1 := ⟨fuel - 1, by omega⟩
      have hne : BitVec.ofNat 64 ((n + 1) * 0x1000) ≠ 0 := by
        intro hzero
        have hvalue := congrArg BitVec.toNat hzero
        rw [BitVec.toNat_ofNat, Nat.mod_eq_of_lt hn] at hvalue
        simp at hvalue
      -- one page less to go
      have hless : BitVec.ofNat 64 ((n + 1) * 0x1000) - 0x1000 = BitVec.ofNat 64 (n * 0x1000) := by
        rw [Nat.succ_mul, BitVec.ofNat_add]
        exact BitVec.add_sub_cancel _ _
      have hn' : n * 0x1000 < 2 ^ 64 := lt_of_le_of_lt (Nat.mul_le_mul_right _ (Nat.le_succ n)) hn
      rw [mapLoop, if_neg hne, hless, ih hn' (Nat.le_of_succ_le_succ hfuel)]
      rw [pageCalls_succ, mapAll_cons]

/-- `MapRange` is a sequence of calls of `Map`. -/
theorem mapRange_eq (s : Machine) (phys virt size flags : Word64) :
    mapRange s phys virt size flags =
      mapAll s (pageCalls (alignFloor phys 0x1000) (alignFloor virt 0x1000)
        ((align size 0x1000).toNat / 0x1000) flags) := by
  have hmod := toNat_align_mod size
  have hlt := (align size 0x1000).isLt
  have hsize : align size 0x1000 =
      BitVec.ofNat 64 ((align size 0x1000).toNat / 0x1000 * 0x1000) := by
    rw [Nat.div_mul_cancel (Nat.dvd_of_mod_eq_zero hmod), BitVec.ofNat_toNat, BitVec.setWidth_eq]
  have hrounds : (align size 0x1000).toNat / 0x1000 * 0x1000 < 2 ^ 64 := by omega
  unfold mapRange
  rw [← mapLoop_eq hrounds le_rfl, ← hsize]

/-! ## Which call comes last -/

/-- The only call for a page is the last one. -/
theorem lastCall_eq_some {calls : List MapCall} {v : Word64} {c : MapCall} (hc : c ∈ calls)
    (hsame : SamePage c.virt v) (hall : ∀ d ∈ calls, SamePage d.virt v → d = c) :
    lastCall calls v = some c := by
  cases hlast : lastCall calls v with
  | none =>
      unfold lastCall at hlast
      have hno := List.find?_eq_none.mp hlast c (List.mem_reverse.mpr hc)
      exact absurd hsame (by simpa using hno)
  | some d => rw [hall d (lastCall_mem hlast) (lastCall_samePage hlast)]

theorem lastCall_eq_none {calls : List MapCall} {v : Word64}
    (hall : ∀ c ∈ calls, ¬ SamePage c.virt v) : lastCall calls v = none := by
  unfold lastCall
  rw [List.find?_eq_none]
  intro c hc
  simpa using hall c (List.mem_reverse.mp hc)

/-- How many pages after `virt` the page of `v` lies, among the 2^36 pages. -/
def pageDistance (virt v : Word64) : Nat := (pageNumber v + 2 ^ 36 - pageNumber virt) % 2 ^ 36

theorem pageNumber_add (virt : Word64) {k : Nat} (hk : k < 2 ^ 36) :
    pageNumber (virt + BitVec.ofNat 64 (k * 0x1000)) = (pageNumber virt + k) % 2 ^ 36 := by
  have hlt := virt.isLt
  unfold pageNumber
  rw [BitVec.toNat_add, BitVec.toNat_ofNat]
  omega

/-- Page `k` of a range is the page of `v` only for one `k`. -/
theorem samePage_add_iff {virt v : Word64} {k : Nat} (hk : k < 2 ^ 36) :
    SamePage (virt + BitVec.ofNat 64 (k * 0x1000)) v ↔ k = pageDistance virt v := by
  rw [samePage_iff_pageNumber, pageNumber_add virt hk]
  have hv : pageNumber v < 2 ^ 36 := Nat.mod_lt _ (by decide)
  have hvirt : pageNumber virt < 2 ^ 36 := Nat.mod_lt _ (by decide)
  unfold pageDistance
  omega

/-- The call of a range that maps the page of `v`, by the distance of the page. -/
theorem lastCall_pageCalls {n : Nat} (hn : n ≤ 2 ^ 36) (phys virt flags v : Word64) :
    lastCall (pageCalls phys virt n flags) v =
      if pageDistance virt v < n then
        some ⟨phys + BitVec.ofNat 64 (pageDistance virt v * 0x1000),
          virt + BitVec.ofNat 64 (pageDistance virt v * 0x1000), flags⟩
      else none := by
  have hdistance : pageDistance virt v < 2 ^ 36 := Nat.mod_lt _ (by decide)
  by_cases hin : pageDistance virt v < n
  · rw [if_pos hin]
    refine lastCall_eq_some (List.mem_map.mpr ⟨_, List.mem_range.mpr hin, rfl⟩)
      ((samePage_add_iff hdistance).mpr rfl) ?_
    intro d hd hsame
    obtain ⟨k, hk, rfl⟩ := List.mem_map.mp hd
    have hlt := List.mem_range.mp hk
    rw [(samePage_add_iff (by omega)).mp hsame]
  · rw [if_neg hin]
    refine lastCall_eq_none fun c hc hsame => ?_
    obtain ⟨k, hk, rfl⟩ := List.mem_map.mp hc
    have hlt := List.mem_range.mp hk
    rw [samePage_add_iff (by omega)] at hsame
    omega

/-- A range of `n` pages that stays inside the address space. -/
structure PageRange (phys virt : Word64) (n : Nat) : Prop where
  phys_aligned : phys.toNat % 0x1000 = 0
  virt_aligned : virt.toNat % 0x1000 = 0
  phys_le : phys.toNat + n * 0x1000 ≤ 2 ^ 52
  virt_le : virt.toNat + n * 0x1000 ≤ 2 ^ 64
  pages_le : n ≤ 2 ^ 36

variable {phys virt flags : Word64} {n k : Nat}

theorem PageRange.toNat_virt (h : PageRange phys virt n) (hk : k < n) :
    (virt + BitVec.ofNat 64 (k * 0x1000)).toNat = virt.toNat + k * 0x1000 := by
  have hle := h.virt_le
  rw [BitVec.toNat_add, BitVec.toNat_ofNat, Nat.mod_eq_of_lt (a := k * 0x1000) (by omega),
    Nat.mod_eq_of_lt (by omega)]

theorem PageRange.toNat_phys (h : PageRange phys virt n) (hk : k < n) :
    (phys + BitVec.ofNat 64 (k * 0x1000)).toNat = phys.toNat + k * 0x1000 := by
  have hle := h.phys_le
  rw [BitVec.toNat_add, BitVec.toNat_ofNat, Nat.mod_eq_of_lt (a := k * 0x1000) (by omega),
    Nat.mod_eq_of_lt (by omega)]

theorem PageRange.ok (h : PageRange phys virt n) (hflags : IsMapFlags flags) :
    ∀ c ∈ pageCalls phys virt n flags, c.Ok := by
  intro c hc
  obtain ⟨k, hk, rfl⟩ := List.mem_map.mp hc
  have hlt := List.mem_range.mp hk
  have hle := h.phys_le
  refine ⟨?_, hflags⟩
  rw [h.toNat_phys hlt]
  omega

/-- Inside the range, the last call for an address is the one of its page. -/
theorem PageRange.lastCall_eq (h : PageRange phys virt n) {v : Word64}
    (hlo : virt.toNat ≤ v.toNat) (hhi : v.toNat < virt.toNat + n * 0x1000) :
    lastCall (pageCalls phys virt n flags) v =
      some ⟨phys + BitVec.ofNat 64 ((v.toNat - virt.toNat) / 0x1000 * 0x1000),
        virt + BitVec.ofNat 64 ((v.toNat - virt.toNat) / 0x1000 * 0x1000), flags⟩ := by
  have hva := h.virt_aligned
  have hpages := h.pages_le
  have hdistance : pageDistance virt v = (v.toNat - virt.toNat) / 0x1000 := by
    unfold pageDistance pageNumber
    omega
  rw [lastCall_pageCalls hpages, hdistance, if_pos (by omega)]

/-- Inside the range, an address goes to the same distance from the physical start. -/
theorem PageRange.lastCall_inside (h : PageRange phys virt n) {v : Word64}
    (hlo : virt.toNat ≤ v.toNat) (hhi : v.toNat < virt.toNat + n * 0x1000) :
    (lastCall (pageCalls phys virt n flags) v).map (fun c => c.image v) =
      some (phys.toNat + (v.toNat - virt.toNat), flags) := by
  have hva := h.virt_aligned
  have hpa := h.phys_aligned
  have hround : (v.toNat - virt.toNat) / 0x1000 < n := by omega
  rw [h.lastCall_eq hlo hhi, Option.map_some]
  unfold MapCall.image
  simp only [h.toNat_phys hround, Option.some.injEq, Prod.mk.injEq, and_true]
  omega

/-- A page whose number is not in the range is left alone. -/
theorem PageRange.lastCall_outside (h : PageRange phys virt n) {v : Word64}
    (hout : ∀ k < n, pageNumber v ≠ (virt.toNat / 0x1000 + k) % 2 ^ 36) :
    lastCall (pageCalls phys virt n flags) v = none := by
  have hva := h.virt_aligned
  refine lastCall_eq_none fun c hc => ?_
  obtain ⟨k, hk, rfl⟩ := List.mem_map.mp hc
  have hlt := List.mem_range.mp hk
  rw [samePage_iff_pageNumber]
  intro hsame
  refine hout k hlt (hsame.symm.trans ?_)
  unfold pageNumber
  simp only [h.toNat_virt hlt]
  congr 1
  omega

end VirtualMemory
end Loader
end ZineOS
