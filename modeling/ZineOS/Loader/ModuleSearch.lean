import ZineOS.Loader.BootData
import ZineOS.Loader.RsdpSearch

/-!
# The search for a boot module

`FindModuleByCmdLine` compares every command line with a literal and takes the first that starts with
it.  The compare stops at the first difference, which is at the end of a command line at the latest:
what it reads is boot data, and the answer stays the same as long as the boot data does.
-/

namespace ZineOS
namespace Loader
namespace MBoot

open Lib

/-- The tables and the first `n` bytes of the command lines do not run over the end of the address
space. -/
structure InfoFits (m : Mem) (info : Word32) (n : Nat) : Prop where
  infoTable : info.toNat + sizeofInfoTable.toNat ≤ 2 ^ 32
  moduleTable : (modsAddr m info).toNat + sizeofModuleTable.toNat * (getModuleCount m info).toNat ≤
    2 ^ 32
  cmdlines : ∀ i < (getModuleCount m info).toNat,
    (cmdline m (moduleAt m info (BitVec.ofNat 32 i))).toNat + n ≤ 2 ^ 32

variable {m m' : Mem} {info : Word32} {literal : List Byte}

/-- `memcmp` with a literal without zero bytes reads a string up to its terminator. -/
theorem memcmp_congr (hzero : 0 ∉ literal) {p : Word32} (hfits : p.toNat + literal.length ≤ 2 ^ 32)
    (hagree : ∀ x, p.toNat ≤ x → (∀ y, p.toNat ≤ y → y < x → m y ≠ 0) → m' x = m x) :
    memcmp m' literal p = memcmp m literal p := by
  induction literal generalizing p with
  | nil => rfl
  | cons c literal ih =>
      have hfirst : load8 m' p = load8 m p :=
        hagree p.toNat le_rfl fun y hlo hhi => absurd hhi (Nat.not_lt.mpr hlo)
      unfold memcmp
      rw [hfirst]
      by_cases hdiff : c.setWidth 32 - (load8 m p).setWidth 32 = (0 : Word32)
      · rw [if_neg (not_not.mpr hdiff), if_neg (not_not.mpr hdiff)]
        cases literal with
        | nil => rfl
        | cons d literal =>
            rw [List.length_cons, List.length_cons] at hfits
            -- the byte equals one of the literal's, so it is no terminator
            have hsame : load8 m p = c := by
              have hwide := sub_eq_zero.mp hdiff
              have hnat := congrArg BitVec.toNat hwide
              have hc := c.isLt
              have hm := (load8 m p).isLt
              rw [BitVec.toNat_setWidth, BitVec.toNat_setWidth, Nat.mod_eq_of_lt (by omega),
                Nat.mod_eq_of_lt (by omega)] at hnat
              exact (BitVec.eq_of_toNat_eq hnat).symm
            have hp : (p + 1).toNat = p.toNat + 1 := by
              rw [BitVec.toNat_add, Nat.mod_eq_of_lt]
              · rfl
              · show p.toNat + 1 < 2 ^ 32
                omega
            have hnext : m p.toNat ≠ 0 := by
              intro h0
              have hc0 : c = 0 := by
                rw [← hsame]
                exact h0
              exact hzero (hc0 ▸ List.mem_cons_self)
            refine ih (fun hmem => hzero (List.mem_cons_of_mem _ hmem)) ?_ ?_
            · rw [hp, List.length_cons]
              omega
            · intro x hx hbetween
              rw [hp] at hx hbetween
              refine hagree x (by omega) fun y hlo hhi => ?_
              rcases Nat.eq_or_lt_of_le hlo with rfl | hlt
              · exact hnext
              · exact hbetween y hlt hhi
      · rw [if_pos hdiff, if_pos hdiff]

section Congr

variable {n : Nat} (hfits : InfoFits m info n) (hagree : ∀ x, BootData m info x → m' x = m x)

include hfits hagree

/-- A word of the information structure. -/
theorem load32_info {d : Nat} (hd : d + 4 ≤ 88) :
    load32 m' (info + BitVec.ofNat 32 d) = load32 m (info + BitVec.ofNat 32 d) := by
  have hinfo := hfits.infoTable
  rw [show sizeofInfoTable.toNat = 88 from rfl] at hinfo
  have hfield : (info + BitVec.ofNat 32 d).toNat = info.toNat + d := by
    rw [BitVec.toNat_add, BitVec.toNat_ofNat]
    omega
  refine load32_congr fun x hlo hhi => hagree x (.info ?_ ?_)
  · omega
  · rw [show sizeofInfoTable.toNat = 88 from rfl]
    omega

theorem modsAddr_congr : modsAddr m' info = modsAddr m info :=
  load32_info hfits hagree (d := 24) (by decide)

theorem getModuleCount_congr : getModuleCount m' info = getModuleCount m info := by
  have hflags : flags m' info = flags m info := by
    have hword := load32_info hfits hagree (d := 0) (by decide)
    rwa [BitVec.add_zero] at hword
  have hcount : modsCount m' info = modsCount m info :=
    load32_info hfits hagree (d := 20) (by decide)
  unfold getModuleCount
  rw [hflags, hcount, modsAddr_congr hfits hagree]

/-- A word of an entry of the modules table. -/
theorem load32_module {i : Nat} (hi : i < (getModuleCount m info).toNat) {d : Nat} (hd : d + 4 ≤ 16) :
    load32 m' (moduleAt m info (BitVec.ofNat 32 i) + BitVec.ofNat 32 d) =
      load32 m (moduleAt m info (BitVec.ofNat 32 i) + BitVec.ofNat 32 d) := by
  have hmodules := hfits.moduleTable
  rw [show sizeofModuleTable.toNat = 16 from rfl] at hmodules
  have hfield : (moduleAt m info (BitVec.ofNat 32 i) + BitVec.ofNat 32 d).toNat =
      (modsAddr m info).toNat + 16 * i + d := by
    unfold moduleAt
    rw [BitVec.toNat_add, BitVec.toNat_add, BitVec.toNat_mul, BitVec.toNat_ofNat, BitVec.toNat_ofNat,
      show sizeofModuleTable.toNat = 16 from rfl]
    omega
  refine load32_congr fun x hlo hhi => hagree x (.modules ?_ ?_)
  · omega
  · rw [show sizeofModuleTable.toNat = 16 from rfl]
    omega

theorem modStart_congr {i : Nat} (hi : i < (getModuleCount m info).toNat) :
    modStart m' (moduleAt m info (BitVec.ofNat 32 i)) =
      modStart m (moduleAt m info (BitVec.ofNat 32 i)) := by
  have hword := load32_module hfits hagree hi (d := 0) (by decide)
  rwa [BitVec.add_zero] at hword

theorem cmdline_congr {i : Nat} (hi : i < (getModuleCount m info).toNat) :
    cmdline m' (moduleAt m info (BitVec.ofNat 32 i)) =
      cmdline m (moduleAt m info (BitVec.ofNat 32 i)) :=
  load32_module hfits hagree hi (d := 8) (by decide)

theorem moduleAt_congr (index : Word32) : moduleAt m' info index = moduleAt m info index := by
  unfold moduleAt
  rw [modsAddr_congr hfits hagree]

end Congr

/-- **The search reads boot data only.** -/
theorem findModule_congr (hzero : 0 ∉ literal) (hfits : InfoFits m info literal.length)
    (hagree : ∀ x, BootData m info x → m' x = m x) :
    findModuleByCmdLine m' info literal = findModuleByCmdLine m info literal := by
  unfold findModuleByCmdLine
  dsimp only
  rw [getModuleCount_congr hfits hagree]
  simp only [moduleAt_congr hfits hagree]
  have hmatch : (List.range (getModuleCount m info).toNat).find? (fun i =>
      memcmp m' literal (cmdline m' (moduleAt m info (BitVec.ofNat 32 i))) == 0) =
      (List.range (getModuleCount m info).toNat).find? (fun i =>
        memcmp m literal (cmdline m (moduleAt m info (BitVec.ofNat 32 i))) == 0) := by
    refine List.find?_congr fun i hi => ?_
    have hlt := List.mem_range.mp hi
    rw [cmdline_congr hfits hagree hlt, memcmp_congr hzero (hfits.cmdlines i hlt)]
    exact fun x hlo hstr => hagree x (.cmdline i hlt hlo hstr)
  rw [hmatch]

/-- A module that is found is one of the table. -/
theorem exists_module (h : findModuleByCmdLine m info literal ≠ 0) :
    ∃ i < (getModuleCount m info).toNat,
      findModuleByCmdLine m info literal = moduleAt m info (BitVec.ofNat 32 i) := by
  unfold findModuleByCmdLine at h ⊢
  dsimp only at h ⊢
  cases hfind : (List.range (getModuleCount m info).toNat).find? (fun i =>
      memcmp m literal (cmdline m (moduleAt m info (BitVec.ofNat 32 i))) == 0) with
  | none =>
      rw [hfind] at h
      exact absurd rfl h
  | some i => exact ⟨i, List.mem_range.mp (List.mem_of_find?_eq_some hfind), rfl⟩

end MBoot
end Loader
end ZineOS
