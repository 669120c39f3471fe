import ZineOS.InitRd.RoundTrip

/-!
# After a failed `Load`

`Load` stores the header pointer before it checks the image, and `GetFile`, `GetFileCount` and
`FindFile` ask only whether that pointer is null.  After a wrong magic value or version they answer
from the rejected header and from the tables of an earlier image.

* `Unloaded` says that the answers are those of a reader without an image, whatever the rejected
  header and the tables contain.
* **`failed_load_unloads_iff`** — it holds after a failed `Load` exactly when the pointer was null.
-/

namespace ZineOS
namespace InitRd

open Lib Loader

variable {w : Nat} {magic : Word32} {m : Mem} {rd : Reader w}

/-- A byte of a field of the header, or of the symbol table and what lies behind it. -/
def OfImage (rd : Reader w) (x : Nat) : Prop :=
  (∃ d < 5, (rd.header + BitVec.ofNat w (4 * d)).toNat ≤ x ∧
    x < (rd.header + BitVec.ofNat w (4 * d)).toNat + 4) ∨ rd.symbolTable.toNat ≤ x

/-- No file is found, whatever the header and the tables are. -/
def Unloaded (m : Mem) (rd : Reader w) : Prop :=
  ∀ m' : Mem, (∀ x, ¬ OfImage rd x → m' x = m x) →
    getFileCount m' rd = 0 ∧ (∀ index, getFile m' rd index = (initrdFileNotFound, none)) ∧
      ∀ name, findFile m' rd name = some (initrdFileNotFound, none)

/-- A reader without a header reads nothing. -/
theorem unloaded_of_null (h : rd.header = 0) : Unloaded m rd := by
  intro m' _
  unfold getFileCount getFile findFile
  simp only [h, if_true, implies_true, and_self]

/-- A reader with a header counts the files that this header promises. -/
theorem not_unloaded (h : rd.header ≠ 0) : ¬ Unloaded m rd := by
  intro hunloaded
  -- the same memory with an `entry_count` of 1
  have hcount : getFileCount (m.store (rd.header + 12).toNat 4 1) rd = 1 := by
    unfold getFileCount entryCount read32
    rw [if_neg h, Mem.load_store_same]
    rfl
  have hother : ∀ x, ¬ OfImage rd x → m.store (rd.header + 12).toNat 4 1 x = m x := by
    intro x hx
    refine Mem.store_of_not fun hin => hx (Or.inl ⟨3, by omega, hin⟩)
  have hzero := (hunloaded _ hother).1
  rw [hcount] at hzero
  exact absurd hzero (by decide)

theorem unloaded_iff : Unloaded m rd ↔ rd.header = 0 :=
  ⟨fun h => by_contra fun hne => not_unloaded hne h, unloaded_of_null⟩

/-- A `Load` of the loader that fails has changed the reader's header and nothing else. -/
theorem loaderLoad_failed {s s' : Machine} {initRd initRd' code : Word64} {rd rd' : Reader 32}
    {header : Word32} (h : loaderLoad magic s initRd rd header = (s', initRd', rd', code))
    (hcode : code ≠ initrdOk) :
    s' = s ∧ initRd' = initRd ∧ rd' = { rd with header := header } := by
  have hload : ∀ rd₁, load magic s.mem rd header = (rd₁, code) → code ≠ initrdOk →
      rd₁ = { rd with header := header } := by
    intro rd₁ hrd hne
    unfold load at hrd
    dsimp only at hrd
    split_ifs at hrd
    · exact (Prod.mk.inj hrd).1.symm
    · exact (Prod.mk.inj hrd).1.symm
    · exact (Prod.mk.inj hrd).1.symm
    · exact absurd (Prod.mk.inj hrd).2.symm hne
  unfold loaderLoad at h
  cases hrun : load magic s.mem rd header with
  | mk rd₁ code₁ =>
      rw [hrun] at h
      dsimp only at h
      split_ifs at h with hok
      · cases h
        exact absurd hok hcode
      · cases h
        exact ⟨rfl, rfl, hload _ hrun hcode⟩

/-- **When a failed `Load` leaves the reader unloaded.**  For every memory, every header pointer and
every reader, fresh or with an image: exactly when the pointer is null. -/
theorem failed_load_unloads_iff {s s' : Machine} {initRd initRd' code : Word64} {rd rd' : Reader 32}
    {header : Word32} (h : loaderLoad magic s initRd rd header = (s', initRd', rd', code))
    (hcode : code ≠ initrdOk) : Unloaded s'.mem rd' ↔ header = 0 := by
  obtain ⟨-, -, rfl⟩ := loaderLoad_failed h hcode
  exact unloaded_iff

/-- A memory that is empty but for an image at 1 MB of a later version that counts one file. -/
def laterVersion : Mem :=
  Mem.store (Mem.store (Mem.store (fun _ => 0) 0x100000 4 initMagic.toNat) 0x100004 4 0x00020000)
    0x10000c 4 1

/-- The loader with this memory. -/
def laterMachine : Machine := ⟨laterVersion, Frame.empty, 0x10000, []⟩

/-- A reader as the constructor leaves it. -/
def freshReader : Reader 32 := ⟨0, 0x500, 0x600⟩

theorem nullPointer_unloads :
    Unloaded laterVersion (loaderLoad initMagic laterMachine 0 freshReader 0).2.2.1 := by
  have hload : loaderLoad initMagic laterMachine 0 freshReader 0 =
      (laterMachine, 0, freshReader, initrdFileNotFound) := rfl
  rw [hload]
  exact (failed_load_unloads_iff hload (by decide)).mpr rfl

/-- The version is refused, and the reader counts the file and describes it from tables that were
never set. -/
theorem laterVersion_stays_loaded :
    let rd := (loaderLoad initMagic laterMachine 0 freshReader 0x100000).2.2.1
    (loaderLoad initMagic laterMachine 0 freshReader 0x100000).2.2.2 = initrdWrongVersion ∧
      getFileCount laterVersion rd = 1 ∧
      (getFile laterVersion rd 0).1 = initrdOk ∧ ¬ Unloaded laterVersion rd := by
  have hload : loaderLoad initMagic laterMachine 0 freshReader 0x100000 =
      (laterMachine, 0, ⟨0x100000, 0x500, 0x600⟩, initrdWrongVersion) := by
    unfold loaderLoad load
    rw [if_neg (by decide), if_neg (by decide +kernel), if_pos (by decide +kernel)]
    rfl
  rw [hload]
  exact ⟨rfl, by decide +kernel, by decide +kernel, not_unloaded (by decide)⟩

end InitRd
end ZineOS
