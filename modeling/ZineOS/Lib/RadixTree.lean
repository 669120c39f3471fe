import Mathlib

/-!
# Radix trees in shared storage

A radix tree keeps its nodes, the tables, in one flat store `cells : T → I → E`: table `t` has an
entry at every index `i`, and an entry either names a table of the next level or is empty.  Page
tables, tries and multi-level directories are of this form.  Nothing in the storage keeps two
entries from naming one table, so the fact that it is a tree is an invariant:

* `Tree` says that two different paths of at most `depth` steps lead to different tables, that
  `tables` lists what they reach, and that an entry which names no table is the empty entry.
* `Tree.congr` lets any write outside the tables pass; `Tree.link` hangs a fresh empty table into an
  empty entry and changes no lookup; `Tree.setLeaf` changes exactly one lookup.
* `linkAt` is the entry that a path leaves an upper table through; `Tree.linkAt_link` and
  `Tree.linkAt_setLeaf` say that the same two writes add one link and none.
* `Tree.existsUnique_slot` finds the one entry that names a given table.
-/

namespace ZineOS
namespace Lib

/-- How the entries are read: as the name of a table on the upper levels, as a value on the last
one.  The empty entry is neither. -/
structure EntryFormat (T E L : Type*) where
  next : E → Option T
  leaf : E → Option L
  empty : E
  next_empty : next empty = none
  leaf_empty : leaf empty = none

namespace RadixTree

variable {T I E L : Type*} (F : EntryFormat T E L)

/-- The table that a path of indices leads to. -/
def follow (c : T → I → E) : T → List I → Option T
  | t, [] => some t
  | t, i :: p => (F.next (c t i)).bind fun u => follow c u p

/-- The value at the end of a path. -/
def lookup (c : T → I → E) (root : T) (p : List I) (i : I) : Option L :=
  (follow F c root p).bind fun t => F.leaf (c t i)

/-- The entry of index `i` at the end of a path, if it names a table. -/
def linkAt (c : T → I → E) (root : T) (p : List I) (i : I) : Option E :=
  (follow F c root p).bind fun t => if (F.next (c t i)).isSome then some (c t i) else none

/-- One entry overwritten. -/
def setEntry [DecidableEq T] [DecidableEq I] (c : T → I → E) (t : T) (i : I) (e : E) : T → I → E :=
  fun u j => if u = t ∧ j = i then e else c u j

variable {F} {c c' : T → I → E} {root t u : T} {p q : List I} {i j : I} {e : E} {depth : Nat}

@[simp] theorem follow_nil : follow F c t [] = some t := rfl

theorem follow_append : follow F c t (p ++ q) = (follow F c t p).bind fun u => follow F c u q := by
  induction p generalizing t with
  | nil => rfl
  | cons i p ih =>
      rw [List.cons_append, follow, follow, Option.bind_assoc]
      exact Option.bind_congr fun u _ => ih

theorem follow_concat : follow F c t (p ++ [i]) = (follow F c t p).bind fun u => F.next (c u i) := by
  rw [follow_append]
  refine Option.bind_congr fun u _ => ?_
  exact Option.bind_fun_some _

/-- The last step of a path. -/
theorem follow_concat_eq_some :
    follow F c t (p ++ [i]) = some u ↔
      ∃ v, follow F c t p = some v ∧ F.next (c v i) = some u := by
  rw [follow_concat, Option.bind_eq_some_iff]

theorem linkAt_eq_some_iff :
    linkAt F c root p i = some e ↔
      ∃ t, follow F c root p = some t ∧ (F.next e).isSome ∧ c t i = e := by
  unfold linkAt
  rw [Option.bind_eq_some_iff]
  refine exists_congr fun t => and_congr_right fun _ => ?_
  rw [Option.ite_none_right_eq_some, Option.some.injEq]
  constructor
  · rintro ⟨hnext, rfl⟩
    exact ⟨hnext, rfl⟩
  · rintro ⟨hnext, rfl⟩
    exact ⟨hnext, rfl⟩

theorem setEntry_of_ne [DecidableEq T] [DecidableEq I] (h : ¬ (u = t ∧ j = i)) :
    setEntry c t i e u j = c u j := if_neg h

theorem setEntry_of_table_ne [DecidableEq T] [DecidableEq I] (h : u ≠ t) :
    setEntry c t i e u j = c u j := setEntry_of_ne fun heq => h heq.1

theorem setEntry_same [DecidableEq T] [DecidableEq I] : setEntry c t i e t i = e :=
  if_pos ⟨rfl, rfl⟩

variable (F)

/-- The storage holds a tree of `depth` levels of tables below the root, no table shared. -/
structure Tree (c : T → I → E) (root : T) (depth : Nat) (tables : List T) : Prop where
  /-- Different paths lead to different tables. -/
  injective : ∀ p q t, p.length ≤ depth → q.length ≤ depth → follow F c root p = some t →
    follow F c root q = some t → p = q
  /-- `tables` are the tables reached. -/
  reached : ∀ t, t ∈ tables ↔ ∃ p, p.length ≤ depth ∧ follow F c root p = some t
  /-- An entry of an upper level that names no table is the empty one. -/
  absent : ∀ p t i, p.length < depth → follow F c root p = some t →
    F.next (c t i) = none → c t i = F.empty

variable {F} {tables : List T}

/-- A root with empty entries only is a tree. -/
theorem Tree.init (h : ∀ i, c root i = F.empty) : Tree F c root depth [root] where
  injective := by
    intro p q t _ _ hp hq
    have hnil : ∀ (r : List I) (v : T), follow F c root r = some v → r = [] := by
      intro r v hr
      cases r with
      | nil => rfl
      | cons i r =>
          rw [follow, h, F.next_empty] at hr
          exact absurd hr (by simp)
    rw [hnil p t hp, hnil q t hq]
  reached := by
    intro t
    rw [List.mem_singleton]
    constructor
    · rintro rfl
      exact ⟨[], Nat.zero_le _, rfl⟩
    · rintro ⟨p, -, hp⟩
      cases p with
      | nil => exact (Option.some.inj hp).symm
      | cons i p =>
          rw [follow, h, F.next_empty] at hp
          exact absurd hp (by simp)
  absent := by
    intro p t i _ hp hnone
    cases p with
    | nil =>
        rw [← Option.some.inj hp]
        exact h i
    | cons j p =>
        rw [follow, h, F.next_empty] at hp
        exact absurd hp (by simp)

namespace Tree

theorem mem_of_follow (h : Tree F c root depth tables) (hlen : p.length ≤ depth)
    (hp : follow F c root p = some t) : t ∈ tables :=
  (h.reached t).mpr ⟨p, hlen, hp⟩

/-! ### Writes outside the tables -/

theorem follow_congr (h : Tree F c root depth tables) (hsame : ∀ t ∈ tables, ∀ i, c' t i = c t i)
    (hlen : p.length ≤ depth) : follow F c' root p = follow F c root p := by
  induction p using List.reverseRecOn with
  | nil => rfl
  | append_singleton p i ih =>
      rw [List.length_append, List.length_singleton] at hlen
      rw [follow_concat, follow_concat, ih (by omega)]
      refine Option.bind_congr fun t ht => ?_
      rw [hsame t (h.mem_of_follow (by omega) ht)]

/-- Storage that agrees on the tables holds the same tree. -/
theorem congr (h : Tree F c root depth tables) (hsame : ∀ t ∈ tables, ∀ i, c' t i = c t i) :
    Tree F c' root depth tables where
  injective := by
    intro p q t hlp hlq hp hq
    rw [h.follow_congr hsame hlp] at hp
    rw [h.follow_congr hsame hlq] at hq
    exact h.injective p q t hlp hlq hp hq
  reached := by
    intro t
    rw [h.reached]
    refine exists_congr fun p => and_congr_right fun hlen => ?_
    rw [h.follow_congr hsame hlen]
  absent := by
    intro p t i hlen hp hnone
    rw [h.follow_congr hsame (by omega)] at hp
    have hmem := h.mem_of_follow (by omega) hp
    rw [hsame t hmem] at hnone ⊢
    exact h.absent p t i hlen hp hnone

theorem lookup_congr (h : Tree F c root depth tables) (hsame : ∀ t ∈ tables, ∀ i, c' t i = c t i)
    (hlen : p.length ≤ depth) : lookup F c' root p i = lookup F c root p i := by
  unfold lookup
  rw [h.follow_congr hsame hlen]
  refine Option.bind_congr fun t ht => ?_
  rw [hsame t (h.mem_of_follow hlen ht)]

theorem linkAt_congr (h : Tree F c root depth tables) (hsame : ∀ t ∈ tables, ∀ i, c' t i = c t i)
    (hlen : p.length ≤ depth) : linkAt F c' root p i = linkAt F c root p i := by
  unfold linkAt
  rw [h.follow_congr hsame hlen]
  refine Option.bind_congr fun t ht => ?_
  rw [hsame t (h.mem_of_follow hlen ht)]

/-! ### Hanging in a fresh table -/

section Link

variable [DecidableEq T] [DecidableEq I]

/-- An entry with a link is not the empty one that is overwritten. -/
theorem setEntry_of_link (hnone : F.next (c t i) = none) {v : T} (hnext : F.next (c u j) = some v) :
    setEntry c t i e u j = c u j := by
  apply setEntry_of_ne
  rintro ⟨rfl, rfl⟩
  rw [hnone] at hnext
  cases hnext

/-- Linking a table in keeps every path. -/
theorem follow_link_of_some (hnone : F.next (c t i) = none) {v : T}
    (hq : follow F c root q = some v) : follow F (setEntry c t i e) root q = some v := by
  induction q using List.reverseRecOn generalizing v with
  | nil => exact hq
  | append_singleton q j ih =>
      obtain ⟨w, hw, hnext⟩ := follow_concat_eq_some.mp hq
      refine follow_concat_eq_some.mpr ⟨w, ih hw, ?_⟩
      rwa [setEntry_of_link hnone hnext]

/-- Storage that agrees on the tables with a tree in which an empty entry has been overwritten
leads past that entry. -/
theorem follow_concat_of_agree (h : Tree F c root depth tables) (hlen : p.length < depth)
    (hp : follow F c root p = some t) (hnone : F.next (c t i) = none)
    (hsame : ∀ v ∈ tables, ∀ j, c' v j = setEntry c t i e v j) :
    follow F c' root (p ++ [i]) = F.next e := by
  have hkeep : ∀ {r v}, r.length ≤ depth → follow F c root r = some v →
      follow F c' root r = some v := by
    intro r v hr hv
    induction r using List.reverseRecOn generalizing v with
    | nil => exact hv
    | append_singleton r j ih =>
        rw [List.length_append, List.length_singleton] at hr
        obtain ⟨w, hw, hnext⟩ := follow_concat_eq_some.mp hv
        refine follow_concat_eq_some.mpr ⟨w, ih (by omega) hw, ?_⟩
        rwa [hsame w (h.mem_of_follow (by omega) hw), setEntry_of_link hnone hnext]
  rw [follow_concat, hkeep hlen.le hp, Option.bind_some, hsame t (h.mem_of_follow hlen.le hp),
    setEntry_same]

/-- Linking a table in adds one path, to that table. -/
theorem follow_link (h : Tree F c root depth tables) (hlen : p.length < depth)
    (hp : follow F c root p = some t) (hnext : F.next e = some u) (hfresh : u ∉ tables)
    (hzero : ∀ j, c u j = F.empty) (hq : q.length ≤ depth) {v : T}
    (hv : follow F (setEntry c t i e) root q = some v) :
    (q = p ++ [i] ∧ v = u) ∨ follow F c root q = some v := by
  induction q using List.reverseRecOn generalizing v with
  | nil => exact Or.inr hv
  | append_singleton q j ih =>
      rw [List.length_append, List.length_singleton] at hq
      obtain ⟨w, hw, hstep⟩ := follow_concat_eq_some.mp hv
      have hne : u ≠ t := (ne_of_mem_of_not_mem (h.mem_of_follow hlen.le hp) hfresh).symm
      rcases ih (by omega) hw with ⟨rfl, rfl⟩ | hold
      · -- the fresh table is empty, no path goes on from it
        rw [setEntry_of_table_ne hne, hzero, F.next_empty] at hstep
        exact absurd hstep (by simp)
      · by_cases hslot : w = t ∧ j = i
        · obtain ⟨rfl, rfl⟩ := hslot
          rw [setEntry_same, hnext] at hstep
          rw [h.injective q p w (by omega) hlen.le hold hp]
          exact Or.inl ⟨rfl, (Option.some.inj hstep).symm⟩
        · rw [setEntry_of_ne hslot] at hstep
          exact Or.inr (follow_concat_eq_some.mpr ⟨w, hold, hstep⟩)

/-- A fresh empty table in an empty entry gives a tree with that table. -/
theorem link (h : Tree F c root depth tables) (hlen : p.length < depth)
    (hp : follow F c root p = some t) (hnone : F.next (c t i) = none) (hnext : F.next e = some u)
    (hfresh : u ∉ tables) (hzero : ∀ j, c u j = F.empty) :
    Tree F (setEntry c t i e) root depth (u :: tables) := by
  have hlenNew : (p ++ [i]).length ≤ depth := by simpa using hlen
  have hpath : follow F (setEntry c t i e) root (p ++ [i]) = some u := by
    refine follow_concat_eq_some.mpr ⟨t, follow_link_of_some hnone hp, ?_⟩
    rw [setEntry_same, hnext]
  have hkeep : ∀ {q v}, follow F c root q = some v →
      follow F (setEntry c t i e) root q = some v := fun hq => follow_link_of_some hnone hq
  refine ⟨?_, ?_, ?_⟩
  · -- the fresh table has one path, the others have those they had
    intro q r v hlq hlr hq hr
    rcases h.follow_link hlen hp hnext hfresh hzero hlq hq with ⟨rfl, rfl⟩ | hq'
    · rcases h.follow_link hlen hp hnext hfresh hzero hlr hr with ⟨rfl, -⟩ | hr'
      · rfl
      · exact absurd (h.mem_of_follow hlr hr') hfresh
    · rcases h.follow_link hlen hp hnext hfresh hzero hlr hr with ⟨rfl, rfl⟩ | hr'
      · exact absurd (h.mem_of_follow hlq hq') hfresh
      · exact h.injective q r v hlq hlr hq' hr'
  · intro v
    rw [List.mem_cons, h.reached]
    constructor
    · rintro (rfl | ⟨q, hlq, hq⟩)
      · exact ⟨_, hlenNew, hpath⟩
      · exact ⟨q, hlq, hkeep hq⟩
    · rintro ⟨q, hlq, hq⟩
      rcases h.follow_link hlen hp hnext hfresh hzero hlq hq with ⟨-, rfl⟩ | hq'
      · exact Or.inl rfl
      · exact Or.inr ⟨q, hlq, hq'⟩
  · intro q v j hlq hq hv
    have hne : u ≠ t := (ne_of_mem_of_not_mem (h.mem_of_follow hlen.le hp) hfresh).symm
    rcases h.follow_link hlen hp hnext hfresh hzero hlq.le hq with ⟨-, rfl⟩ | hq'
    · rw [setEntry_of_table_ne hne]
      exact hzero j
    · by_cases hslot : v = t ∧ j = i
      · obtain ⟨rfl, rfl⟩ := hslot
        rw [setEntry_same, hnext] at hv
        exact absurd hv (by simp)
      · rw [setEntry_of_ne hslot] at hv ⊢
        exact h.absent q v j hlq hq' hv

/-- Linking a table in changes no lookup. -/
theorem lookup_link (h : Tree F c root depth tables) (hlen : p.length < depth)
    (hp : follow F c root p = some t) (hnone : F.next (c t i) = none) (hnext : F.next e = some u)
    (hfresh : u ∉ tables) (hzero : ∀ j, c u j = F.empty) (hq : q.length = depth) :
    lookup F (setEntry c t i e) root q j = lookup F c root q j := by
  have hne : u ≠ t := (ne_of_mem_of_not_mem (h.mem_of_follow hlen.le hp) hfresh).symm
  unfold lookup
  cases hold : follow F c root q with
  | some v =>
      rw [follow_link_of_some hnone hold, Option.bind_some, Option.bind_some, setEntry_of_ne]
      rintro ⟨rfl, -⟩
      have heq := h.injective q p v hq.le hlen.le hold hp
      rw [heq] at hq
      omega
  | none =>
      cases hnew : follow F (setEntry c t i e) root q with
      | none => rfl
      | some v =>
          rcases h.follow_link hlen hp hnext hfresh hzero hq.le hnew with ⟨-, rfl⟩ | hq'
          · rw [Option.bind_some, setEntry_of_table_ne hne, hzero]
            exact F.leaf_empty
          · rw [hold] at hq'
            exact absurd hq' (by simp)

/-- Linking a table in adds one link. -/
theorem linkAt_link (h : Tree F c root depth tables) (hlen : p.length < depth)
    (hp : follow F c root p = some t) (hnone : F.next (c t i) = none) (hnext : F.next e = some u)
    (hfresh : u ∉ tables) (hzero : ∀ j, c u j = F.empty) (hq : q.length < depth) :
    linkAt F (setEntry c t i e) root q j =
      (linkAt F c root q j).or (if q ++ [j] = p ++ [i] then some e else none) := by
  have hne : u ≠ t := (ne_of_mem_of_not_mem (h.mem_of_follow hlen.le hp) hfresh).symm
  have hkeep : ∀ {r v}, follow F c root r = some v →
      follow F (setEntry c t i e) root r = some v := fun hr => follow_link_of_some hnone hr
  by_cases hslot : q = p ∧ j = i
  · -- the slot that is written was no link
    obtain ⟨rfl, rfl⟩ := hslot
    have hold : linkAt F c root q j = none := by
      unfold linkAt
      rw [hp, Option.bind_some, hnone]
      rfl
    rw [hold, if_pos rfl]
    exact linkAt_eq_some_iff.mpr ⟨t, hkeep hp, by rw [hnext]; rfl, setEntry_same⟩
  · have hpath : q ++ [j] ≠ p ++ [i] := by
      intro heq
      obtain ⟨hqp, hji⟩ := List.append_inj' heq rfl
      exact hslot ⟨hqp, List.head_eq_of_cons_eq hji⟩
    rw [if_neg hpath, Option.or_none]
    unfold linkAt
    cases hold : follow F c root q with
    | some v =>
        rw [hkeep hold, Option.bind_some, Option.bind_some, setEntry_of_ne]
        rintro ⟨rfl, rfl⟩
        exact hslot ⟨h.injective q p v hq.le hlen.le hold hp, rfl⟩
    | none =>
        cases hnew : follow F (setEntry c t i e) root q with
        | none => rfl
        | some v =>
            rcases h.follow_link hlen hp hnext hfresh hzero hq.le hnew with ⟨-, rfl⟩ | hq'
            · -- the fresh table has no links of its own
              rw [Option.bind_some, setEntry_of_table_ne hne, hzero, F.next_empty]
              rfl
            · rw [hold] at hq'
              exact absurd hq' (by simp)

/-! ### Writing a leaf -/

theorem follow_setLeaf (h : Tree F c root depth tables) (hlen : p.length = depth)
    (hp : follow F c root p = some t) (hq : q.length ≤ depth) :
    follow F (setEntry c t i e) root q = follow F c root q := by
  induction q using List.reverseRecOn with
  | nil => rfl
  | append_singleton q j ih =>
      rw [List.length_append, List.length_singleton] at hq
      rw [follow_concat, follow_concat, ih (by omega)]
      refine Option.bind_congr fun v hv => ?_
      rw [setEntry_of_ne]
      rintro ⟨rfl, -⟩
      have heq := h.injective q p v (by omega) hlen.le hv hp
      rw [heq] at hq
      omega

/-- Writing an entry of a last-level table keeps the tree. -/
theorem setLeaf (h : Tree F c root depth tables) (hlen : p.length = depth)
    (hp : follow F c root p = some t) : Tree F (setEntry c t i e) root depth tables where
  injective := by
    intro q r v hlq hlr hq hr
    rw [h.follow_setLeaf hlen hp hlq] at hq
    rw [h.follow_setLeaf hlen hp hlr] at hr
    exact h.injective q r v hlq hlr hq hr
  reached := by
    intro v
    rw [h.reached]
    refine exists_congr fun q => and_congr_right fun hlq => ?_
    rw [h.follow_setLeaf hlen hp hlq]
  absent := by
    intro q v j hlq hq hv
    rw [h.follow_setLeaf hlen hp hlq.le] at hq
    have hslot : ¬ (v = t ∧ j = i) := by
      rintro ⟨rfl, -⟩
      have heq := h.injective q p v hlq.le hlen.le hq hp
      rw [heq] at hlq
      omega
    rw [setEntry_of_ne hslot] at hv ⊢
    exact h.absent q v j hlq hq hv

/-- Writing an entry of a last-level table changes exactly its lookup. -/
theorem lookup_setLeaf [DecidableEq (List I)] (h : Tree F c root depth tables)
    (hlen : p.length = depth) (hp : follow F c root p = some t) (hq : q.length = depth) :
    lookup F (setEntry c t i e) root q j =
      if q = p ∧ j = i then F.leaf e else lookup F c root q j := by
  unfold lookup
  rw [h.follow_setLeaf hlen hp hq.le]
  split
  · rename_i hsame
    rw [hsame.1, hsame.2, hp, Option.bind_some, setEntry_same]
  · rename_i hother
    refine Option.bind_congr fun v hv => ?_
    rw [setEntry_of_ne]
    rintro ⟨rfl, rfl⟩
    exact hother ⟨h.injective q p v hq.le hlen.le hv hp, rfl⟩

/-- Writing an entry of a last-level table changes no link. -/
theorem linkAt_setLeaf (h : Tree F c root depth tables) (hlen : p.length = depth)
    (hp : follow F c root p = some t) (hq : q.length < depth) :
    linkAt F (setEntry c t i e) root q j = linkAt F c root q j := by
  unfold linkAt
  rw [h.follow_setLeaf hlen hp hq.le]
  refine Option.bind_congr fun v hv => ?_
  rw [setEntry_of_ne]
  rintro ⟨rfl, -⟩
  have heq := h.injective q p v hq.le hlen.le hv hp
  rw [heq] at hq
  omega

end Link

/-- Every table but the root is named by exactly one entry of an upper-level table. -/
theorem existsUnique_slot (h : Tree F c root depth tables) (hu : u ∈ tables) (hne : u ≠ root) :
    ∃! s : T × I, (∃ p, p.length < depth ∧ follow F c root p = some s.1) ∧
      F.next (c s.1 s.2) = some u := by
  obtain ⟨q, hlen, hq⟩ := (h.reached u).mp hu
  rcases List.eq_nil_or_concat q with rfl | ⟨p, i, rfl⟩
  · exact absurd (Option.some.inj hq).symm hne
  rw [List.concat_eq_append] at hlen hq
  rw [List.length_append, List.length_singleton] at hlen
  obtain ⟨t, ht, hnext⟩ := follow_concat_eq_some.mp hq
  refine ⟨(t, i), ⟨⟨p, by omega, ht⟩, hnext⟩, ?_⟩
  rintro ⟨v, j⟩ ⟨⟨r, hlr, hr⟩, hv⟩
  have hpath := follow_concat_eq_some.mpr ⟨v, hr, hv⟩
  have heq := h.injective (r ++ [j]) (p ++ [i]) u (by simpa using hlr) (by simpa using hlen) hpath hq
  obtain ⟨rfl, hji⟩ := List.append_inj' heq rfl
  rw [hr] at ht
  simp only [List.cons.injEq, and_true] at hji
  exact Prod.ext (Option.some.inj ht) hji

end Tree
end RadixTree
end Lib
end ZineOS
