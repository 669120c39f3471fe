import Mathlib

/-!
# Circular doubly linked lists

A ring is a list of distinct nodes in which each is linked both ways to the one behind it, and the
last to the first.  The links are two functions on nodes, so a heap of any kind gives one.

A ring has no distinguished start (`IsRing.rotate`).  `IsRing.snoc` and `IsRing.unlink` are the two
edits, stated by what the new links must satisfy; `doWhile` and `search` are the loops that walk
around a ring, and on one they are the fold and the search of its list.
-/

namespace ZineOS
namespace Lib

variable {α σ : Type*}

/-- `next` leads from `x` to `y`, and `prev` back. -/
def Linked (next prev : α → α) (x y : α) : Prop := next x = y ∧ prev y = x

structure IsRing (next prev : α → α) (l : List α) : Prop where
  nodup : l.Nodup
  chain : l.IsChain (Linked next prev)
  closed : ∀ x ∈ l.getLast?, ∀ y ∈ l.head?, Linked next prev x y

/-- `do { body } while ((x = next(x)) != head)`; `none` when the fuel runs out. -/
def doWhile [DecidableEq α] (next : α → α) (head : α) (body : σ → α → σ) : Nat → σ → α → Option σ
  | 0, _, _ => none
  | n + 1, s, x =>
      if next x = head then some (body s x) else doWhile next head body n (body s x) (next x)

/-- The same loop, left at the first node with `p`. -/
def search [DecidableEq α] (next : α → α) (head : α) (p : α → Bool) : Nat → α → Option (Option α)
  | 0, _ => none
  | n + 1, x =>
      if p x then some (some x)
      else if next x = head then some none
      else search next head p n (next x)

/-- The nodes that `search` looks at. -/
def visited [DecidableEq α] (next : α → α) (head : α) (p : α → Bool) : Nat → α → List α
  | 0, _ => []
  | n + 1, x =>
      x :: if p x then [] else if next x = head then [] else visited next head p n (next x)

namespace IsRing

variable {next prev next' prev' : α → α} {a b e : α} {l m t : List α}

theorem nil : IsRing next prev [] := ⟨List.nodup_nil, .nil, nofun⟩

theorem singleton (h : Linked next prev a a) : IsRing next prev [a] where
  nodup := List.nodup_singleton a
  chain := .singleton a
  closed := by
    rintro x ⟨⟩ y ⟨⟩
    exact h

/-- A ring depends on the links of its own nodes only. -/
theorem congr (h : IsRing next prev l) (hnext : ∀ x ∈ l, next' x = next x)
    (hprev : ∀ x ∈ l, prev' x = prev x) : IsRing next' prev' l where
  nodup := h.nodup
  chain := h.chain.imp_of_mem_imp fun x y hx hy hlink =>
    ⟨(hnext x hx).trans hlink.1, (hprev y hy).trans hlink.2⟩
  closed := by
    intro x hx y hy
    have hlink := h.closed x hx y hy
    exact ⟨(hnext x (List.mem_of_getLast? hx)).trans hlink.1,
      (hprev y (List.mem_of_head? hy)).trans hlink.2⟩

/-- The first node hangs behind the last one. -/
theorem head_linked (h : IsRing next prev (a :: t)) : Linked next prev (prev a) a := by
  have hlast := h.closed _ (List.getLast?_eq_getLast_of_ne_nil (List.cons_ne_nil a t)) a rfl
  exact ⟨hlast.2 ▸ hlast.1, rfl⟩

theorem prev_head_mem_getLast? (h : IsRing next prev (a :: t)) : prev a ∈ (a :: t).getLast? := by
  have hlast := h.closed _ (List.getLast?_eq_getLast_of_ne_nil (List.cons_ne_nil a t)) a rfl
  rw [hlast.2]
  exact List.getLast?_eq_getLast_of_ne_nil _

/-- A ring may be entered anywhere. -/
theorem rotate (h : IsRing next prev (l ++ m)) : IsRing next prev (m ++ l) := by
  cases l with
  | nil => simpa using h
  | cons a l =>
      cases m with
      | nil => simpa using h
      | cons b m =>
          obtain ⟨hl, hm, hlm⟩ := List.isChain_append.mp h.chain
          refine ⟨?_, List.isChain_append.mpr ⟨hm, hl, fun x hx y hy => ?_⟩, fun x hx y hy => ?_⟩
          · exact (List.perm_append_comm.nodup_iff).mp h.nodup
          · apply h.closed x _ y hy
            rw [List.getLast?_append_of_ne_nil _ (List.cons_ne_nil b m)]
            exact hx
          · rw [List.getLast?_append_of_ne_nil _ (List.cons_ne_nil a l)] at hx
            exact hlm x hx y hy

/-- Linking a new node between the last one and the first. -/
theorem snoc (h : IsRing next prev (a :: t)) (hb : b ∉ a :: t) (hfirst : Linked next' prev' b a)
    (hlast : Linked next' prev' (prev a) b)
    (hnext : ∀ x ∈ a :: t, x ≠ prev a → next' x = next x)
    (hprev : ∀ x ∈ t, prev' x = prev x) : IsRing next' prev' (a :: t ++ [b]) := by
  have hclose := h.head_linked
  have hmem := h.prev_head_mem_getLast?
  refine ⟨?_, List.isChain_append.mpr ⟨?_, .singleton b, ?_⟩, ?_⟩
  · rw [List.nodup_append]
    refine ⟨h.nodup, List.nodup_singleton b, ?_⟩
    rintro x hx y hy rfl
    exact hb (List.mem_singleton.mp hy ▸ hx)
  · -- inside the old list no link has changed: only the last node leads to the first
    apply h.chain.imp_of_mem_tail_imp
    rintro x y hx hy ⟨hxy, hyx⟩
    have hne : x ≠ prev a := by
      rintro rfl
      rw [hclose.1] at hxy
      exact (List.nodup_cons.mp h.nodup).1 (hxy ▸ hy)
    exact ⟨(hnext x hx hne).trans hxy, (hprev y hy).trans hyx⟩
  · intro x hx y hy
    rw [Option.mem_unique hx hmem]
    cases hy
    exact hlast
  · intro x hx y hy
    rw [List.getLast?_concat] at hx
    cases hx
    cases hy
    exact hfirst

/-- Linking the neighbours of the first node to each other. -/
theorem unlink_head (h : IsRing next prev (e :: b :: t))
    (hlink : Linked next' prev' (prev e) (next e))
    (hnext : ∀ x ∈ b :: t, x ≠ prev e → next' x = next x)
    (hprev : ∀ x ∈ b :: t, x ≠ next e → prev' x = prev x) : IsRing next' prev' (b :: t) := by
  have hclose := h.head_linked
  have hmem := h.prev_head_mem_getLast?
  obtain ⟨heb, hchain⟩ := List.isChain_cons_cons.mp h.chain
  obtain ⟨he, hnodup⟩ := List.nodup_cons.mp h.nodup
  refine ⟨hnodup, hchain.imp_of_mem_tail_imp ?_, ?_⟩
  · rintro x y hx hy ⟨hxy, hyx⟩
    have hlast : x ≠ prev e := by
      rintro rfl
      rw [hclose.1] at hxy
      exact he (hxy ▸ List.mem_of_mem_tail hy)
    have hfirst : y ≠ next e := by
      rw [heb.1]
      rintro rfl
      exact (List.nodup_cons.mp hnodup).1 hy
    exact ⟨(hnext x hx hlast).trans hxy, (hprev y (List.mem_of_mem_tail hy) hfirst).trans hyx⟩
  · intro x hx y hy
    rw [List.getLast?_cons_cons] at hmem
    rw [Option.mem_unique hx hmem]
    cases hy
    rw [← heb.1]
    exact hlink

/-- Linking the neighbours of any node of a ring of at least two. -/
theorem unlink (h : IsRing next prev (l ++ e :: m)) (hne : l ++ m ≠ [])
    (hlink : Linked next' prev' (prev e) (next e))
    (hnext : ∀ x ∈ l ++ m, x ≠ prev e → next' x = next x)
    (hprev : ∀ x ∈ l ++ m, x ≠ next e → prev' x = prev x) : IsRing next' prev' (l ++ m) := by
  have hrotated : IsRing next prev (e :: (m ++ l)) := h.rotate
  apply rotate
  cases hml : m ++ l with
  | nil =>
      rw [List.append_eq_nil_iff] at hml
      exact absurd (by rw [hml.1, hml.2]; rfl) hne
  | cons b t =>
      have hperm : ∀ x ∈ b :: t, x ∈ l ++ m := by
        intro x hx
        rw [← hml, List.mem_append] at hx
        rw [List.mem_append]
        exact hx.symm
      rw [hml] at hrotated
      exact hrotated.unlink_head hlink (fun x hx => hnext x (hperm x hx))
        fun x hx => hprev x (hperm x hx)

/-- Inside a linked list, `next` stays in the list. -/
theorem next_mem_of_chain {y : α} (h : (l ++ [e]).IsChain (Linked next prev)) (hy : y ∈ l) :
    next y ∈ l ++ [e] := by
  obtain ⟨p, q, rfl⟩ := List.append_of_mem hy
  rw [List.append_assoc, List.cons_append] at h ⊢
  cases q with
  | nil =>
      have hye := (List.isChain_append_cons_cons.mp h).2.1.1
      rw [hye]
      simp
  | cons z q =>
      have hyz := (List.isChain_append_cons_cons.mp h).2.1.1
      rw [hyz]
      simp

/-! ## Walking -/

/-- The rest of a walk: linked nodes, the last of which leads back to `head`. -/
structure Path (next : α → α) (head x : α) (l : List α) : Prop where
  chain : (x :: l).IsChain fun y z => next y = z
  back : ∀ y ∈ (x :: l).getLast?, next y = head
  away : head ∉ l

theorem path (h : IsRing next prev (a :: t)) : Path next a a t where
  chain := h.chain.imp fun _ _ hlink => hlink.1
  back := fun y hy => (h.closed y hy a rfl).1
  away := (List.nodup_cons.mp h.nodup).1

theorem Path.next_eq_head_iff {x : α} (h : Path next a x l) : next x = a ↔ l = [] := by
  cases l with
  | nil => exact ⟨fun _ => rfl, fun _ => h.back x rfl⟩
  | cons y l =>
      have hxy := (List.isChain_cons_cons.mp h.chain).1
      refine ⟨fun hx => absurd (hxy ▸ hx) ?_, nofun⟩
      rintro rfl
      exact h.away List.mem_cons_self

theorem Path.tail {x y : α} (h : Path next a x (y :: l)) : next x = y ∧ Path next a y l := by
  obtain ⟨hxy, hchain⟩ := List.isChain_cons_cons.mp h.chain
  refine ⟨hxy, hchain, fun z hz => h.back z ?_, fun hmem => h.away (List.mem_cons_of_mem _ hmem)⟩
  rw [List.getLast?_cons_cons]
  exact hz

/-- There is one way around. -/
theorem Path.unique {x : α} {l' : List α} (h : Path next a x l) (h' : Path next a x l') : l = l' := by
  induction l generalizing x l' with
  | nil => exact (h'.next_eq_head_iff.mp (h.next_eq_head_iff.mpr rfl)).symm
  | cons y l ih =>
      cases l' with
      | nil => exact h.next_eq_head_iff.mp (h'.next_eq_head_iff.mpr rfl)
      | cons z l' =>
          obtain ⟨hy, hrest⟩ := h.tail
          obtain ⟨hz, hrest'⟩ := h'.tail
          obtain rfl : y = z := hy.symm.trans hz
          rw [ih hrest hrest']

/-- A walk does not leave a set that is closed under `next`. -/
theorem Path.forall_mem {S : α → Prop} {x : α} (h : Path next a x l) (hx : S x)
    (hS : ∀ y, S y → S (next y)) : ∀ y ∈ x :: l, S y := by
  induction l generalizing x with
  | nil => exact List.forall_mem_singleton.mpr hx
  | cons z l ih =>
      obtain ⟨hxz, hrest⟩ := h.tail
      exact List.forall_mem_cons.mpr ⟨hx, ih hrest (hxz ▸ hS x hx)⟩

/-- The neighbours of the first node are nodes of the ring. -/
theorem neighbours_mem (h : IsRing next prev (a :: t)) : next a ∈ a :: t ∧ prev a ∈ a :: t := by
  refine ⟨?_, List.mem_of_getLast? h.prev_head_mem_getLast?⟩
  cases t with
  | nil => exact List.mem_singleton.mpr (h.path.next_eq_head_iff.mpr rfl)
  | cons b t =>
      rw [h.path.tail.1]
      exact List.mem_cons_of_mem a List.mem_cons_self

variable [DecidableEq α]

theorem Path.doWhile_eq {body : σ → α → σ} {n : Nat} {s : σ} {x : α} (h : Path next a x l)
    (hn : l.length < n) : doWhile next a body n s x = some ((x :: l).foldl body s) := by
  induction l generalizing n s x with
  | nil =>
      cases n with
      | zero => omega
      | succ n => rw [doWhile, if_pos (h.next_eq_head_iff.mpr rfl)]; rfl
  | cons y l ih =>
      cases n with
      | zero => omega
      | succ n =>
          obtain ⟨hxy, hrest⟩ := h.tail
          rw [doWhile, if_neg (h.next_eq_head_iff.not.mpr (List.cons_ne_nil y l)), hxy,
            ih hrest (Nat.lt_of_succ_lt_succ hn)]
          rfl

/-- The loop visits the nodes of the ring in order. -/
theorem doWhile_eq {body : σ → α → σ} {n : Nat} {s : σ} (h : IsRing next prev (a :: t))
    (hn : t.length < n) : doWhile next a body n s a = some ((a :: t).foldl body s) :=
  h.path.doWhile_eq hn

theorem Path.search_eq {p : α → Bool} {n : Nat} {x : α} (h : Path next a x l)
    (hn : l.length < n) : search next a p n x = some ((x :: l).find? p) := by
  induction l generalizing n x with
  | nil =>
      cases n with
      | zero => omega
      | succ n =>
          rw [search, if_pos (h.next_eq_head_iff.mpr rfl)]
          cases hp : p x <;> simp [hp]
  | cons y l ih =>
      cases n with
      | zero => omega
      | succ n =>
          obtain ⟨hxy, hrest⟩ := h.tail
          rw [search, if_neg (h.next_eq_head_iff.not.mpr (List.cons_ne_nil y l)), hxy,
            ih hrest (Nat.lt_of_succ_lt_succ hn)]
          cases hp : p x <;> simp [hp]

/-- What the search does not look at does not matter. -/
theorem search_congr {next next' : α → α} {p p' : α → Bool} {n : Nat} {x : α}
    (h : ∀ y ∈ visited next a p n x, next' y = next y ∧ p' y = p y) :
    search next' a p' n x = search next a p n x ∧
      visited next' a p' n x = visited next a p n x := by
  induction n generalizing x with
  | zero => exact ⟨rfl, rfl⟩
  | succ n ih =>
      rw [visited] at h
      obtain ⟨hnext, hp⟩ := h x List.mem_cons_self
      rw [search, search, visited, visited, hnext, hp]
      by_cases hfound : p x = true
      · simp only [hfound, if_true, and_self]
      · by_cases hlast : next x = a
        · simp only [hfound, hlast, if_true, and_self]
        · rw [if_neg hfound, if_neg hlast] at h
          obtain ⟨hsearch, hvisited⟩ := ih fun y hy => h y (List.mem_cons_of_mem x hy)
          simp only [hfound, hlast, if_false, hsearch, hvisited, and_self]

theorem Path.visited_subset {p : α → Bool} {n : Nat} {x : α} (h : Path next a x l) :
    visited next a p n x ⊆ x :: l := by
  induction n generalizing x l with
  | zero => exact List.nil_subset _
  | succ n ih =>
      unfold visited
      refine List.cons_subset.mpr ⟨List.mem_cons_self, ?_⟩
      split_ifs with hp hhead
      · exact List.nil_subset _
      · exact List.nil_subset _
      · cases l with
        | nil => exact absurd (h.next_eq_head_iff.mpr rfl) hhead
        | cons y l =>
            obtain ⟨hxy, hrest⟩ := h.tail
            rw [hxy]
            exact List.Subset.trans (ih hrest) (List.subset_cons_self _ _)

/-- The search finds the first node of the ring with `p`. -/
theorem search_eq {p : α → Bool} {n : Nat} (h : IsRing next prev (a :: t)) (hn : t.length < n) :
    search next a p n a = some ((a :: t).find? p) :=
  h.path.search_eq hn

end IsRing
end Lib
end ZineOS
