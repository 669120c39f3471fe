import Mathlib

/-!
# Tables of labelled spans

An address-space manager often keeps its state as an unsorted table of half-open spans `[lo, hi)`,
each with a label, and serves a request by **carving** one span: the entry that contains the request
is replaced by the requested piece under a new label and by what is left of the entry on either
side.  This module gives such tables their meaning and the rule for carving.

* `Span.lookup` reads a table as a partial function from points to labels.
* `Span.Apart` says that two spans share no point; a table is coherent when its spans are pairwise
  apart, and then `lookup` does not depend on the order of the entries (`lookup_perm`).
* `Carves e s t c parts` says that `parts` is what one carve of the entry `e` leaves, and
  `pairwise_carve`, `lookup_carve` say that carving keeps a table coherent and relabels exactly the
  points of `[s, t)`.

Empty and inverted spans are allowed everywhere: they cover no point.
-/

namespace ZineOS
namespace Lib

/-- A half-open span `[lo, hi)` with a label. -/
structure Span (α L : Type*) where
  lo : α
  hi : α
  label : L
deriving DecidableEq, Repr

namespace Span

variable {α L : Type*} [LinearOrder α]

/-- The points of a span. -/
def Covers (s : Span α L) (x : α) : Prop := s.lo ≤ x ∧ x < s.hi

instance (s : Span α L) (x : α) : Decidable (s.Covers x) :=
  inferInstanceAs (Decidable (_ ∧ _))

theorem covers_iff {s : Span α L} {x : α} : s.Covers x ↔ s.lo ≤ x ∧ x < s.hi := ⟨id, id⟩

/-- Two spans with no point in common. -/
def Apart (s t : Span α L) : Prop := ∀ x, s.Covers x → ¬ t.Covers x

theorem Apart.symm {s t : Span α L} (h : s.Apart t) : t.Apart s :=
  fun x ht hs => h x hs ht

instance : Std.Symm (@Apart α L _) := ⟨fun _ _ h => h.symm⟩

/-- A table read as a partial function: the label of the first span covering the point. -/
def lookup (l : List (Span α L)) (x : α) : Option L :=
  (l.find? fun s => s.Covers x).map Span.label

@[simp] theorem lookup_nil (x : α) : lookup ([] : List (Span α L)) x = none := rfl

theorem lookup_cons (s : Span α L) (l : List (Span α L)) (x : α) :
    lookup (s :: l) x = if s.Covers x then some s.label else lookup l x := by
  by_cases h : s.Covers x <;> simp [lookup, h]

theorem lookup_append (l₁ l₂ : List (Span α L)) (x : α) :
    lookup (l₁ ++ l₂) x = (lookup l₁ x).or (lookup l₂ x) := by
  induction l₁ with
  | nil => simp
  | cons s l ih =>
      rw [List.cons_append, lookup_cons, lookup_cons, ih]
      split <;> simp

theorem lookup_eq_none_iff {l : List (Span α L)} {x : α} :
    lookup l x = none ↔ ∀ s ∈ l, ¬ s.Covers x := by
  simp [lookup]

/-- A span that covers a point decides its label in a coherent table. -/
theorem lookup_of_mem {l : List (Span α L)} (hl : l.Pairwise Apart) {s : Span α L} (hs : s ∈ l)
    {x : α} (hx : s.Covers x) : lookup l x = some s.label := by
  induction l with
  | nil => simp at hs
  | cons a l ih =>
      rw [List.pairwise_cons] at hl
      rw [lookup_cons]
      rcases List.mem_cons.mp hs with rfl | hmem
      · rw [if_pos hx]
      · rw [if_neg fun ha => hl.1 s hmem x ha hx]
        exact ih hl.2 hmem

/-- A labelled point is covered by a span with that label. -/
theorem exists_of_lookup {l : List (Span α L)} {x : α} {c : L} (h : lookup l x = some c) :
    ∃ s ∈ l, s.Covers x ∧ s.label = c := by
  unfold lookup at h
  obtain ⟨s, hs, hc⟩ := Option.map_eq_some_iff.mp h
  exact ⟨s, List.mem_of_find?_eq_some hs, by simpa using List.find?_some hs, hc⟩

theorem lookup_eq_some_iff {l : List (Span α L)} (hl : l.Pairwise Apart) {x : α} {c : L} :
    lookup l x = some c ↔ ∃ s ∈ l, s.Covers x ∧ s.label = c := by
  constructor
  · exact exists_of_lookup
  · rintro ⟨s, hs, hx, rfl⟩
    exact lookup_of_mem hl hs hx

theorem isSome_lookup_iff {l : List (Span α L)} {x : α} :
    (lookup l x).isSome ↔ ∃ s ∈ l, s.Covers x := by
  rw [Option.isSome_iff_ne_none, Ne, lookup_eq_none_iff]
  simp

theorem pairwise_perm {l l' : List (Span α L)} (hp : l.Perm l') :
    l.Pairwise Apart ↔ l'.Pairwise Apart :=
  hp.pairwise_iff (fun {_ _} h => h.symm)

/-- The order of the entries of a coherent table does not matter. -/
theorem lookup_perm {l l' : List (Span α L)} (hl : l.Pairwise Apart) (hp : l.Perm l') (x : α) :
    lookup l x = lookup l' x := by
  apply Option.ext
  intro c
  rw [lookup_eq_some_iff hl, lookup_eq_some_iff ((pairwise_perm hp).mp hl)]
  simp only [hp.mem_iff]

/-- Two spans of a coherent table that share a point are the same span. -/
theorem eq_of_covers {l : List (Span α L)} (hl : l.Pairwise Apart) {s t : Span α L} (hs : s ∈ l)
    (ht : t ∈ l) {x : α} (hx : s.Covers x) (hy : t.Covers x) : s = t := by
  by_contra hne
  exact hl.forall hs ht hne x hx hy

/-! ## Carving -/

/-- `parts` replaces the entry `e` when the piece `[s, t)` of it is given the label `c`. -/
structure Carves (e : Span α L) (s t : α) (c : L) (parts : List (Span α L)) : Prop where
  /-- The pieces are coherent among themselves. -/
  apart : parts.Pairwise Apart
  /-- The requested piece is one of them. -/
  piece : ⟨s, t, c⟩ ∈ parts
  /-- Every other piece keeps the entry's label. -/
  rest : ∀ u ∈ parts, u = ⟨s, t, c⟩ ∨ u.label = e.label
  /-- No piece leaves the entry. -/
  inside : ∀ u ∈ parts, ∀ x, u.Covers x → e.Covers x
  /-- The ends of a piece stay within the ends of the entry, also when the piece is empty. -/
  bounds : ∀ u ∈ parts, u.lo ≤ max e.lo e.hi ∧ u.hi ≤ max e.lo e.hi
  /-- Together they read as the entry with `[s, t)` relabelled. -/
  reads : ∀ x, lookup parts x =
    if s ≤ x ∧ x < t then some c else if e.Covers x then some e.label else none

/-- The request is the whole entry. -/
theorem carves_exact (e : Span α L) (c : L) : Carves e e.lo e.hi c [⟨e.lo, e.hi, c⟩] where
  apart := by simp
  piece := by simp
  rest := by simp
  inside := by
    simp only [List.mem_singleton, forall_eq]
    exact fun x hx => hx
  bounds := by simp
  reads := by
    intro x
    simp only [lookup_cons, covers_iff, lookup_nil]
    by_cases hx : e.lo ≤ x ∧ x < e.hi
    · rw [if_pos hx, if_pos hx]
    · rw [if_neg hx, if_neg hx, if_neg hx]

/-- The request starts where the entry starts. -/
theorem carves_prefix (e : Span α L) (t : α) (c : L) (h : t ≤ e.hi) (h' : e.lo ≤ t) :
    Carves e e.lo t c [⟨t, e.hi, e.label⟩, ⟨e.lo, t, c⟩] where
  apart := by
    simp only [List.pairwise_cons, List.mem_singleton, forall_eq, List.not_mem_nil,
      false_implies, implies_true, List.Pairwise.nil, and_self, and_true]
    exact fun x hx hy => absurd hx.1 (not_le.mpr hy.2)
  piece := by simp
  rest := by simp
  inside := by
    simp only [List.mem_cons, List.not_mem_nil, or_false, forall_eq_or_imp, forall_eq]
    exact ⟨fun x hx => ⟨h'.trans hx.1, hx.2⟩, fun x hx => ⟨hx.1, lt_of_lt_of_le hx.2 h⟩⟩
  bounds := by simp [h]
  reads := by
    intro x
    simp only [lookup_cons, lookup_nil, covers_iff]
    rcases lt_or_ge x t with hx | hx
    · have hhi : x < e.hi := lt_of_lt_of_le hx h
      by_cases hlo : e.lo ≤ x
      · simp [hx, not_le.mpr hx, hlo]
      · simp [not_le.mpr hx, hlo]
    · simp [hx, not_lt.mpr hx, h'.trans hx]

/-- The request ends where the entry ends. -/
theorem carves_suffix (e : Span α L) (s : α) (c : L) (h : e.lo ≤ s) (h' : s ≤ e.hi) :
    Carves e s e.hi c [⟨e.lo, s, e.label⟩, ⟨s, e.hi, c⟩] where
  apart := by
    simp only [List.pairwise_cons, List.mem_singleton, forall_eq, List.not_mem_nil,
      false_implies, implies_true, List.Pairwise.nil, and_self, and_true]
    exact fun x hx hy => absurd hy.1 (not_le.mpr hx.2)
  piece := by simp
  rest := by simp
  inside := by
    simp only [List.mem_cons, List.not_mem_nil, or_false, forall_eq_or_imp, forall_eq]
    exact ⟨fun x hx => ⟨hx.1, lt_of_lt_of_le hx.2 h'⟩, fun x hx => ⟨h.trans hx.1, hx.2⟩⟩
  bounds := by simp [h']
  reads := by
    intro x
    simp only [lookup_cons, lookup_nil, covers_iff]
    rcases lt_or_ge x s with hx | hx
    · simp [hx, not_le.mpr hx, lt_of_lt_of_le hx h']
    · simp only [hx, not_lt.mpr hx, h.trans hx, and_false, if_false, true_and]
      split <;> rfl

/-- The request lies strictly between the ends of the entry. -/
theorem carves_middle (e : Span α L) (s t : α) (c : L) (h : e.lo ≤ s) (hst : s ≤ t)
    (h' : t ≤ e.hi) :
    Carves e s t c [⟨e.lo, s, e.label⟩, ⟨s, t, c⟩, ⟨t, e.hi, e.label⟩] where
  apart := by
    simp only [List.pairwise_cons, List.mem_cons, List.not_mem_nil, or_false, forall_eq_or_imp,
      forall_eq, false_implies, implies_true, List.Pairwise.nil, and_self, and_true]
    refine ⟨⟨fun x hx hy => ?_, fun x hx hy => ?_⟩, fun x hx hy => ?_⟩
    · exact absurd hy.1 (not_le.mpr hx.2)
    · exact absurd (hst.trans hy.1) (not_le.mpr hx.2)
    · exact absurd hy.1 (not_le.mpr hx.2)
  piece := by simp
  rest := by simp
  inside := by
    simp only [List.mem_cons, List.not_mem_nil, or_false, forall_eq_or_imp, forall_eq]
    refine ⟨fun x hx => ⟨hx.1, ?_⟩, fun x hx => ⟨h.trans hx.1, lt_of_lt_of_le hx.2 h'⟩,
      fun x hx => ⟨h.trans (hst.trans hx.1), hx.2⟩⟩
    exact lt_of_lt_of_le hx.2 (hst.trans h')
  bounds := by simp [h', hst.trans h']
  reads := by
    intro x
    simp only [lookup_cons, lookup_nil, covers_iff]
    rcases lt_or_ge x s with hx | hx
    · have ht : x < t := lt_of_lt_of_le hx hst
      simp [hx, not_le.mpr hx, not_le.mpr ht, lt_of_lt_of_le ht h']
    · rcases lt_or_ge x t with ht | ht
      · simp [hx, ht, not_lt.mpr hx]
      · simp [ht, not_lt.mpr hx, not_lt.mpr ht, h.trans hx]

/-- The pieces that stand for `e` once `[s, t)` is cut out of it: one, two or three, by how many ends
the request shares with the entry. -/
def cut (e : Span α L) (s t : α) (c : L) : List (Span α L) :=
  if s = e.lo ∧ t = e.hi then [⟨s, t, c⟩]
  else if s = e.lo then [⟨t, e.hi, e.label⟩, ⟨s, t, c⟩]
  else if t = e.hi then [⟨e.lo, s, e.label⟩, ⟨s, t, c⟩]
  else [⟨e.lo, s, e.label⟩, ⟨s, t, c⟩, ⟨t, e.hi, e.label⟩]

theorem carves_cut (e : Span α L) (s t : α) (c : L) (h : e.lo ≤ s) (hst : s ≤ t) (h' : t ≤ e.hi) :
    Carves e s t c (e.cut s t c) := by
  unfold cut
  by_cases hlo : s = e.lo
  · by_cases hhi : t = e.hi
    · rw [if_pos ⟨hlo, hhi⟩, hlo, hhi]
      exact carves_exact e c
    · rw [if_neg fun both => hhi both.2, if_pos hlo, hlo]
      exact carves_prefix e t c h' (hlo ▸ hst)
  · rw [if_neg fun both => hlo both.1, if_neg hlo]
    by_cases hhi : t = e.hi
    · rw [if_pos hhi, hhi]
      exact carves_suffix e s c h (hhi ▸ hst)
    · rw [if_neg hhi]
      exact carves_middle e s t c h hst h'

/-- A piece is the request or what is left on one side of it. -/
theorem mem_cut {e u : Span α L} {s t : α} {c : L} (h : u ∈ e.cut s t c) :
    u = ⟨s, t, c⟩ ∨ u = ⟨e.lo, s, e.label⟩ ∨ u = ⟨t, e.hi, e.label⟩ := by
  unfold cut at h
  split at h
  · exact Or.inl (List.mem_singleton.mp h)
  split at h
  · simp only [List.mem_cons, List.not_mem_nil, or_false] at h
    exact h.symm.imp_right Or.inr
  split at h
  · simp only [List.mem_cons, List.not_mem_nil, or_false] at h
    exact h.symm.imp_right Or.inl
  · simp only [List.mem_cons, List.not_mem_nil, or_false] at h
    rcases h with hleft | hpiece | hright
    · exact Or.inr (Or.inl hleft)
    · exact Or.inl hpiece
    · exact Or.inr (Or.inr hright)

/-- What is left behind the request is one of the pieces. -/
theorem tail_mem_cut {e : Span α L} {s t : α} (c : L) (h : t ≠ e.hi) :
    ⟨t, e.hi, e.label⟩ ∈ e.cut s t c := by
  unfold cut
  rw [if_neg fun both => h both.2, if_neg h]
  split <;> simp

/-- So is what is left in front of it. -/
theorem front_mem_cut {e : Span α L} {s t : α} (c : L) (h : s ≠ e.lo) :
    ⟨e.lo, s, e.label⟩ ∈ e.cut s t c := by
  unfold cut
  rw [if_neg fun both => h both.1, if_neg h]
  split <;> simp

theorem cut_ne_nil (e : Span α L) (s t : α) (c : L) : e.cut s t c ≠ [] := by
  unfold cut
  split
  · exact List.cons_ne_nil _ _
  split
  · exact List.cons_ne_nil _ _
  split <;> exact List.cons_ne_nil _ _

/-- No point gets lost in a cut, also where the request is inverted. -/
theorem exists_covers_cut {e : Span α L} (s t : α) (c : L) {x : α} (h : e.Covers x) :
    ∃ u ∈ e.cut s t c, u.Covers x := by
  obtain ⟨hlo, hhi⟩ := h
  unfold cut
  by_cases hexact : s = e.lo ∧ t = e.hi
  · rw [if_pos hexact]
    exact ⟨_, List.mem_singleton_self _, hexact.1 ▸ hlo, hexact.2 ▸ hhi⟩
  rw [if_neg hexact]
  by_cases hpre : s = e.lo
  · rw [if_pos hpre]
    rcases lt_or_ge x t with hx | hx
    · exact ⟨⟨s, t, c⟩, by simp, hpre ▸ hlo, hx⟩
    · exact ⟨⟨t, e.hi, e.label⟩, by simp, hx, hhi⟩
  rw [if_neg hpre]
  by_cases hsuf : t = e.hi
  · rw [if_pos hsuf]
    rcases lt_or_ge x s with hx | hx
    · exact ⟨⟨e.lo, s, e.label⟩, by simp, hlo, hx⟩
    · exact ⟨⟨s, t, c⟩, by simp, hx, hsuf ▸ hhi⟩
  rw [if_neg hsuf]
  rcases lt_or_ge x s with hx | hx
  · exact ⟨⟨e.lo, s, e.label⟩, by simp, hlo, hx⟩
  rcases lt_or_ge x t with ht | ht
  · exact ⟨⟨s, t, c⟩, by simp, hx, ht⟩
  · exact ⟨⟨t, e.hi, e.label⟩, by simp, ht, hhi⟩

variable {e : Span α L} {s t : α} {c : L} {parts l l' r : List (Span α L)}

/-- Carving one entry keeps a table coherent. -/
theorem pairwise_carve (hc : Carves e s t c parts) (hl : l.Pairwise Apart) (hp : l.Perm (e :: r))
    (hp' : l'.Perm (parts ++ r)) : l'.Pairwise Apart := by
  rw [pairwise_perm hp', List.pairwise_append]
  have her := (pairwise_perm hp).mp hl
  rw [List.pairwise_cons] at her
  refine ⟨hc.apart, her.2, fun u hu v hv x hux hvx => ?_⟩
  exact her.1 v hv x (hc.inside u hu x hux) hvx

/-- Carving one entry relabels the requested points and no others. -/
theorem lookup_carve (hc : Carves e s t c parts) (hl : l.Pairwise Apart) (hp : l.Perm (e :: r))
    (hp' : l'.Perm (parts ++ r)) (x : α) :
    lookup l' x = if s ≤ x ∧ x < t then some c else lookup l x := by
  rw [lookup_perm (pairwise_carve hc hl hp hp') hp', lookup_perm hl hp, lookup_append, hc.reads,
    lookup_cons]
  split
  · rfl
  · split <;> simp

omit [LinearOrder α] in
/-- Every span but the carved entry is still there afterwards. -/
theorem mem_carve_of_ne (hp : l.Perm (e :: r)) (hp' : l'.Perm (parts ++ r)) {u : Span α L}
    (hu : u ∈ l) (hne : u ≠ e) : u ∈ l' := by
  rw [hp'.mem_iff, List.mem_append]
  rcases List.mem_cons.mp (hp.mem_iff.mp hu) with rfl | hr
  · exact absurd rfl hne
  · exact Or.inr hr

/-- The ends of the spans after a carve stay below any bound on the ends before it. -/
theorem bounds_carve (hc : Carves e s t c parts) (hp : l.Perm (e :: r))
    (hp' : l'.Perm (parts ++ r)) {b : α} (hb : ∀ u ∈ l, u.lo ≤ b ∧ u.hi ≤ b) :
    ∀ u ∈ l', u.lo ≤ b ∧ u.hi ≤ b := by
  have he := hb e (hp.mem_iff.mpr (List.mem_cons_self ..))
  intro u hu
  rcases List.mem_append.mp (hp'.mem_iff.mp hu) with hpart | hrest
  · obtain ⟨h1, h2⟩ := hc.bounds u hpart
    exact ⟨h1.trans (max_le he.1 he.2), h2.trans (max_le he.1 he.2)⟩
  · exact hb u (hp.mem_iff.mpr (List.mem_cons_of_mem _ hrest))

end Span
end Lib
end ZineOS
