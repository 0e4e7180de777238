import EmbeddedSql.Checked.Span
import EmbeddedSql.Proofs.Positions
import Mathlib.Data.List.Nodup

/-!
# Words, slices and sets of spans without failure

Each checked operation agrees with the operation it stands for as long as its
own guard holds, and this module says so once for each of them. The loops over
sets of spans walk their lists by index; what they have still to do is the list
from that index on, so each agrees with the recursion on `drop`, and reading an
element there is what `drop_eq_cons` takes apart.

A set in normal form has no more spans than positions. An index into it is
therefore as small as the positions are, and counting it up cannot overflow.
-/

namespace EmbeddedSql

/-! ## How large a set is -/

/-- The spans of a set whose positions are all below a bound stop at or before
it. -/
theorem SpanSet.stop_le_of_mem {set : SpanSet} {n : Nat} (h : ∀ p ∈ set, p < n) {s : Span}
    (hs : s ∈ set.toList) : s.stop ≤ n := by
  have hpos := set.normal.nonempty s hs
  have hlast := h (s.stop - 1) ⟨s, hs, Span.pred_stop_mem hpos⟩
  omega

/-- Joining spans reaches no further than the spans do. -/
theorem SpanSet.stop_lt_of_mem_ofSpans {spans : List Span} {n : Nat} (h : ∀ s ∈ spans, s.stop < n)
    {t : Span} (ht : t ∈ (ofSpans spans).toList) : t.stop < n := by
  have hpos := (ofSpans spans).normal.nonempty t ht
  obtain ⟨s, hs, hlast⟩ := SpanSet.mem_ofSpans.mp ⟨t, ht, Span.pred_stop_mem hpos⟩
  have hstop := h s hs
  rw [Span.mem_def] at hlast
  omega

/-- **A set has no more spans than positions.** -/
theorem Normal.length_le {spans : List Span} (h : Normal spans) {n : Nat}
    (hn : ∀ s ∈ spans, s.stop ≤ n) : spans.length ≤ n := by
  have hstarts : (spans.map Span.start).Nodup := by
    rw [List.Nodup, List.pairwise_map]
    refine h.apart.imp fun {s t} hlt => ?_
    have := s.start_le_stop
    omega
  have hsub : spans.map Span.start ⊆ List.range n := by
    intro p hp
    obtain ⟨s, hs, rfl⟩ := List.mem_map.mp hp
    have hpos := h.nonempty s hs
    have hstop := hn s hs
    rw [List.mem_range]
    simp only [Span.stop] at hstop
    omega
  simpa using List.Nodup.length_le_of_subset hstarts hsub

namespace Checked

/-! ## Words and slices -/

/-- A step that does not fail hands on its result. -/
theorem some_bind {α β : Type} (a : α) (f : α → Option β) : (some a >>= f) = f a := rfl

theorem add_eq {a b : Nat} (h : a + b < 2 ^ 64) : add a b = some (a + b) := if_pos h

theorem sub_eq {a b : Nat} (h : b ≤ a) : sub a b = some (a - b) := if_pos h

theorem cut_eq {α : Type} {xs : List α} {i j : Nat} (hij : i ≤ j) (hj : j ≤ xs.length) :
    cut xs i j = some ((xs.take j).drop i) := if_pos ⟨hij, hj⟩

theorem cut_from {α : Type} {xs : List α} {i : Nat} (h : i ≤ xs.length) :
    cut xs i xs.length = some (xs.drop i) := by
  rw [cut_eq h (Nat.le_refl _), List.take_length]

theorem select_eq {α : Type} {test : α → Option Bool} {keep : α → Bool} {xs : List α}
    (h : ∀ x ∈ xs, test x = some (keep x)) : select test xs = some (xs.filter keep) := by
  induction xs with
  | nil => rfl
  | cons x xs ih =>
    rw [select, h x List.mem_cons_self, ih fun y hy => h y (List.mem_cons_of_mem x hy),
      List.filter_cons]
    rfl

theorem mapM_eq {α β : Type} {f : α → Option β} {g : α → β} {xs : List α}
    (h : ∀ x ∈ xs, f x = some (g x)) : xs.mapM f = some (xs.map g) := by
  induction xs with
  | nil => rfl
  | cons x xs ih =>
    rw [List.mapM_cons, h x List.mem_cons_self, ih fun y hy => h y (List.mem_cons_of_mem x hy)]
    rfl

/-- What is left of a list from an index on starts with the element there. -/
theorem drop_eq_cons {α : Type} {xs rest : List α} {x : α} {i : Nat} (h : xs.drop i = x :: rest) :
    i < xs.length ∧ xs[i]? = some x ∧ xs.drop (i + 1) = rest := by
  have hi : i < xs.length := by
    by_contra hle
    rw [List.drop_eq_nil_of_le (Nat.le_of_not_lt hle)] at h
    simp at h
  rw [List.drop_eq_getElem_cons hi, List.cons.injEq] at h
  exact ⟨hi, by rw [List.getElem?_eq_getElem hi, h.1], h.2⟩

/-! ## Spans -/

theorem stop_eq {s : Span} (h : s.stop < 2 ^ 64) : stop s = some s.stop := add_eq h

theorem contains_eq {s : Span} (h : s.stop < 2 ^ 64) (p : Nat) :
    contains s p = some (s.contains p) := by
  unfold contains Span.contains
  split
  · next hle =>
    rw [stop_eq h]
    simp [Span.mem_def, hle]
  · next hle => simp [Span.mem_def, hle]

theorem overlaps_eq {s t : Span} (hs : s.stop < 2 ^ 64) (ht : t.stop < 2 ^ 64) :
    overlaps s t = some (s.overlaps t) := by
  unfold overlaps Span.overlaps
  rw [stop_eq hs, stop_eq ht]
  by_cases hlt : s.start < t.stop
  · cases s.isEmpty <;> cases t.isEmpty <;> simp [hlt]
  · cases s.isEmpty <;> cases t.isEmpty <;> simp [hlt]

theorem inter_eq {s t : Span} (hs : s.stop < 2 ^ 64) (ht : t.stop < 2 ^ 64) :
    inter s t = some (s.inter? t) := by
  unfold inter
  rw [stop_eq hs, stop_eq ht]
  rfl

theorem shift_eq {s : Span} {delta : Nat} (h : s.start + delta < 2 ^ 64) :
    shift s delta = some (s.shift delta) := by
  unfold shift
  rw [add_eq h]
  rfl

/-! ## Building sets -/

theorem coalesce_eq {cur : Span} {spans : List Span} (h : ∀ s ∈ cur :: spans, s.stop < 2 ^ 64) :
    coalesce cur spans = some (SpanSet.coalesce cur spans) := by
  induction spans generalizing cur with
  | nil => rfl
  | cons s rest ih =>
    have hcur := h cur (by simp)
    have hs := h s (by simp)
    have hrest : ∀ t ∈ rest, t.stop < 2 ^ 64 := fun t ht => h t (by simp [ht])
    rw [coalesce, SpanSet.coalesce, stop_eq hcur]
    simp only [some_bind]
    split
    · rw [stop_eq hs, some_bind, ih]
      rintro t (_ | ⟨_, ht⟩)
      · rw [Span.stop_between]
        have := cur.start_le_stop
        omega
      · exact hrest t ht
    · rw [ih (List.forall_mem_cons.mpr ⟨hs, hrest⟩)]
      rfl

theorem normalize_eq {spans : List Span} (h : ∀ s ∈ spans, s.stop < 2 ^ 64) :
    normalize spans = some (SpanSet.normalize spans) := by
  have hsorted : ∀ s ∈ (spans.filter fun s => !s.isEmpty).mergeSort fun s t => decide (s ≤ t),
      s.stop < 2 ^ 64 := by
    intro s hs
    rw [List.mem_mergeSort] at hs
    exact h s (List.mem_of_mem_filter hs)
  unfold normalize SpanSet.normalize
  cases heq : (spans.filter fun s => !s.isEmpty).mergeSort fun s t => decide (s ≤ t) with
  | nil => rfl
  | cons s rest => exact coalesce_eq (heq ▸ hsorted)

/-! ## Overlap and difference -/

theorem commonParts_eq {as bs : List Span} (ha : ∀ a ∈ as, a.stop < 2 ^ 64)
    (hb : ∀ b ∈ bs, b.stop < 2 ^ 64) (hla : as.length < 2 ^ 64) (hlb : bs.length < 2 ^ 64)
    (i j : Nat) :
    commonParts as bs i j = some (SpanSet.commonParts (as.drop i) (bs.drop j)) := by
  generalize hxs : as.drop i = xs
  generalize hys : bs.drop j = ys
  fun_induction SpanSet.commonParts xs ys generalizing i j with
  | case1 ys =>
    rw [commonParts, if_neg]
    rw [List.drop_eq_nil_iff] at hxs
    omega
  | case2 x xs =>
    rw [commonParts, if_neg]
    rw [List.drop_eq_nil_iff] at hys
    omega
  | case3 x xs y ys ih₁ ih₂ =>
    obtain ⟨hi, hx, hxs'⟩ := drop_eq_cons hxs
    obtain ⟨hj, hy, hys'⟩ := drop_eq_cons hys
    have hxw := ha x (List.mem_of_getElem? hx)
    have hyw := hb y (List.mem_of_getElem? hy)
    rw [commonParts, if_pos ⟨hi, hj⟩, hx, hy]
    simp only [some_bind, inter_eq hxw hyw, stop_eq hxw, stop_eq hyw]
    split
    · rw [add_eq (by omega), some_bind, ih₁ _ _ hxs' hys]
      rfl
    · rw [add_eq (by omega), some_bind, ih₂ _ _ hxs hys']
      rfl

section Difference

variable {holes : List Span} (hh : ∀ hole ∈ holes, hole.stop < 2 ^ 64)
  (hlen : holes.length < 2 ^ 64)

include hh hlen in
/-- The holes from the index found on are those that are left when the ones
behind a position are dropped. -/
theorem exists_skipPast_eq (pos j : Nat) :
    ∃ j', skipPast holes pos j = some j' ∧
      holes.drop j' = (holes.drop j).dropWhile fun hole => hole.stop ≤ pos := by
  generalize hxs : holes.drop j = xs
  induction xs generalizing j with
  | nil =>
    rw [List.drop_eq_nil_iff] at hxs
    refine ⟨j, by rw [skipPast, if_neg (by omega)], ?_⟩
    rw [List.drop_eq_nil_of_le hxs, List.dropWhile_nil]
  | cons hole rest ih =>
    obtain ⟨hj, hhole, hrest⟩ := drop_eq_cons hxs
    have hw := hh hole (List.mem_of_getElem? hhole)
    rw [skipPast, if_pos hj, hhole, List.dropWhile_cons]
    simp only [some_bind, stop_eq hw, decide_eq_true_eq]
    split
    · rw [add_eq (by omega), some_bind]
      exact ih (j + 1) hrest
    · exact ⟨j, rfl, hxs⟩

theorem tailOf_eq {s : Span} (h : s.stop < 2 ^ 64) (cursor : Nat) :
    tailOf s cursor = some (SpanSet.punch s.stop cursor []) := by
  unfold tailOf
  rw [stop_eq h]
  rfl

include hh hlen in
theorem punch_eq {s : Span} (hs : s.stop < 2 ^ 64) (cursor k : Nat) :
    punch s holes cursor k = some (SpanSet.punch s.stop cursor (holes.drop k)) := by
  generalize hxs : holes.drop k = xs
  induction xs generalizing cursor k with
  | nil =>
    rw [List.drop_eq_nil_iff] at hxs
    rw [punch, if_neg (by omega), tailOf_eq hs]
  | cons hole rest ih =>
    obtain ⟨hk, hhole, hrest⟩ := drop_eq_cons hxs
    have hw := hh hole (List.mem_of_getElem? hhole)
    rw [punch, if_pos hk, hhole, SpanSet.punch]
    simp only [some_bind, stop_eq hs, stop_eq hw]
    split
    · rw [add_eq (by omega), some_bind, ih _ _ hrest]
      rfl
    · exact tailOf_eq hs cursor

include hh hlen in
theorem remainder_eq {spans : List Span} (hs : ∀ s ∈ spans, s.stop < 2 ^ 64) (j : Nat) :
    remainder holes j spans = some (SpanSet.remainder spans (holes.drop j)) := by
  induction spans generalizing j with
  | nil => rfl
  | cons s rest ih =>
    obtain ⟨j', hskip, hdrop⟩ := exists_skipPast_eq hh hlen s.start j
    rw [remainder, hskip, SpanSet.remainder, ← hdrop]
    simp only [some_bind, punch_eq hh hlen (hs s List.mem_cons_self),
      ih fun t ht => hs t (List.mem_cons_of_mem s ht)]
    rfl

end Difference

/-! ## Looking up -/

section LookUp

variable {set : SpanSet} (h : ∀ s ∈ set.toList, s.stop < 2 ^ 64)

include h in
theorem firstPast_eq (p : Nat) : firstPast set.toList p = some (set.firstPast p) := by
  unfold firstPast SpanSet.firstPast
  rw [mapM_eq fun s hs => stop_eq (h s hs)]
  simp [SpanSet.toList, Option.any_map]

include h in
theorem holds_eq (p : Nat) : holds set.toList p = some (set.contains p) := by
  unfold holds SpanSet.contains
  rw [firstPast_eq h, some_bind, SpanSet.toList, Array.getElem?_toList]
  split
  · next s hs =>
    rw [contains_eq (h s (SpanSet.mem_toList_iff.mpr ⟨_, hs⟩)), hs]
    rfl
  · next hs => rw [hs]; rfl

include h in
theorem meets_eq {t : Span} (ht : t.stop < 2 ^ 64) : meets set.toList t = some (set.meets t) := by
  unfold meets SpanSet.meets
  rw [firstPast_eq h, some_bind, SpanSet.toList, Array.getElem?_toList]
  split
  · next s hs =>
    rw [overlaps_eq (h s (SpanSet.mem_toList_iff.mpr ⟨_, hs⟩)) ht, hs]
    rfl
  · next hs => rw [hs]; rfl

end LookUp

end Checked

end EmbeddedSql
