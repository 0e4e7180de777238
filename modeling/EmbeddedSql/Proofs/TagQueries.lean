import EmbeddedSql.Host.Index
import EmbeddedSql.Proofs.Positions

/-!
# What a tag index answers

A query leaves out tags at both ends of the index, found by halving and by
walking back along the reach. What it returns is nevertheless what a scan over
all tags would return, in the same order: the tags left out at the front stop
before the span begins, by the reach, and those at the back start after it.

From this equation every lookup of the index is read as a statement about the
tags and the positions they hold, with no mention of how they are found.
-/

namespace EmbeddedSql

theorem length_reaches (furthest : Nat) (tags : List HostTag) :
    (reaches furthest tags).length = tags.length := by
  induction tags generalizing furthest with
  | nil => rfl
  | cons t tags ih => simp [reaches, ih]

theorem le_of_reaches {tags : List HostTag} {furthest i r : Nat}
    (h : (reaches furthest tags)[i]? = some r) : furthest ≤ r := by
  induction tags generalizing furthest i with
  | nil => simp [reaches] at h
  | cons t tags ih =>
    cases i with
    | zero =>
      rw [reaches, List.getElem?_cons_zero, Option.some.injEq] at h
      omega
    | succ i =>
      rw [reaches, List.getElem?_cons_succ] at h
      have := ih h
      omega

/-- The reach at a tag is at least the stop of every tag up to it. -/
theorem stop_le_of_reaches {tags : List HostTag} {furthest i j r : Nat} {t : HostTag}
    (hr : (reaches furthest tags)[i]? = some r) (ht : tags[j]? = some t) (hji : j ≤ i) :
    t.span.stop ≤ r := by
  induction tags generalizing furthest i j with
  | nil => simp at ht
  | cons u tags ih =>
    cases j with
    | zero =>
      obtain rfl : u = t := by simpa using ht
      cases i with
      | zero =>
        rw [reaches, List.getElem?_cons_zero, Option.some.injEq] at hr
        omega
      | succ i =>
        rw [reaches, List.getElem?_cons_succ] at hr
        have := le_of_reaches hr
        omega
    | succ j =>
      obtain ⟨i, rfl⟩ : ∃ k, i = k + 1 := ⟨i - 1, by omega⟩
      rw [reaches, List.getElem?_cons_succ] at hr
      rw [List.getElem?_cons_succ] at ht
      exact ih hr ht (by omega)

namespace TagIndex

theorem toList_ofTags (tags : List HostTag) : (ofTags tags).toList = arrange tags := by
  simp [ofTags, ofSorted, toList]

theorem mem_toList_ofTags {tags : List HostTag} {t : HostTag} :
    t ∈ (ofTags tags).toList ↔ t ∈ tags ∧ 0 < t.span.len := by
  rw [toList_ofTags, arrange, List.mem_mergeSort, List.mem_filter, Bool.not_eq_true',
    ← Bool.not_eq_true, Span.isEmpty_iff, Nat.pos_iff_ne_zero]

/-! ## Both ends of a query -/

theorem start_le_start {index : TagIndex} {i j : Nat} {t u : HostTag} (ht : index.toList[i]? = some t)
    (hu : index.toList[j]? = some u) (hij : i ≤ j) : t.span.start ≤ u.span.start := by
  rcases Nat.lt_or_eq_of_le hij with hij | rfl
  · obtain ⟨hi, rfl⟩ := List.getElem?_eq_some_iff.mp ht
    obtain ⟨hj, rfl⟩ := List.getElem?_eq_some_iff.mp hu
    have h := List.pairwise_iff_getElem.mp index.sorted i j hi hj hij
    rw [Span.le_def] at h
    simp only [toList]
    omega
  · obtain rfl : t = u := Option.some.inj (ht.symm.trans hu)
    exact Nat.le_refl _

/-- The tags before the boundary are those that start before the position. -/
theorem lt_startingBefore_iff (index : TagIndex) (pos : Nat) {i : Nat} {t : HostTag}
    (ht : index.toList[i]? = some t) : i < index.startingBefore pos ↔ t.span.start < pos := by
  have hget : ∀ i : Nat, index.tags[i]? = index.toList[i]? := fun i => by
    rw [toList, Array.getElem?_toList]
  have hi : i < index.tags.size := (List.getElem?_eq_some_iff.mp ht).1
  unfold startingBefore
  rw [lt_bisect_iff _ (Nat.zero_le _) ?_ (Nat.zero_le _) hi, hget, ht]
  · simp
  · intro i j _ hij hj
    rw [hget, hget]
    have hjth := List.getElem?_eq_getElem (show j < index.toList.length from hj)
    have hith := List.getElem?_eq_getElem (show i < index.toList.length from Nat.lt_of_le_of_lt hij hj)
    have := start_le_start hith hjth hij
    rw [hith, hjth, Option.any_some, Option.any_some, decide_eq_true_eq, decide_eq_true_eq]
    omega

theorem retreat_le (index : TagIndex) (pos i : Nat) : index.retreat pos i ≤ i := by
  induction i with
  | zero => exact Nat.le_refl _
  | succ i ih =>
    unfold retreat
    split
    · exact Nat.le_succ_of_le ih
    · exact Nat.le_refl _

/-- **Walking back loses nothing.** Every tag before the place reached stops
at the position or before it. -/
theorem stop_le_of_lt_retreat (index : TagIndex) (pos : Nat) {i k : Nat} {t : HostTag}
    (hi : i ≤ index.toList.length) (ht : index.toList[k]? = some t)
    (hk : k < index.retreat pos i) : t.span.stop ≤ pos := by
  induction i with
  | zero => simp [retreat] at hk
  | succ i ih =>
    have hlen := length_reaches 0 index.toList
    have hget : index.reach[i]? = (reaches 0 index.toList)[i]? := by
      rw [toList, ← index.reach_eq, Array.getElem?_toList]
    have hith := List.getElem?_eq_getElem (show i < (reaches 0 index.toList).length by omega)
    unfold retreat at hk
    split at hk
    · exact ih (by omega) hk
    · next hnot =>
      rw [hget, hith, Option.any_some, decide_eq_true_eq] at hnot
      have := stop_le_of_reaches hith ht (by omega)
      omega

/-- **A query is a scan of all tags.** -/
theorem query_eq_filter (index : TagIndex) (s : Span) :
    index.query s = index.toList.filter fun t => t.span.overlaps (probe s) := by
  have hlast : ∀ i t, index.toList[i]? = some t → index.startingBefore (probe s).stop ≤ i →
      t.span.overlaps (probe s) = false := by
    intro i t ht hi
    have := mt (lt_startingBefore_iff index (probe s).stop ht).mpr (by omega)
    rw [← Bool.not_eq_true, Span.overlaps_iff]
    rintro ⟨p, hpt, hps⟩
    rw [Span.mem_def] at hpt hps
    omega
  have hfirst : ∀ i t, index.toList[i]? = some t →
      i < index.retreat (probe s).start (min (index.startingBefore (probe s).start)
        (index.startingBefore (probe s).stop)) → t.span.overlaps (probe s) = false := by
    intro i t ht hi
    have hbound : index.startingBefore (probe s).stop ≤ index.toList.length :=
      (bisect_bounds _ (Nat.zero_le _)).2
    have := stop_le_of_lt_retreat index (probe s).start (by omega) ht hi
    rw [← Bool.not_eq_true, Span.overlaps_iff]
    rintro ⟨p, hpt, hps⟩
    rw [Span.mem_def] at hpt hps
    omega
  have hle := index.retreat_le (probe s).start (min (index.startingBefore (probe s).start)
    (index.startingBefore (probe s).stop))
  unfold query
  simp only
  generalize index.retreat (probe s).start _ = first at hfirst hle ⊢
  generalize index.startingBefore (probe s).stop = last at hlast hle ⊢
  rw [Array.toList_extract, List.extract_eq_take_drop]
  change ((index.toList.drop first).take (last - first)).filter _ = _
  -- What is before `first` and what is from `last` on passes the filter nowhere.
  have hsplit : index.toList = index.toList.take first ++
      ((index.toList.drop first).take (last - first) ++ index.toList.drop last) := by
    have hend : index.toList.drop last = (index.toList.drop first).drop (last - first) := by
      rw [List.drop_drop]
      congr 1
      omega
    rw [hend, List.take_append_drop, List.take_append_drop]
  have hfront : (index.toList.take first).filter (fun t => t.span.overlaps (probe s)) = [] := by
    rw [List.filter_eq_nil_iff]
    intro t ht
    obtain ⟨i, hi⟩ := List.mem_iff_getElem?.mp ht
    rw [List.getElem?_take] at hi
    split at hi
    · next hlt => rw [hfirst i t hi hlt]; exact Bool.false_ne_true
    · simp at hi
  have hback : (index.toList.drop last).filter (fun t => t.span.overlaps (probe s)) = [] := by
    rw [List.filter_eq_nil_iff]
    intro t ht
    obtain ⟨i, hi⟩ := List.mem_iff_getElem?.mp ht
    rw [List.getElem?_drop] at hi
    rw [hlast _ t hi (by omega)]
    exact Bool.false_ne_true
  symm
  rw [hsplit, List.filter_append, List.filter_append, hfront, hback, List.nil_append,
    List.append_nil, ← hsplit]

/-! ## Lookups -/

theorem overlaps_position_iff {s : Span} {pos : Nat} : s.overlaps ⟨pos, 1⟩ = true ↔ pos ∈ s := by
  rw [Span.overlaps_iff]
  simp only [Span.mem_def, Span.stop]
  constructor
  · rintro ⟨p, hs, hp⟩
    omega
  · intro h
    exact ⟨pos, h, by omega⟩

theorem mem_tagsAt {index : TagIndex} {pos : Nat} {t : HostTag} :
    t ∈ index.tagsAt pos ↔ t ∈ index.toList ∧ pos ∈ t.span := by
  rw [tagsAt, query_eq_filter, List.mem_filter]
  exact and_congr_right fun _ => overlaps_position_iff

theorem isKindAt_iff {index : TagIndex} {pos : Nat} {kind : HostKind} :
    index.isKindAt pos kind = true ↔ ∃ t ∈ index.toList, t.kind = kind ∧ pos ∈ t.span := by
  simp only [isKindAt, List.any_eq_true, mem_tagsAt, beq_iff_eq]
  exact ⟨fun ⟨t, ⟨ht, hp⟩, hk⟩ => ⟨t, ht, hk, hp⟩, fun ⟨t, ht, hk, hp⟩ => ⟨t, ⟨ht, hp⟩, hk⟩⟩

theorem mem_spansOf {index : TagIndex} {kind : HostKind} {s : Span} {p : Nat} :
    p ∈ index.spansOf kind s ↔
      ∃ t ∈ index.toList, t.kind = kind ∧ t.span.overlaps (probe s) = true ∧ p ∈ t.span := by
  rw [spansOf, SpanSet.mem_ofSpans]
  simp only [Covers, List.mem_map, List.mem_filter, query_eq_filter, beq_iff_eq]
  constructor
  · rintro ⟨_, ⟨t, ⟨⟨ht, ho⟩, hk⟩, rfl⟩, hp⟩
    exact ⟨t, ht, hk, ho, hp⟩
  · rintro ⟨t, ht, hk, ho, hp⟩
    exact ⟨t.span, ⟨t, ⟨⟨ht, ho⟩, hk⟩, rfl⟩, hp⟩

theorem nextString?_eq_none {index : TagIndex} {pos : Nat} :
    index.nextString? pos = none ↔ index.isKindAt pos .string = false := by
  simp only [nextString?, Option.map_eq_none_iff, List.find?_eq_none, isKindAt, List.any_eq_false,
    Bool.and_eq_true, decide_eq_true_eq, not_and]
  constructor
  · intro h t ht hk
    exact h t ht hk (mem_tagsAt.mp ht).2.2
  · intro h t ht hk
    exact absurd hk (h t ht)

theorem nextString?_eq_some {index : TagIndex} {pos : Nat} {s : Span}
    (h : index.nextString? pos = some s) :
    ∃ t ∈ index.toList, t.kind = .string ∧ t.span = s ∧ pos ∈ s := by
  obtain ⟨t, ht, rfl⟩ := Option.map_eq_some_iff.mp h
  have hmem := mem_tagsAt.mp (List.mem_of_find?_eq_some ht)
  have hkind := List.find?_some ht
  simp only [Bool.and_eq_true, beq_iff_eq] at hkind
  exact ⟨t, hmem.1, hkind.1, rfl, hmem.2⟩

theorem foldl_furthest_ne_none {spans : List Span} {best : Option Span}
    (h : best ≠ none ∨ spans ≠ []) : spans.foldl furthest best ≠ none := by
  induction spans generalizing best with
  | nil => simpa using h
  | cons s spans ih =>
    rw [List.foldl_cons]
    refine ih (Or.inl ?_)
    unfold furthest
    split
    · simp
    · split <;> simp

theorem previousString?_eq_none {index : TagIndex} {pos : Nat} :
    index.previousString? pos = none ↔ index.isKindAt pos .string = false := by
  have hstart : ∀ t ∈ index.tagsAt pos, t.span.start ≤ pos := fun t ht => (mem_tagsAt.mp ht).2.1
  constructor
  · intro h
    rw [isKindAt, List.any_eq_false]
    intro t ht hk
    refine foldl_furthest_ne_none (Or.inr ?_) h
    refine List.ne_nil_of_mem (List.mem_map.mpr ⟨t, List.mem_filter.mpr ⟨ht, ?_⟩, rfl⟩)
    rw [hk, Bool.true_and, decide_eq_true (hstart t ht)]
  · intro h
    rw [isKindAt, List.any_eq_false] at h
    have hempty : ((index.tagsAt pos).filter fun t => t.kind == .string && decide (t.span.start ≤ pos)) = [] := by
      rw [List.filter_eq_nil_iff]
      intro t ht hk
      exact h t ht (Bool.and_eq_true_iff.mp hk).1
    rw [previousString?, hempty]
    rfl

theorem previousString?_eq_some {index : TagIndex} {pos : Nat} {s : Span}
    (h : index.previousString? pos = some s) :
    ∃ t ∈ index.toList, t.kind = .string ∧ t.span = s ∧ pos ∈ s := by
  rcases foldl_furthest_mem s rfl h with hs | hs
  · obtain ⟨t, ht, rfl⟩ := List.mem_map.mp hs
    obtain ⟨hat, hkind⟩ := List.mem_filter.mp ht
    simp only [Bool.and_eq_true, beq_iff_eq] at hkind
    exact ⟨t, (mem_tagsAt.mp hat).1, hkind.1, rfl, (mem_tagsAt.mp hat).2⟩
  · simp at hs

theorem firstComment?_eq_some {index : TagIndex} {pos : Nat} {s : Span}
    (h : index.firstComment? pos = some s) : ∃ t ∈ index.toList, t.kind = .comment ∧ t.span = s := by
  obtain ⟨t, ht, rfl⟩ := Option.map_eq_some_iff.mp h
  have hkind := List.find?_some ht
  exact ⟨t, (mem_tagsAt.mp (List.mem_of_find?_eq_some ht)).1, beq_iff_eq.mp hkind, rfl⟩

end TagIndex

end EmbeddedSql
