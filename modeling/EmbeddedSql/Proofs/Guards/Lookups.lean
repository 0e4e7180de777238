import EmbeddedSql.Checked.Stitch
import EmbeddedSql.Proofs.Gathering
import EmbeddedSql.Proofs.Guards.Spans
import EmbeddedSql.Proofs.Moves

/-!
# Look-ups without failure

Tags may overlap and may reach past the end of the buffer. What keeps a look-up
among them from failing is no order of theirs but two bounds on what an index
has of them: there is a reach for every tag, so the walk back over the reaches
always reads one, and a halving ends between the first tag and the last, so the
tags from one to the other can be cut out.

Sums stay small for a simpler reason. Wherever a look-up is, it is at a position
of the buffer or at the stop of a tag, give or take three, and both are assumed
to be below `2 ^ 62`. Growing a fragment keeps to that, because it stops where
a tag does.
-/

namespace EmbeddedSql

namespace Checked

/-! ## Slices -/

theorem slice_eq (b : Buffer) {s : Span} (h : s.stop < 2 ^ 64) : slice b s = some (b.slice s) := by
  have hle := s.start_le_stop
  have hsize : b.units.toList.length = b.size := Array.length_toList
  unfold slice
  rw [stop_eq h, some_bind, cut_eq (by omega) (by omega), Buffer.slice_eq, Option.some_inj]
  by_cases hstart : s.start ≤ b.size
  · rw [Nat.min_eq_left hstart, ← hsize, ← List.take_eq_take_min, List.drop_take, Span.stop,
      Nat.add_sub_cancel_left]
  · rw [show b.units.toList.drop s.start = [] from List.drop_eq_nil_of_le (by omega),
      List.take_nil]
    exact List.drop_eq_nil_of_le (Nat.le_trans (List.length_take_le _ _) (by omega))

/-! ## Look-ups -/

theorem retreat_eq (index : TagIndex) (pos : Nat) {scan : Nat} (h : scan ≤ index.size) :
    retreat index pos scan = some (index.retreat pos scan) := by
  have hsize : index.reach.size = index.size := by
    have hlen := length_reaches 0 index.tags.toList
    rwa [← index.reach_eq, Array.length_toList, Array.length_toList] at hlen
  induction scan with
  | zero => rw [retreat, if_neg (Nat.lt_irrefl 0)]; rfl
  | succ i ih =>
    have hi : i < index.reach.size := by omega
    rw [retreat, if_pos (Nat.succ_pos i), sub_eq (Nat.le_add_left 1 i), TagIndex.retreat]
    simp only [Nat.add_sub_cancel, some_bind,
      Array.getElem?_eq_getElem hi, Option.any_some, decide_eq_true_eq]
    split
    · exact ih (by omega)
    · rfl

theorem stop_probe_le (s : Span) : (TagIndex.probe s).stop ≤ s.stop + 1 := by
  unfold TagIndex.probe
  split
  · exact Nat.succ_le_succ s.start_le_stop
  · exact Nat.le_succ _

section LookUps

variable {index : TagIndex} (hix : ∀ t ∈ index.toList, t.span.stop < 2 ^ 62)

include hix in
theorem query_eq {s : Span} (hs : (TagIndex.probe s).stop < 2 ^ 64) :
    query index s = some (index.query s) := by
  have hstart : (TagIndex.probe s).start = s.start := by
    unfold TagIndex.probe
    split <;> rfl
  have hlast : index.startingBefore (TagIndex.probe s).stop ≤ index.tags.size :=
    (bisect_bounds _ (Nat.zero_le _)).2
  unfold query TagIndex.query
  simp only [stop_eq hs, hstart, some_bind]
  split
  · next hnone => rw [hnone, Array.extract_zero]; rfl
  · have hfirst := TagIndex.retreat_le index s.start (min (index.startingBefore s.start)
      (index.startingBefore (TagIndex.probe s).stop))
    rw [retreat_eq index s.start (Nat.le_trans (Nat.min_le_right _ _) hlast), some_bind,
      cut_eq (by omega) (by rwa [TagIndex.toList, Array.length_toList]), some_bind,
      Array.toList_extract, List.extract_eq_take_drop, ← List.drop_take]
    refine select_eq fun t ht => overlaps_eq ?_ hs
    exact Nat.lt_trans (hix t (List.mem_of_mem_take (List.mem_of_mem_drop ht))) (by decide)

include hix in
theorem tagsAt_eq {pos : Nat} (hpos : pos + 1 < 2 ^ 64) :
    tagsAt index pos = some (index.tagsAt pos) :=
  query_eq hix hpos

include hix in
theorem isKindAt_eq {pos : Nat} (hpos : pos + 1 < 2 ^ 64) (kind : HostKind) :
    isKindAt index pos kind = some (index.isKindAt pos kind) := by
  unfold isKindAt
  rw [tagsAt_eq hix hpos]
  rfl

include hix in
/-- The spans of one kind of tag before they are joined. -/
theorem stop_lt_of_mem_kindSpans {kind : HostKind} {s t : Span}
    (ht : t ∈ ((index.query s).filter fun u => u.kind == kind).map HostTag.span) :
    t.stop < 2 ^ 62 := by
  obtain ⟨tag, htag, rfl⟩ := List.mem_map.mp ht
  have hmem := List.mem_of_mem_filter htag
  rw [TagIndex.query_eq_filter] at hmem
  exact hix tag (List.mem_of_mem_filter hmem)

include hix in
theorem spansOf_eq {s : Span} (hs : (TagIndex.probe s).stop < 2 ^ 64) (kind : HostKind) :
    spansOf index kind s = some (index.spansOf kind s).toList := by
  unfold spansOf TagIndex.spansOf
  rw [query_eq hix hs, some_bind, SpanSet.ofSpans, SpanSet.toList_ofNormal]
  exact normalize_eq fun t ht => Nat.lt_trans (stop_lt_of_mem_kindSpans hix ht) (by decide)

include hix in
theorem stop_lt_of_mem_spansOf {kind : HostKind} {s t : Span}
    (ht : t ∈ (index.spansOf kind s).toList) : t.stop < 2 ^ 62 :=
  SpanSet.stop_lt_of_mem_ofSpans (fun _ hu => stop_lt_of_mem_kindSpans hix hu) ht

include hix in
theorem nextString_eq {pos : Nat} (hpos : pos + 1 < 2 ^ 64) :
    nextString index pos = some (index.nextString? pos) := by
  have hreach : ∀ t ∈ index.tagsAt pos,
      reachesPast pos t = some (t.kind == .string && decide (pos < t.span.stop)) := by
    intro t ht
    unfold reachesPast
    rw [stop_eq (Nat.lt_trans (hix t (TagIndex.mem_tagsAt.mp ht).1) (by decide))]
    cases t.kind == .string <;> rfl
  unfold nextString TagIndex.nextString?
  simp only [tagsAt_eq hix hpos, some_bind, select_eq hreach, List.head?_filter]
  rfl

theorem foldlM_furthest_eq {spans : List Span} {best : Option Span}
    (h : ∀ s ∈ best.toList ++ spans, s.stop < 2 ^ 64) :
    spans.foldlM furthest best = some (spans.foldl TagIndex.furthest best) := by
  induction spans generalizing best with
  | nil => rfl
  | cons s spans ih =>
    have hs := h s (by simp)
    have hspans : ∀ t ∈ spans, t.stop < 2 ^ 64 := fun t ht => h t (by simp [ht])
    have hstep : furthest best s = some (TagIndex.furthest best s) := by
      unfold furthest TagIndex.furthest
      rw [stop_eq hs, some_bind]
      cases best with
      | none => rfl
      | some t => simp only [stop_eq (h t (by simp)), some_bind]; rfl
    rw [List.foldlM_cons, hstep, List.foldl_cons]
    refine ih fun t ht => ?_
    rcases List.mem_append.mp ht with ht | ht
    · have hone : [s].foldl TagIndex.furthest best = TagIndex.furthest best s := rfl
      rcases TagIndex.foldl_furthest_mem t hone (Option.mem_toList.mp ht) with hm | hm
      · rwa [List.mem_singleton.mp hm]
      · exact h t (by simp [hm])
    · exact hspans t ht

include hix in
theorem previousString_eq {pos : Nat} (hpos : pos + 1 < 2 ^ 64) :
    previousString index pos = some (index.previousString? pos) := by
  unfold previousString TagIndex.previousString?
  rw [tagsAt_eq hix hpos, some_bind]
  refine foldlM_furthest_eq fun s hs => ?_
  obtain ⟨t, ht, rfl⟩ := List.mem_map.mp hs
  exact Nat.lt_trans (hix t (TagIndex.mem_tagsAt.mp (List.mem_of_mem_filter ht)).1) (by decide)

include hix in
theorem firstComment_eq {pos : Nat} (hpos : pos + 1 < 2 ^ 64) :
    firstComment index pos = some (index.firstComment? pos) := by
  unfold firstComment
  rw [tagsAt_eq hix hpos]
  rfl

include hix in
theorem isHoleBrace_eq (b : Buffer) {pos : Nat} (hpos : pos + 1 < 2 ^ 64) (brace : Char) :
    isHoleBrace b index pos brace = some (Stitch.isHoleBrace b index pos brace) := by
  unfold isHoleBrace Stitch.isHoleBrace
  simp only [isKindAt_eq hix hpos, some_bind]
  cases b.isAt pos brace <;> cases index.isKindAt pos .punctuation <;> rfl

/-! ## Growing a fragment -/

include hix in
theorem lt_of_isString {p : Nat} (h : Stitch.IsString index p) : p + 1 < 2 ^ 62 := by
  obtain ⟨t, ht, -, hp⟩ := Stitch.isString_iff.mp h
  have := hix t ht
  rw [Span.mem_def] at hp
  omega

include hix in
theorem stop_lt_of_nextString? {pos : Nat} {s : Span} (h : index.nextString? pos = some s) :
    s.stop < 2 ^ 62 := by
  obtain ⟨t, ht, -, rfl, -⟩ := TagIndex.nextString?_eq_some h
  exact hix t ht

include hix in
theorem stop_lt_of_previousString? {pos : Nat} {s : Span} (h : index.previousString? pos = some s) :
    s.stop < 2 ^ 62 := by
  obtain ⟨t, ht, -, rfl, -⟩ := TagIndex.previousString?_eq_some h
  exact hix t ht

include hix in
theorem stop_extendForward_lt (b : Buffer) {s : Span} (hs : s.stop < 2 ^ 62) :
    (Stitch.extendForward b index s).stop < 2 ^ 62 := by
  obtain ⟨-, hle, hall, -⟩ := Stitch.extendForward_spec b index s
  rcases Nat.eq_or_lt_of_le hle with heq | hlt
  · rwa [← heq]
  · have := lt_of_isString hix
      (hall ((Stitch.extendForward b index s).stop - 1) (by omega) (by omega))
    omega

omit hix in
theorem stop_extendBackward_lt {s : Span} (hs : s.stop < 2 ^ 62) :
    (Stitch.extendBackward index s).stop < 2 ^ 62 := by
  rwa [(Stitch.extendBackward_spec index s).1]

include hix in
theorem extendBackward_eq {s : Span} (hs : s.stop < 2 ^ 62) :
    extendBackward index s = some (Stitch.extendBackward index s) := by
  induction hn : s.start using Nat.strongRecOn generalizing s with
  | ind n ih =>
    have hle := s.start_le_stop
    rw [extendBackward, Stitch.extendBackward]
    split
    · next hpos =>
      rw [sub_eq hpos, some_bind, previousString_eq hix (by omega), some_bind]
      cases hprev : index.previousString? (s.start - 1) with
      | none => rfl
      | some prev =>
        simp only [stop_eq (Nat.lt_trans hs (by decide)), some_bind]
        split
        · next hlt => exact ih prev.start (hn ▸ hlt) (by rw [Span.stop_between]; omega) rfl
        · rfl
    · rfl

include hix in
theorem extendForward_eq (b : Buffer) {s : Span} (hs : s.stop < 2 ^ 62) :
    extendForward b index s = some (Stitch.extendForward b index s) := by
  induction hn : b.size - s.stop using Nat.strongRecOn generalizing s with
  | ind n ih =>
    rw [extendForward, Stitch.extendForward, stop_eq (Nat.lt_trans hs (by decide)), some_bind]
    split
    · next hroom =>
      rw [nextString_eq hix (by omega), some_bind]
      cases hnext : index.nextString? s.stop with
      | none => rfl
      | some next =>
        have hw := stop_lt_of_nextString? hix hnext
        simp only [stop_eq (Nat.lt_trans hw (by decide)), some_bind]
        split
        · next hlt =>
          have hstop : (Span.between s.start next.stop).stop = next.stop := by
            have := s.start_le_stop
            rw [Span.stop_between]
            omega
          exact ih _ (by omega) (by omega) rfl
        · rfl
    · rfl

include hix in
theorem complete_eq (b : Buffer) {s : Span} (hs : s.stop < 2 ^ 62) :
    complete b index s = some (Stitch.complete b index s) := by
  have hright := Nat.lt_trans (stop_extendForward_lt hix b hs) (by decide : 2 ^ 62 < 2 ^ 64)
  unfold complete
  simp only [extendBackward_eq hix hs, extendForward_eq hix b hs, stop_eq hright, some_bind]
  rfl

include hix in
theorem stop_complete_lt (b : Buffer) {s : Span} (hs : s.stop < 2 ^ 62) :
    (Stitch.complete b index s).stop < 2 ^ 62 := by
  have hright := stop_extendForward_lt hix b hs
  have hleft := (Stitch.extendBackward_spec index s).2.1
  have hle := s.start_le_stop
  rw [Stitch.complete, Span.stop_between]
  omega

end LookUps

end Checked

end EmbeddedSql
