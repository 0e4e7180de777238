import EmbeddedSql.Proofs.TagQueries

/-!
# Lookups are linear scans

An index sorts its tags once and leaves most of them out of every query. What
it answers can be said without an index: collect the tags that meet the span,
from the collection as it was given, and put them in *stable order*, by their
bounds and, where the bounds are the same, in the order of the collection.

Stable order is stated here as a property of two lists, not as the outcome of
a sort. It leaves no choice (`InStableOrder.unique`), so to say that an answer
is in stable order is to say what the answer is. Tags without a position meet
nothing, which is why the scan need not mention that the index drops them.
-/

namespace EmbeddedSql

namespace Span

/-- Of spans that start together, the shorter one stops first. -/
theorem le_iff_bounds {s t : Span} :
    s ≤ t ↔ s.start < t.start ∨ s.start = t.start ∧ s.stop ≤ t.stop := by
  rw [le_def]
  simp only [stop]
  omega

theorem le_antisymm {s t : Span} (hst : s ≤ t) (hts : t ≤ s) : s = t := by
  rw [le_iff_bounds] at hst hts
  exact ext_bounds (by omega) (by omega)

/-- **Two spans meet**: they have a position in common, or the second, being
empty, stands at a position of the first. -/
def Meets (t s : Span) : Prop := if s.len = 0 then s.start ∈ t else ∃ p, p ∈ t ∧ p ∈ s

theorem meets_iff_overlaps_probe {t s : Span} :
    t.Meets s ↔ t.overlaps (TagIndex.probe s) = true := by
  unfold Meets TagIndex.probe
  by_cases hempty : s.len = 0
  · rw [if_pos hempty, if_pos (isEmpty_iff.mpr hempty), TagIndex.overlaps_position_iff]
  · rw [if_neg hempty, if_neg (mt isEmpty_iff.mp hempty), overlaps_iff]

instance (t s : Span) : Decidable (t.Meets s) :=
  decidable_of_iff (t.overlaps (TagIndex.probe s) = true) meets_iff_overlaps_probe.symm

theorem Meets.len_pos {t s : Span} (h : t.Meets s) : 0 < t.len := by
  obtain ⟨p, hp, -⟩ := overlaps_iff.mp (meets_iff_overlaps_probe.mp h)
  exact len_pos_of_mem hp

end Span

/-! ## Stable order -/

/-- **A list holds the tags of a collection in stable order**: they ascend by
start and then by stop, and the tags with the same bounds are those of the
collection, in its order. -/
structure InStableOrder (collection sorted : List HostTag) : Prop where
  /-- Tags that start earlier come first and, of those that start together, the
  ones that stop earlier. -/
  ascending : sorted.Pairwise fun a b =>
    a.span.start < b.span.start ∨ a.span.start = b.span.start ∧ a.span.stop ≤ b.span.stop
  /-- Tags with the same bounds keep their order, and none is lost or added. -/
  stable : ∀ s, sorted.filter (fun t => t.span = s) = collection.filter (fun t => t.span = s)

namespace InStableOrder

theorem mem_iff {collection sorted : List HostTag} (h : InStableOrder collection sorted)
    {t : HostTag} : t ∈ sorted ↔ t ∈ collection := by
  have hfilter : ∀ ts : List HostTag, t ∈ ts ↔ t ∈ ts.filter fun u => u.span = t.span :=
    fun ts => by simp
  rw [hfilter sorted, hfilter collection, h.stable]

/-- The first tag of a list in stable order is the least of the collection. -/
theorem head_le {collection rest : List HostTag} {t u : HostTag}
    (h : InStableOrder collection (t :: rest)) (hu : u ∈ collection) : t.span ≤ u.span := by
  rcases List.mem_cons.mp (h.mem_iff.mpr hu) with rfl | hu
  · exact Span.le_iff_bounds.mpr (Or.inr ⟨rfl, Nat.le_refl _⟩)
  · exact Span.le_iff_bounds.mpr ((List.pairwise_cons.mp h.ascending).1 u hu)

/-- **There is one stable order.** -/
theorem unique {collection sorted sorted' : List HostTag} (h : InStableOrder collection sorted)
    (h' : InStableOrder collection sorted') : sorted = sorted' := by
  -- The collection only says which tags have the same bounds, and the two lists agree on that.
  have hagree : InStableOrder sorted' sorted :=
    ⟨h.ascending, fun s => (h.stable s).trans (h'.stable s).symm⟩
  have hagree' : InStableOrder sorted sorted' := ⟨h'.ascending, fun s => (hagree.stable s).symm⟩
  clear h h' collection
  induction sorted generalizing sorted' with
  | nil =>
    symm
    rw [List.eq_nil_iff_forall_not_mem]
    intro t ht
    exact List.not_mem_nil (hagree.mem_iff.mpr ht)
  | cons t rest ih =>
    cases sorted' with
    | nil => exact absurd (hagree.mem_iff.mp List.mem_cons_self) List.not_mem_nil
    | cons u rest' =>
      have hspan : t.span = u.span :=
        Span.le_antisymm (hagree.head_le List.mem_cons_self) (hagree'.head_le List.mem_cons_self)
      have hhead := hagree.stable t.span
      rw [List.filter_cons_of_pos (by simp), List.filter_cons_of_pos (by simp [hspan])] at hhead
      obtain ⟨rfl, -⟩ := List.cons.inj hhead
      have htail : ∀ s, rest.filter (fun v => v.span = s) = rest'.filter (fun v => v.span = s) := by
        intro s
        have hs := hagree.stable s
        by_cases hts : t.span = s
        · rw [List.filter_cons_of_pos (by simp [hts]),
            List.filter_cons_of_pos (by simp [hts])] at hs
          exact (List.cons.inj hs).2
        · rwa [List.filter_cons_of_neg (by simp [hts]),
            List.filter_cons_of_neg (by simp [hts])] at hs
      rw [ih ⟨(List.pairwise_cons.mp hagree.ascending).2, htail⟩
        ⟨(List.pairwise_cons.mp hagree'.ascending).2, fun s => (htail s).symm⟩]

/-- A part of a collection is in stable order where it is left of the whole. -/
theorem filter {collection sorted : List HostTag} (h : InStableOrder collection sorted)
    (p : HostTag → Bool) : InStableOrder (collection.filter p) (sorted.filter p) := by
  refine ⟨h.ascending.filter p, fun s => ?_⟩
  rw [List.filter_filter, List.filter_filter]
  simp only [Bool.and_comm (decide _)]
  rw [← List.filter_filter, ← List.filter_filter, h.stable s]

end InStableOrder

namespace TagIndex

/-- Sorting keeps tags with the same bounds in their order. -/
theorem filter_span_mergeSort (tags : List HostTag) (s : Span) :
    (tags.mergeSort fun a b => decide (a.span ≤ b.span)).filter (fun t => t.span = s) =
      tags.filter fun t => t.span = s := by
  have hperm := List.mergeSort_perm tags fun a b => decide (a.span ≤ b.span)
  have hsame : (tags.filter fun t => t.span = s).Pairwise
      fun a b => decide (a.span ≤ b.span) = true := by
    refine List.pairwise_of_forall_mem_list ?_
    intro a ha b hb
    have ha' := (List.mem_filter.mp ha).2
    have hb' := (List.mem_filter.mp hb).2
    rw [decide_eq_true_eq] at ha' hb' ⊢
    rw [ha', hb', Span.le_iff_bounds]
    exact Or.inr ⟨rfl, Nat.le_refl _⟩
  have hsub : (tags.filter fun t => t.span = s).Sublist
      (tags.mergeSort fun a b => decide (a.span ≤ b.span)) := by
    refine List.sublist_mergeSort ?_ ?_ hsame List.filter_sublist
    · intro a b c
      simp only [Span.le_def, decide_eq_true_eq]
      omega
    · intro a b
      simp only [Span.le_def, Bool.or_eq_true, decide_eq_true_eq]
      omega
  have hfiltered := hsub.filter fun t => t.span = s
  rw [List.filter_filter] at hfiltered
  simp only [Bool.and_self] at hfiltered
  exact (hfiltered.eq_of_length_le ((hperm.filter _).length_eq ▸ Nat.le_refl _)).symm

/-- **The tags of an index are those of its collection, in stable order.** -/
theorem inStableOrder_toList (tags : List HostTag) :
    InStableOrder (tags.filter fun t => !t.span.isEmpty) (ofTags tags).toList := by
  rw [toList_ofTags]
  refine ⟨(sorted_arrange tags).imp fun h => Span.le_iff_bounds.mp h, fun s => ?_⟩
  exact filter_span_mergeSort _ s

/-- **A query finds what a scan of the collection finds.** -/
theorem inStableOrder_query (tags : List HostTag) (s : Span) :
    InStableOrder (tags.filter fun t => t.span.Meets s) ((ofTags tags).query s) := by
  have h := (inStableOrder_toList tags).filter fun t => t.span.overlaps (probe s)
  rw [List.filter_filter] at h
  rw [query_eq_filter]
  have hsame : (tags.filter fun t => t.span.overlaps (probe s) && !t.span.isEmpty) =
      tags.filter fun t => t.span.Meets s := by
    refine List.filter_congr fun t _ => ?_
    rw [Bool.eq_iff_iff, decide_eq_true_eq, Span.meets_iff_overlaps_probe, Bool.and_eq_true,
      and_iff_left_iff_imp, Bool.not_eq_true', ← Bool.not_eq_true, Span.isEmpty_iff]
    intro hover
    exact Nat.pos_iff_ne_zero.mp (Span.meets_iff_overlaps_probe.mpr hover).len_pos
  rwa [hsame] at h

theorem meets_position_iff {t : Span} {pos : Nat} : t.Meets ⟨pos, 1⟩ ↔ pos ∈ t := by
  rw [Span.meets_iff_overlaps_probe]
  exact overlaps_position_iff

theorem inStableOrder_tagsAt (tags : List HostTag) (pos : Nat) :
    InStableOrder (tags.filter fun t => pos ∈ t.span) ((ofTags tags).tagsAt pos) := by
  have h := inStableOrder_query tags ⟨pos, 1⟩
  simp only [meets_position_iff] at h
  exact h

/-- The first comment over a position is the least one in the collection. -/
theorem firstComment?_ofTags {tags : List HostTag} {pos : Nat} {s : Span} :
    (ofTags tags).firstComment? pos = some s ↔
      (∃ t ∈ tags, t.kind = .comment ∧ t.span = s ∧ pos ∈ s) ∧
        ∀ t ∈ tags, t.kind = .comment → pos ∈ t.span → s ≤ t.span := by
  have horder := (inStableOrder_tagsAt tags pos).filter fun t => t.kind == .comment
  have hmem : ∀ t, t ∈ ((tags.filter fun t => pos ∈ t.span).filter fun t => t.kind == .comment) ↔
      t ∈ tags ∧ pos ∈ t.span ∧ t.kind = .comment := fun t => by
    rw [List.mem_filter, List.mem_filter, decide_eq_true_eq, beq_iff_eq, and_assoc]
  rw [firstComment?, ← List.head?_filter]
  cases hfound : ((ofTags tags).tagsAt pos).filter fun t => t.kind == .comment with
  | nil =>
    rw [hfound] at horder
    simp only [List.head?_nil, Option.map_none, reduceCtorEq, false_iff]
    rintro ⟨⟨t, ht, hkind, rfl, hpos⟩, -⟩
    exact List.not_mem_nil (horder.mem_iff.mpr ((hmem t).mpr ⟨ht, hpos, hkind⟩))
  | cons first rest =>
    rw [hfound] at horder
    obtain ⟨hfirst, hpos, hkind⟩ := (hmem first).mp (horder.mem_iff.mp List.mem_cons_self)
    have hleast : ∀ t ∈ tags, t.kind = .comment → pos ∈ t.span → first.span ≤ t.span :=
      fun t ht hk hp => horder.head_le ((hmem t).mpr ⟨ht, hp, hk⟩)
    rw [List.head?_cons, Option.map_some, Option.some.injEq]
    constructor
    · rintro rfl
      exact ⟨⟨first, hfirst, hkind, rfl, hpos⟩, hleast⟩
    · rintro ⟨⟨t, ht, hk, rfl, hp⟩, hle⟩
      exact Span.le_antisymm (hleast t ht hk hp) (hle first hfirst hkind hpos)

/-- **Every lookup of an index is a linear scan of the collection it was built
from.** A query answers with the tags that meet its span, in stable order, and
so does a lookup at a position. Whether a position has a kind, which positions
near a span have it, and which comment comes first at a position are then what
the collection says. -/
theorem ofTags_lookups_eq_scans (tags : List HostTag) :
    (∀ s found, (ofTags tags).query s = found ↔
      InStableOrder (tags.filter fun t => t.span.Meets s) found) ∧
    (∀ pos found, (ofTags tags).tagsAt pos = found ↔
      InStableOrder (tags.filter fun t => pos ∈ t.span) found) ∧
    (∀ pos kind, (ofTags tags).isKindAt pos kind =
      tags.any fun t => decide (t.kind = kind ∧ pos ∈ t.span)) ∧
    (∀ kind s, (ofTags tags).spansOf kind s =
      SpanSet.ofSpans ((tags.filter fun t => t.kind = kind ∧ t.span.Meets s).map HostTag.span)) ∧
    ∀ pos s, (ofTags tags).firstComment? pos = some s ↔
      (∃ t ∈ tags, t.kind = .comment ∧ t.span = s ∧ pos ∈ s) ∧
        ∀ t ∈ tags, t.kind = .comment → pos ∈ t.span → s ≤ t.span := by
  refine ⟨fun s found => ?_, fun pos found => ?_, fun pos kind => ?_, fun kind s => ?_,
    fun pos s => firstComment?_ofTags⟩
  · exact ⟨fun h => h ▸ inStableOrder_query tags s, fun h => (inStableOrder_query tags s).unique h⟩
  · exact ⟨fun h => h ▸ inStableOrder_tagsAt tags pos,
      fun h => (inStableOrder_tagsAt tags pos).unique h⟩
  · rw [Bool.eq_iff_iff, isKindAt, List.any_eq_true, List.any_eq_true]
    simp only [(inStableOrder_tagsAt tags pos).mem_iff, List.mem_filter, decide_eq_true_eq,
      beq_iff_eq]
    exact exists_congr fun t => by rw [and_assoc, and_comm (a := pos ∈ t.span)]
  · refine SpanSet.ext_mem fun p => ?_
    rw [spansOf, SpanSet.mem_ofSpans, SpanSet.mem_ofSpans]
    simp only [Covers, List.mem_map, List.mem_filter, (inStableOrder_query tags s).mem_iff,
      decide_eq_true_eq, beq_iff_eq, and_assoc, and_comm (a := Span.Meets _ _)]

end TagIndex

end EmbeddedSql
