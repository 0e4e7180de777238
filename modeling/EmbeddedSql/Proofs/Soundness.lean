import EmbeddedSql.Proofs.Slicing

/-!
# Where tags can be

A tag passes through many hands before it is reported. Its literal is stitched
from host tags that may overlap and come from anywhere, the delimiters are taken
off as a table of openings says that may hold anything, and then the content is
decoded, split into tokens that count characters, traced back to units, and cut
to the request. What is reported is nevertheless in its place (`InPlace`): on
text that the host tags call a string, inside the request and inside the buffer.

Nothing has to be known about the host tags for this. A fragment only ever grows
over string tags, so it stays on string text even where the walks go wrong, and
every later step makes spans smaller.
-/

namespace EmbeddedSql

/-! ## Tags have a category -/

namespace Decoded

theorem category_of_mem_cut {d : Decoded} {base : Nat} {category : Sql.Category} {s : Span}
    {tag : SqlTag} (h : tag ∈ d.cut base category s) : tag.category = category := by
  rcases mem_cut.mp h with ⟨t, -, rfl⟩ | ⟨t, -, rfl⟩
  · rfl
  · rfl

/-- Tokens without a category give no tags, wherever the cursor stands. -/
theorem category_ne_none_of_mem_tagsFrom {d : Decoded} {base skipped : Nat}
    {ahead : List Correction} {tokens : List Sql.Token} {tag : SqlTag}
    (h : tag ∈ d.tagsFrom base skipped ahead tokens) : tag.category ≠ .none := by
  induction tokens generalizing skipped ahead with
  | nil => simp [tagsFrom] at h
  | cons t tokens ih =>
    rw [tagsFrom] at h
    split at h
    · exact ih h
    · next hshown =>
      rcases List.mem_append.mp h with h | h
      · rw [category_of_mem_cut h]
        exact fun hnone => hshown (Or.inr hnone)
      · exact ih h

end Decoded

theorem category_ne_none_of_mem_fragmentTags {kind : LiteralKind} {b : Buffer} {s : Span}
    {tag : SqlTag} (h : tag ∈ fragmentTags kind b s) : tag.category ≠ .none := by
  unfold fragmentTags at h
  split at h
  · exact Decoded.category_ne_none_of_mem_tagsFrom h
  · simp at h

theorem category_ne_none_of_mem_tagLiteral {style : LiteralStyle} {b : Buffer} {l : StitchedLiteral}
    {tags : List SqlTag} (h : tagLiteral style b l = .ok tags) {tag : SqlTag} (htag : tag ∈ tags) :
    tag.category ≠ .none := by
  obtain ⟨head, content, -, -, rfl⟩ := tagLiteral_eq_ok h
  obtain ⟨s, -, hs⟩ := List.mem_flatMap.mp htag
  exact category_ne_none_of_mem_fragmentTags hs

theorem SqlTag.category_of_clip? {t u : SqlTag} {request : Span} (h : t.clip? request = some u) :
    u.category = t.category := by
  obtain ⟨s, -, rfl⟩ := Option.map_eq_some_iff.mp h
  rfl

/-! ## Reports -/

namespace Highlighter

open Stitch

variable {b : Buffer} {index : TagIndex}

/-- The tags of a literal, if it has any, are those it is highlighted with. -/
theorem exists_tagLiteral_of_mem_tagsOf {h : Highlighter} {regions : SpanSet} {l : StitchedLiteral}
    {t : SqlTag} (ht : t ∈ h.tagsOf b index regions l.fragments) :
    ∃ tags, tagLiteral h.style b l = .ok tags ∧ t ∈ tags := by
  unfold tagsOf at ht
  split at ht
  · simp at ht
  · split at ht
    · split at ht
      · next tags htags => exact ⟨tags, htags, ht⟩
      · simp at ht
    · simp at ht

/-- **Where a tag of a report comes from**: it is what the request leaves of a tag
of one of its literals. -/
theorem exists_tagLiteral_of_mem_report {h : Highlighter} {request : Span} {t : SqlTag}
    (ht : t ∈ (h.report b index request).tags) :
    ∃ clipped l tags u, request.inter? b.full = some clipped ∧ l ∈ literalsIn b index clipped ∧
      tagLiteral h.style b l = .ok tags ∧ u ∈ tags ∧ u.clip? clipped = some t := by
  cases hclip : request.inter? b.full with
  | none =>
    rw [h.tags_report_of_none hclip] at ht
    simp at ht
  | some clipped =>
    rw [h.tags_report hclip, List.mem_mergeSort] at ht
    obtain ⟨l, hl, ht⟩ := List.mem_flatMap.mp ht
    obtain ⟨u, hu, hcut⟩ := List.mem_filterMap.mp ht
    obtain ⟨tags, htags, hu⟩ := exists_tagLiteral_of_mem_tagsOf hu
    exact ⟨clipped, l, tags, u, rfl, hl, htags, hu, hcut⟩

/-- **A tag in its place**, for a request on a buffer with these host tags. -/
structure InPlace (b : Buffer) (tags : List HostTag) (request : Span) (t : SqlTag) : Prop where
  /-- It holds a unit. -/
  nonempty : 0 < t.span.len
  /-- It belongs to a token with a category. -/
  category : t.category ≠ .none
  /-- It lies in the request. -/
  request : ∀ p ∈ t.span, p ∈ request
  /-- It lies in the buffer. -/
  buffer : ∀ p ∈ t.span, p ∈ b.full
  /-- Every unit of it is in a string tag. -/
  string : ∀ p ∈ t.span, ∃ s ∈ tags, s.kind = .string ∧ p ∈ s.span

theorem inPlace_of_mem_report {h : Highlighter} {tags : List HostTag} {request : Span} {t : SqlTag}
    (ht : t ∈ (h.report b (.ofTags tags) request).tags) : InPlace b tags request t := by
  obtain ⟨clipped, l, whole, u, hclip, hl, htags, hu, hcut⟩ := exists_tagLiteral_of_mem_report ht
  have hspan := SqlTag.clip?_eq_some hcut
  have hwithin : ∀ p ∈ t.span, p ∈ u.span ∧ p ∈ request ∧ p ∈ b.full := fun p hp =>
    ((Span.mem_inter?_iff hspan).mp hp).imp_right (Span.mem_inter?_iff hclip).mp
  refine ⟨(Span.inter?_eq_some hspan).2.2, ?_, fun p hp => (hwithin p hp).2.1,
    fun p hp => (hwithin p hp).2.2, fun p hp => ?_⟩
  · rw [SqlTag.category_of_clip? hcut]
    exact category_ne_none_of_mem_tagLiteral htags hu
  · have hmem := (painted_tagLiteral htags).inside u hu p (hwithin p hp).1
    obtain ⟨s, hs, hkind, hps⟩ := isString_iff.mp (isString_of_mem_literalsIn hl hmem)
    exact ⟨s, (TagIndex.mem_toList_ofTags.mp hs).1, hkind, hps⟩

/-- **Every tag of a report is in its place**, and the tags come by start and then
by stop. This holds for any host tags, in any order, for any openings of literals
and any request. -/
theorem report_inPlace_sorted (h : Highlighter) (b : Buffer) (tags : List HostTag) (request : Span) :
    (∀ t ∈ (h.report b (.ofTags tags) request).tags, InPlace b tags request t) ∧
      (h.report b (.ofTags tags) request).tags.Pairwise fun s t =>
        s.span.start < t.span.start ∨
          s.span.start = t.span.start ∧ s.span.stop ≤ t.span.stop := by
  refine ⟨fun t ht => inPlace_of_mem_report ht, ?_⟩
  have hbounds : ∀ {s t : SqlTag}, s.span ≤ t.span → s.span.start < t.span.start ∨
      s.span.start = t.span.start ∧ s.span.stop ≤ t.span.stop := fun hle =>
    (Span.le_def.mp hle).imp_right fun ⟨hstart, hlen⟩ =>
      ⟨hstart, Nat.add_le_add (Nat.le_of_eq hstart) hlen⟩
  cases hclip : request.inter? b.full with
  | none =>
    rw [h.tags_report_of_none hclip]
    exact .nil
  | some clipped =>
    rw [h.tags_report hclip]
    exact (Span.pairwise_mergeSort SqlTag.span _).imp hbounds

end Highlighter

end EmbeddedSql
