import EmbeddedSql.Proofs.Enabling
import EmbeddedSql.Proofs.Highlighting

/-!
# Requests and the whole buffer

A request decides which seeds are stitched, from which side a literal is
walked, which comments are read, and where a region that is still open ends.
None of this shows in the tags: what a request reports is what the whole buffer
reports, cut to the request.

Every tag comes from a chain of string text. The chains that reach into the
request are chains of the buffer, each is enabled for both or for neither, and
of a chain that stays outside nothing is left after the cut. So the two lists
have the same members. Tags of a report share no position, so a list of them
that is sorted is determined by its members, and the lists are equal.
-/

namespace EmbeddedSql

/-! ## Cutting -/

namespace Span

theorem inter?_eq_some_iff {s t u : Span} :
    s.inter? t = some u ↔ u.start = max s.start t.start ∧ u.stop = min s.stop t.stop ∧ 0 < u.len := by
  refine ⟨inter?_eq_some, fun ⟨hstart, hstop, hpos⟩ => ?_⟩
  have hlt : max s.start t.start < min s.stop t.stop := by
    rw [← hstart, ← hstop, Span.stop]
    omega
  rw [inter?, if_pos hlt, Option.some.injEq]
  refine ext_bounds hstart.symm ?_
  rw [stop_between, hstop]
  exact Nat.max_eq_right (Nat.le_of_lt hlt)

theorem inter?_comm (s t : Span) : s.inter? t = t.inter? s := by
  unfold inter?
  rw [Nat.max_comm, Nat.min_comm]

theorem inter?_bind_eq_some_iff {s t u x : Span} :
    ((s.inter? t).bind fun v => v.inter? u) = some x ↔
      x.start = max (max s.start t.start) u.start ∧ x.stop = min (min s.stop t.stop) u.stop ∧
        0 < x.len := by
  have hstop : x.stop = x.start + x.len := rfl
  simp only [Option.bind_eq_some_iff, inter?_eq_some_iff]
  constructor
  · rintro ⟨v, ⟨hv, hv', -⟩, hx, hx', hpos⟩
    rw [← hv, ← hv']
    exact ⟨hx, hx', hpos⟩
  · rintro ⟨hx, hx', hpos⟩
    refine ⟨between (max s.start t.start) (min s.stop t.stop), ⟨rfl, ?_, ?_⟩, hx, ?_, hpos⟩
    · rw [stop_between]
      omega
    · show 0 < min s.stop t.stop - max s.start t.start
      omega
    · rw [stop_between]
      omega

/-- Cutting twice is cutting to the common part. -/
theorem inter?_bind (s t u : Span) :
    ((s.inter? t).bind fun v => v.inter? u) = (t.inter? u).bind s.inter? := by
  have hcomm : s.inter? = fun v => v.inter? s := funext fun v => inter?_comm s v
  rw [hcomm]
  refine Option.ext fun x => ?_
  rw [inter?_bind_eq_some_iff, inter?_bind_eq_some_iff, Nat.max_right_comm, Nat.min_right_comm]

end Span

namespace SqlTag

theorem clip?_eq_some {t u : SqlTag} {request : Span} (h : t.clip? request = some u) :
    t.span.inter? request = some u.span := by
  obtain ⟨s, hs, rfl⟩ := Option.map_eq_some_iff.mp h
  exact hs

/-- What is left of a tag shows that it reaches into the request. -/
theorem exists_mem_of_clip? {t u : SqlTag} {request : Span} (h : t.clip? request = some u) :
    ∃ p ∈ t.span, p ∈ request := by
  have hspan := clip?_eq_some h
  have hfirst := Span.start_mem (Span.inter?_eq_some hspan).2.2
  exact ⟨_, (Span.mem_inter?_iff hspan).mp hfirst⟩

/-- Cutting a tag twice is cutting it to the common part. -/
theorem clip?_bind (t : SqlTag) (r s : Span) :
    ((t.clip? r).bind fun u => u.clip? s) = (r.inter? s).bind t.clip? := by
  have hspan := congrArg (Option.map fun u => { t with span := u }) (Span.inter?_bind t.span r s)
  rw [Option.map_bind, Option.map_bind] at hspan
  unfold clip?
  rw [Option.bind_map]
  exact hspan

end SqlTag

namespace Painted

theorem nil (positions : SpanSet) : Painted positions [] := ⟨by simp, .nil, by simp⟩

/-- Cutting keeps the order, and leaves no empty tags. -/
theorem clip {positions : SpanSet} {tags : List SqlTag} (h : Painted positions tags) (request : Span) :
    Painted positions (tags.filterMap (·.clip? request)) := by
  refine ⟨fun t ht => ?_, ?_, fun t ht p hp => ?_⟩
  · obtain ⟨u, -, hcut⟩ := List.mem_filterMap.mp ht
    exact (Span.inter?_eq_some (SqlTag.clip?_eq_some hcut)).2.2
  · rw [List.pairwise_filterMap]
    refine h.ascending.imp ?_
    intro u v huv t ht w hw
    have h₁ := (Span.inter?_eq_some (SqlTag.clip?_eq_some ht)).2.1
    have h₂ := (Span.inter?_eq_some (SqlTag.clip?_eq_some hw)).1
    omega
  · obtain ⟨u, hu, hcut⟩ := List.mem_filterMap.mp ht
    exact h.inside u hu p ((Span.mem_inter?_iff (SqlTag.clip?_eq_some hcut)).mp hp).1

theorem disjoint {positions : SpanSet} {tags : List SqlTag} (h : Painted positions tags) :
    tags.Pairwise fun s t => ∀ p ∈ s.span, p ∉ t.span :=
  h.ascending.imp fun hle _ hp hp' => Nat.lt_irrefl _
    (Nat.lt_of_lt_of_le hp.2 (Nat.le_trans hle hp'.1))

/-- **Tags in order are determined by which tags they are.** -/
theorem eq_of_mem_iff {positions positions' : SpanSet} {tags tags' : List SqlTag}
    (h : Painted positions tags) (h' : Painted positions' tags') (hmem : ∀ t, t ∈ tags ↔ t ∈ tags') :
    tags = tags' := by
  have hstarts : ∀ {positions : SpanSet} {tags : List SqlTag}, Painted positions tags →
      tags.Pairwise fun s t => s.span.start < t.span.start := fun h =>
    h.ascending.imp_of_mem fun hs _ hle => by
      have hpos := h.nonempty _ hs
      rw [Span.stop] at hle
      omega
  have hnodup : ∀ {positions : SpanSet} {tags : List SqlTag}, Painted positions tags → tags.Nodup := by
    intro positions tags h
    refine (hstarts h).imp ?_
    rintro s _ hlt rfl
    exact Nat.lt_irrefl _ hlt
  refine List.Perm.eq_of_pairwise ?_ (hstarts h) (hstarts h')
    ((List.perm_ext_iff_of_nodup (hnodup h) (hnodup h')).mpr hmem)
  intro s t _ _ hst hts
  exact absurd hst (Nat.lt_asymm hts)

end Painted

/-! ## The tags of a report -/

/-- The first span of a set begins at its first position. -/
theorem SpanSet.first?_eq_some {s : SpanSet} {first : Span} (h : s.first? = some first) :
    first ∈ s.toList ∧ ∀ p ∈ s, first.start ≤ p := by
  refine ⟨mem_toList_iff.mpr ⟨0, h⟩, ?_⟩
  rintro p ⟨t, ht, hp⟩
  obtain ⟨i, hi⟩ := mem_toList_iff.mp ht
  rw [Span.mem_def] at hp
  cases i with
  | zero =>
    obtain rfl := Option.some.inj (h.symm.trans hi)
    exact hp.1
  | succ i =>
    have hlt := stop_lt_start_of_lt h hi (Nat.succ_pos i)
    have := first.start_le_stop
    omega

theorem Report.tags_foldr_append (reports : List Report) :
    (reports.foldr Report.append {}).tags = reports.flatMap Report.tags := by
  induction reports with
  | nil => rfl
  | cons r reports ih => rw [List.foldr_cons, List.flatMap_cons, ← ih, Report.append]

namespace Highlighter

open Stitch

variable {b : Buffer} {index : TagIndex}

/-- **The tags of the literal with these fragments**, before they are cut. A
literal that is not enabled, or that cannot be decoded, has none. -/
def tagsOf (h : Highlighter) (b : Buffer) (index : TagIndex) (regions fragments : SpanSet) :
    List SqlTag :=
  match fragments.first? with
  | none => []
  | some first =>
    if isEnabled b index regions first then
      match tagLiteral h.style b ⟨fragments, none⟩ with
      | .ok tags => tags
      | .error _ => []
    else []

theorem tags_contribution (h : Highlighter) (regions : SpanSet) (request : Span)
    (l : StitchedLiteral) :
    (h.contribution b index regions request l).tags =
      (h.tagsOf b index regions l.fragments).filterMap (·.clip? request) := by
  have hissue : tagLiteral h.style b l = tagLiteral h.style b ⟨l.fragments, none⟩ := rfl
  unfold contribution tagsOf
  rw [hissue]
  cases l.fragments.first? with
  | none => rfl
  | some first =>
    simp only
    split
    · cases tagLiteral h.style b ⟨l.fragments, none⟩ <;> rfl
    · rfl

theorem painted_tagsOf (h : Highlighter) (b : Buffer) (index : TagIndex) (regions fragments : SpanSet) :
    Painted fragments (h.tagsOf b index regions fragments) := by
  unfold tagsOf
  split
  · exact .nil _
  · split
    · split
      · next tags htags => exact painted_tagLiteral htags
      · exact .nil _
    · exact .nil _

/-- What a request within the buffer shows of the literal with these
fragments. -/
def tagsWithin (h : Highlighter) (b : Buffer) (index : TagIndex) (request : Span)
    (fragments : SpanSet) : List SqlTag :=
  (h.tagsOf b index (enabledRegions b index request h.enabledByDefault) fragments).filterMap
    (·.clip? request)

theorem painted_tagsWithin (h : Highlighter) (b : Buffer) (index : TagIndex) (request : Span)
    (fragments : SpanSet) : Painted fragments (h.tagsWithin b index request fragments) :=
  (h.painted_tagsOf b index _ fragments).clip request

/-- The tags of a report are what it shows of its literals, sorted. -/
theorem tags_report (h : Highlighter) {request clipped : Span}
    (hclip : request.inter? b.full = some clipped) :
    (h.report b index request).tags =
      ((literalsIn b index clipped).flatMap fun l =>
        h.tagsWithin b index clipped l.fragments).mergeSort fun s t => decide (s.span ≤ t.span) := by
  unfold report
  rw [hclip]
  simp only [Report.tags_foldr_append, List.flatMap_map, tags_contribution]
  rfl

theorem tags_report_of_none (h : Highlighter) {request : Span} (hclip : request.inter? b.full = none) :
    (h.report b index request).tags = [] := by
  rw [report, hclip]

/-- **The tags of a report come in order**, and they lie in the request. -/
theorem painted_report (h : Highlighter) (hs : Spacious b index) (request : Span) :
    Painted (.single request) (h.report b index request).tags := by
  cases hclip : request.inter? b.full with
  | none =>
    rw [h.tags_report_of_none hclip]
    exact .nil _
  | some clipped =>
    rw [h.tags_report hclip]
    have hpart := fun l : StitchedLiteral => h.painted_tagsWithin b index clipped l.fragments
    have hpos : ∀ t ∈ ((literalsIn b index clipped).flatMap fun l =>
        h.tagsWithin b index clipped l.fragments).mergeSort fun s t => decide (s.span ≤ t.span),
        0 < t.span.len := by
      intro t ht
      obtain ⟨l, -, htl⟩ := List.mem_flatMap.mp (List.mem_mergeSort.mp ht)
      exact (hpart l).nonempty t htl
    refine ⟨hpos, Decoded.pairwise_stop_le_start hpos ?_ ?_, fun t ht p hp => ?_⟩
    · -- Tags of one literal share nothing, and neither do two literals.
      refine ((List.mergeSort_perm _ _).pairwise_iff (fun h p hp hp' => h p hp' hp)).mpr ?_
      rw [List.pairwise_flatMap]
      refine ⟨fun l _ => (hpart l).disjoint, (pairwise_literalsIn hs clipped).imp ?_⟩
      intro l m hlm t ht u hu p hpt hpu
      exact hlm p ((hpart l).inside t ht p hpt) ((hpart m).inside u hu p hpu)
    · exact (Span.pairwise_mergeSort SqlTag.span _).imp Span.start_le_of_le
    · obtain ⟨l, -, htl⟩ := List.mem_flatMap.mp (List.mem_mergeSort.mp ht)
      obtain ⟨u, -, hcut⟩ := List.mem_filterMap.mp htl
      have hp' := ((Span.mem_inter?_iff (SqlTag.clip?_eq_some hcut)).mp hp).2
      rw [SpanSet.mem_single]
      exact ((Span.mem_inter?_iff hclip).mp hp').1

/-! ## One request and another -/

/-- A chain that reaches into two requests has the same tags for both, if no
comment stands on string text. -/
theorem tagsOf_eq (h : Highlighter) (hapart : ∀ p, IsString index p → index.isKindAt p .comment = false)
    {c : SpanSet} (hc : IsChain b index c) {p : Nat} (hp : p ∈ c) {request request' : Span}
    (hstop : p < request.stop) (hstop' : p < request'.stop) :
    h.tagsOf b index (enabledRegions b index request h.enabledByDefault) c =
      h.tagsOf b index (enabledRegions b index request' h.enabledByDefault) c := by
  unfold tagsOf
  cases hfirst : c.first? with
  | none => rfl
  | some first =>
    obtain ⟨hmem, hle⟩ := SpanSet.first?_eq_some hfirst
    have hbegin := hle p hp
    have henabled : isEnabled b index (enabledRegions b index request h.enabledByDefault) first =
        isEnabled b index (enabledRegions b index request' h.enabledByDefault) first :=
      isEnabled_eq (c.normal.nonempty first hmem) (Nat.lt_of_le_of_lt hbegin hstop)
        (Nat.lt_of_le_of_lt hbegin hstop') fun q hq => hapart q (hc.isString ⟨first, hmem, hq⟩)
    simp only [henabled]

/-- **What a request shows**: of every chain of the buffer the tags it has in
the whole buffer, cut to the request. -/
theorem mem_tags_report (h : Highlighter) (hs : Spacious b index)
    (hapart : ∀ p, IsString index p → index.isKindAt p .comment = false) {request clipped : Span}
    (hclip : request.inter? b.full = some clipped) {t : SqlTag} :
    t ∈ (h.report b index request).tags ↔
      ∃ c, IsChain b index c ∧
        ∃ u ∈ h.tagsOf b index (enabledRegions b index b.full h.enabledByDefault) c,
          u.clip? clipped = some t := by
  have hpos := (Span.inter?_eq_some hclip).2.2
  -- A chain has the same tags for the request and for the buffer.
  have hsame : ∀ {c : SpanSet} {p : Nat}, IsChain b index c → p ∈ c → p ∈ clipped →
      h.tagsOf b index (enabledRegions b index clipped h.enabledByDefault) c =
        h.tagsOf b index (enabledRegions b index b.full h.enabledByDefault) c := fun hc hpc hp =>
    h.tagsOf_eq hapart hc hpc hp.2 ((Span.mem_inter?_iff hclip).mp hp).2.2
  rw [h.tags_report hclip, List.mem_mergeSort, List.mem_flatMap]
  constructor
  · rintro ⟨l, hl, ht⟩
    obtain ⟨u, hu, hcut⟩ := List.mem_filterMap.mp ht
    obtain ⟨hc, p, hp, hpc⟩ := (exists_literalsIn_iff hs hpos).mp ⟨l, hl, rfl⟩
    exact ⟨l.fragments, hc, u, hsame hc hpc hp ▸ hu, hcut⟩
  · rintro ⟨c, hc, u, hu, hcut⟩
    -- The cut left something, so the chain reaches into the request.
    obtain ⟨p, hpu, hp⟩ := SqlTag.exists_mem_of_clip? hcut
    have hpc := (h.painted_tagsOf b index _ c).inside u hu _ hpu
    obtain ⟨l, hl, rfl⟩ := (exists_literalsIn_iff hs hpos).mpr ⟨hc, _, hp, hpc⟩
    exact ⟨l, hl, List.mem_filterMap.mpr ⟨u, (hsame hc hpc hp).symm ▸ hu, hcut⟩⟩

/-- **A request shows what the whole buffer shows, cut to the request**, as long
as the scanned buffer does not end in string text. -/
theorem tags_report_eq_filterMap (h : Highlighter) {b : Buffer}
    (hend : ∀ p, p + 1 = b.size → (Host.classify b).isKindAt p .string = false) (request : Span) :
    (h.report b (Host.classify b) request).tags =
      (h.report b (Host.classify b) b.full).tags.filterMap (·.clip? request) := by
  have hs := Host.spacious_classify hend
  have hapart := fun p => Host.not_comment_of_isString (b := b) (p := p)
  have hwhole := h.painted_report hs b.full
  refine (h.painted_report hs request).eq_of_mem_iff (hwhole.clip request) fun t => ?_
  rw [List.mem_filterMap]
  cases hclip : request.inter? b.full with
  | none =>
    -- A tag inside the buffer has no part in the request.
    rw [h.tags_report_of_none hclip]
    refine ⟨fun ht => absurd ht List.not_mem_nil, fun ⟨u, hu, hcut⟩ => ?_⟩
    obtain ⟨p, hpu, hp⟩ := SqlTag.exists_mem_of_clip? hcut
    exact absurd (SpanSet.mem_single.mp (hwhole.inside u hu _ hpu)) (Span.inter?_eq_none hclip hp)
  | some clipped =>
    have hfirst := (Span.mem_inter?_iff hclip).mp (Span.start_mem (Span.inter?_eq_some hclip).2.2)
    have hfull : b.full.inter? b.full = some b.full := by
      refine Span.inter?_eq_some_iff.mpr ⟨(Nat.max_self _).symm, (Nat.min_self _).symm, ?_⟩
      have hlt : clipped.start < 0 + b.size := hfirst.2.2
      show 0 < b.size
      omega
    have hcut : ∀ u : SqlTag, ((u.clip? b.full).bind fun v => v.clip? request) = u.clip? clipped := by
      intro u
      rw [SqlTag.clip?_bind, Span.inter?_comm, hclip]
      rfl
    rw [h.mem_tags_report hs hapart hclip]
    constructor
    · rintro ⟨c, hc, u, hu, hut⟩
      obtain ⟨v, huv, hvt⟩ := Option.bind_eq_some_iff.mp ((hcut u).trans hut)
      exact ⟨v, (h.mem_tags_report hs hapart hfull).mpr ⟨c, hc, u, hu, huv⟩, hvt⟩
    · rintro ⟨v, hv, hvt⟩
      obtain ⟨c, hc, u, hu, huv⟩ := (h.mem_tags_report hs hapart hfull).mp hv
      exact ⟨c, hc, u, hu, (hcut u).symm.trans (Option.bind_eq_some_iff.mpr ⟨v, huv, hvt⟩)⟩

/-- A literal with a hole, switched on by a comment, and a request that begins
inside its first word and ends inside its last fragment. -/
theorem tags_report_eq_filterMap_interpolated :
    ∃ (b : Buffer) (h : Highlighter) (request : Span),
      b = .ofText "/*strpsql-on*/$\"select \x7bx\x7dfrom t\";" ∧ h = { enabledByDefault := false } ∧
      request = .between 19 30 ∧
      (∀ p, p + 1 = b.size → (Host.classify b).isKindAt p .string = false) ∧
      (h.report b (Host.classify b) request).tags =
        (h.report b (Host.classify b) b.full).tags.filterMap (·.clip? request) := by
  have hend : ∀ p, p + 1 = (Buffer.ofText "/*strpsql-on*/$\"select \x7bx\x7dfrom t\";").size →
      (Host.classify (.ofText "/*strpsql-on*/$\"select \x7bx\x7dfrom t\";")).isKindAt p .string =
        false := by
    intro p hp
    obtain rfl : p = 33 := Nat.succ.inj (hp.trans (by decide +kernel))
    refine Bool.eq_false_iff.mpr fun hstring => ?_
    obtain ⟨t, ht, hkind, hmem⟩ := Host.isKindAt_classify.mp hstring
    have hnone : ∀ t ∈ (Host.scan (.ofText "/*strpsql-on*/$\"select \x7bx\x7dfrom t\";")).tags.toList,
        t.kind = .string → 33 ∉ t.span := by decide +kernel
    exact hnone t ht hkind hmem
  exact ⟨_, _, _, rfl, rfl, rfl, hend, tags_report_eq_filterMap _ hend _⟩

end Highlighter

end EmbeddedSql
