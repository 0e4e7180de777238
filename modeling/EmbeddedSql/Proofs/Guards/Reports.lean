import EmbeddedSql.Proofs.Guards.Directives
import EmbeddedSql.Proofs.Guards.Lexing
import EmbeddedSql.Proofs.Guards.Literals
import EmbeddedSql.Proofs.Guards.Tags
import EmbeddedSql.Proofs.Guards.Walks
import EmbeddedSql.Proofs.Slicing

/-!
# Highlighting without failure

The parts put together: whatever the buffer holds, however the tags of its host
overlap or reach past it, and whatever is requested, the checked way from a
request to its report never fails, and it ends where the way without checks
does (`report_succeeds`).

Three bounds are all it needs. Stops of tags and of the request are below
`2 ^ 62`. Nothing else is assumed of tags, so a fragment may lie past the end of
the buffer, and a slice of it may be empty. The size of a buffer is below
`2 ^ 62` because memory is: a machine of 64 bits can address fewer than `2 ^ 63`
bytes in one piece, and a code unit takes two.

Memory does hold a buffer with too many open braces for the word that counts
them. There the way depends on what the word does, and the theorem says how far
it can still be relied on.
-/

namespace EmbeddedSql

namespace Checked

/-! ## Literals -/

section Literals

variable {b : Buffer} {style : LiteralStyle}

theorem length_slice_lt (b : Buffer) {s : Span} {n : Nat} (hs : s.stop < n) :
    (b.slice s).length < n := by
  have hlen := b.length_slice_le s
  simp only [Span.stop] at hs
  omega

theorem head?_toList (set : SpanSet) : set.toList.head? = set.first? := by
  rw [SpanSet.toList, SpanSet.first?, List.head?_eq_getElem?, Array.getElem?_toList]

theorem getLast?_toList (set : SpanSet) : set.toList.getLast? = set.last? :=
  Array.getLast?_toList _

theorem headOf_eq {l : StitchedLiteral} (hl : ∀ s ∈ l.fragments.toList, s.stop < 2 ^ 62) :
    headOf style b l.fragments.toList = some (EmbeddedSql.headOf style b l) := by
  unfold headOf EmbeddedSql.headOf
  rw [head?_toList]
  cases hfirst : l.fragments.first? with
  | none => rfl
  | some first =>
    have hmem := hl first (List.mem_of_head? ((head?_toList _).trans hfirst))
    dsimp only
    rw [slice_eq b (Nat.lt_trans hmem (by decide)), some_bind,
      readHead_eq (length_slice_lt b hmem)]

theorem decodeAll_eq (kind : LiteralKind) {content : List Span}
    (hcontent : ∀ s ∈ content, s.stop < 2 ^ 62) :
    decodeAll kind b content
      = some (content.mapM fun s => (Decoded.ofUnits kind (b.slice s)).map (s.start, ·)) := by
  induction content with
  | nil => rfl
  | cons s rest ih =>
    obtain ⟨hs, hrest⟩ := List.forall_mem_cons.mp hcontent
    rw [decodeAll, slice_eq b (Nat.lt_trans hs (by decide)), some_bind,
      decode_eq (length_slice_lt b hs), some_bind, List.mapM_cons]
    cases Decoded.ofUnits kind (b.slice s) with
    | error e => rfl
    | ok d =>
      dsimp only
      rw [ih hrest]
      cases rest.mapM fun s => (Decoded.ofUnits kind (b.slice s)).map (s.start, ·) <;> rfl

/-- What a traversal that succeeds gives comes from what it traverses. -/
theorem exists_of_mem_mapM {α β ε : Type} {f : α → Except ε β} {xs : List α} {ys : List β}
    (h : xs.mapM f = .ok ys) {y : β} (hy : y ∈ ys) : ∃ x ∈ xs, f x = .ok y := by
  induction xs generalizing ys with
  | nil =>
    cases h
    simp at hy
  | cons x xs ih =>
    rw [List.mapM_cons] at h
    cases hx : f x with
    | error e =>
      rw [hx] at h
      cases h
    | ok first =>
      rw [hx] at h
      cases hrest : xs.mapM f with
      | error e =>
        rw [hrest] at h
        cases h
      | ok rest =>
        rw [hrest] at h
        cases h
        rcases List.mem_cons.mp hy with rfl | hy
        · exact ⟨x, List.mem_cons_self, hx⟩
        · obtain ⟨z, hz, hfz⟩ := ih hrest hy
          exact ⟨z, List.mem_cons_of_mem x hz, hfz⟩

theorem tagPart_eq {kind : LiteralKind} {s : Span} (hs : s.stop < 2 ^ 62) {part : Nat × Decoded}
    (h : (Decoded.ofUnits kind (b.slice s)).map (s.start, ·) = .ok part) :
    tagPart part = some (part.2.tagTokens part.1 (Sql.tokenize part.2.chars)) := by
  cases hd : Decoded.ofUnits kind (b.slice s) with
  | error e =>
    rw [hd] at h
    cases h
  | ok d =>
    rw [hd] at h
    cases h
    have hlen := b.length_slice_le s
    have hchars : d.chars.length ≤ (b.slice s).length := by
      obtain ⟨pieces, hread, rfl⟩ := Decoded.ofUnits_eq_ok.mp hd
      rw [← hread.totalWidth_eq]
      exact Nat.le_trans (Nat.le_of_eq (List.length_map _))
        (length_le_totalWidth hread.one_le_width)
    simp only [Span.stop] at hs
    dsimp only [tagPart]
    rw [tokens_eq (by omega), some_bind, tagTokens_eq hd (by omega)]

theorem openingLen_lt {l : StitchedLiteral} (hl : ∀ s ∈ l.fragments.toList, s.stop < 2 ^ 62)
    {head : LiteralHead} (h : EmbeddedSql.headOf style b l = .ok head) :
    head.openingLen < 2 ^ 62 := by
  unfold EmbeddedSql.headOf at h
  split at h
  · cases h
  · next first hfirst =>
    have hmem := hl first (SpanSet.mem_toList_iff.mpr ⟨0, hfirst⟩)
    exact Nat.lt_of_le_of_lt (openingLen_le h) (length_slice_lt b hmem)

theorem tagLiteral_eq {l : StitchedLiteral} (hl : ∀ s ∈ l.fragments.toList, s.stop < 2 ^ 62) :
    tagLiteral style b l.fragments.toList = some (EmbeddedSql.tagLiteral style b l) := by
  have hcount : l.fragments.toList.length < 2 ^ 62 := Nat.lt_of_le_pred (by decide)
    (l.fragments.normal.length_le fun s hs => Nat.le_pred_of_lt (hl s hs))
  rw [tagLiteral, headOf_eq hl, some_bind, EmbeddedSql.tagLiteral]
  cases hhead : EmbeddedSql.headOf style b l with
  | error e => rfl
  | ok head =>
    dsimp only
    rw [contentOf_eq b (openingLen_lt hl hhead) hl hcount, some_bind]
    cases hcontent : EmbeddedSql.contentOf b head l.fragments.toList with
    | error e =>
      simp only [bind, Except.bind, hcontent]
      rfl
    | ok content =>
      have hinside : ∀ s ∈ content, s.stop < 2 ^ 62 := fun s hs => by
        obtain ⟨f, hf, -, hstop⟩ := (contentOf_bounds hcontent).1 s hs
        exact Nat.lt_of_le_of_lt hstop (hl f hf)
      dsimp only
      rw [decodeAll_eq head.kind hinside, some_bind]
      simp only [bind, Except.bind, hcontent]
      cases hdecoded : content.mapM fun s =>
          (Decoded.ofUnits head.kind (b.slice s)).map (s.start, ·) with
      | error e => rfl
      | ok decoded =>
        have htags : decoded.mapM tagPart
            = some (decoded.map fun part => part.2.tagTokens part.1 (Sql.tokenize part.2.chars)) :=
          mapM_eq fun part hpart => by
            obtain ⟨s, hs, hpart⟩ := exists_of_mem_mapM hdecoded hpart
            exact tagPart_eq (hinside s hs) hpart
        dsimp only
        rw [htags]
        rfl

theorem stop_lt_of_mem_tagLiteral {l : StitchedLiteral}
    (hl : ∀ s ∈ l.fragments.toList, s.stop < 2 ^ 62) {tags : List SqlTag}
    (h : EmbeddedSql.tagLiteral style b l = .ok tags) {t : SqlTag} (ht : t ∈ tags) :
    t.span.stop < 2 ^ 64 := by
  have hpainted := painted_tagLiteral h
  obtain ⟨s, hs, hlast⟩ := hpainted.inside t ht _ (Span.pred_stop_mem (hpainted.nonempty t ht))
  have hstop := hl s hs
  rw [Span.mem_def] at hlast
  omega

end Literals

/-! ## Reports -/

theorem clip_eq {request : Span} (hrequest : request.stop < 2 ^ 64) {t : SqlTag}
    (ht : t.span.stop < 2 ^ 64) : clip request t = some (t.clip? request) := by
  rw [clip, inter_eq ht hrequest]
  rfl

section Report

variable {b : Buffer} {index : TagIndex} (hix : ∀ t ∈ index.toList, t.span.stop < 2 ^ 62)

include hix in
theorem isEnabled_eq {regions : SpanSet} (hregions : ∀ s ∈ regions.toList, s.stop < 2 ^ 62)
    {first : Span} (hfirst : first.stop < 2 ^ 62) :
    isEnabled b index regions.toList first
      = some (Highlighter.isEnabled b index regions first) := by
  have hle := first.start_le_stop
  rw [isEnabled, inlineOverride_eq hix (by omega), some_bind, Highlighter.isEnabled]
  cases inlineOverride? b index first.start with
  | none => exact meets_eq (fun s hs => Nat.lt_trans (hregions s hs) (by decide)) (by omega)
  | some on => rfl

include hix in
theorem contribution_eq (h : Highlighter) {regions : SpanSet}
    (hregions : ∀ s ∈ regions.toList, s.stop < 2 ^ 62) {request : Span}
    (hrequest : request.stop < 2 ^ 62) {l : StitchedLiteral}
    (hl : ∀ s ∈ l.fragments.toList, s.stop < 2 ^ 62) :
    contribution h b index regions.toList request (.ofStitched l)
      = some (h.contribution b index regions request l) := by
  unfold contribution Highlighter.contribution StitchedLiteral.hull? SpanSet.hull?
    Literal.ofStitched
  dsimp only
  rw [head?_toList, getLast?_toList]
  cases hfirst : l.fragments.first? with
  | none => rfl
  | some first =>
    have hmem := List.mem_of_head? ((head?_toList _).trans hfirst)
    have hfirst' := hl first hmem
    obtain ⟨last, hlast⟩ : ∃ last, l.fragments.last? = some last :=
      ⟨_, (getLast?_toList _).symm.trans (List.getLast?_eq_some_getLast (List.ne_nil_of_mem hmem))⟩
    have hlast' := hl last (List.mem_of_getLast? ((getLast?_toList _).trans hlast))
    have hle := first.start_le_stop
    rw [hlast]
    dsimp only
    rw [stop_eq (by omega), some_bind, isEnabled_eq hix hregions hfirst', some_bind]
    split
    · rw [tagLiteral_eq hl, some_bind]
      cases htags : EmbeddedSql.tagLiteral h.style b l with
      | error e =>
        dsimp only
        rw [stop_eq (by rw [Span.stop_between]; omega)]
        rfl
      | ok tags =>
        have hclip := mapM_eq fun t ht =>
          clip_eq (Nat.lt_trans hrequest (by decide : 2 ^ 62 < 2 ^ 64))
            (stop_lt_of_mem_tagLiteral hl htags ht)
        dsimp only
        rw [hclip, some_bind, List.filterMap_map]
        rfl
    · rfl

/-- A report lies in its request. -/
theorem stop_le_of_mem_contributions {h : Highlighter} {regions : SpanSet} {request : Span}
    {literals : List StitchedLiteral} {t : SqlTag}
    (ht : t ∈
      ((literals.map (h.contribution b index regions request)).foldr Report.append {}).tags) :
    t.span.stop ≤ request.stop := by
  rw [Report.tags_foldr_append, List.flatMap_map, List.mem_flatMap] at ht
  obtain ⟨l, -, ht⟩ := ht
  rw [Highlighter.tags_contribution] at ht
  obtain ⟨u, -, hclip⟩ := List.mem_filterMap.mp ht
  have hstop := (Span.inter?_eq_some (SqlTag.clip?_eq_some hclip)).2.1
  omega

include hix in
/-- What literals contribute. -/
theorem mapM_contribution_eq (h : Highlighter) {request : Span} (hrequest : request.stop < 2 ^ 62)
    {literals : List StitchedLiteral} (hliterals : ∀ l ∈ literals, Bounded l) :
    (literals.map Literal.ofStitched).mapM
        (contribution h b index
          (EmbeddedSql.enabledRegions b index request h.enabledByDefault).toList request)
      = some (literals.map (h.contribution b index
          (EmbeddedSql.enabledRegions b index request h.enabledByDefault) request)) := by
  rw [List.mapM_map]
  exact mapM_eq fun l hl => contribution_eq hix h
    (fun s hs => stop_lt_of_mem_enabledRegions hix hrequest hs) hrequest (hliterals l hl)

include hix in
/-- Only what is found in a walk depends on the word that counts braces. -/
theorem report_ends (o : Overflow) (h : Highlighter) (hb : b.size < 2 ^ 62) {request : Span}
    (hrequest : request.stop < 2 ^ 62) :
    Ends o b (fun _ => True) (h.report b index request) (report o h b index request) := by
  have hfull : b.full.stop = b.size := Nat.zero_add _
  rw [report, inter_eq (by omega) (by omega), some_bind, Highlighter.report]
  cases hclip : request.inter? b.full with
  | none => exact .ended trivial fun _ => rfl
  | some clipped =>
    have hstop := (Span.inter?_eq_some hclip).2.1
    have hprobe := stop_probe_le clipped
    refine (literalsIn_ends hb hix (by omega)).bind ?_
    rintro _ ⟨literals, rfl, hliterals⟩ heq
    have hfound : Reliable o b → literals = EmbeddedSql.literalsIn b index clipped := fun hr =>
      List.map_injective_iff.mpr (fun _ _ => Literal.ofStitched_inj) (heq hr)
    dsimp only
    rw [List.isEmpty_map]
    split
    · next hnone =>
      refine .ended trivial fun hr => ?_
      rw [← hfound hr, List.isEmpty_iff.mp hnone, List.map_nil, List.foldr_nil, List.mergeSort_nil]
    · rw [enabledRegions_eq hix (by omega), some_bind,
        mapM_contribution_eq hix h (by omega) hliterals, some_bind, mapM_eq fun t ht => stop_eq
          (Nat.lt_of_le_of_lt (stop_le_of_mem_contributions ht) (by omega : clipped.stop < 2 ^ 64))]
      exact .ended trivial fun hr => by rw [← hfound hr]

end Report

/-- **Highlighting never fails.** With every index, slice, sum and difference on
the way checked, a request has its report, whatever the buffer, the tags, the
setting and the style are, as long as tags and the request stop below `2 ^ 62`.
(A buffer of `2 ^ 62` code units does not fit in memory.)

The one thing that can be refused is to count more than `2 ^ 31 - 1` open braces
in a word of 32 bits that does not wrap. A word that does wrap is never refused,
and it takes a buffer of more than `2 ^ 32` units for it to change the report. -/
theorem report_succeeds (o : Overflow) (h : Highlighter) (b : Buffer) (hb : b.size < 2 ^ 62)
    (index : TagIndex) (hix : ∀ t ∈ index.toList, t.span.stop < 2 ^ 62) (request : Span)
    (hrequest : request.stop < 2 ^ 62) :
    (o = .wraps ∨ b.size ≤ 2 ^ 31 → ∃ r, report o h b index request = some r) ∧
      (o = .refuses ∨ b.size ≤ 2 ^ 32 →
        ∀ r, report o h b index request = some r → r = h.report b index request) := by
  have hends := report_ends hix o h hb hrequest
  exact ⟨hends.exists_eq_some, fun ho r hr => hends.eq_of_eq_some hr ho⟩

/-- A literal that is not closed, under a tag that runs as far past the buffer as
a tag may and another one inside it, and a request that begins in an escape. -/
theorem report_succeeds_overrun :
    ∃ (b : Buffer) (index : TagIndex) (request : Span),
      b = .ofText "\"\\x31\\t" ∧
      index = .ofTags [⟨⟨1, 1⟩, .string⟩, ⟨⟨0, 2 ^ 62 - 1⟩, .string⟩] ∧
      request = ⟨2, 2 ^ 62 - 3⟩ ∧
      b.size < 2 ^ 62 ∧ (∀ t ∈ index.toList, t.span.stop < 2 ^ 62) ∧ request.stop < 2 ^ 62 ∧
      (∀ o, report o {} b index request = some (Highlighter.report {} b index request)) ∧
      (Highlighter.report {} b index request).tags = [⟨⟨2, 3⟩, .number, true⟩] := by
  have hsize : (Buffer.ofText "\"\\x31\\t").size ≤ 2 ^ 31 := by decide +kernel
  have hindex : ∀ t ∈ (TagIndex.ofTags [⟨⟨1, 1⟩, .string⟩, ⟨⟨0, 2 ^ 62 - 1⟩, .string⟩]).toList,
      t.span.stop < 2 ^ 62 := by
    intro t ht
    have hall : ∀ t ∈ ([⟨⟨1, 1⟩, .string⟩, ⟨⟨0, 2 ^ 62 - 1⟩, .string⟩] : List HostTag),
        t.span.stop < 2 ^ 62 := by decide
    exact hall t (TagIndex.mem_toList_ofTags.mp ht).1
  have hsize' := Nat.lt_of_le_of_lt hsize (by decide : 2 ^ 31 < 2 ^ 62)
  refine ⟨_, _, _, rfl, rfl, rfl, hsize', hindex, by decide, fun o => ?_, by cbv⟩
  obtain ⟨hsome, hright⟩ := report_succeeds o {} _ hsize' _ hindex ⟨2, 2 ^ 62 - 3⟩ (by decide)
  obtain ⟨r, hr⟩ := hsome (.inr hsize)
  rw [hr, hright (.inr (Nat.le_trans hsize (by decide))) r hr]

/-- A request that stops past the last word is refused. -/
example (o : Overflow) (b : Buffer) (index : TagIndex) :
    report o {} b index ⟨1, 2 ^ 64 - 1⟩ = none := rfl

end Checked

end EmbeddedSql
