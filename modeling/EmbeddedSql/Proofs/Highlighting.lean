import EmbeddedSql.Proofs.Moves
import EmbeddedSql.Proofs.Retagging
import EmbeddedSql.Proofs.Tiling
import EmbeddedSql.Report

/-!
# The tags of one literal

A literal is decoded fragment by fragment, and each fragment is split into
tokens on its own. So the tags of a literal are the tags of its fragments, one
after the other, and since the tokens of a fragment tile it, its tags come in
order and stay inside it. Altogether the tags of a literal come in order, none
is empty, and they lie on the literal (`painted_tagLiteral`).
-/

namespace EmbeddedSql

/-- **Tags on a set of positions**: they come in order, none is empty, and they
lie in the set. -/
structure Painted (positions : SpanSet) (tags : List SqlTag) : Prop where
  /-- No tag is empty. -/
  nonempty : ∀ t ∈ tags, 0 < t.span.len
  /-- They come in order and share nothing. -/
  ascending : tags.Pairwise fun s t => s.span.stop ≤ t.span.start
  /-- They lie in the set. -/
  inside : ∀ t ∈ tags, ∀ p ∈ t.span, p ∈ positions

/-! ## One fragment -/

namespace Decoded

/-- The tags of a span lie in it. -/
theorem bounds_of_mem_cut {d : Decoded} {base : Nat} {category : Sql.Category} {s : Span}
    {tag : SqlTag} (h : tag ∈ d.cut base category s) :
    base + s.start ≤ tag.span.start ∧ tag.span.stop ≤ base + s.stop := by
  have hpos := len_pos_of_mem_cut h
  have hlast := Span.pred_stop_mem hpos
  obtain ⟨hlo, hfirst, -⟩ := mem_span_of_mem_cut h (Span.start_mem hpos)
  obtain ⟨hlo', hend, -⟩ := mem_span_of_mem_cut h hlast
  rw [Span.mem_def] at hfirst hend
  simp only [Span.stop] at *
  omega

/-- **The tags of a decoded text** come in order, and they stay within the
units the text was decoded from. -/
theorem painted_tagTokens {kind : LiteralKind} {units : List CodeUnit} {d : Decoded}
    (h : ofUnits kind units = .ok d) (base : Nat) :
    Painted (.single ⟨base, units.length⟩) (d.tagTokens base (Sql.tokenize d.chars)) := by
  obtain ⟨pieces, hread, rfl⟩ := ofUnits_eq_ok.mp h
  have hw := hread.one_le_width
  have hlen : (ofPieces pieces).chars.length = pieces.length := List.length_map _
  have htiles := Sql.tiles_tokenize (ofPieces pieces).chars
  rw [hlen] at htiles
  generalize Sql.tokenize (ofPieces pieces).chars = tokens at htiles
  rw [tagTokens_eq_flatMap hw base (.of_stop_le_start htiles.pairwise fun t ht => (htiles.bounds ht).2)]
  refine ⟨fun t ht => ?_, ?_, fun t ht p hp => ?_⟩
  · obtain ⟨token, -, hcut⟩ := List.mem_flatMap.mp ht
    exact len_pos_of_mem_cut hcut
  · rw [List.pairwise_flatMap]
    refine ⟨fun token _ => ascending_cut _ _ _ _, ?_⟩
    refine (htiles.pairwise.filter _).imp_of_mem ?_
    intro a c ha hc hac t ht u hu
    have htstop := (bounds_of_mem_cut ht).2
    have hustart := (bounds_of_mem_cut hu).1
    -- The units of the first token end before those of the second begin.
    have ha' := htiles.bounds (List.mem_filter.mp ha).1
    have hc' := htiles.bounds (List.mem_filter.mp hc).1
    have horder := totalWidth_take_le hw hac (show c.start ≤ pieces.length from
      Nat.le_trans (Nat.le_add_right _ _) hc'.2)
    have hwithin := totalWidth_take_le hw (show a.start ≤ a.stop from Nat.le_add_right _ _) ha'.2
    rw [unitsBetween, Span.stop_between] at htstop
    rw [unitsBetween, Span.start_between] at hustart
    omega
  · obtain ⟨token, -, hcut⟩ := List.mem_flatMap.mp ht
    obtain ⟨hbase, hunit, -⟩ := mem_span_of_mem_cut hcut hp
    have hlt := lt_totalWidth_of_mem_unitsBetween hunit
    rw [hread.totalWidth_eq] at hlt
    rw [SpanSet.mem_single]
    exact ⟨hbase, by show p < base + units.length; omega⟩

end Decoded

/-- The tags of a fragment that can be decoded. -/
def fragmentTags (kind : LiteralKind) (b : Buffer) (s : Span) : List SqlTag :=
  match Decoded.ofUnits kind (b.slice s) with
  | .ok d => d.tagTokens s.start (Sql.tokenize d.chars)
  | .error _ => []

theorem painted_fragmentTags (kind : LiteralKind) (b : Buffer) (s : Span) :
    Painted (.single s) (fragmentTags kind b s) := by
  have hslice := b.length_slice_le s
  unfold fragmentTags
  split
  · next d hd =>
    obtain ⟨hnonempty, hascending, hinside⟩ := Decoded.painted_tagTokens hd s.start
    refine ⟨hnonempty, hascending, fun t ht p hp => ?_⟩
    have hmem := hinside t ht p hp
    rw [SpanSet.mem_single] at hmem ⊢
    exact ⟨hmem.1, Nat.lt_of_lt_of_le hmem.2 (Nat.add_le_add_left hslice _)⟩
  · exact ⟨by simp, .nil, by simp⟩

/-! ## The whole literal -/

/-- A trimmed fragment lies in the fragment. -/
theorem trimFragment?_bounds {b : Buffer} {head : LiteralHead} {isFirst isLast : Bool} {s t : Span}
    (h : trimFragment? b head isFirst isLast s = some t) : s.start ≤ t.start ∧ t.stop ≤ s.stop := by
  have hstart : s.start ≤ if isFirst then s.start + head.openingLen else s.start := by
    split <;> omega
  have hstop : (if isLast && endsWithClosing b head s then s.stop - head.closingLen else s.stop) ≤
      s.stop := by
    split <;> omega
  unfold trimFragment? at h
  simp only at h
  generalize (if isFirst then s.start + head.openingLen else s.start) = start at h hstart
  generalize (if isLast && endsWithClosing b head s then s.stop - head.closingLen else s.stop) = stop
    at h hstop
  split at h
  · cases h
    rw [Span.start_between, Span.stop_between]
    omega
  · simp at h

/-- The content of a literal keeps to its fragments, and to their order. -/
theorem contentOf_bounds {b : Buffer} {head : LiteralHead} {fragments : SpanSet} {content : List Span}
    (h : contentOf b head fragments.toList = .ok content) :
    (∀ t ∈ content, ∃ s ∈ fragments.toList, s.start ≤ t.start ∧ t.stop ≤ s.stop) ∧
      content.Pairwise fun s t => s.stop ≤ t.start := by
  unfold contentOf at h
  simp only at h
  split at h
  · simp at h
  · cases h
    constructor
    · intro t ht
      obtain ⟨⟨s, i⟩, hs, htrim⟩ := List.mem_filterMap.mp ht
      refine ⟨s, ?_, trimFragment?_bounds htrim⟩
      rw [← List.zipIdx_map_fst 0 fragments.toList]
      exact List.mem_map_of_mem hs
    · rw [List.pairwise_filterMap]
      have hapart := fragments.normal.apart
      change fragments.toList.Pairwise _ at hapart
      rw [← List.zipIdx_map_fst 0 fragments.toList, List.pairwise_map] at hapart
      refine hapart.imp ?_
      intro x y hxy t ht u hu
      have h₁ := (trimFragment?_bounds ht).2
      have h₂ := (trimFragment?_bounds hu).1
      omega

/-- Decoding all fragments first, and then splitting them, gives the tags of
one fragment after the other. -/
theorem flatMap_of_mapM {kind : LiteralKind} {b : Buffer} {content : List Span}
    {decoded : List (Nat × Decoded)}
    (h : content.mapM (fun s => (Decoded.ofUnits kind (b.slice s)).map (s.start, ·)) = .ok decoded) :
    (decoded.flatMap fun (base, d) => d.tagTokens base (Sql.tokenize d.chars)) =
      content.flatMap (fragmentTags kind b) := by
  induction content generalizing decoded with
  | nil =>
    cases h
    rfl
  | cons s content ih =>
    rw [List.mapM_cons] at h
    cases hs : Decoded.ofUnits kind (b.slice s) with
    | error e =>
      rw [hs] at h
      cases h
    | ok d =>
      rw [hs] at h
      cases hrest : content.mapM
          (fun s => (Decoded.ofUnits kind (b.slice s)).map (s.start, ·)) with
      | error e =>
        rw [hrest] at h
        cases h
      | ok rest =>
        rw [hrest] at h
        cases h
        rw [List.flatMap_cons, List.flatMap_cons, ih hrest, fragmentTags, hs]

theorem tagLiteral_eq_ok {style : LiteralStyle} {b : Buffer} {l : StitchedLiteral}
    {tags : List SqlTag} (h : tagLiteral style b l = .ok tags) :
    ∃ head content, headOf style b l = .ok head ∧ contentOf b head l.fragments.toList = .ok content ∧
      tags = content.flatMap (fragmentTags head.kind b) := by
  unfold tagLiteral at h
  cases hhead : headOf style b l with
  | error e =>
    rw [hhead] at h
    cases h
  | ok head =>
    rw [hhead] at h
    cases hcontent : contentOf b head l.fragments.toList with
    | error e =>
      simp only [bind, Except.bind, hcontent] at h
      cases h
    | ok content =>
      simp only [bind, Except.bind, hcontent] at h
      split at h
      · cases h
      · next decoded hdecoded =>
        cases h
        exact ⟨head, content, rfl, hcontent, flatMap_of_mapM hdecoded⟩

/-- **The tags of a literal lie on it, in order.** -/
theorem painted_tagLiteral {style : LiteralStyle} {b : Buffer} {l : StitchedLiteral}
    {tags : List SqlTag} (h : tagLiteral style b l = .ok tags) : Painted l.fragments tags := by
  obtain ⟨head, content, -, hcontent, rfl⟩ := tagLiteral_eq_ok h
  obtain ⟨hbounds, hcontent⟩ := contentOf_bounds hcontent
  have hpart := painted_fragmentTags head.kind b
  refine ⟨fun t ht => ?_, ?_, fun t ht p hp => ?_⟩
  · obtain ⟨s, -, hts⟩ := List.mem_flatMap.mp ht
    exact (hpart s).nonempty t hts
  · rw [List.pairwise_flatMap]
    refine ⟨fun s _ => (hpart s).ascending, hcontent.imp ?_⟩
    intro s u hsu t ht v hv
    have htpos := (hpart s).nonempty t ht
    have h₁ := (hpart s).inside t ht _ (Span.pred_stop_mem htpos)
    have h₂ := (hpart u).inside v hv _ (Span.start_mem ((hpart u).nonempty v hv))
    rw [SpanSet.mem_single, Span.mem_def] at h₁ h₂
    omega
  · obtain ⟨s, hs, hts⟩ := List.mem_flatMap.mp ht
    have hmem := (hpart s).inside t hts p hp
    obtain ⟨f, hf, hlo, hhi⟩ := hbounds s hs
    rw [SpanSet.mem_single, Span.mem_def] at hmem
    exact ⟨f, hf, by omega, by omega⟩

end EmbeddedSql
