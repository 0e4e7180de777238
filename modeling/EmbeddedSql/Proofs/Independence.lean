import EmbeddedSql.Proofs.DirectiveText
import EmbeddedSql.Proofs.Slicing

/-!
# Literals do not interfere

Whoever edits the inside of one literal must not disturb the others: which
literals there are stays as it is, and every other literal is highlighted as
before, or passed over for the same reason. This compares two runs, on buffers
of one size that agree everywhere but on the literal (`AgreeOff`).

Stitching reads units only where it looks for braces. A brace of a hole is never
string text, and the one place where a brace is looked for without asking the
tags, between holes that touch, is reached only where no string tag is. So
buffers that agree off string text have the same literals (`AgreeOff.literalsIn_congr`).
What a literal adds to a report, its share, is then read off its own fragments
and off comments, and these are untouched if no comment stands on the literal
edited. A report is the shares of its literals put together (`report_eq_share`).
-/

namespace EmbeddedSql

/-! ## What comments are read for -/

/-- Where literals are highlighted depends on what the comments seen ask for. -/
theorem Regions.walk_congr {directive directive' : Span → Option Directive} {comments : List Span}
    (h : ∀ c ∈ comments, directive' c = directive c) (stop : Nat) (since : Option Nat) :
    walk directive' stop since comments = walk directive stop since comments := by
  induction comments generalizing since with
  | nil => rfl
  | cons c comments ih =>
    obtain ⟨hc, hrest⟩ := List.forall_mem_cons.mp h
    simp only [walk, hc, ih hrest]

/-! ## Buffers compared -/

/-- **Buffers that agree off a set of positions**, and have the same size. -/
structure AgreeOff (touched : Nat → Prop) (b b' : Buffer) : Prop where
  /-- They have the same size. -/
  size : b'.size = b.size
  /-- They have the same units where nothing was touched. -/
  unit : ∀ p, ¬ touched p → b'.unit? p = b.unit? p

namespace AgreeOff

variable {touched : Nat → Prop} {b b' : Buffer}

theorem mono (h : AgreeOff touched b b') {wider : Nat → Prop} (hle : ∀ p, touched p → wider p) :
    AgreeOff wider b b' :=
  ⟨h.size, fun p hp => h.unit p fun ht => hp (hle p ht)⟩

theorem isAt_congr (h : AgreeOff touched b b') {p : Nat} (hp : ¬ touched p) (c : Char) :
    b'.isAt p c = b.isAt p c := by
  rw [Buffer.isAt, h.unit p hp, Buffer.isAt]

theorem full_congr (h : AgreeOff touched b b') : b'.full = b.full := by
  rw [Buffer.full, h.size, Buffer.full]

/-- A span that was not touched selects the same units. -/
theorem slice_congr (h : AgreeOff touched b b') {s : Span} (hs : ∀ p ∈ s, ¬ touched p) :
    b'.slice s = b.slice s := by
  have hsize : b'.units.size = b.units.size := h.size
  refine List.ext_getElem? fun i => ?_
  rw [Buffer.slice, Buffer.slice, Array.getElem?_toList, Array.getElem?_toList,
    Array.getElem?_extract, Array.getElem?_extract, hsize]
  split
  · next hi => exact h.unit (s.start + i) (hs _ ⟨Nat.le_add_right _ _, by omega⟩)
  · rfl

/-! ## Stitching -/

section Stitching

variable {index : TagIndex}

open Stitch

/-- Whether a brace of a hole stands somewhere does not depend on string text. -/
theorem isHoleBrace_congr (h : AgreeOff (IsString index) b b') (p : Nat) (c : Char) :
    isHoleBrace b' index p c = isHoleBrace b index p c := by
  by_cases hp : IsString index p
  · rw [isHoleBrace, isHoleBrace, show index.isKindAt p .string = true from hp]
    simp
  · rw [isHoleBrace, isHoleBrace, h.isAt_congr hp]

theorem extendForward_congr (h : AgreeOff (IsString index) b b') (s : Span) :
    extendForward b' index s = extendForward b index s := by
  fun_induction extendForward b index s with
  | case1 s hsize next hnext hlt ih =>
    rw [extendForward, h.size, if_pos hsize, hnext]
    simp only [if_pos hlt, ih]
  | case2 s hsize next hnext hlt =>
    rw [extendForward, h.size, if_pos hsize, hnext]
    simp only [if_neg hlt]
  | case3 s hsize hnext => rw [extendForward, h.size, if_pos hsize, hnext]
  | case4 s hsize => rw [extendForward, h.size, if_neg hsize]

theorem matchBackward_congr (h : AgreeOff (IsString index) b b') (nesting pos : Nat) :
    matchBackward b' index nesting pos = matchBackward b index nesting pos := by
  induction pos generalizing nesting with
  | zero => rfl
  | succ pos ih => simp only [matchBackward, h.isHoleBrace_congr, ih]

theorem matchForward_congr (h : AgreeOff (IsString index) b b') (nesting pos : Nat) :
    matchForward b' index nesting pos = matchForward b index nesting pos := by
  fun_induction matchForward b index nesting pos with
  | case1 nesting pos hroom hclose hone =>
    rw [matchForward, h.size, if_pos hroom, h.isHoleBrace_congr, if_pos hclose, if_pos hone]
  | case2 nesting pos hroom hclose hmany ih =>
    rw [matchForward, h.size, if_pos hroom, h.isHoleBrace_congr, if_pos hclose, if_neg hmany, ih]
  | case3 nesting pos hroom hclose hopen ih =>
    rw [matchForward, h.size, if_pos hroom, h.isHoleBrace_congr, if_neg hclose, h.isHoleBrace_congr,
      if_pos hopen, ih]
  | case4 nesting pos hroom hclose hopen ih =>
    rw [matchForward, h.size, if_pos hroom, h.isHoleBrace_congr, if_neg hclose, h.isHoleBrace_congr,
      if_neg hopen, ih]
  | case5 nesting pos hroom => rw [matchForward, h.size, if_neg hroom]

/-- Crossing holes reads braces of holes, and one unit between them that has just
been found to be no string. -/
theorem afterHoles_congr (h : AgreeOff (IsString index) b b') (pos : Nat) :
    afterHoles b' index pos = afterHoles b index pos := by
  fun_induction afterHoles b index pos with
  | case1 pos hopen hnone =>
    rw [afterHoles_eq, h.isHoleBrace_congr, if_pos hopen, h.matchForward_congr, hnone]
  | case2 pos hopen last hlast _ next hnext =>
    rw [afterHoles_eq, h.isHoleBrace_congr, if_pos hopen, h.matchForward_congr, hlast]
    simp only [hnext, h.extendForward_congr]
  | case3 pos hopen last hlast _ hnext hat ih =>
    -- No string tag is behind the hole, so the unit looked at there is the same in both.
    have hcode := Bool.eq_false_iff.mp (TagIndex.nextString?_eq_none.mp hnext)
    rw [afterHoles_eq, h.isHoleBrace_congr, if_pos hopen, h.matchForward_congr, hlast]
    simp only [hnext, h.isAt_congr hcode, if_pos hat, ih]
  | case4 pos hopen last hlast _ hnext hat =>
    have hcode := Bool.eq_false_iff.mp (TagIndex.nextString?_eq_none.mp hnext)
    rw [afterHoles_eq, h.isHoleBrace_congr, if_pos hopen, h.matchForward_congr, hlast]
    simp only [hnext, h.isAt_congr hcode, if_neg hat]
  | case5 pos hopen => rw [afterHoles_eq, h.isHoleBrace_congr, if_neg hopen]

theorem beforeHoles_congr (h : AgreeOff (IsString index) b b') (pos : Nat) :
    beforeHoles b' index pos = beforeHoles b index pos := by
  fun_induction beforeHoles b index pos with
  | case1 pos hclose hnone =>
    rw [beforeHoles_eq, h.isHoleBrace_congr, if_pos hclose, h.matchBackward_congr, hnone]
  | case2 pos hclose first hfirst _ prev hprev =>
    rw [beforeHoles_eq, h.isHoleBrace_congr, if_pos hclose, h.matchBackward_congr, hfirst]
    simp only [hprev]
  | case3 pos hclose first hfirst _ hprev hat ih =>
    have hcode := Bool.eq_false_iff.mp (TagIndex.previousString?_eq_none.mp hprev)
    rw [beforeHoles_eq, h.isHoleBrace_congr, if_pos hclose, h.matchBackward_congr, hfirst]
    simp only [hprev, h.isAt_congr hcode, if_pos hat, ih]
  | case4 pos hclose first hfirst _ hprev hat =>
    have hcode := Bool.eq_false_iff.mp (TagIndex.previousString?_eq_none.mp hprev)
    rw [beforeHoles_eq, h.isHoleBrace_congr, if_pos hclose, h.matchBackward_congr, hfirst]
    simp only [hprev, h.isAt_congr hcode, if_neg hat]
  | case5 pos hclose => rw [beforeHoles_eq, h.isHoleBrace_congr, if_neg hclose]

theorem walkForward_congr (h : AgreeOff (IsString index) b b') (edge : Span) :
    walkForward b' index edge = walkForward b index edge := by
  fun_induction walkForward b index edge with
  | case1 edge hroom next hnext _ more cut hwalk ih =>
    rw [walkForward_eq, h.size, if_pos hroom, h.afterHoles_congr, hnext]
    simp only [ih, hwalk]
  | case2 edge hroom hnext => rw [walkForward_eq, h.size, if_pos hroom, h.afterHoles_congr, hnext]
  | case3 edge hroom hnext => rw [walkForward_eq, h.size, if_pos hroom, h.afterHoles_congr, hnext]
  | case4 edge hroom => rw [walkForward_eq, h.size, if_neg hroom]

theorem walkBackward_congr (h : AgreeOff (IsString index) b b') (edge : Span) :
    walkBackward b' index edge = walkBackward b index edge := by
  fun_induction walkBackward b index edge with
  | case1 edge hroom prev hprev _ more cut hwalk ih =>
    rw [walkBackward_eq, if_pos hroom, h.beforeHoles_congr, hprev]
    simp only [ih, hwalk]
  | case2 edge hroom hprev => rw [walkBackward_eq, if_pos hroom, h.beforeHoles_congr, hprev]
  | case3 edge hroom hprev => rw [walkBackward_eq, if_pos hroom, h.beforeHoles_congr, hprev]
  | case4 edge hroom => rw [walkBackward_eq, if_neg hroom]

theorem stitch_congr (h : AgreeOff (IsString index) b b') (seed : Span) :
    stitch b' index seed = stitch b index seed := by
  have hwhole : complete b' index seed = complete b index seed := by
    rw [complete, h.extendForward_congr, complete]
  rw [stitch, stitch, hwhole, h.walkBackward_congr, h.walkForward_congr]

theorem stitchAll_congr (h : AgreeOff (IsString index) b b') (visited : SpanSet) (seeds : List Span) :
    stitchAll b' index visited seeds = stitchAll b index visited seeds := by
  induction seeds generalizing visited with
  | nil => rfl
  | cons seed seeds ih => simp only [stitchAll, h.stitch_congr, ih]

/-- **The literals of a request do not depend on what is written in strings.** -/
theorem literalsIn_congr (h : AgreeOff (IsString index) b b') (request : Span) :
    literalsIn b' index request = literalsIn b index request :=
  h.stitchAll_congr .empty _

end Stitching

/-! ## Highlighting -/

theorem headOf_congr (h : AgreeOff touched b b') {l : StitchedLiteral}
    (hfree : ∀ p ∈ l.fragments, ¬ touched p) (style : LiteralStyle) :
    headOf style b' l = headOf style b l := by
  unfold headOf
  cases hfirst : l.fragments.first? with
  | none => rfl
  | some first =>
    have hmem := (SpanSet.first?_eq_some hfirst).1
    simp only [h.slice_congr fun p hp => hfree p ⟨first, hmem, hp⟩]

theorem contentOf_congr (h : AgreeOff touched b b') {l : StitchedLiteral}
    (hfree : ∀ p ∈ l.fragments, ¬ touched p) (head : LiteralHead) :
    contentOf b' head l.fragments.toList = contentOf b head l.fragments.toList := by
  have htrim : ∀ x ∈ l.fragments.toList.zipIdx, ∀ isFirst isLast,
      trimFragment? b' head isFirst isLast x.1 = trimFragment? b head isFirst isLast x.1 := by
    intro x hx isFirst isLast
    have hmem := List.fst_mem_of_mem_zipIdx hx
    unfold trimFragment? endsWithClosing
    rw [h.slice_congr fun p hp => hfree p ⟨x.1, hmem, hp⟩]
  unfold contentOf
  rw [List.filterMap_congr fun x hx => htrim x hx (x.2 == 0) (x.2 + 1 == l.fragments.toList.length)]

/-- Decoding reads the spans it is given and nothing else. -/
theorem mapM_decode_congr (h : AgreeOff touched b b') {content : List Span}
    (hfree : ∀ s ∈ content, ∀ p ∈ s, ¬ touched p) (kind : LiteralKind) :
    (content.mapM fun s => (Decoded.ofUnits kind (b'.slice s)).map (s.start, ·)) =
      content.mapM fun s => (Decoded.ofUnits kind (b.slice s)).map (s.start, ·) := by
  induction content with
  | nil => rfl
  | cons s content ih =>
    obtain ⟨hs, hrest⟩ := List.forall_mem_cons.mp hfree
    rw [List.mapM_cons, List.mapM_cons, h.slice_congr hs, ih hrest]

/-- **A literal that was not touched is highlighted as before.** -/
theorem tagLiteral_congr (h : AgreeOff touched b b') {l : StitchedLiteral}
    (hfree : ∀ p ∈ l.fragments, ¬ touched p) (style : LiteralStyle) :
    tagLiteral style b' l = tagLiteral style b l := by
  unfold tagLiteral
  rw [h.headOf_congr hfree]
  refine bind_congr fun head => ?_
  rw [h.contentOf_congr hfree]
  cases hcontent : contentOf b head l.fragments.toList with
  | error e => rfl
  | ok content =>
    have hinside : ∀ s ∈ content, ∀ p ∈ s, ¬ touched p := by
      intro s hs p hp
      obtain ⟨f, hf, hlo, hhi⟩ := (contentOf_bounds hcontent).1 s hs
      exact hfree p ⟨f, hf, Nat.le_trans hlo hp.1, Nat.lt_of_lt_of_le hp.2 hhi⟩
    simp only [bind, Except.bind, h.mapM_decode_congr hinside]

/-! ## Comments -/

/-- A comment that was not touched asks for the same. -/
theorem directiveAt?_congr (h : AgreeOff touched b b') {s : Span} (hfree : ∀ p ∈ s, ¬ touched p) :
    directiveAt? b' s = directiveAt? b s := by
  rw [directiveAt?_eq, directiveAt?_eq, h.slice_congr hfree]

section Comments

variable {index : TagIndex}

/-- Comments that were not touched divide the buffer as before. -/
theorem enabledRegions_congr (h : AgreeOff touched b b')
    (hfree : ∀ p, index.isKindAt p .comment = true → ¬ touched p) (request : Span) (byDefault : Bool) :
    enabledRegions b' index request byDefault = enabledRegions b index request byDefault := by
  have hdirective : ∀ c ∈ (Regions.commentsTo index request.stop).toList,
      directiveAt? b' c = directiveAt? b c := fun c hc =>
    h.directiveAt?_congr fun p hp => hfree p (Regions.isKindAt_of_mem_commentsTo ⟨c, hc, hp⟩)
  exact congrArg SpanSet.ofSpans (Regions.walk_congr hdirective request.stop _)

theorem inlineOverride?_congr (h : AgreeOff touched b b')
    (hfree : ∀ p, index.isKindAt p .comment = true → ¬ touched p) (start : Nat) :
    inlineOverride? b' index start = inlineOverride? b index start := by
  cases start with
  | zero => rfl
  | succ pos =>
    have hdirective : (index.firstComment? pos).bind (directiveAt? b') =
        (index.firstComment? pos).bind (directiveAt? b) := by
      refine Option.bind_congr fun c hc => h.directiveAt?_congr fun p hp => hfree p ?_
      obtain ⟨t, ht, hkind, rfl⟩ := TagIndex.firstComment?_eq_some hc
      exact TagIndex.isKindAt_iff.mpr ⟨t, ht, hkind, hp⟩
    rw [inlineOverride?, hdirective, inlineOverride?]

end Comments

end AgreeOff

namespace Highlighter

variable {touched : Nat → Prop} {b b' : Buffer} {index : TagIndex}

/-- **What a literal adds to the report of a request**, which counts only as far
as it lies in the buffer. -/
def share (h : Highlighter) (b : Buffer) (index : TagIndex) (request : Span) (l : StitchedLiteral) :
    Report :=
  match request.inter? b.full with
  | none => {}
  | some clipped =>
    h.contribution b index (enabledRegions b index clipped h.enabledByDefault) clipped l

/-- A report is what its literals add to it, with the tags sorted. -/
theorem report_eq_share (h : Highlighter) {request clipped : Span}
    (hclip : request.inter? b.full = some clipped) :
    h.report b index request =
      let all := ((literalsIn b index clipped).map (h.share b index request)).foldr Report.append {}
      { all with tags := all.tags.mergeSort fun s t => decide (s.span ≤ t.span) } := by
  have hshare : h.share b index request =
      h.contribution b index (enabledRegions b index clipped h.enabledByDefault) clipped := by
    funext l
    rw [share, hclip]
  rw [report, hclip, hshare]

/-- A literal that was not touched adds the same, if no comment was touched. -/
theorem share_congr (h : Highlighter) (hsame : AgreeOff touched b b')
    (hfree : ∀ p, index.isKindAt p .comment = true → ¬ touched p) {m : StitchedLiteral}
    (hm : ∀ p ∈ m.fragments, ¬ touched p) (request : Span) :
    h.share b' index request m = h.share b index request m := by
  unfold share contribution isEnabled
  simp only [hsame.full_congr, hsame.enabledRegions_congr hfree, hsame.inlineOverride?_congr hfree,
    hsame.tagLiteral_congr hm]

/-- **Literals do not interfere.** If two buffers of one size differ only inside
one literal of the first, on which no comment stands, then every request finds
the same literals in both, and every literal that shares no position with that
one adds the same to its report: tags, and the reasons for which it was passed
over or cut short. -/
theorem literalsIn_share_unaffected (h : Highlighter) {b b' : Buffer} {index : TagIndex}
    {origin : Span} {l : StitchedLiteral} (hl : l ∈ literalsIn b index origin)
    (hcomment : ∀ t ∈ index.toList, t.kind = .comment → ∀ p ∈ t.span, p ∉ l.fragments)
    (hsame : AgreeOff (· ∈ l.fragments) b b') (request : Span) :
    literalsIn b' index request = literalsIn b index request ∧
      ∀ m : StitchedLiteral, (∀ p ∈ m.fragments, p ∉ l.fragments) →
        h.share b' index request m = h.share b index request m := by
  refine ⟨?_, fun m hm => h.share_congr hsame (fun p hp => ?_) hm request⟩
  · exact (hsame.mono fun p hp => Stitch.isString_of_mem_literalsIn hl hp).literalsIn_congr request
  · obtain ⟨t, ht, hkind, hpt⟩ := TagIndex.isKindAt_iff.mp hp
    exact hcomment t ht hkind p hpt

/-- Two literals behind a comment. In the first an escape is written that stands
for nothing, and the second is highlighted as before. -/
theorem literalsIn_share_unaffected_badEscape :
    ∃ (b b' : Buffer) (index : TagIndex) (l m : StitchedLiteral),
      b = .ofText "/*x*/\"ab\" \"cd\"" ∧ b' = .ofText "/*x*/\"\\q\" \"cd\"" ∧
      index.toList = [⟨⟨0, 5⟩, .comment⟩, ⟨⟨5, 4⟩, .string⟩, ⟨⟨10, 4⟩, .string⟩] ∧
      literalsIn b index b.full = [l, m] ∧
      (∀ t ∈ index.toList, t.kind = .comment → ∀ p ∈ t.span, p ∉ l.fragments) ∧
      AgreeOff (· ∈ l.fragments) b b' ∧ (∀ p ∈ m.fragments, p ∉ l.fragments) ∧
      literalsIn b' index b.full = [l, m] ∧
      share {} b' index b.full m = share {} b index b.full m := by
  let b : Buffer := .ofText "/*x*/\"ab\" \"cd\""
  let b' : Buffer := .ofText "/*x*/\"\\q\" \"cd\""
  let index : TagIndex := .ofSorted
    [⟨⟨0, 5⟩, .comment⟩, ⟨⟨5, 4⟩, .string⟩, ⟨⟨10, 4⟩, .string⟩] (by decide) (by decide)
  let l : StitchedLiteral := ⟨.single ⟨5, 4⟩, none⟩
  let m : StitchedLiteral := ⟨.single ⟨10, 4⟩, none⟩
  have hstitch : ∀ s ∈ [(⟨5, 4⟩ : Span), ⟨10, 4⟩], Stitch.complete b index s = s ∧
      Stitch.walkBackward b index s = ([], false) ∧ Stitch.walkForward b index s = ([], false) := by
    decide +kernel
  have hseeds : (index.spansOf .string b.full).toList = [⟨5, 4⟩, ⟨10, 4⟩] := by
    have hquery : ((index.query b.full).filter fun t => t.kind == .string).map HostTag.span =
        [⟨5, 4⟩, ⟨10, 4⟩] := by decide +kernel
    rw [TagIndex.spansOf, hquery]
    cbv
  have hone : ∀ s ∈ [(⟨5, 4⟩ : Span), ⟨10, 4⟩], stitch b index s = ⟨.single s, none⟩ := by
    intro s hs
    obtain ⟨hwhole, hbefore, hafter⟩ := hstitch s hs
    rw [stitch, hwhole, hbefore, hafter]
    rfl
  have hboth : literalsIn b index b.full = [l, m] := by
    have hfree : ¬ (SpanSet.empty.union (.single ⟨5, 4⟩)).contains 10 = true := by
      rw [SpanSet.contains_iff, SpanSet.mem_union, SpanSet.mem_empty, SpanSet.mem_single]
      decide
    have hnone : ¬ SpanSet.empty.contains 5 = true := by decide
    rw [literalsIn, hseeds]
    simp only [stitchAll, if_neg hnone, hone ⟨5, 4⟩ (by decide), if_neg hfree,
      hone ⟨10, 4⟩ (by decide), l, m]
  have hl : ∀ p, p ∈ l.fragments ↔ p ∈ (⟨5, 4⟩ : Span) := fun p => SpanSet.mem_single
  have hcomment : ∀ t ∈ index.toList, t.kind = .comment → ∀ p ∈ t.span, p ∉ l.fragments := by
    intro t ht hkind p hp hpl
    have hstop : ∀ t ∈ index.toList, t.kind = .comment → t.span.stop ≤ 5 := by decide
    exact Nat.lt_irrefl _ (Nat.lt_of_lt_of_le (Nat.lt_of_lt_of_le hp.2 (hstop t ht hkind))
      ((hl p).mp hpl).1)
  have hsame : AgreeOff (· ∈ l.fragments) b b' := by
    refine ⟨by decide +kernel, fun p hp => ?_⟩
    rw [hl] at hp
    have hshort : ∀ p < 14, p ∉ (⟨5, 4⟩ : Span) → b'.unit? p = b.unit? p := by decide +kernel
    by_cases hlt : p < 14
    · exact hshort p hlt hp
    · have hsize : b.units.size = 14 ∧ b'.units.size = 14 := by decide +kernel
      rw [Buffer.unit?, Buffer.unit?, Array.getElem?_eq_none (by omega),
        Array.getElem?_eq_none (by omega)]
  have hapart : ∀ p ∈ m.fragments, p ∉ l.fragments := by
    intro p hp hpl
    have hlo : 10 ≤ p := (SpanSet.mem_single.mp hp).1
    have hhi : p < 5 + 4 := ((hl p).mp hpl).2
    omega
  obtain ⟨hlits, hshare⟩ := literalsIn_share_unaffected {}
    (hboth ▸ List.mem_cons_self : l ∈ literalsIn b index b.full) hcomment hsame b.full
  exact ⟨b, b', index, l, m, rfl, rfl, rfl, hboth, hcomment, hsame, hapart, hlits.trans hboth,
    hshare m hapart⟩

end Highlighter

end EmbeddedSql
