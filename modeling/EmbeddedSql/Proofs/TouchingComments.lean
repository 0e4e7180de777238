import EmbeddedSql.Proofs.DirectiveText
import EmbeddedSql.Proofs.LastDirective
import EmbeddedSql.Proofs.Progress

/-!
# Comments that touch

The walk over directives takes the comments of a buffer from a set of positions,
and such a set does not show where one comment ends and the next begins if nothing
stands between them. So a run of comments that touch is read as one comment. The end
marks inside it become part of its text, and a directive may be lost.

None is gained. A run has a directive only if its first
comment has the same one (`exists_comment_of_run`): that comment is a block, since a
line comment is followed by a line break, and a directive that is complete with the
text behind the end mark is complete before it. The other comments of a run do not
count at all. Hence a position is enabled as the single comments would have it,
unless the last of them that switches is one that touches another.
-/

namespace EmbeddedSql

open Utf16 (ascii)

namespace Host

variable {b : Buffer}

/-! ## Comments and runs of comments -/

/-- The comments of a buffer, in order. -/
def comments (b : Buffer) : List Span :=
  ((classify b).toList.filter fun t => t.kind == .comment).map HostTag.span

/-- The positions of the comments of a buffer. Its parts are the runs of comments
that touch. -/
def commentRuns (b : Buffer) : SpanSet := (classify b).spansOf .comment (.between 0 b.full.stop)

theorem mem_comments {s : Span} :
    s ∈ comments b ↔ ∃ t ∈ (classify b).toList, t.kind = .comment ∧ t.span = s := by
  simp only [comments, List.mem_map, List.mem_filter, beq_iff_eq, and_assoc]

theorem len_pos_of_mem_comments {s : Span} (hs : s ∈ comments b) : 0 < s.len := by
  obtain ⟨t, ht, -, rfl⟩ := mem_comments.mp hs
  exact (classify b).nonempty t ht

/-- Comments that share a position are the same. -/
theorem eq_of_mem_comments {s t : Span} (hs : s ∈ comments b) (ht : t ∈ comments b) {p : Nat}
    (hps : p ∈ s) (hpt : p ∈ t) : s = t := by
  obtain ⟨u, hu, -, rfl⟩ := mem_comments.mp hs
  obtain ⟨v, hv, -, rfl⟩ := mem_comments.mp ht
  have hu := (TagIndex.mem_toList_ofTags.mp hu).1
  have hv := (TagIndex.mem_toList_ofTags.mp hv).1
  rw [(layout_scan b).1.eq_of_mem hu hv hps hpt]

theorem stop_le_size_of_mem_comments {s : Span} (hs : s ∈ comments b) : s.stop ≤ b.size := by
  obtain ⟨t, ht, -, rfl⟩ := mem_comments.mp hs
  exact ((layout_scan b).1.bounds (TagIndex.mem_toList_ofTags.mp ht).1).2

theorem pairwise_comments (b : Buffer) : (comments b).Pairwise fun s t => s.stop < t.stop := by
  rw [comments, List.pairwise_map]
  refine ((pairwise_classify b).filter _).imp_of_mem fun {t u} _ hu htu => ?_
  have hpos := (classify b).nonempty u (List.mem_filter.mp hu).1
  rw [Span.stop] at htu ⊢
  rw [Span.stop]
  omega

theorem mem_commentRuns {p : Nat} : p ∈ commentRuns b ↔ ∃ s ∈ comments b, p ∈ s := by
  constructor
  · intro hp
    obtain ⟨t, ht, hkind, -, hpt⟩ := TagIndex.mem_spansOf.mp hp
    exact ⟨t.span, mem_comments.mpr ⟨t, ht, hkind, rfl⟩, hpt⟩
  · rintro ⟨s, hs, hps⟩
    have hlt : p < b.full.stop := by
      have := stop_le_size_of_mem_comments hs
      have := hps.2
      show p < 0 + b.size
      omega
    obtain ⟨t, ht, hkind, rfl⟩ := mem_comments.mp hs
    exact (Regions.mem_commentsTo hlt).mpr (TagIndex.isKindAt_iff.mpr ⟨t, ht, hkind, hps⟩)

theorem stop_le_size_of_mem_runs {run : Span} (hrun : run ∈ (commentRuns b).toList) :
    run.stop ≤ b.size := by
  have hlast := Span.pred_stop_mem ((commentRuns b).normal.nonempty run hrun)
  obtain ⟨s, hs, hmem⟩ := mem_commentRuns.mp ⟨run, hrun, hlast⟩
  have := stop_le_size_of_mem_comments hs
  have := hmem.2
  omega

/-- A comment that goes on where another stops begins there. -/
theorem start_eq_of_stop_mem {s t : Span} (hs : s ∈ comments b) (ht : t ∈ comments b)
    (h : s.stop ∈ t) : t.start = s.stop := by
  have hpos := len_pos_of_mem_comments hs
  refine Nat.le_antisymm h.1 (Nat.le_of_not_lt fun hlt => ?_)
  have hshared : s.stop - 1 ∈ t := ⟨by omega, by have := h.2; omega⟩
  rw [← eq_of_mem_comments hs ht (Span.pred_stop_mem hpos) hshared] at h
  exact Nat.lt_irrefl _ h.2

/-- A comment that touches no other is a run. -/
theorem mem_commentRuns_of_lone {s : Span} (hs : s ∈ comments b)
    (hlone : ∀ t ∈ comments b, s.stop ≠ t.start ∧ t.stop ≠ s.start) : s ∈ (commentRuns b).toList := by
  have hin : ∀ p ∈ s, p ∈ commentRuns b := fun p hp => mem_commentRuns.mpr ⟨s, hs, hp⟩
  have hstart := Span.start_mem (len_pos_of_mem_comments hs)
  obtain ⟨run, hrun, hmem⟩ := hin _ hstart
  obtain ⟨hleft, hright⟩ := SpanSet.within_of_mem hin hrun hstart hmem
  rw [Span.mem_def] at hmem
  obtain rfl : s = run := by
    refine Span.ext_bounds (Nat.le_antisymm (Nat.le_of_not_lt fun hlt => ?_) hleft)
      (Nat.le_antisymm hright (Nat.le_of_not_lt fun hlt => ?_))
    · -- Some comment holds the position before it, and so stops where it starts.
      obtain ⟨t, ht, hpt⟩ := mem_commentRuns.mp
        (⟨run, hrun, ⟨by omega, by omega⟩⟩ : s.start - 1 ∈ commentRuns b)
      refine (hlone t ht).2 (Nat.le_antisymm (Nat.le_of_not_lt fun hbehind => ?_) ?_)
      · rw [← eq_of_mem_comments hs ht hstart ⟨by have := hpt.1; omega, hbehind⟩] at hpt
        have := hpt.1
        omega
      · have := hpt.2
        omega
    · have hle := s.start_le_stop
      obtain ⟨t, ht, hpt⟩ := mem_commentRuns.mp
        (⟨run, hrun, ⟨by omega, hlt⟩⟩ : s.stop ∈ commentRuns b)
      exact (hlone t ht).1 (start_eq_of_stop_mem hs ht hpt).symm
  exact hrun

/-- A run begins with a comment, and goes on with another if that is not all. -/
theorem exists_first_comment {run : Span} (hrun : run ∈ (commentRuns b).toList) :
    ∃ s ∈ comments b, s.start = run.start ∧ s.stop ≤ run.stop ∧
      (s.stop < run.stop → ∃ t ∈ comments b, t.start = s.stop ∧ t.stop ≤ run.stop) := by
  have hin : ∀ s ∈ comments b, ∀ p ∈ s, p ∈ commentRuns b := fun s hs p hp => mem_commentRuns.mpr ⟨s, hs, hp⟩
  have hstart := Span.start_mem ((commentRuns b).normal.nonempty run hrun)
  obtain ⟨s, hs, hmem⟩ := mem_commentRuns.mp ⟨run, hrun, hstart⟩
  obtain ⟨hleft, hright⟩ := SpanSet.within_of_mem (hin s hs) hrun hmem hstart
  refine ⟨s, hs, Nat.le_antisymm hmem.1 hleft, hright, fun hlt => ?_⟩
  have hbehind : s.stop ∈ run := ⟨Nat.le_of_lt hmem.2, hlt⟩
  obtain ⟨t, ht, hpt⟩ := mem_commentRuns.mp ⟨run, hrun, hbehind⟩
  exact ⟨t, ht, start_eq_of_stop_mem hs ht hpt,
    (SpanSet.within_of_mem (hin t ht) hrun hpt hbehind).2⟩

/-! ## What a run says -/

theorem codeMove_of_mem_comments {s : Span} (hs : s ∈ comments b) :
    codeMove b s.start = .past (some .comment) s.stop := by
  obtain ⟨t, ht, hkind, rfl⟩ := mem_comments.mp hs
  obtain ⟨pos, next, hm, hlt, hspan⟩ :=
    ((layout_scan b).2 t (TagIndex.mem_toList_ofTags.mp ht).1).comment hkind
  rw [hspan, Span.stop_between, Nat.max_eq_right (Nat.le_of_lt hlt)]
  exact hm

/-- A comment has at least its two opening units. -/
theorem start_add_two_le {s : Span} (hs : s ∈ comments b) : s.start + 2 ≤ s.stop := by
  rcases (comment_of_codeMove (codeMove_of_mem_comments hs)).2 with ⟨-, hstop⟩ | ⟨-, hstop⟩
  · rw [hstop]
    exact le_skipWhile _ _ _
  · rw [hstop]
    exact le_blockEnd _ _

/-- **A comment that touches the next one is a block** with its end mark. -/
theorem slice_of_touching {s t : Span} (hs : s ∈ comments b) (ht : t ∈ comments b)
    (htouch : t.start = s.stop) :
    ∃ body, b.slice s = ascii '/' :: ascii '*' :: (body ++ [ascii '*', ascii '/']) := by
  have hslash := (comment_of_codeMove (codeMove_of_mem_comments ht)).1
  rw [htouch] at hslash
  have hsize := lt_size_of_isAt hslash
  obtain ⟨hopen, ⟨-, hstop⟩ | ⟨hstar, hstop⟩⟩ := comment_of_codeMove (codeMove_of_mem_comments hs)
  · -- A line comment is followed by a line break, and no comment begins with one.
    rw [hstop] at hslash hsize
    have hbreak := isLineBreakAt_lineEnd hsize
    rw [Buffer.isAt, beq_iff_eq] at hslash
    rw [isLineBreakAt, hslash] at hbreak
    exact absurd hbreak (by decide)
  · rw [hstop] at hsize
    obtain ⟨mark, hle, hmark, hend, hend'⟩ := isAt_of_blockEnd_lt hsize
    rw [hmark] at hstop
    refine ⟨b.slice (.between (s.start + 2) mark), ?_⟩
    conv_lhs => rw [← s.between_start_stop, hstop]
    rw [slice_of_isAt hopen (by omega), slice_of_isAt hstar (by omega), ← b.slice_append hle (by omega : mark ≤ mark + 2), slice_of_isAt hend (by omega),
      slice_of_isAt hend' (by omega), b.slice_of_le (Nat.le_refl _)]

/-- **A run says nothing that its first comment does not say.** -/
theorem exists_comment_of_run {run : Span} (hrun : run ∈ (commentRuns b).toList) {d : Directive}
    (hd : directiveAt? b run = some d) :
    ∃ s ∈ comments b, s.start = run.start ∧ s.stop ≤ run.stop ∧ directiveAt? b s = some d := by
  obtain ⟨s, hs, hstart, hstop, hnext⟩ := exists_first_comment hrun
  refine ⟨s, hs, hstart, hstop, ?_⟩
  rcases Nat.lt_or_eq_of_le hstop with hlt | heq
  · obtain ⟨t, ht, htouch, hle⟩ := hnext hlt
    obtain ⟨body, hbody⟩ := slice_of_touching hs ht htouch
    have htwo := start_add_two_le ht
    have hsplit : b.slice run = b.slice s ++ b.slice (.between s.stop run.stop) := by
      rw [← run.between_start_stop, ← hstart, ← b.slice_append s.start_le_stop hstop,
        s.between_start_stop, Span.stop_between, Nat.max_eq_right (Nat.le_trans s.start_le_stop hstop)]
    have hlen : 2 ≤ (b.slice (.between s.stop run.stop)).length := by
      rw [b.length_slice (stop_le_size_of_mem_runs hrun)]
      omega
    rw [directiveAt?_eq, hsplit, hbody] at hd
    rw [directiveAt?_eq, hbody]
    refine Directive.ofComment?_of_append hlen ?_
    simpa using hd
  · rwa [Span.ext_bounds hstart heq]

/-! ## What is enabled -/

open Regions

/-- A run that switches begins with a comment that does the same on its own. -/
theorem exists_comment_of_switches {run : Span} (hrun : run ∈ (commentRuns b).toList)
    (h : switches (directiveAt? b) run = true) :
    ∃ s ∈ comments b, s.start = run.start ∧ s.stop ≤ run.stop ∧ switches (directiveAt? b) s = true ∧
      directiveAt? b s = directiveAt? b run := by
  obtain ⟨d, hd⟩ : ∃ d, directiveAt? b run = some d := by
    rw [switches, Bool.or_eq_true, beq_iff_eq, beq_iff_eq] at h
    exact h.elim (fun h => ⟨_, h⟩) (fun h => ⟨_, h⟩)
  obtain ⟨s, hs, hstart, hstop, hsame⟩ := exists_comment_of_run hrun hd
  rw [← hd] at hsame
  refine ⟨s, hs, hstart, hstop, ?_, hsame⟩
  rwa [switches, hsame]

/-- The last run that switches is the last comment that does, if that comment
touches no other. -/
theorem lastSwitch?_commentRuns {p : Nat}
    (hlone : ∀ s, lastSwitch? (directiveAt? b) (comments b) p = some s →
      ∀ t ∈ comments b, s.stop ≠ t.start ∧ t.stop ≠ s.start) :
    lastSwitch? (directiveAt? b) (commentRuns b).toList p =
      lastSwitch? (directiveAt? b) (comments b) p := by
  have hsorted : (commentRuns b).toList.Pairwise fun s t => s.stop < t.stop :=
    (commentRuns b).normal.apart.imp fun {_ t} hlt => Nat.lt_of_lt_of_le hlt t.start_le_stop
  cases hlast : lastSwitch? (directiveAt? b) (comments b) p with
  | none =>
    refine lastSwitch?_eq_none.mpr fun run hrun hstop hswitch => ?_
    obtain ⟨c, hc, -, hle, hsame, -⟩ := exists_comment_of_switches hrun hswitch
    exact lastSwitch?_eq_none.mp hlast c hc (Nat.le_trans hle hstop) hsame
  | some s =>
    obtain ⟨⟨hs, hstop, hswitch⟩, hbefore⟩ := (lastSwitch?_eq_some (pairwise_comments b)).mp hlast
    have hmem := mem_commentRuns_of_lone hs (hlone s hlast)
    refine (lastSwitch?_eq_some hsorted).mpr ⟨⟨hmem, hstop, hswitch⟩, fun run hrun hle hsays => ?_⟩
    obtain ⟨c, hc, hstart, hcstop, hsame, -⟩ := exists_comment_of_switches hrun hsays
    have hfirst := hbefore c hc (Nat.le_trans hcstop hle) hsame
    -- A run that stops behind the comment would have begun before it stops.
    refine Nat.le_of_not_lt fun hlt => ?_
    have hcle := c.start_le_stop
    have hin : s.stop ∈ commentRuns b := ⟨run, hrun, ⟨by omega, hlt⟩⟩
    have hle' := s.start_le_stop
    exact Nat.lt_irrefl _ ((SpanSet.mem_iff_of_mem_toList hmem ⟨by omega, Nat.le_refl _⟩).mp hin).2

/-- **What comments say when they touch.** In a scanned buffer the last run of
comments that switches decides what is enabled. A run that switches does what its
first comment says. So a position is enabled as the last single comment before it
that switches has it, provided that this comment touches no other. -/
theorem enabledRegions_touching (b : Buffer) (byDefault : Bool) :
    (∀ p < b.size, p ∈ enabledRegions b (classify b) b.full byDefault ↔
        switchedOn (directiveAt? b) byDefault (commentRuns b).toList p = true) ∧
      (∀ run ∈ (commentRuns b).toList, switches (directiveAt? b) run = true →
        ∃ s ∈ comments b, s.start = run.start ∧ s.stop ≤ run.stop ∧
          directiveAt? b s = directiveAt? b run) ∧
      ∀ p < b.size,
        (∀ s, lastSwitch? (directiveAt? b) (comments b) p = some s →
          ∀ t ∈ comments b, s.stop ≠ t.start ∧ t.stop ≠ s.start) →
        (p ∈ enabledRegions b (classify b) b.full byDefault ↔
          switchedOn (directiveAt? b) byDefault (comments b) p = true) := by
  have hruns : ∀ p < b.size, p ∈ enabledRegions b (classify b) b.full byDefault ↔
      switchedOn (directiveAt? b) byDefault (commentRuns b).toList p = true := fun p hp =>
    mem_enabledRegions_iff (Nat.lt_of_lt_of_eq hp (Nat.zero_add _).symm)
  refine ⟨hruns, fun run hrun hswitch => ?_, fun p hp hlone => ?_⟩
  · obtain ⟨s, hs, hstart, hstop, -, hsame⟩ := exists_comment_of_switches hrun hswitch
    exact ⟨s, hs, hstart, hstop, hsame⟩
  · rw [hruns p hp, switchedOn, lastSwitch?_commentRuns hlone]
    rfl

/-- A run of two comments whose text says that literals are off, with the second
comment as part of the remark, and then a comment on its own that says on. -/
theorem enabledRegions_touching_remark :
    ∃ b : Buffer, b = .ofText "/*strpsql-off --*//**/x//strpsql-on\ny" ∧ 22 < b.size ∧ 36 < b.size ∧
      (commentRuns b).toList = [⟨0, 22⟩, ⟨23, 12⟩] ∧ comments b = [⟨0, 18⟩, ⟨18, 4⟩, ⟨23, 12⟩] ∧
      22 ∉ enabledRegions b (classify b) b.full true ∧
      (∃ s ∈ comments b, s.start = 0 ∧ s.stop ≤ 22 ∧ directiveAt? b s = directiveAt? b ⟨0, 22⟩) ∧
      36 ∈ enabledRegions b (classify b) b.full true := by
  obtain ⟨b, hb⟩ : ∃ b : Buffer, b = .ofText "/*strpsql-off --*//**/x//strpsql-on\ny" := ⟨_, rfl⟩
  have hsize : b.size = 37 := by subst hb; decide +kernel
  have hscan : (scan b).tags.toList =
      [⟨⟨0, 18⟩, .comment⟩, ⟨⟨18, 4⟩, .comment⟩, ⟨⟨23, 12⟩, .comment⟩] := by
    subst hb
    decide +kernel
  have hcomments : comments b = [⟨0, 18⟩, ⟨18, 4⟩, ⟨23, 12⟩] := by
    rw [comments, toList_classify, hscan]
    rfl
  have hblocks : (commentRuns b).toList = [⟨0, 22⟩, ⟨23, 12⟩] := by
    have hstop : b.full.stop = 37 := (Nat.zero_add _).trans hsize
    rw [commentRuns, classify, hscan, hstop]
    cbv
  have hoff : switchedOn (directiveAt? b) true [⟨0, 22⟩, ⟨23, 12⟩] 22 = false ∧
      switches (directiveAt? b) ⟨0, 22⟩ = true := by
    subst hb
    decide +kernel
  have hon : lastSwitch? (directiveAt? b) [⟨0, 18⟩, ⟨18, 4⟩, ⟨23, 12⟩] 36 = some ⟨23, 12⟩ ∧
      switchedOn (directiveAt? b) true [⟨0, 18⟩, ⟨18, 4⟩, ⟨23, 12⟩] 36 = true := by
    subst hb
    decide +kernel
  obtain ⟨hruns, hbegins, hlone⟩ := enabledRegions_touching b true
  rw [hblocks] at hruns hbegins
  refine ⟨b, hb, by omega, by omega, hblocks, hcomments, ?_, ?_, ?_⟩
  · rw [hruns 22 (by omega), hoff.1]
    exact Bool.false_ne_true
  · exact hbegins ⟨0, 22⟩ List.mem_cons_self hoff.2
  · rw [hcomments] at hlone
    refine (hlone 36 (by omega) fun s hs => ?_).mpr hon.2
    obtain rfl : ⟨23, 12⟩ = s := Option.some.inj (hon.1.symm.trans hs)
    decide

/-- A comment that says off, and an empty comment that touches it: on its own the
first one would count, but highlighting stays on. -/
theorem enabledRegions_touching_lost :
    ∃ b : Buffer, b = .ofText "/*strpsql-off*//**/x" ∧ 19 < b.size ∧
      comments b = [⟨0, 15⟩, ⟨15, 4⟩] ∧ directiveAt? b ⟨0, 15⟩ = some .disableRegion ∧
      19 ∈ enabledRegions b (classify b) b.full true ∧
      switchedOn (directiveAt? b) true (comments b) 19 = false := by
  obtain ⟨b, hb⟩ : ∃ b : Buffer, b = .ofText "/*strpsql-off*//**/x" := ⟨_, rfl⟩
  have hsize : b.size = 20 := by subst hb; decide +kernel
  have hstop : b.full.stop = 20 := (Nat.zero_add _).trans hsize
  have hscan : (scan b).tags.toList = [⟨⟨0, 15⟩, .comment⟩, ⟨⟨15, 4⟩, .comment⟩] := by
    subst hb
    decide +kernel
  have hcomments : comments b = [⟨0, 15⟩, ⟨15, 4⟩] := by
    rw [comments, toList_classify, hscan]
    rfl
  have hblocks : ((classify b).spansOf .comment (.between 0 b.full.stop)).toList = [⟨0, 19⟩] := by
    rw [classify, hscan, hstop]
    cbv
  have hsays : directiveAt? b ⟨0, 15⟩ = some .disableRegion ∧
      switchedOn (directiveAt? b) true [⟨0, 19⟩] 19 = true ∧
      switchedOn (directiveAt? b) true [⟨0, 15⟩, ⟨15, 4⟩] 19 = false := by
    subst hb
    decide +kernel
  refine ⟨b, hb, by omega, hcomments, hsays.1, ?_, ?_⟩
  · rw [mem_enabledRegions_iff (by omega), hblocks]
    exact hsays.2.1
  · rw [hcomments]
    exact hsays.2.2

end Host

end EmbeddedSql
