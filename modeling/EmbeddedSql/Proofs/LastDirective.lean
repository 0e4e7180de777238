import EmbeddedSql.Proofs.Enabling
import Mathlib

/-!
# The last directive decides

Regions are computed by a walk that opens and closes them as directives come, and
that may open a region twice, close none, or find its last comment reaching past
the request. What they mean needs no walk. A position is enabled if the last
directive before it that switches regions switches them on, and where there is no
such directive the setting decides (`switchedOn`). Between comments the answer does
not change, so a piece of text that no comment touches is enabled, or not, as a
whole.
-/

namespace EmbeddedSql

namespace Regions

variable {directive : Span → Option Directive}

/-- Whether a comment switches regions, on or off. -/
def switches (directive : Span → Option Directive) (comment : Span) : Bool :=
  directive comment == some .enableRegion || directive comment == some .disableRegion

/-- The last comment that ends at a position or before it and switches regions. -/
def lastSwitch? (directive : Span → Option Directive) (comments : List Span) (p : Nat) :
    Option Span :=
  (comments.filter fun c => decide (c.stop ≤ p) && switches directive c).getLast?

/-- **Whether highlighting is switched on at a position**: the last comment that
switches decides, and where there is none the setting does. -/
def switchedOn (directive : Span → Option Directive) (byDefault : Bool) (comments : List Span)
    (p : Nat) : Bool :=
  match lastSwitch? directive comments p with
  | some comment => directive comment == some .enableRegion
  | none => byDefault

theorem lastSwitch?_eq_none {comments : List Span} {p : Nat} :
    lastSwitch? directive comments p = none ↔
      ∀ c ∈ comments, c.stop ≤ p → ¬ switches directive c = true := by
  simp only [lastSwitch?, List.getLast?_eq_none_iff, List.filter_eq_nil_iff, Bool.and_eq_true,
    decide_eq_true_eq, not_and]

/-- Of comments in order, the last one that switches is the one that stops last. -/
theorem lastSwitch?_eq_some {comments : List Span} {p : Nat} {s : Span}
    (hsorted : comments.Pairwise fun c d => c.stop < d.stop) :
    lastSwitch? directive comments p = some s ↔ (s ∈ comments ∧ s.stop ≤ p ∧ switches directive s = true) ∧
      ∀ c ∈ comments, c.stop ≤ p → switches directive c = true → c.stop ≤ s.stop := by
  have hmem : ∀ c, c ∈ (comments.filter fun c => decide (c.stop ≤ p) && switches directive c) ↔
      c ∈ comments ∧ c.stop ≤ p ∧ switches directive c = true := fun c => by
    rw [List.mem_filter, Bool.and_eq_true, decide_eq_true_eq]
  -- Whatever is found, all that could have been found stops before it.
  have hlast : ∀ t, lastSwitch? directive comments p = some t →
      (t ∈ comments ∧ t.stop ≤ p ∧ switches directive t = true) ∧
        ∀ c ∈ comments, c.stop ≤ p → switches directive c = true → c = t ∨ c.stop < t.stop := by
    intro t ht
    obtain ⟨front, hfront⟩ := List.getLast?_eq_some_iff.mp ht
    have hbefore := (List.pairwise_append.mp (hfront ▸ hsorted.filter _)).2.2
    refine ⟨(hmem t).mp (hfront ▸ List.mem_append_right _ List.mem_cons_self), fun c hc hstop hswitch => ?_⟩
    rcases List.mem_append.mp (hfront ▸ (hmem c).mpr ⟨hc, hstop, hswitch⟩) with hc | hc
    · exact Or.inr (hbefore c hc t List.mem_cons_self)
    · exact Or.inl (List.mem_singleton.mp hc)
  constructor
  · intro hs
    obtain ⟨hin, hle⟩ := hlast s hs
    refine ⟨hin, fun c hc hstop hswitch => ?_⟩
    rcases hle c hc hstop hswitch with rfl | hlt
    · exact Nat.le_refl _
    · exact Nat.le_of_lt hlt
  · rintro ⟨⟨hs, hstop, hswitch⟩, hle⟩
    cases hfound : lastSwitch? directive comments p with
    | none => exact absurd hswitch (lastSwitch?_eq_none.mp hfound s hs hstop)
    | some t =>
      obtain ⟨⟨ht, htstop, htswitch⟩, hbefore⟩ := hlast t hfound
      rcases hbefore s hs hstop hswitch with rfl | hlt
      · rfl
      · exact absurd (hle t ht htstop htswitch) (Nat.not_le_of_lt hlt)

/-- A comment that switches leaves nothing of the state before it. -/
theorem switch_of_switches {comment : Span} (h : switches directive comment = true) (on : Bool) :
    switch directive on comment = (directive comment == some .enableRegion) := by
  rw [switches, Bool.or_eq_true, beq_iff_eq, beq_iff_eq] at h
  rcases h with h | h
  · simp [switch, h]
  · simp [switch, h]

theorem switch_of_not_switches {comment : Span} (h : ¬ switches directive comment = true) (on : Bool) :
    switch directive on comment = on := by
  rw [switches, Bool.or_eq_true, beq_iff_eq, beq_iff_eq, not_or] at h
  unfold switch
  split
  · next hdir => exact absurd hdir h.1
  · next hdir => exact absurd hdir h.2
  · rfl

/-- **The state after some comments is what the last switch makes it.** -/
theorem stateAfter_eq (on : Bool) (comments : List Span) :
    stateAfter directive on comments =
      match (comments.filter (switches directive)).getLast? with
      | some comment => directive comment == some .enableRegion
      | none => on := by
  induction comments generalizing on with
  | nil => rfl
  | cons c rest ih =>
    show stateAfter directive (switch directive on c) rest = _
    rw [ih]
    by_cases hc : switches directive c = true
    · rw [List.filter_cons_of_pos hc, List.getLast?_cons, switch_of_switches hc]
      cases (rest.filter (switches directive)).getLast? with
      | none => rfl
      | some last => rfl
    · rw [List.filter_cons_of_neg hc, switch_of_not_switches hc]

variable {b : Buffer} {index : TagIndex}

theorem stateAt_eq_switchedOn (byDefault : Bool) (stop x : Nat) :
    stateAt b index byDefault stop x =
      switchedOn (directiveAt? b) byDefault (commentsTo index stop).toList x := by
  rw [stateAt, stateAfter_eq, List.filter_filter]
  simp only [switchedOn, lastSwitch?, Bool.and_comm]

theorem mem_enabledRegions_iff {request : Span} {byDefault : Bool} {p : Nat} (hp : p < request.stop) :
    p ∈ enabledRegions b index request byDefault ↔
      switchedOn (directiveAt? b) byDefault
        (index.spansOf .comment (.between 0 request.stop)).toList p = true := by
  show _ ↔ switchedOn _ _ (commentsTo index request.stop).toList p = true
  rw [← stateAt_eq_switchedOn]
  exact ⟨mem_enabledRegions.1, mem_enabledRegions.2 hp⟩

/-- **What is enabled is what the last directive switched on.** This holds for any
host tags and any request, at each position before the end of the request, where
comments that touch are read as one. A span that begins there and shares no
position with a comment is enabled as its first position is. -/
theorem enabledRegions_lastDirective (b : Buffer) (index : TagIndex) (request : Span)
    (byDefault : Bool) :
    (∀ p, p < request.stop →
        (p ∈ enabledRegions b index request byDefault ↔
          switchedOn (directiveAt? b) byDefault
            (index.spansOf .comment (.between 0 request.stop)).toList p = true)) ∧
      ∀ r : Span, 0 < r.len → r.start < request.stop →
        (∀ p ∈ r, p ∉ index.spansOf .comment (.between 0 request.stop)) →
        (enabledRegions b index request byDefault).meets r =
          switchedOn (directiveAt? b) byDefault
            (index.spansOf .comment (.between 0 request.stop)).toList r.start := by
  refine ⟨fun p hp => mem_enabledRegions_iff hp, fun r hpos hstart hapart => ?_⟩
  rw [meets_enabledRegions hpos hstart hapart, stateAt_eq_switchedOn, commentsTo]

/-- A request that ends inside the second of two comments: the first has switched
highlighting off, and the second does not count yet. -/
theorem enabledRegions_lastDirective_cut :
    ∃ (b : Buffer) (index : TagIndex) (request r : Span),
      b = .ofText "//strpsql-off\nx//strpsql-on" ∧
      index = .ofTags [⟨⟨15, 12⟩, .comment⟩, ⟨⟨0, 13⟩, .comment⟩] ∧ request = ⟨0, 20⟩ ∧ r = ⟨14, 1⟩ ∧
      16 < request.stop ∧ 16 ∉ enabledRegions b index request true ∧
      0 < r.len ∧ r.start < request.stop ∧
      (∀ p ∈ r, p ∉ index.spansOf .comment (.between 0 request.stop)) ∧
      (enabledRegions b index request true).meets r = false := by
  obtain ⟨hmem, hmeets⟩ := enabledRegions_lastDirective (.ofText "//strpsql-off\nx//strpsql-on")
    (.ofTags [⟨⟨15, 12⟩, .comment⟩, ⟨⟨0, 13⟩, .comment⟩]) ⟨0, 20⟩ true
  have hseen : ((TagIndex.ofTags [⟨⟨15, 12⟩, .comment⟩, ⟨⟨0, 13⟩, .comment⟩]).spansOf .comment
      (.between 0 (⟨0, 20⟩ : Span).stop)).toList = [⟨0, 13⟩, ⟨15, 12⟩] := by cbv
  have hapart : ∀ p ∈ (⟨14, 1⟩ : Span), p ∉ (TagIndex.ofTags [⟨⟨15, 12⟩, .comment⟩,
      ⟨⟨0, 13⟩, .comment⟩]).spansOf .comment (.between 0 (⟨0, 20⟩ : Span).stop) := by
    intro p hp
    rw [SpanSet.mem_iff_covers, hseen, covers_cons, covers_cons, covers_nil, or_false]
    simp only [Span.mem_def, Span.stop] at hp ⊢
    omega
  rw [hseen] at hmem hmeets
  refine ⟨_, _, _, ⟨14, 1⟩, rfl, rfl, rfl, rfl, by decide, ?_, by decide, by decide, hapart, ?_⟩
  · rw [hmem 16 (by decide)]
    decide +kernel
  · rw [hmeets ⟨14, 1⟩ (by decide) (by decide) hapart]
    decide +kernel

end Regions

end EmbeddedSql
