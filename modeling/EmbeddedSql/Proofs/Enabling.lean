import EmbeddedSql.Proofs.Layout
import EmbeddedSql.Report

/-!
# What is enabled

The regions of a request are found by walking its comments and noting where a
directive switches. Read at one position, the result is simpler: what counts
is the state after the comments that end there or earlier (`stateAfter`). A
region that is still open ends with the request, and comments behind the
request are not seen; neither changes what is said of a position inside it.

Comments and string text share no position, so no comment ends inside a
fragment, and the state is the same all over it. Hence a fragment that begins
inside a request is enabled in that request if it is enabled in any other
(`isEnabled_eq`).
-/

namespace EmbeddedSql

namespace Regions

/-! ## The walk, position by position -/

/-- What a comment makes of the state. -/
def switch (directive : Span → Option Directive) (on : Bool) (comment : Span) : Bool :=
  match directive comment with
  | some .enableRegion => true
  | some .disableRegion => false
  | _ => on

/-- The state after some comments. -/
def stateAfter (directive : Span → Option Directive) (on : Bool) (comments : List Span) : Bool :=
  comments.foldl (switch directive) on

variable {directive : Span → Option Directive} {stop x : Nat}

/-- Before the first comment ends, only a region that was open counts. -/
theorem covers_walk_of_lt {since : Option Nat} {comments : List Span}
    (hlater : ∀ c ∈ comments, x < c.stop) :
    Covers (walk directive stop since comments) x →
      ∃ start, since = some start ∧ start ≤ x := by
  fun_induction walk directive stop since comments with
  | case1 since =>
    rintro ⟨s, hs, hx⟩
    obtain ⟨start, hstart, rfl⟩ := List.mem_map.mp hs
    exact ⟨start, Option.mem_toList.mp hstart, hx.1⟩
  | case2 comment rest _ ih =>
    intro hx
    obtain ⟨hfirst, hrest⟩ := List.forall_mem_cons.mp hlater
    obtain ⟨start, heq, hle⟩ := ih hrest hx
    rw [Option.some.inj heq] at hfirst
    omega
  | case3 comment rest start _ ih =>
    intro hx
    obtain ⟨hfirst, hrest⟩ := List.forall_mem_cons.mp hlater
    rcases (covers_cons _ _ _).mp hx with hx | hx
    · exact ⟨start, rfl, hx.1⟩
    · obtain ⟨start, heq, -⟩ := ih hrest hx
      simp at heq
  | case4 since comment rest _ _ ih =>
    exact ih (List.forall_mem_cons.mp hlater).2

/-- A region that is open stays open until the first comment ends. -/
theorem covers_walk_of_open {start : Nat} {comments : List Span} (hstart : start ≤ x)
    (hstop : x < stop) (hlater : ∀ c ∈ comments, x < c.stop) :
    Covers (walk directive stop (some start) comments) x := by
  induction comments with
  | nil => exact ⟨_, List.mem_cons_self, Span.mem_between.mpr ⟨hstart, hstop⟩⟩
  | cons comment rest ih =>
    obtain ⟨hfirst, hrest⟩ := List.forall_mem_cons.mp hlater
    unfold walk
    split
    · next heq => simp at heq
    · next heq =>
      obtain rfl := Option.some.inj heq
      exact ⟨_, List.mem_cons_self, Span.mem_between.mpr ⟨hstart, hfirst⟩⟩
    · exact ih hrest

/-- Before the first comment ends, the regions are what was open to begin
with. -/
theorem covers_walk_of_later {since : Option Nat} {comments : List Span}
    (hlater : ∀ c ∈ comments, x < c.stop) (hsince : ∀ start, since = some start → start ≤ x) :
    (Covers (walk directive stop since comments) x → since.isSome = true) ∧
    (x < stop → since.isSome = true → Covers (walk directive stop since comments) x) := by
  constructor
  · intro hx
    obtain ⟨start, rfl, -⟩ := covers_walk_of_lt hlater hx
    rfl
  · intro hstop hon
    obtain ⟨start, rfl⟩ := Option.isSome_iff_exists.mp hon
    exact covers_walk_of_open (hsince start rfl) hstop hlater

/-- A comment that neither opens nor closes a region leaves the state. -/
theorem switch_eq {since : Option Nat} {comment : Span}
    (hon : directive comment = some .enableRegion → since ≠ none)
    (hoff : ∀ start, directive comment = some .disableRegion → since ≠ some start) :
    switch directive since.isSome comment = since.isSome := by
  unfold switch
  split
  · next hdir =>
    cases since with
    | none => exact absurd rfl (hon hdir)
    | some start => rfl
  · next hdir =>
    cases since with
    | none => rfl
    | some start => exact absurd rfl (hoff start hdir)
  · rfl

/-- **The regions of a walk are where the state is on**, as far as the walk
goes. -/
theorem covers_walk_iff (directive : Span → Option Directive) (stop : Nat) {since : Option Nat}
    {comments : List Span}
    (hsorted : comments.Pairwise fun c d => c.stop ≤ d.stop)
    (hsince : ∀ start, since = some start → start ≤ x) :
    (Covers (walk directive stop since comments) x →
      stateAfter directive since.isSome (comments.filter fun c => decide (c.stop ≤ x)) = true) ∧
    (x < stop → stateAfter directive since.isSome
        (comments.filter fun c => decide (c.stop ≤ x)) = true →
      Covers (walk directive stop since comments) x) := by
  induction comments generalizing since with
  | nil => exact covers_walk_of_later (by simp) hsince
  | cons comment rest ih =>
    obtain ⟨hfirst, hrest⟩ := List.pairwise_cons.mp hsorted
    by_cases hc : comment.stop ≤ x
    · -- The comment has ended, and what it says counts.
      rw [List.filter_cons_of_pos (by simpa using hc)]
      show (_ → stateAfter directive (switch directive since.isSome comment) _ = true) ∧ (_ →
        stateAfter directive (switch directive since.isSome comment) _ = true → _)
      unfold walk
      split
      · next hdir =>
        rw [switch, hdir]
        exact ih hrest fun start heq => Option.some.inj heq ▸ hc
      · next start hdir =>
        rw [switch, hdir]
        have hoff : ∀ start, none = some start → start ≤ x := by simp
        obtain ⟨hleft, hright⟩ := ih hrest hoff
        refine ⟨fun hx => ?_, fun hstop hon => ?_⟩
        · rcases (covers_cons _ _ _).mp hx with hx | hx
          · rw [Span.mem_between] at hx
            omega
          · exact hleft hx
        · exact (covers_cons _ _ _).mpr (Or.inr (hright hstop hon))
      · next hon hoff =>
        rw [switch_eq hon hoff]
        exact ih hrest hsince
    · -- No comment has ended yet.
      have hlater : ∀ c ∈ comment :: rest, x < c.stop := by
        refine List.forall_mem_cons.mpr ⟨by omega, fun c hmem => ?_⟩
        have := hfirst c hmem
        omega
      have hnone : (comment :: rest).filter (fun c => decide (c.stop ≤ x)) = [] := by
        rw [List.filter_eq_nil_iff]
        intro c hmem
        have := hlater c hmem
        simpa using this
      rw [hnone]
      exact covers_walk_of_later hlater hsince

end Regions

/-! ## Comments seen from different requests -/

namespace SpanSet

theorem normal_filter {spans : List Span} (h : Normal spans) (p : Span → Bool) :
    Normal (spans.filter p) :=
  ⟨fun s hs => h.nonempty s (List.mem_filter.mp hs).1, h.apart.filter p⟩

theorem covers_filter_of_agree {s t : SpanSet} {x q : Nat} (h : ∀ p ≤ x, p ∈ s ↔ p ∈ t)
    (hq : Covers (s.toList.filter fun u => decide (u.stop ≤ x)) q) :
    Covers (t.toList.filter fun u => decide (u.stop ≤ x)) q := by
  obtain ⟨u, hu, hqu⟩ := hq
  obtain ⟨hu, hstop⟩ := List.mem_filter.mp hu
  rw [decide_eq_true_eq] at hstop
  rw [Span.mem_def] at hqu
  obtain ⟨v, hv, hqv⟩ := (h q (by omega)).mp ⟨u, hu, hqu⟩
  refine ⟨v, List.mem_filter.mpr ⟨hv, decide_eq_true ?_⟩, hqv⟩
  -- The first position behind `u` is in neither set, so `v` does not reach it.
  have hbehind : u.stop ∉ t := by
    rw [← h u.stop hstop, mem_iff_of_mem_toList hu ⟨by have := u.start_le_stop; omega, Nat.le_refl _⟩]
    exact fun hmem => Nat.lt_irrefl _ hmem.2
  rw [Span.mem_def] at hqv
  have hle : v.stop ≤ u.stop := Nat.le_of_not_lt fun hlt => hbehind ⟨v, hv, by omega, hlt⟩
  omega

/-- Sets that agree up to a position have the same spans up to there. -/
theorem filter_stop_le_eq {s t : SpanSet} {x : Nat} (h : ∀ p ≤ x, p ∈ s ↔ p ∈ t) :
    (s.toList.filter fun u => decide (u.stop ≤ x)) = t.toList.filter fun u => decide (u.stop ≤ x) :=
  eq_of_covers_iff (normal_filter s.normal _) (normal_filter t.normal _) fun _ =>
    ⟨covers_filter_of_agree h, covers_filter_of_agree fun p hp => (h p hp).symm⟩

end SpanSet

namespace Regions

variable {b : Buffer} {index : TagIndex}

/-- The comments that a request which ends at `stop` sees. -/
def commentsTo (index : TagIndex) (stop : Nat) : SpanSet := index.spansOf .comment (Span.between 0 stop)

theorem isKindAt_of_mem_commentsTo {stop x : Nat} (h : x ∈ commentsTo index stop) :
    index.isKindAt x .comment = true := by
  obtain ⟨t, ht, hkind, -, hx⟩ := TagIndex.mem_spansOf.mp h
  exact TagIndex.isKindAt_iff.mpr ⟨t, ht, hkind, hx⟩

/-- A comment that reaches into a request is seen. -/
theorem mem_commentsTo {stop x : Nat} (hx : x < stop) :
    x ∈ commentsTo index stop ↔ index.isKindAt x .comment = true := by
  refine ⟨isKindAt_of_mem_commentsTo, fun h => ?_⟩
  obtain ⟨t, ht, hkind, hxt⟩ := TagIndex.isKindAt_iff.mp h
  refine TagIndex.mem_spansOf.mpr ⟨t, ht, hkind, ?_, hxt⟩
  have hprobe : ¬ (Span.between 0 stop).isEmpty = true := by
    rw [Span.isEmpty_iff]
    show stop - 0 ≠ 0
    omega
  rw [TagIndex.probe, if_neg hprobe, Span.overlaps_iff]
  exact ⟨x, hxt, Span.mem_between.mpr ⟨Nat.zero_le _, hx⟩⟩

/-- **The state at a position**, for a request that ends at `stop`. -/
def stateAt (b : Buffer) (index : TagIndex) (byDefault : Bool) (stop x : Nat) : Bool :=
  stateAfter (directiveAt? b) byDefault
    ((commentsTo index stop).toList.filter fun c => decide (c.stop ≤ x))

/-- Inside both requests, the state does not depend on the request. -/
theorem stateAt_eq {byDefault : Bool} {stop stop' x : Nat} (hx : x < stop) (hx' : x < stop') :
    stateAt b index byDefault stop x = stateAt b index byDefault stop' x := by
  have hagree : ∀ p ≤ x, p ∈ commentsTo index stop ↔ p ∈ commentsTo index stop' := fun p hp => by
    rw [mem_commentsTo (Nat.lt_of_le_of_lt hp hx), mem_commentsTo (Nat.lt_of_le_of_lt hp hx')]
  unfold stateAt
  rw [SpanSet.filter_stop_le_eq hagree]

/-- **What is enabled is where the state is on.** -/
theorem mem_enabledRegions {request : Span} {byDefault : Bool} {x : Nat} :
    (x ∈ enabledRegions b index request byDefault →
      stateAt b index byDefault request.stop x = true) ∧
    (x < request.stop → stateAt b index byDefault request.stop x = true →
      x ∈ enabledRegions b index request byDefault) := by
  have hsorted : (commentsTo index request.stop).toList.Pairwise fun c d => c.stop ≤ d.stop := by
    refine (commentsTo index request.stop).normal.apart.imp ?_
    intro c d hcd
    have := d.start_le_stop
    omega
  have hsince : ∀ start, (if byDefault then some 0 else none) = some start → start ≤ x := by
    cases byDefault <;> simp
  have hsome : (if byDefault then some 0 else none : Option Nat).isSome = byDefault := by
    cases byDefault <;> rfl
  have hwalk := covers_walk_iff (directiveAt? b) request.stop hsorted hsince
  rw [hsome] at hwalk
  unfold enabledRegions
  simp only [SpanSet.mem_ofSpans]
  exact hwalk

/-- Over a fragment without comments the state does not change. -/
theorem stateAt_eq_start {byDefault : Bool} {stop : Nat} {fragment : Span}
    (hapart : ∀ p ∈ fragment, p ∉ commentsTo index stop) {x : Nat} (hx : x ∈ fragment) :
    stateAt b index byDefault stop x = stateAt b index byDefault stop fragment.start := by
  have hfilter : ((commentsTo index stop).toList.filter fun c => decide (c.stop ≤ x)) =
      (commentsTo index stop).toList.filter fun c => decide (c.stop ≤ fragment.start) := by
    refine List.filter_congr fun c hc => ?_
    rw [decide_eq_decide]
    have hlo := hx.1
    refine ⟨fun hle => Nat.le_of_not_lt fun hlt => ?_, fun hle => by omega⟩
    -- Otherwise the last position of the comment is in the fragment.
    have hlast := Span.pred_stop_mem ((commentsTo index stop).normal.nonempty c hc)
    have hin : c.stop - 1 ∈ fragment := ⟨by omega, by have := hx.2; omega⟩
    exact hapart _ hin ⟨c, hc, hlast⟩
  rw [stateAt, stateAt, hfilter]

/-- **A fragment is enabled in a request if the state is on where it begins.** -/
theorem meets_enabledRegions {request fragment : Span} {byDefault : Bool} (hpos : 0 < fragment.len)
    (hstart : fragment.start < request.stop)
    (hapart : ∀ p ∈ fragment, p ∉ commentsTo index request.stop) :
    (enabledRegions b index request byDefault).meets fragment =
      stateAt b index byDefault request.stop fragment.start := by
  rw [Bool.eq_iff_iff, SpanSet.meets_iff]
  constructor
  · rintro ⟨x, hx, hxf⟩
    rw [← stateAt_eq_start hapart hxf]
    exact mem_enabledRegions.1 hx
  · intro hon
    exact ⟨_, mem_enabledRegions.2 hstart hon, Span.start_mem hpos⟩

end Regions

/-- **Whether a literal is enabled does not depend on the request**, as long as
it begins before the request ends. -/
theorem Highlighter.isEnabled_eq {b : Buffer} {index : TagIndex} {request request' first : Span}
    {byDefault : Bool} (hpos : 0 < first.len) (hstart : first.start < request.stop)
    (hstart' : first.start < request'.stop)
    (hapart : ∀ p ∈ first, index.isKindAt p .comment = false) :
    isEnabled b index (enabledRegions b index request byDefault) first =
      isEnabled b index (enabledRegions b index request' byDefault) first := by
  have hnone : ∀ stop, ∀ p ∈ first, p ∉ Regions.commentsTo index stop := fun stop p hp hmem => by
    have hcomment := Regions.isKindAt_of_mem_commentsTo hmem
    rw [hapart p hp] at hcomment
    exact Bool.false_ne_true hcomment
  unfold isEnabled
  rw [Regions.meets_enabledRegions hpos hstart (hnone _),
    Regions.meets_enabledRegions hpos hstart' (hnone _), Regions.stateAt_eq hstart hstart']

end EmbeddedSql
