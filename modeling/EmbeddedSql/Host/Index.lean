import EmbeddedSql.Host.Tag
import EmbeddedSql.SpanSet

/-!
# An index of host tags

The tags of a buffer, sorted by start, with one number beside each: the
furthest stop among the tags so far, its *reach*. A query for a span needs the
tags that start before the span stops; of those it can leave out an initial
part, namely the tags up to the last place where the reach has not yet come
past the start of the span. Both ends are found without a full scan, the
second by walking back while the reach is past the start.

The order and the reach are fields of the type, so what a query returns can be
read off the list of tags alone.
-/

namespace EmbeddedSql

/-- The furthest stop among the tags so far, for each tag in turn. -/
def reaches (furthest : Nat) : List HostTag → List Nat
  | [] => []
  | t :: rest => max furthest t.span.stop :: reaches (max furthest t.span.stop) rest

/-- **Host tags, ready to be searched.** -/
structure TagIndex where
  /-- The tags, in order. -/
  tags : Array HostTag
  /-- The furthest stop up to each tag. -/
  reach : Array Nat
  /-- No tag is empty. -/
  nonempty : ∀ t ∈ tags.toList, 0 < t.span.len
  /-- The tags are sorted by start, and then by stop. -/
  sorted : tags.toList.Pairwise fun a b => a.span ≤ b.span
  /-- The reach is what it says. -/
  reach_eq : reach.toList = reaches 0 tags.toList

namespace TagIndex

/-- The tags that hold a position, in order. Tags with the same span keep the
order they came in. -/
def arrange (tags : List HostTag) : List HostTag :=
  (tags.filter fun t => !t.span.isEmpty).mergeSort fun a b => decide (a.span ≤ b.span)

theorem nonempty_arrange (tags : List HostTag) : ∀ t ∈ arrange tags, 0 < t.span.len := by
  intro t ht
  rw [arrange, List.mem_mergeSort, List.mem_filter] at ht
  simpa [Span.isEmpty, Nat.pos_iff_ne_zero] using ht.2

theorem sorted_arrange (tags : List HostTag) :
    (arrange tags).Pairwise fun a b => a.span ≤ b.span :=
  Span.pairwise_mergeSort HostTag.span _

/-- The index of tags that are in order already. -/
def ofSorted (tags : List HostTag) (nonempty : ∀ t ∈ tags, 0 < t.span.len)
    (sorted : tags.Pairwise fun a b => a.span ≤ b.span) : TagIndex where
  tags := tags.toArray
  reach := (reaches 0 tags).toArray
  nonempty := by simpa using nonempty
  sorted := by simpa using sorted
  reach_eq := by simp

/-- The index of a collection of tags. -/
def ofTags (tags : List HostTag) : TagIndex :=
  ofSorted (arrange tags) (nonempty_arrange tags) (sorted_arrange tags)

/-- The tags of the index, in order. -/
def toList (index : TagIndex) : List HostTag := index.tags.toList

/-- The number of tags. -/
def size (index : TagIndex) : Nat := index.tags.size

/-- Whether there are no tags. -/
def isEmpty (index : TagIndex) : Bool := index.tags.isEmpty

/-! ## Queries -/

/-- What a query looks for: the span itself, or, if it is empty, the position
it stands at. -/
def probe (s : Span) : Span := if s.isEmpty then ⟨s.start, 1⟩ else s

/-- The number of tags that start before a position. -/
def startingBefore (index : TagIndex) (pos : Nat) : Nat :=
  bisect (fun i => index.tags[i]?.any fun t => t.span.start < pos) 0 index.tags.size

/-- Walks back from a tag while something before it reaches past a position. -/
def retreat (index : TagIndex) (pos : Nat) : Nat → Nat
  | 0 => 0
  | i + 1 => if index.reach[i]?.any fun r => pos < r then index.retreat pos i else i + 1

/-- The tags that share a position with a span, in order. -/
def query (index : TagIndex) (s : Span) : List HostTag :=
  let sought := probe s
  let last := index.startingBefore sought.stop
  let first := index.retreat sought.start (min (index.startingBefore sought.start) last)
  (index.tags.extract first last).toList.filter fun t => t.span.overlaps sought

/-- The tags at a position. -/
def tagsAt (index : TagIndex) (pos : Nat) : List HostTag := index.query ⟨pos, 1⟩

/-- Whether a position is tagged with a kind. -/
def isKindAt (index : TagIndex) (pos : Nat) (kind : HostKind) : Bool :=
  (index.tagsAt pos).any fun t => t.kind == kind

/-- The positions of a kind of tag, for the tags that share a position with a
span. -/
def spansOf (index : TagIndex) (kind : HostKind) (s : Span) : SpanSet :=
  SpanSet.ofSpans (((index.query s).filter fun t => t.kind == kind).map HostTag.span)

/-- The string tag over a position that starts first. -/
def nextString? (index : TagIndex) (pos : Nat) : Option Span :=
  ((index.tagsAt pos).find? fun t => t.kind == .string && decide (pos < t.span.stop)).map
    HostTag.span

/-- The later of two spans by stop, the second if they stop together. -/
def furthest (best : Option Span) (s : Span) : Option Span :=
  match best with
  | none => some s
  | some b => if b.stop ≤ s.stop then some s else some b

/-- The string tag over a position that stops last. Of several that stop
together it is the one that starts last. -/
def previousString? (index : TagIndex) (pos : Nat) : Option Span :=
  (((index.tagsAt pos).filter fun t => t.kind == .string && decide (t.span.start ≤ pos)).map
    HostTag.span).foldl furthest none

/-- The first comment over a position. -/
def firstComment? (index : TagIndex) (pos : Nat) : Option Span :=
  ((index.tagsAt pos).find? fun t => t.kind == .comment).map HostTag.span

/-! ## Where the strings beside a position lie -/

theorem lt_stop_of_nextString? {index : TagIndex} {pos : Nat} {s : Span}
    (h : index.nextString? pos = some s) : pos < s.stop := by
  obtain ⟨t, ht, rfl⟩ := Option.map_eq_some_iff.mp h
  have := List.find?_some ht
  simp only [Bool.and_eq_true, decide_eq_true_eq] at this
  exact this.2

theorem foldl_furthest_mem {spans : List Span} {best s : Option Span} (t : Span)
    (h : spans.foldl furthest best = s) (hs : s = some t) : t ∈ spans ∨ best = some t := by
  induction spans generalizing best with
  | nil => exact Or.inr (h.trans hs)
  | cons u rest ih =>
    rcases ih h with ht | ht
    · exact Or.inl (List.mem_cons_of_mem _ ht)
    · unfold furthest at ht
      split at ht
      · exact Or.inl (by simp_all)
      · split at ht
        · exact Or.inl (by simp_all)
        · exact Or.inr ht

theorem start_le_of_previousString? {index : TagIndex} {pos : Nat} {s : Span}
    (h : index.previousString? pos = some s) : s.start ≤ pos := by
  rcases foldl_furthest_mem s rfl h with hs | hs
  · obtain ⟨t, ht, rfl⟩ := List.mem_map.mp hs
    have := (List.mem_filter.mp ht).2
    simp only [Bool.and_eq_true, decide_eq_true_eq] at this
    exact this.2
  · simp at hs

end TagIndex

end EmbeddedSql
