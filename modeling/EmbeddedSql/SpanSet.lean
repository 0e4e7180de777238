import EmbeddedSql.Bisect
import EmbeddedSql.Span

/-!
# Sets of spans in normal form

A set of positions is kept as a list of spans that are non-empty, in order,
and *apart*: between two neighbours at least one position is missing. A set of
positions has exactly one such list, so two sets with the same positions are
equal as values, and whether a position or a span meets the set is decided by
looking at a single candidate, found by halving.

The form is a field of the type, so every operation owes the proof that it
keeps it; those proofs are the lemmas beside the operations.
-/

namespace EmbeddedSql

/-- **Normal form**: no span is empty, and each ends strictly before the next
one starts. -/
structure Normal (spans : List Span) : Prop where
  /-- Every span holds a position. -/
  nonempty : ∀ s ∈ spans, 0 < s.len
  /-- Earlier spans end before later ones start, with a gap. -/
  apart : spans.Pairwise fun s t => s.stop < t.start

namespace Normal

theorem nil : Normal [] := ⟨by simp, .nil⟩

theorem cons {s : Span} {rest : List Span} (hs : 0 < s.len)
    (hlt : ∀ t ∈ rest, s.stop < t.start) (h : Normal rest) : Normal (s :: rest) :=
  ⟨by simpa using ⟨hs, h.nonempty⟩, .cons hlt h.apart⟩

theorem tail {s : Span} {rest : List Span} (h : Normal (s :: rest)) : Normal rest :=
  ⟨fun t ht => h.nonempty t (by simp [ht]), (List.pairwise_cons.mp h.apart).2⟩

theorem head_pos {s : Span} {rest : List Span} (h : Normal (s :: rest)) : 0 < s.len :=
  h.nonempty s (by simp)

theorem head_lt {s : Span} {rest : List Span} (h : Normal (s :: rest)) :
    ∀ t ∈ rest, s.stop < t.start := (List.pairwise_cons.mp h.apart).1

end Normal

/-- **A set of positions**, as the spans of its normal form. -/
structure SpanSet where
  /-- The spans, in order. -/
  spans : Array Span
  /-- They are in normal form. -/
  normal : Normal spans.toList

namespace SpanSet

/-- The spans of the set, in order. -/
def toList (s : SpanSet) : List Span := s.spans.toList

/-- A set from a list that is already in normal form. -/
def ofNormal (spans : List Span) (h : Normal spans) : SpanSet := ⟨spans.toArray, by simpa using h⟩

@[simp] theorem toList_ofNormal (spans : List Span) (h : Normal spans) :
    (ofNormal spans h).toList = spans := by simp [toList, ofNormal]

@[ext] theorem ext {s t : SpanSet} (h : s.toList = t.toList) : s = t := by
  cases s with
  | mk a ha => cases t with
    | mk b hb =>
      obtain rfl : a = b := Array.toList_inj.mp h
      rfl

instance : DecidableEq SpanSet := fun s t =>
  decidable_of_iff (s.toList = t.toList) ⟨SpanSet.ext, fun h => h ▸ rfl⟩

/-- A position is in the set when it is in one of its spans. -/
instance : Membership Nat SpanSet := ⟨fun s p => ∃ t ∈ s.toList, p ∈ t⟩

/-- The set without positions. -/
def empty : SpanSet := ofNormal [] .nil

instance : Inhabited SpanSet := ⟨empty⟩

/-! ## Building a set -/

/-- Joins a growing span with the spans that follow it, as long as they start
no later than it stops. -/
def coalesce (cur : Span) : List Span → List Span
  | [] => [cur]
  | s :: rest =>
    if s.start ≤ cur.stop then
      coalesce (Span.between cur.start (max cur.stop s.stop)) rest
    else cur :: coalesce s rest

/-- Nothing that comes out starts before the growing span. -/
theorem le_start_of_mem_coalesce {cur t : Span} {spans : List Span}
    (hsorted : (cur :: spans).Pairwise fun a b => a.start ≤ b.start)
    (ht : t ∈ coalesce cur spans) : cur.start ≤ t.start := by
  induction spans generalizing cur with
  | nil => simp_all [coalesce]
  | cons s rest ih =>
    rw [List.pairwise_cons, List.pairwise_cons] at hsorted
    obtain ⟨hcur, hs, hrest⟩ := hsorted
    have hcs := hcur s (by simp)
    unfold coalesce at ht
    split at ht
    · exact @ih (Span.between cur.start _)
        (List.pairwise_cons.mpr ⟨fun b hb => hcur b (by simp [hb]), hrest⟩) ht
    · rcases List.mem_cons.mp ht with rfl | ht
      · exact Nat.le_refl _
      · exact Nat.le_trans hcs (ih (List.pairwise_cons.mpr ⟨hs, hrest⟩) ht)

/-- **Coalescing a sorted list normalizes it.** -/
theorem normal_coalesce {cur : Span} {spans : List Span}
    (hpos : ∀ s ∈ cur :: spans, 0 < s.len)
    (hsorted : (cur :: spans).Pairwise fun a b => a.start ≤ b.start) :
    Normal (coalesce cur spans) := by
  induction spans generalizing cur with
  | nil => exact Normal.cons (hpos cur (by simp)) (by simp) .nil
  | cons s rest ih =>
    rw [List.pairwise_cons, List.pairwise_cons] at hsorted
    obtain ⟨hcur, hs, hrest⟩ := hsorted
    have hcpos := hpos cur (by simp)
    unfold coalesce
    split
    · refine ih ?_ (List.pairwise_cons.mpr ⟨fun b hb => hcur b (by simp [hb]), hrest⟩)
      intro t ht
      rcases List.mem_cons.mp ht with rfl | ht
      · simp only [Span.between, Span.stop]; omega
      · exact hpos t (by simp [ht])
    · have hsr := List.pairwise_cons.mpr ⟨hs, hrest⟩
      refine Normal.cons hcpos (fun t ht => ?_) (ih (fun t ht => hpos t (List.mem_cons_of_mem _ ht)) hsr)
      have := le_start_of_mem_coalesce hsr ht
      omega

/-- The non-empty spans of a list, sorted and joined where they overlap or
touch. -/
def normalize (spans : List Span) : List Span :=
  match (spans.filter fun s => !s.isEmpty).mergeSort fun s t => decide (s ≤ t) with
  | [] => []
  | s :: rest => coalesce s rest

theorem pairwise_start_mergeSort (spans : List Span) :
    (spans.mergeSort fun s t => decide (s ≤ t)).Pairwise fun a b => a.start ≤ b.start :=
  (Span.pairwise_mergeSort (fun s => s) spans).imp Span.start_le_of_le

theorem normal_normalize (spans : List Span) : Normal (normalize spans) := by
  unfold normalize
  split
  · exact .nil
  · next s rest heq =>
    refine normal_coalesce (fun t ht => ?_) (heq ▸ pairwise_start_mergeSort _)
    rw [← heq, List.mem_mergeSort, List.mem_filter] at ht
    simpa [Span.isEmpty, Nat.pos_iff_ne_zero] using ht.2

/-- The set of the positions of any spans, in any order. -/
def ofSpans (spans : List Span) : SpanSet := ofNormal (normalize spans) (normal_normalize spans)

/-- The positions of one span. -/
def single (s : Span) : SpanSet := ofSpans [s]

/-- The positions of either set. -/
def union (s t : SpanSet) : SpanSet := ofSpans (s.toList ++ t.toList)

/-- The set with the positions of one more span. -/
def insert (s : SpanSet) (t : Span) : SpanSet := if t.isEmpty then s else ofSpans (s.toList ++ [t])

/-! ## Overlap -/

/-- The common parts of two lists of spans, walked side by side: whichever
span stops first has nothing more to meet and is left behind. -/
def commonParts : List Span → List Span → List Span
  | [], _ => []
  | _ :: _, [] => []
  | a :: as, b :: bs =>
    (a.inter? b).toList ++
      if a.stop ≤ b.stop then commonParts as (b :: bs) else commonParts (a :: as) bs
termination_by as bs => as.length + bs.length

/-- A common part starts no earlier than the spans it comes from. -/
theorem le_start_of_mem_commonParts {as bs : List Span} (ha : Normal as) (hb : Normal bs)
    {u : Span} (hu : u ∈ commonParts as bs) :
    (∃ a ∈ as, a.start ≤ u.start) ∧ ∃ b ∈ bs, b.start ≤ u.start := by
  fun_induction commonParts as bs with
  | case1 => simp at hu
  | case2 => simp at hu
  | case3 a as b bs ih₁ ih₂ =>
    rcases List.mem_append.mp hu with h | h
    · have := (Span.inter?_eq_some (Option.mem_toList.mp h)).1
      exact ⟨⟨a, by simp, by omega⟩, b, by simp, by omega⟩
    · split at h
      · next hle =>
        obtain ⟨⟨a', ha', h₁⟩, b', hb', h₂⟩ := ih₁ ha.tail hb h
        exact ⟨⟨a', by simp [ha'], h₁⟩, b', hb', h₂⟩
      · next hle =>
        obtain ⟨⟨a', ha', h₁⟩, b', hb', h₂⟩ := ih₂ ha hb.tail h
        exact ⟨⟨a', ha', h₁⟩, b', by simp [hb'], h₂⟩

theorem normal_commonParts {as bs : List Span} (ha : Normal as) (hb : Normal bs) :
    Normal (commonParts as bs) := by
  fun_induction commonParts as bs with
  | case1 => exact .nil
  | case2 => exact .nil
  | case3 a as b bs ih₁ ih₂ =>
    have hrest : Normal (if a.stop ≤ b.stop then commonParts as (b :: bs)
        else commonParts (a :: as) bs) := by
      split
      · exact ih₁ ha.tail hb
      · exact ih₂ ha hb.tail
    cases h : a.inter? b with
    | none => simpa using hrest
    | some u =>
      obtain ⟨-, hstop, hpos⟩ := Span.inter?_eq_some h
      refine Normal.cons hpos (fun t ht => ?_) hrest
      simp only [List.append_eq, List.nil_append] at ht
      split at ht
      · next hle =>
        obtain ⟨⟨a', ha', h₁⟩, -⟩ := le_start_of_mem_commonParts ha.tail hb ht
        have := ha.head_lt a' ha'
        omega
      · next hle =>
        obtain ⟨-, b', hb', h₂⟩ := le_start_of_mem_commonParts ha hb.tail ht
        have := hb.head_lt b' hb'
        omega

/-- The positions of both sets. -/
def overlap (s t : SpanSet) : SpanSet :=
  ofNormal (commonParts s.toList t.toList) (normal_commonParts s.normal t.normal)

/-! ## Difference -/

/-- What is left of one span, from a cursor on, after the holes are taken out
of it. The holes come in order; those that start past the span do not touch
it. -/
def punch (stop : Nat) (cursor : Nat) : List Span → List Span
  | [] => if cursor < stop then [Span.between cursor stop] else []
  | hole :: holes =>
    if hole.start < stop then
      (if cursor < hole.start then [Span.between cursor hole.start] else []) ++
        punch stop (max cursor hole.stop) holes
    else if cursor < stop then [Span.between cursor stop] else []

/-- What is left of a list of spans after the holes are taken out. Holes that
end at or before the start of a span are behind every later span as well. -/
def remainder : List Span → List Span → List Span
  | [], _ => []
  | s :: rest, holes =>
    let ahead := holes.dropWhile fun hole => hole.stop ≤ s.start
    punch s.stop s.start ahead ++ remainder rest ahead

theorem mem_punch_bounds {stop cursor : Nat} {holes : List Span} {t : Span}
    (ht : t ∈ punch stop cursor holes) : cursor ≤ t.start ∧ t.stop ≤ stop ∧ 0 < t.len := by
  induction holes generalizing cursor with
  | nil =>
    unfold punch at ht
    split at ht
    · obtain rfl := List.mem_singleton.mp ht
      simp only [Span.between, Span.stop]; omega
    · simp at ht
  | cons hole holes ih =>
    unfold punch at ht
    split at ht
    · rcases List.mem_append.mp ht with ht | ht
      · split at ht
        · obtain rfl := List.mem_singleton.mp ht
          simp only [Span.between, Span.stop]; omega
        · simp at ht
      · have := ih ht
        omega
    · split at ht
      · obtain rfl := List.mem_singleton.mp ht
        simp only [Span.between, Span.stop]; omega
      · simp at ht

theorem normal_punch {stop cursor : Nat} {holes : List Span} (h : Normal holes) :
    Normal (punch stop cursor holes) := by
  have hone : ∀ a b : Nat, Normal (if a < b then [Span.between a b] else []) := by
    intro a b
    split
    · exact Normal.cons (by simp only [Span.between]; omega) (by simp) .nil
    · exact .nil
  induction holes generalizing cursor with
  | nil => exact hone _ _
  | cons hole holes ih =>
    unfold punch
    split
    · by_cases hc : cursor < hole.start
      · simp only [if_pos hc, List.singleton_append]
        refine Normal.cons (by simp only [Span.between]; omega) (fun t ht => ?_) (ih h.tail)
        have := mem_punch_bounds ht
        have := h.head_pos
        simp only [Span.stop_between]
        simp only [Span.stop] at *
        omega
      · simpa only [if_neg hc, List.nil_append] using ih h.tail
    · exact hone _ _

theorem normal_append {as bs : List Span} (ha : Normal as) (hb : Normal bs)
    (hlt : ∀ a ∈ as, ∀ b ∈ bs, a.stop < b.start) : Normal (as ++ bs) :=
  ⟨fun s hs => (List.mem_append.mp hs).elim (ha.nonempty s) (hb.nonempty s),
    List.pairwise_append.mpr ⟨ha.apart, hb.apart, hlt⟩⟩

theorem normal_dropWhile {holes : List Span} (h : Normal holes) (p : Span → Bool) :
    Normal (holes.dropWhile p) :=
  ⟨fun s hs => h.nonempty s ((List.dropWhile_sublist p).subset hs),
    h.apart.sublist (List.dropWhile_sublist p)⟩

theorem mem_remainder_start {spans holes : List Span} {t : Span}
    (ht : t ∈ remainder spans holes) : ∃ s ∈ spans, s.start ≤ t.start := by
  induction spans generalizing holes with
  | nil => simp [remainder] at ht
  | cons s rest ih =>
    rcases List.mem_append.mp ht with ht | ht
    · exact ⟨s, by simp, (mem_punch_bounds ht).1⟩
    · obtain ⟨u, hu, h⟩ := ih ht
      exact ⟨u, by simp [hu], h⟩

theorem normal_remainder {spans holes : List Span} (hs : Normal spans) (hh : Normal holes) :
    Normal (remainder spans holes) := by
  induction spans generalizing holes with
  | nil => exact .nil
  | cons s rest ih =>
    have hah := normal_dropWhile hh fun hole => hole.stop ≤ s.start
    refine normal_append (normal_punch hah) (ih hs.tail hah) (fun a ha b hb => ?_)
    obtain ⟨u, hu, h⟩ := mem_remainder_start hb
    have := (mem_punch_bounds ha).2.1
    have := hs.head_lt u hu
    omega

/-- The positions of the first set that are not in the second. -/
def difference (s t : SpanSet) : SpanSet :=
  ofNormal (remainder s.toList t.toList) (normal_remainder s.normal t.normal)

/-! ## Looking up -/

/-- The index of the first span that stops past a position. -/
def firstPast (s : SpanSet) (p : Nat) : Nat :=
  bisect (fun i => s.spans[i]?.any fun t => t.stop ≤ p) 0 s.spans.size

/-- The span of the set that holds a position. -/
def spanAt? (s : SpanSet) (p : Nat) : Option Span :=
  s.spans[s.firstPast p]?.filter fun t => t.contains p

/-- Whether a position is in the set. -/
def contains (s : SpanSet) (p : Nat) : Bool :=
  s.spans[s.firstPast p]?.any fun t => t.contains p

/-- Whether a span shares a position with the set. -/
def meets (s : SpanSet) (t : Span) : Bool :=
  s.spans[s.firstPast t.start]?.any fun u => u.overlaps t

/-- The number of spans. -/
def size (s : SpanSet) : Nat := s.spans.size

/-- Whether the set has no position. -/
def isEmpty (s : SpanSet) : Bool := s.spans.isEmpty

/-- The first span. -/
def first? (s : SpanSet) : Option Span := s.spans[0]?

/-- The last span. -/
def last? (s : SpanSet) : Option Span := s.spans.back?

/-- The span from the first position of the set to its last. -/
def hull? (s : SpanSet) : Option Span :=
  match s.first?, s.last? with
  | some a, some b => some (Span.between a.start b.stop)
  | _, _ => none

end SpanSet

end EmbeddedSql
