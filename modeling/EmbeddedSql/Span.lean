/-!
# Spans of a buffer

Every position in this library is an offset into a sequence of units, and
every result is a *span*: a start and a length, read as the half-open interval
from the start up to, and not including, the stop. A span of length zero marks
a place and contains no position, which is why two spans only ever overlap
when both are non-empty.
-/

namespace EmbeddedSql

/-- A half-open interval of positions, stored as where it starts and how many
positions it holds. -/
structure Span where
  /-- The first position. -/
  start : Nat
  /-- The number of positions. -/
  len : Nat
deriving DecidableEq, Repr, Inhabited

namespace Span

/-- The position just past the last one. -/
def stop (s : Span) : Nat := s.start + s.len

/-- The span from one bound to another. Bounds in the wrong order give the
empty span at the first of them. -/
def between (a b : Nat) : Span := ⟨a, b - a⟩

/-- A span that holds no position. -/
def isEmpty (s : Span) : Bool := s.len == 0

instance : Membership Nat Span := ⟨fun s p => s.start ≤ p ∧ p < s.stop⟩

theorem mem_def {p : Nat} {s : Span} : p ∈ s ↔ s.start ≤ p ∧ p < s.stop := Iff.rfl

instance (p : Nat) (s : Span) : Decidable (p ∈ s) := inferInstanceAs (Decidable (_ ∧ _))

/-- Whether a position lies in the span. -/
def contains (s : Span) (p : Nat) : Bool := decide (p ∈ s)

/-- Whether two spans share a position. An empty span shares none. -/
def overlaps (s t : Span) : Bool :=
  !s.isEmpty && !t.isEmpty && decide (s.start < t.stop) && decide (t.start < s.stop)

/-- The positions two spans share, if there are any. -/
def inter? (s t : Span) : Option Span :=
  if max s.start t.start < min s.stop t.stop then
    some (between (max s.start t.start) (min s.stop t.stop))
  else none

/-- Whether one span reaches at least as far as another on both sides. Only
the bounds are compared, so an empty span is covered where it stands. -/
def covers (s t : Span) : Bool := decide (s.start ≤ t.start) && decide (t.stop ≤ s.stop)

/-- The same span, moved to the right. -/
def shift (s : Span) (delta : Nat) : Span := ⟨s.start + delta, s.len⟩

/-- Spans are ordered by where they start, and then by how long they are. -/
instance : LE Span := ⟨fun s t => s.start < t.start ∨ s.start = t.start ∧ s.len ≤ t.len⟩

instance : LT Span := ⟨fun s t => s.start < t.start ∨ s.start = t.start ∧ s.len < t.len⟩

instance (s t : Span) : Decidable (s ≤ t) := inferInstanceAs (Decidable (_ ∨ _))

instance (s t : Span) : Decidable (s < t) := inferInstanceAs (Decidable (_ ∨ _))

theorem le_def {s t : Span} :
    s ≤ t ↔ s.start < t.start ∨ s.start = t.start ∧ s.len ≤ t.len := Iff.rfl

theorem start_le_of_le {s t : Span} (h : s ≤ t) : s.start ≤ t.start := by
  rw [le_def] at h
  omega

/-- Sorting by span puts the spans in order. -/
theorem pairwise_mergeSort {α : Type} (span : α → Span) (items : List α) :
    (items.mergeSort fun a b => decide (span a ≤ span b)).Pairwise fun a b => span a ≤ span b := by
  refine (List.pairwise_mergeSort ?_ ?_ items).imp (fun h => of_decide_eq_true h)
  · intro a b c
    simp only [le_def, decide_eq_true_eq]
    omega
  · intro a b
    simp only [le_def, Bool.or_eq_true, decide_eq_true_eq]
    omega

/-- The written form of a span: its two bounds around two dots. -/
def text (s : Span) : String := s!"{s.start}..{s.stop}"

/-! ## Bounds -/

@[simp] theorem start_between (a b : Nat) : (between a b).start = a := rfl

@[simp] theorem stop_between (a b : Nat) : (between a b).stop = max a b := by
  simp only [stop, between]; omega

theorem start_le_stop (s : Span) : s.start ≤ s.stop := Nat.le_add_right _ _

@[simp] theorem start_shift (s : Span) (d : Nat) : (s.shift d).start = s.start + d := rfl

@[simp] theorem stop_shift (s : Span) (d : Nat) : (s.shift d).stop = s.stop + d := by
  simp only [stop, shift]; omega

/-- A common part begins at the later start and ends at the earlier stop. -/
theorem inter?_eq_some {s t u : Span} (h : s.inter? t = some u) :
    u.start = max s.start t.start ∧ u.stop = min s.stop t.stop ∧ 0 < u.len := by
  unfold inter? at h
  split at h
  · next hlt =>
    cases h
    refine ⟨rfl, ?_, ?_⟩
    · rw [stop_between]; omega
    · show 0 < min s.stop t.stop - max s.start t.start
      omega
  · simp at h

/-- Two spans have a common part exactly when they share a position. -/
theorem mem_inter?_iff {s t u : Span} (h : s.inter? t = some u) {p : Nat} :
    p ∈ u ↔ p ∈ s ∧ p ∈ t := by
  obtain ⟨h₁, h₂, -⟩ := inter?_eq_some h
  simp only [mem_def, h₁, h₂]
  omega

end Span

end EmbeddedSql
