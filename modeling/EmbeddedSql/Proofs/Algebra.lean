import EmbeddedSql.Proofs.Positions
import Mathlib.Order.BooleanAlgebra.Set

/-!
# The algebra of sets of spans

Overlap and difference walk two lists of spans side by side and never normalize
what comes out. That the result is in normal form all the same is a fact about
the operands, and it is what makes the whole of set algebra available: a set of
spans is determined by its positions, so any two ways to compute the same
positions give the same value, span by span.

The positions are therefore an embedding into the sets of numbers that respects
every operation, and the laws are pulled back along it: the sets of spans are a
generalized Boolean algebra. There is no largest one, since a set of spans is
finite, and so there is no complement, only difference.

Whole computations are terms over the operations (`Term`). What a term evaluates
to is compared with the set of numbers that it describes, once as a value and once
through what is looked up in it.
-/

namespace EmbeddedSql

namespace SpanSet

/-! ## Positions as a set -/

/-- **The positions of a set of spans.** -/
def positions (s : SpanSet) : Set Nat := {p | p ∈ s}

@[simp] theorem mem_positions {s : SpanSet} {p : Nat} : p ∈ s.positions ↔ p ∈ s := Iff.rfl

theorem positions_injective : Function.Injective positions := fun _ _ h =>
  ext_mem (Set.ext_iff.mp h)

theorem positions_empty : empty.positions = ∅ := by
  ext p
  simp

theorem positions_ofSpans (spans : List Span) :
    (ofSpans spans).positions = {p | ∃ s ∈ spans, p ∈ s} := by
  ext p
  exact mem_ofSpans

theorem positions_single (s : Span) : (single s).positions = {p | p ∈ s} := by
  ext p
  exact mem_single

theorem positions_union (s t : SpanSet) : (s.union t).positions = s.positions ∪ t.positions := by
  ext p
  exact mem_union

/-- An empty span adds nothing, so it makes no difference that it is passed
over. -/
theorem positions_insert (s : SpanSet) (t : Span) :
    (s.insert t).positions = s.positions ∪ {p | p ∈ t} := by
  ext p
  show p ∈ s.insert t ↔ p ∈ s ∨ p ∈ t
  unfold insert
  split
  · next hempty =>
    rw [Span.isEmpty_iff] at hempty
    have hnone : p ∉ t := fun hp => Nat.ne_of_gt (Span.len_pos_of_mem hp) hempty
    rw [or_iff_left hnone]
  · rw [mem_ofSpans, covers_append, mem_iff_covers, covers_cons, covers_nil, or_false]

theorem positions_overlap (s t : SpanSet) :
    (s.overlap t).positions = s.positions ∩ t.positions := by
  ext p
  exact mem_overlap

theorem positions_difference (s t : SpanSet) :
    (s.difference t).positions = s.positions \ t.positions := by
  ext p
  exact mem_difference

/-! ## The algebra -/

instance : Max SpanSet := ⟨union⟩

instance : Min SpanSet := ⟨overlap⟩

instance : SDiff SpanSet := ⟨difference⟩

instance : Bot SpanSet := ⟨empty⟩

/-- One set is below another if it has no position that the other lacks. -/
instance : LE SpanSet := ⟨fun s t => s.positions ⊆ t.positions⟩

instance : LT SpanSet := ⟨fun s t => s ≤ t ∧ ¬ t ≤ s⟩

/-- **Sets of spans are an algebra of sets**, as values and not only up to the
positions they stand for. -/
instance : GeneralizedBooleanAlgebra SpanSet :=
  positions_injective.generalizedBooleanAlgebra positions Iff.rfl lt_iff_le_not_ge positions_union
    positions_overlap positions_empty positions_difference

/-! ## Computations -/

/-- **A computation with sets of spans**, as the tree of its operations. -/
inductive Term where
  /-- The set of some spans, in any order. -/
  | ofSpans (spans : List Span)
  /-- The set of one span. -/
  | single (s : Span)
  /-- A set with one more span. -/
  | insert (a : Term) (s : Span)
  /-- The union of two sets. -/
  | union (a c : Term)
  /-- The overlap of two sets. -/
  | overlap (a c : Term)
  /-- The difference of two sets. -/
  | difference (a c : Term)

namespace Term

/-- What a computation comes to. -/
def eval : Term → SpanSet
  | ofSpans spans => .ofSpans spans
  | single s => .single s
  | insert a s => a.eval.insert s
  | union a c => a.eval.union c.eval
  | overlap a c => a.eval.overlap c.eval
  | difference a c => a.eval.difference c.eval

/-- The set of numbers that a computation describes. No list of spans has a part
in it. -/
def positions : Term → Set Nat
  | ofSpans spans => {p | ∃ s ∈ spans, p ∈ s}
  | single s => {p | p ∈ s}
  | insert a s => a.positions ∪ {p | p ∈ s}
  | union a c => a.positions ∪ c.positions
  | overlap a c => a.positions ∩ c.positions
  | difference a c => a.positions \ c.positions

/-- No span that a computation is given stops behind a limit. -/
def Within (limit : Nat) : Term → Prop
  | ofSpans spans => ∀ s ∈ spans, s.stop ≤ limit
  | single s => s.stop ≤ limit
  | insert a s => a.Within limit ∧ s.stop ≤ limit
  | union a c => a.Within limit ∧ c.Within limit
  | overlap a c => a.Within limit ∧ c.Within limit
  | difference a c => a.Within limit ∧ c.Within limit

theorem positions_eval (a : Term) : a.eval.positions = a.positions := by
  induction a with
  | ofSpans spans => exact positions_ofSpans spans
  | single s => exact positions_single s
  | insert a s ih => rw [eval, positions_insert, ih, positions]
  | union a c iha ihc => rw [eval, positions_union, iha, ihc, positions]
  | overlap a c iha ihc => rw [eval, positions_overlap, iha, ihc, positions]
  | difference a c iha ihc => rw [eval, positions_difference, iha, ihc, positions]

theorem lt_of_mem_positions {limit : Nat} {a : Term} (h : a.Within limit) {p : Nat}
    (hp : p ∈ a.positions) : p < limit := by
  induction a with
  | ofSpans spans =>
    obtain ⟨s, hs, hps⟩ := hp
    exact Nat.lt_of_lt_of_le hps.2 (h s hs)
  | single s => exact Nat.lt_of_lt_of_le hp.2 h
  | insert a s ih => exact hp.elim (ih h.1) fun hps => Nat.lt_of_lt_of_le hps.2 h.2
  | union a c iha ihc => exact hp.elim (iha h.1) (ihc h.2)
  | overlap a c iha ihc => exact iha h.1 hp.1
  | difference a c iha ihc => exact iha h.1 hp.1

/-- No span stops later than the last of those given: a span of the result ends
with one of its positions. -/
theorem stop_le_of_within {limit : Nat} {a : Term} (h : a.Within limit) :
    ∀ s ∈ a.eval.toList, s.stop ≤ limit := by
  intro s hs
  have hlast : s.stop - 1 ∈ a.eval.positions :=
    ⟨s, hs, Span.pred_stop_mem (a.eval.normal.nonempty s hs)⟩
  rw [positions_eval] at hlast
  have hlt := lt_of_mem_positions h hlast
  omega

theorem eval_eq_of_positions_eq {a c : Term} (h : a.positions = c.positions) : a.eval = c.eval := by
  refine positions_injective ?_
  rw [positions_eval, positions_eval, h]

/-- **Computations with sets of spans are computations with sets.** Whatever the
operations and their order, the result has no empty span, its spans come in order
with a position missing between any two, and its positions are those that the
operations on sets of numbers give. It stays within any limit that holds for the
spans given. Two computations that describe the same positions have equal results,
and so union and overlap obey the laws of sets as equations. -/
theorem eval_canonical (a : Term) :
    ((∀ s ∈ a.eval.toList, 0 < s.len) ∧
        a.eval.toList.Pairwise fun s t => s.start < t.start ∧ s.stop + 1 ≤ t.start) ∧
      (∀ p, p ∈ a.eval ↔ p ∈ a.positions) ∧
      (∀ limit, a.Within limit → ∀ s ∈ a.eval.toList, s.stop ≤ limit) ∧
      (∀ c : Term, c.positions = a.positions → c.eval = a.eval) ∧
      ∀ c d : Term,
        (a.union c).eval = (c.union a).eval ∧
        (a.overlap c).eval = (c.overlap a).eval ∧
        ((a.union c).union d).eval = (a.union (c.union d)).eval ∧
        ((a.overlap c).overlap d).eval = (a.overlap (c.overlap d)).eval ∧
        (a.overlap (c.union d)).eval = ((a.overlap c).union (a.overlap d)).eval ∧
        (a.union (c.overlap d)).eval = ((a.union c).overlap (a.union d)).eval := by
  refine ⟨⟨a.eval.normal.nonempty, ?_⟩, fun p => ?_, fun limit => stop_le_of_within,
    fun c => eval_eq_of_positions_eq, fun c d => ?_⟩
  · refine a.eval.normal.apart.imp fun {s t} hlt => ⟨?_, hlt⟩
    exact Nat.lt_of_le_of_lt s.start_le_stop hlt
  · rw [← positions_eval, mem_positions]
  · exact ⟨sup_comm a.eval c.eval, inf_comm a.eval c.eval, sup_assoc a.eval c.eval d.eval,
      inf_assoc a.eval c.eval d.eval, inf_sup_left a.eval c.eval d.eval,
      sup_inf_left a.eval c.eval d.eval⟩

/-- Two spans that touch, and what is left of a span behind whose middle
everything is taken away: the same positions, and so the same set. -/
theorem eval_canonical_touching :
    ∃ a c : Term, a = .union (.single ⟨3, 2⟩) (.insert (.ofSpans [⟨0, 3⟩, ⟨4, 0⟩]) ⟨1, 1⟩) ∧
      c = .difference (.single ⟨0, 8⟩) (.ofSpans [⟨7, 9⟩, ⟨5, 2⟩]) ∧
      c.positions = a.positions ∧ a.Within 5 ∧ c.eval = a.eval ∧
      ∀ s ∈ a.eval.toList, s.stop ≤ 5 := by
  have hsame : (difference (single ⟨0, 8⟩) (ofSpans [⟨7, 9⟩, ⟨5, 2⟩])).positions =
      (union (single ⟨3, 2⟩) (insert (ofSpans [⟨0, 3⟩, ⟨4, 0⟩]) ⟨1, 1⟩)).positions := by
    ext p
    simp only [positions, List.mem_cons, List.not_mem_nil, or_false, exists_eq_or_imp, exists_eq_left,
      Set.mem_sdiff, Set.mem_union, Set.mem_ofPred_eq, Span.mem_def, Span.stop]
    omega
  have hwithin : (union (single ⟨3, 2⟩) (insert (ofSpans [⟨0, 3⟩, ⟨4, 0⟩]) ⟨1, 1⟩)).Within 5 := by
    simp only [Within, List.mem_cons, List.not_mem_nil, or_false, forall_eq_or_imp, forall_eq,
      Span.stop]
    omega
  obtain ⟨-, -, hlimit, hequal, -⟩ :=
    eval_canonical (union (single ⟨3, 2⟩) (insert (ofSpans [⟨0, 3⟩, ⟨4, 0⟩]) ⟨1, 1⟩))
  exact ⟨_, _, rfl, rfl, hsame, hwithin, hequal _ hsame, hlimit 5 hwithin⟩

/-! ## Lookups -/

/-- **A lookup answers for the whole set.** It halves the spans and then looks at
one of them only. Whatever computation the set comes from, a position is found in it
if one of its spans holds the position, which is if the computation describes it; the
span found is the one that holds the position, and there is no other; and a span meets
the set if the two share a position, which a span without positions never does. -/
theorem eval_lookups_eq_membership (a : Term) (p : Nat) (s : Span) :
    ((a.eval.contains p = true ↔ ∃ t ∈ a.eval.toList, p ∈ t) ∧
        (a.eval.contains p = true ↔ p ∈ a.positions)) ∧
      ((∀ t, a.eval.spanAt? p = some t ↔ t ∈ a.eval.toList ∧ p ∈ t) ∧
        (a.eval.spanAt? p = none ↔ ∀ t ∈ a.eval.toList, p ∉ t) ∧
        ∀ t ∈ a.eval.toList, ∀ u ∈ a.eval.toList, p ∈ t → p ∈ u → t = u) ∧
      (a.eval.meets s = true ↔ ∃ q, q ∈ a.positions ∧ q ∈ s) ∧
        (s.len = 0 → a.eval.meets s = false) := by
  have hmem : ∀ q, q ∈ a.eval ↔ q ∈ a.positions := fun q => by
    rw [← positions_eval, mem_positions]
  refine ⟨⟨contains_iff, contains_iff.trans (hmem p)⟩,
    ⟨fun t => spanAt?_eq_some_iff, ?_, ?_⟩, ?_, ?_⟩
  · rw [Option.eq_none_iff_forall_ne_some]
    exact forall_congr' fun t => (not_congr spanAt?_eq_some_iff).trans not_and
  · intro t ht u hu hpt hpu
    exact eq_of_mem_toList ht hu hpt hpu
  · rw [meets_iff]
    exact exists_congr fun q => and_congr_left' (hmem q)
  · intro hempty
    rw [← Bool.not_eq_true, meets_iff]
    rintro ⟨q, -, hq⟩
    exact Nat.ne_of_gt (Span.len_pos_of_mem hq) hempty

end Term

end SpanSet

end EmbeddedSql
