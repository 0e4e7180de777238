import EmbeddedSql.SpanSet

/-!
# The positions of a set of spans

A set of spans is a way to write down a set of positions, and every operation
on it should be read off the positions alone. This module gives that reading:
one equivalence for each operation, and one for each way of looking something
up. `Covers` is the reading on plain lists, where the operations recurse.

The normal form is what makes the reading faithful in the other direction:
two sets with the same positions are the same set (`SpanSet.ext_mem`).
-/

namespace EmbeddedSql

/-- A position lies in one of the spans. -/
def Covers (spans : List Span) (p : Nat) : Prop := ∃ s ∈ spans, p ∈ s

@[simp] theorem covers_nil (p : Nat) : Covers [] p ↔ False := by simp [Covers]

@[simp] theorem covers_cons (s : Span) (spans : List Span) (p : Nat) :
    Covers (s :: spans) p ↔ p ∈ s ∨ Covers spans p := by simp [Covers]

@[simp] theorem covers_append (ss ts : List Span) (p : Nat) :
    Covers (ss ++ ts) p ↔ Covers ss p ∨ Covers ts p := by
  simp only [Covers, List.mem_append, or_and_right, exists_or]

namespace Span

@[simp] theorem mem_between {a b p : Nat} : p ∈ between a b ↔ a ≤ p ∧ p < b := by
  rw [mem_def, start_between, stop_between]
  omega

theorem isEmpty_iff {s : Span} : s.isEmpty = true ↔ s.len = 0 := by simp [isEmpty]

theorem start_mem {s : Span} (h : 0 < s.len) : s.start ∈ s := ⟨Nat.le_refl _, by simp [stop, h]⟩

theorem pred_stop_mem {s : Span} (h : 0 < s.len) : s.stop - 1 ∈ s := by
  rw [mem_def, stop]
  omega

theorem len_pos_of_mem {s : Span} {p : Nat} (h : p ∈ s) : 0 < s.len := by
  rw [mem_def, stop] at h
  omega

theorem mem_shift {s : Span} {d p : Nat} : p ∈ s.shift d ↔ d ≤ p ∧ p - d ∈ s := by
  rw [mem_def, mem_def, start_shift, stop_shift]
  omega

theorem inter?_eq_none {s t : Span} (h : s.inter? t = none) {p : Nat} (hs : p ∈ s) : p ∉ t := by
  intro ht
  unfold inter? at h
  split at h
  · simp at h
  · next hlt => rw [mem_def] at hs ht; omega

theorem covers_inter? (s t : Span) (p : Nat) :
    Covers (s.inter? t).toList p ↔ p ∈ s ∧ p ∈ t := by
  cases h : s.inter? t with
  | none => simpa using inter?_eq_none h
  | some u => simpa using mem_inter?_iff h

/-- Two spans overlap exactly when they share a position. -/
theorem overlaps_iff {s t : Span} : s.overlaps t = true ↔ ∃ p, p ∈ s ∧ p ∈ t := by
  simp only [overlaps, isEmpty, Bool.and_eq_true, Bool.not_eq_true', beq_eq_false_iff_ne,
    decide_eq_true_eq, mem_def]
  simp only [stop]
  constructor
  · rintro ⟨⟨⟨hs, ht⟩, h₁⟩, h₂⟩
    exact ⟨max s.start t.start, by omega⟩
  · rintro ⟨p, hs, ht⟩
    omega

theorem contains_iff {s : Span} {p : Nat} : s.contains p = true ↔ p ∈ s := by simp [contains]

@[simp] theorem between_start_stop (s : Span) : between s.start s.stop = s := by
  simp [between, stop]

theorem ext_bounds {s t : Span} (hstart : s.start = t.start) (hstop : s.stop = t.stop) : s = t := by
  cases s; cases t
  simp only [stop] at hstart hstop
  rw [mk.injEq]
  omega

end Span

/-! ## Building a set -/

namespace SpanSet

theorem mem_iff_covers {s : SpanSet} {p : Nat} : p ∈ s ↔ Covers s.toList p := Iff.rfl

/-- Joining spans in order loses no position and adds none. -/
theorem covers_coalesce {cur : Span} {spans : List Span} {p : Nat}
    (hsorted : (cur :: spans).Pairwise fun a b => a.start ≤ b.start) :
    Covers (coalesce cur spans) p ↔ p ∈ cur ∨ Covers spans p := by
  induction spans generalizing cur with
  | nil => simp [coalesce]
  | cons s rest ih =>
    rw [List.pairwise_cons, List.pairwise_cons] at hsorted
    obtain ⟨hcur, hs, hrest⟩ := hsorted
    have hle := hcur s List.mem_cons_self
    unfold coalesce
    split
    · have hgrown : (Span.between cur.start (max cur.stop s.stop) :: rest).Pairwise
          fun a b => a.start ≤ b.start :=
        List.pairwise_cons.mpr ⟨fun b hb => hcur b (List.mem_cons_of_mem _ hb), hrest⟩
      rw [ih hgrown, covers_cons, ← or_assoc, Span.mem_between, Span.mem_def, Span.mem_def]
      refine or_congr_left ?_
      omega
    · rw [covers_cons, ih (List.pairwise_cons.mpr ⟨hs, hrest⟩), covers_cons]

theorem covers_normalize (spans : List Span) (p : Nat) :
    Covers (normalize spans) p ↔ Covers spans p := by
  have hmem : Covers ((spans.filter fun s => !s.isEmpty).mergeSort fun s t => decide (s ≤ t)) p ↔
      Covers spans p := by
    simp only [Covers, List.mem_mergeSort, List.mem_filter]
    constructor
    · rintro ⟨s, ⟨hs, -⟩, hp⟩
      exact ⟨s, hs, hp⟩
    · rintro ⟨s, hs, hp⟩
      refine ⟨s, ⟨hs, ?_⟩, hp⟩
      rw [Span.mem_def, Span.stop] at hp
      simp only [Span.isEmpty, Bool.not_eq_true', beq_eq_false_iff_ne]
      omega
  have hsorted := pairwise_start_mergeSort (spans.filter fun s => !s.isEmpty)
  unfold normalize
  split
  · next heq => rw [← hmem, heq]
  · next s rest heq =>
    rw [heq] at hsorted hmem
    rw [covers_coalesce hsorted, ← hmem, covers_cons]

@[simp] theorem mem_ofSpans {spans : List Span} {p : Nat} : p ∈ ofSpans spans ↔ Covers spans p := by
  rw [mem_iff_covers, ofSpans, toList_ofNormal, covers_normalize]

@[simp] theorem mem_empty {p : Nat} : p ∈ empty ↔ False := by
  rw [mem_iff_covers, empty, toList_ofNormal, covers_nil]

@[simp] theorem mem_single {s : Span} {p : Nat} : p ∈ single s ↔ p ∈ s := by
  simp [single]

@[simp] theorem mem_union {s t : SpanSet} {p : Nat} : p ∈ s.union t ↔ p ∈ s ∨ p ∈ t := by
  rw [union, mem_ofSpans, covers_append, mem_iff_covers, mem_iff_covers]

/-! ## Overlap and difference -/

theorem covers_commonParts {as bs : List Span} (ha : Normal as) (hb : Normal bs) {p : Nat} :
    Covers (commonParts as bs) p ↔ Covers as p ∧ Covers bs p := by
  fun_induction commonParts as bs with
  | case1 => simp
  | case2 => simp
  | case3 a as b bs ih₁ ih₂ =>
    rw [covers_append, Span.covers_inter?, covers_cons, covers_cons]
    -- The span that stops first meets nothing of what follows the other one.
    split
    · next hle =>
      have hpast : p ∈ a → ¬ Covers bs p := by
        rintro hp ⟨t, ht, hpt⟩
        have := hb.head_lt t ht
        rw [Span.mem_def] at hp hpt
        omega
      rw [ih₁ ha.tail hb, covers_cons]
      grind
    · next hle =>
      have hpast : p ∈ b → ¬ Covers as p := by
        rintro hp ⟨t, ht, hpt⟩
        have := ha.head_lt t ht
        rw [Span.mem_def] at hp hpt
        omega
      rw [ih₂ ha hb.tail, covers_cons]
      grind

@[simp] theorem mem_overlap {s t : SpanSet} {p : Nat} : p ∈ s.overlap t ↔ p ∈ s ∧ p ∈ t := by
  rw [mem_iff_covers, overlap, toList_ofNormal]
  exact covers_commonParts s.normal t.normal

theorem covers_punch {stop cursor : Nat} {holes : List Span} (h : Normal holes) {p : Nat} :
    Covers (punch stop cursor holes) p ↔ (cursor ≤ p ∧ p < stop) ∧ ¬ Covers holes p := by
  have hone : ∀ a b : Nat, Covers (if a < b then [Span.between a b] else []) p ↔ a ≤ p ∧ p < b := by
    intro a b
    split
    · simp
    · rw [covers_nil, false_iff]; omega
  induction holes generalizing cursor with
  | nil => simpa [punch] using hone cursor stop
  | cons hole holes ih =>
    have hlater : ∀ q, q ≤ hole.stop → ¬ Covers holes q := by
      rintro q hq ⟨t, ht, hqt⟩
      have := h.head_lt t ht
      rw [Span.mem_def] at hqt
      omega
    have hstop := hole.start_le_stop
    have hrest : Covers (punch stop (max cursor hole.stop) holes) p ↔
        (max cursor hole.stop ≤ p ∧ p < stop) ∧ ¬ Covers holes p := ih h.tail
    unfold punch
    split
    · rw [covers_append, hone, hrest, covers_cons, Span.mem_def]
      by_cases hc : Covers holes p
      · have hp : ¬ p ≤ hole.stop := fun hp => hlater p hp hc
        simp only [hc, not_true_eq_false, and_false, or_false, or_true, iff_false]
        omega
      · simp only [hc, not_false_eq_true, and_true, or_false]
        omega
    · next hbeyond =>
      rw [hone]
      refine ⟨fun hp => ⟨hp, ?_⟩, fun hp => hp.1⟩
      rw [covers_cons, not_or]
      refine ⟨?_, hlater p (by omega)⟩
      rw [Span.mem_def]
      omega

theorem covers_dropWhile {holes : List Span} {start p : Nat} (hp : start ≤ p) :
    Covers (holes.dropWhile fun hole => hole.stop ≤ start) p ↔ Covers holes p := by
  induction holes with
  | nil => simp
  | cons hole holes ih =>
    rw [List.dropWhile_cons]
    split
    · next hle =>
      rw [decide_eq_true_eq] at hle
      rw [ih, covers_cons, or_iff_right]
      rw [Span.mem_def]
      omega
    · rfl

theorem covers_remainder {spans holes : List Span} (hs : Normal spans) (hh : Normal holes) {p : Nat} :
    Covers (remainder spans holes) p ↔ Covers spans p ∧ ¬ Covers holes p := by
  induction spans generalizing holes with
  | nil => simp [remainder]
  | cons s rest ih =>
    have hahead := normal_dropWhile hh fun hole => hole.stop ≤ s.start
    simp only [remainder, covers_append]
    rw [covers_punch hahead, ih hs.tail hahead, covers_cons, Span.mem_def]
    by_cases hp : s.start ≤ p
    · rw [covers_dropWhile hp]
      grind
    · -- Nothing that follows `s` reaches back before its start.
      have hrest : ¬ Covers rest p := by
        rintro ⟨t, ht, hpt⟩
        have := hs.head_lt t ht
        have := s.start_le_stop
        rw [Span.mem_def] at hpt
        omega
      grind

@[simp] theorem mem_difference {s t : SpanSet} {p : Nat} :
    p ∈ s.difference t ↔ p ∈ s ∧ p ∉ t := by
  rw [mem_iff_covers, difference, toList_ofNormal]
  exact covers_remainder s.normal t.normal

/-! ## Looking up -/

theorem mem_toList_iff {s : SpanSet} {t : Span} : t ∈ s.toList ↔ ∃ i : Nat, s.spans[i]? = some t := by
  rw [toList, List.mem_iff_getElem?]
  simp

/-- Of two spans of the set, the later one starts behind the earlier one. -/
theorem stop_lt_start_of_lt {s : SpanSet} {i j : Nat} {t u : Span} (ht : s.spans[i]? = some t)
    (hu : s.spans[j]? = some u) (hij : i < j) : t.stop < u.start := by
  obtain ⟨hi, rfl⟩ := Array.getElem?_eq_some_iff.mp ht
  obtain ⟨hj, rfl⟩ := Array.getElem?_eq_some_iff.mp hu
  have h := List.pairwise_iff_getElem.mp s.normal.apart i j (by simpa using hi) (by simpa using hj) hij
  simpa only [Array.getElem_toList] using h

/-- **The one candidate.** The spans before the first that stops past a
position end at the position or before it, and the others end past it. -/
theorem lt_firstPast_iff (s : SpanSet) (p : Nat) {i : Nat} {t : Span} (ht : s.spans[i]? = some t) :
    i < s.firstPast p ↔ t.stop ≤ p := by
  have hi : i < s.spans.size := (Array.getElem?_eq_some_iff.mp ht).1
  unfold firstPast
  rw [lt_bisect_iff _ (Nat.zero_le _) ?_ (Nat.zero_le _) hi, ht]
  · simp
  · intro i j _ hij hj
    have hjth := Array.getElem?_eq_getElem hj
    have hith := Array.getElem?_eq_getElem (show i < s.spans.size by omega)
    rw [hith, hjth, Option.any_some, Option.any_some, decide_eq_true_eq, decide_eq_true_eq]
    rcases Nat.lt_or_eq_of_le hij with hij | rfl
    · have hapart := stop_lt_start_of_lt hith hjth hij
      have := s.spans[j].start_le_stop
      omega
    · exact id

/-- A span that stops past a position is the candidate itself, or the candidate stands
before it and stops past the position as well. -/
theorem firstPast_eq_or_exists {s : SpanSet} {p i : Nat} {t : Span} (ht : s.spans[i]? = some t)
    (hp : p < t.stop) :
    s.firstPast p = i ∨
      ∃ u, s.spans[s.firstPast p]? = some u ∧ p < u.stop ∧ u.stop < t.start := by
  have hpast : s.firstPast p ≤ i := by
    refine Nat.le_of_not_lt fun hlt => ?_
    exact absurd ((lt_firstPast_iff s p ht).mp hlt) (Nat.not_le_of_lt hp)
  rcases Nat.lt_or_eq_of_le hpast with hlt | heq
  · have hsize : s.firstPast p < s.spans.size :=
      Nat.lt_trans hlt (Array.getElem?_eq_some_iff.mp ht).1
    have hcand := Array.getElem?_eq_getElem hsize
    have hstop := mt (lt_firstPast_iff s p hcand).mpr (Nat.lt_irrefl _)
    exact Or.inr ⟨_, hcand, Nat.lt_of_not_le hstop, stop_lt_start_of_lt hcand ht hlt⟩
  · exact Or.inl heq

/-- The span found at a position is the one that holds it. -/
theorem spanAt?_eq_some_iff {s : SpanSet} {p : Nat} {t : Span} :
    s.spanAt? p = some t ↔ t ∈ s.toList ∧ p ∈ t := by
  rw [spanAt?, Option.filter_eq_some_iff, Span.contains_iff]
  constructor
  · rintro ⟨ht, hp⟩
    exact ⟨mem_toList_iff.mpr ⟨_, ht⟩, hp⟩
  · rintro ⟨ht, hp⟩
    obtain ⟨i, hi⟩ := mem_toList_iff.mp ht
    refine ⟨?_, hp⟩
    rcases firstPast_eq_or_exists hi hp.2 with heq | ⟨u, -, hpast, hbefore⟩
    · rw [heq]
      exact hi
    · -- A span before `t` cannot stop past a position of `t`.
      exact absurd (Nat.lt_trans hpast hbefore) (Nat.not_lt_of_le hp.1)

/-- No two spans of a set hold the same position. -/
theorem eq_of_mem_toList {s : SpanSet} {t u : Span} (ht : t ∈ s.toList) (hu : u ∈ s.toList)
    {p : Nat} (hpt : p ∈ t) (hpu : p ∈ u) : t = u := by
  have hfound := spanAt?_eq_some_iff.mpr ⟨ht, hpt⟩
  rw [spanAt?_eq_some_iff.mpr ⟨hu, hpu⟩] at hfound
  exact (Option.some.inj hfound).symm

theorem contains_iff {s : SpanSet} {p : Nat} : s.contains p = true ↔ p ∈ s := by
  have hfound : s.contains p = true ↔ ∃ t, s.spanAt? p = some t := by
    simp only [contains, spanAt?, Option.any_eq_true, Option.filter_eq_some_iff]
  rw [hfound]
  exact exists_congr fun t => spanAt?_eq_some_iff

/-- A span shares a position with the set exactly when the candidate at its
start does. -/
theorem meets_iff {s : SpanSet} {t : Span} : s.meets t = true ↔ ∃ p, p ∈ s ∧ p ∈ t := by
  unfold meets
  rw [Option.any_eq_true]
  constructor
  · rintro ⟨u, hu, hut⟩
    obtain ⟨p, hpu, hpt⟩ := Span.overlaps_iff.mp hut
    exact ⟨p, ⟨u, mem_toList_iff.mpr ⟨_, hu⟩, hpu⟩, hpt⟩
  · rintro ⟨p, ⟨u, hu, hpu⟩, hpt⟩
    obtain ⟨i, hi⟩ := mem_toList_iff.mp hu
    rw [Span.mem_def] at hpu hpt
    rcases firstPast_eq_or_exists hi (Nat.lt_of_le_of_lt hpt.1 hpu.2) with
      heq | ⟨v, hv, hpast, hbefore⟩
    · rw [heq]
      exact ⟨u, hi, Span.overlaps_iff.mpr ⟨p, Span.mem_def.mpr hpu, Span.mem_def.mpr hpt⟩⟩
    · -- The candidate stands before the span that was found, and reaches into `t` as well.
      have hpos := v.start_mem (s.normal.nonempty v (mem_toList_iff.mpr ⟨_, hv⟩))
      rw [Span.mem_def] at hpos
      refine ⟨v, hv, Span.overlaps_iff.mpr ⟨max t.start v.start, ?_⟩⟩
      simp only [Span.mem_def]
      omega

/-! ## Equality -/

/-- **The normal form of a set of positions is unique.** -/
theorem eq_of_covers_iff {as bs : List Span} (ha : Normal as) (hb : Normal bs)
    (h : ∀ p, Covers as p ↔ Covers bs p) : as = bs := by
  induction as generalizing bs with
  | nil =>
    cases bs with
    | nil => rfl
    | cons b bs => exact absurd ((h b.start).mpr ⟨b, by simp, b.start_mem hb.head_pos⟩) (by simp)
  | cons a as ih =>
    cases bs with
    | nil => exact absurd ((h a.start).mp ⟨a, by simp, a.start_mem ha.head_pos⟩) (by simp)
    | cons b bs =>
      have hafter : ∀ {c : Span} {cs : List Span}, Normal (c :: cs) → ∀ p, Covers cs p → c.stop < p := by
        rintro c cs hc p ⟨t, ht, hp⟩
        exact Nat.lt_of_lt_of_le (hc.head_lt t ht) hp.1
      have hfirst : ∀ {c : Span} {cs : List Span}, Normal (c :: cs) → ∀ p, Covers (c :: cs) p →
          c.start ≤ p := by
        intro c cs hc p hp
        rcases (covers_cons c cs p).mp hp with hp | hp
        · exact hp.1
        · exact Nat.le_of_lt (Nat.lt_of_le_of_lt c.start_le_stop (hafter hc p hp))
      have hstart : a.start = b.start := Nat.le_antisymm
        (hfirst ha _ ((h _).mpr ⟨b, by simp, b.start_mem hb.head_pos⟩))
        (hfirst hb _ ((h _).mp ⟨a, by simp, a.start_mem ha.head_pos⟩))
      have hgap : ∀ {c : Span} {cs : List Span}, Normal (c :: cs) → ¬ Covers (c :: cs) c.stop := by
        intro c cs hc hp
        rcases (covers_cons c cs _).mp hp with hp | hp
        · exact Nat.lt_irrefl _ hp.2
        · exact Nat.lt_irrefl _ (hafter hc _ hp)
      have hapos := ha.head_pos
      have hbpos := hb.head_pos
      have hstop : a.stop = b.stop := by
        rcases Nat.lt_trichotomy a.stop b.stop with hlt | heq | hlt
        · exact absurd ((h a.stop).mpr ⟨b, by simp, by simp only [Span.mem_def, Span.stop] at *; omega⟩)
            (hgap ha)
        · exact heq
        · exact absurd ((h b.stop).mp ⟨a, by simp, by simp only [Span.mem_def, Span.stop] at *; omega⟩)
            (hgap hb)
      obtain rfl := Span.ext_bounds hstart hstop
      have htail : ∀ p, Covers as p ↔ Covers bs p := by
        intro p
        have hp := h p
        rw [covers_cons, covers_cons, Span.mem_def] at hp
        constructor
        · intro hc
          have := hafter ha p hc
          exact (hp.mp (Or.inr hc)).resolve_left (by omega)
        · intro hc
          have := hafter hb p hc
          exact (hp.mpr (Or.inr hc)).resolve_left (by omega)
      rw [ih ha.tail hb.tail htail]

/-- **Sets with the same positions are equal.** -/
theorem ext_mem {s t : SpanSet} (h : ∀ p, p ∈ s ↔ p ∈ t) : s = t :=
  SpanSet.ext (eq_of_covers_iff s.normal t.normal h)

/-! ## Bounds -/

/-- The spans of a set come in order. -/
theorem pairwise_start (s : SpanSet) : s.toList.Pairwise fun t u => t.start ≤ u.start :=
  s.normal.apart.imp fun {t _} hlt => Nat.le_of_lt (Nat.lt_of_le_of_lt t.start_le_stop hlt)

/-- The bounds of a span of the set are where membership changes. -/
theorem mem_iff_of_mem_toList {s : SpanSet} {t : Span} (ht : t ∈ s.toList) {p : Nat}
    (hp : t.start ≤ p + 1 ∧ p ≤ t.stop) : p ∈ s ↔ p ∈ t := by
  constructor
  · rintro ⟨u, hu, hpu⟩
    obtain ⟨i, hi⟩ := mem_toList_iff.mp ht
    obtain ⟨j, hj⟩ := mem_toList_iff.mp hu
    rw [Span.mem_def] at hpu
    rcases Nat.lt_trichotomy i j with hij | rfl | hij
    · have := stop_lt_start_of_lt hi hj hij
      omega
    · rw [hi, Option.some.injEq] at hj
      rw [hj]
      exact hpu
    · have := stop_lt_start_of_lt hj hi hij
      omega
  · exact fun h => ⟨t, ht, h⟩

/-- A span whose positions are all in the set lies inside the part that it meets. -/
theorem within_of_mem {set : SpanSet} {s t : Span} (hs : ∀ p ∈ s, p ∈ set) (ht : t ∈ set.toList)
    {p : Nat} (hps : p ∈ s) (hpt : p ∈ t) : t.start ≤ s.start ∧ s.stop ≤ t.stop := by
  rw [Span.mem_def] at hps hpt
  constructor
  · refine Nat.le_of_not_lt fun hlt => ?_
    have hbefore : t.start - 1 ∈ s := ⟨by omega, by omega⟩
    have := ((mem_iff_of_mem_toList ht ⟨by omega, by omega⟩).mp (hs _ hbefore)).1
    omega
  · refine Nat.le_of_not_lt fun hlt => ?_
    have hbehind : t.stop ∈ s := ⟨by omega, hlt⟩
    exact Nat.lt_irrefl _ ((mem_iff_of_mem_toList ht ⟨by omega, by omega⟩).mp (hs _ hbehind)).2

end SpanSet

end EmbeddedSql
