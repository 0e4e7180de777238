import EmbeddedSql.Proofs.Offsets
import EmbeddedSql.Proofs.Positions
import EmbeddedSql.Sql.Tag
import Mathlib.Data.List.Forall2

/-!
# The tags of each token

Tokens are traced back to the source with one cursor over the corrections,
shared by all of them and never moved back. What comes out is nevertheless
what each token would give on its own: `tagsFrom_eq_flatMap` says that the
cursor is, at every token, where a walk from the start would have brought it.

It is then enough to look at one token. Its units, from the offset of its
first character to that of its end, are cut where escapes begin and end
(`Decoded.TokenTags`). No cut goes through a piece, because whether a unit
belongs to an escape, or to the token, is the same for all units of one piece.
-/

namespace EmbeddedSql

/-! ## Pieces and their units -/

theorem totalWidth_take_succ {pieces : List Piece} {i : Nat} {p : Piece} (hp : pieces[i]? = some p) :
    totalWidth (pieces.take (i + 1)) = totalWidth (pieces.take i) + p.width := by
  rw [List.take_add_one, hp, totalWidth_append]
  rfl

theorem totalWidth_take_le {pieces : List Piece} (hw : ∀ p ∈ pieces, 1 ≤ p.width) {i j : Nat}
    (hij : i ≤ j) (hj : j ≤ pieces.length) :
    totalWidth (pieces.take i) ≤ totalWidth (pieces.take j) := by
  rcases Nat.lt_or_eq_of_le hij with hlt | rfl
  · exact Nat.le_of_lt (totalWidth_take_lt hw hlt hj)
  · exact Nat.le_refl _

/-- A unit lies in the piece with this index. -/
def InPiece (pieces : List Piece) (i x : Nat) : Prop :=
  totalWidth (pieces.take i) ≤ x ∧ x < totalWidth (pieces.take (i + 1))

/-- A unit lies in one piece only. -/
theorem InPiece.unique {pieces : List Piece} (hw : ∀ p ∈ pieces, 1 ≤ p.width) {i j x : Nat}
    (hi : i < pieces.length) (hj : j < pieces.length) (hix : InPiece pieces i x)
    (hjx : InPiece pieces j x) : i = j := by
  unfold InPiece at hix hjx
  rcases Nat.lt_trichotomy i j with hlt | heq | hlt
  · have := totalWidth_take_le hw (show i + 1 ≤ j from hlt) (by omega)
    omega
  · exact heq
  · have := totalWidth_take_le hw (show j + 1 ≤ i from hlt) (by omega)
    omega

/-- An offset up to the end of the content is the offset of a character, or
lies inside a piece. -/
theorem exists_offset_or_inside (pieces : List Piece) {x : Nat} (hx : x ≤ totalWidth pieces) :
    (∃ i ≤ pieces.length, x = totalWidth (pieces.take i)) ∨
      ∃ i < pieces.length, totalWidth (pieces.take i) < x ∧ x < totalWidth (pieces.take (i + 1)) := by
  induction pieces generalizing x with
  | nil => exact Or.inl ⟨0, Nat.le_refl _, by simpa using hx⟩
  | cons p pieces ih =>
    rw [totalWidth_cons] at hx
    by_cases hfirst : x < p.width
    · rcases Nat.eq_zero_or_pos x with rfl | hpos
      · exact Or.inl ⟨0, Nat.zero_le _, rfl⟩
      · exact Or.inr ⟨0, by simp, by simpa using hpos, by simpa using hfirst⟩
    · rcases @ih (x - p.width) (by omega) with ⟨i, hi, heq⟩ | ⟨i, hi, hlt⟩
      · refine Or.inl ⟨i + 1, by simpa using hi, ?_⟩
        rw [List.take_succ_cons, totalWidth_cons]
        omega
      · refine Or.inr ⟨i + 1, by simpa using hi, ?_⟩
        rw [List.take_succ_cons, List.take_succ_cons, totalWidth_cons, totalWidth_cons]
        omega

/-- The units of the piece that a correction stands for. -/
def Correction.extent (c : Correction) : Span := ⟨c.index, c.skip + 1⟩

/-- The corrections are those of the pieces of more than one unit. -/
theorem mem_correctionsOf {pos : Nat} {pieces : List Piece} {c : Correction} :
    c ∈ correctionsOf pos pieces ↔ ∃ i p, pieces[i]? = some p ∧ 1 < p.width ∧
      c = ⟨pos + totalWidth (pieces.take i), if p.escape then p.width else 0, p.width - 1⟩ := by
  induction pieces generalizing pos with
  | nil => simp [correctionsOf]
  | cons q pieces ih =>
    rw [correctionsOf, List.mem_append, ih]
    constructor
    · rintro (h | ⟨i, p, hp, hwide, rfl⟩)
      · split at h
        · next hwide => exact ⟨0, q, rfl, hwide, List.mem_singleton.mp h⟩
        · simp at h
      · refine ⟨i + 1, p, hp, hwide, ?_⟩
        rw [List.take_succ_cons, totalWidth_cons, Nat.add_assoc]
    · rintro ⟨i, p, hp, hwide, rfl⟩
      cases i with
      | zero =>
        obtain rfl : q = p := by simpa using hp
        rw [if_pos hwide]
        exact Or.inl (List.mem_singleton.mpr rfl)
      | succ i =>
        refine Or.inr ⟨i, p, hp, hwide, ?_⟩
        rw [List.take_succ_cons, totalWidth_cons, Nat.add_assoc]

namespace Decoded

/-- **The units that belong to escapes** are those of the pieces that are
escapes. -/
theorem mem_escapes_ofPieces {pieces : List Piece} (hwide : ∀ p ∈ pieces, p.escape → 2 ≤ p.width)
    {x : Nat} :
    x ∈ (ofPieces pieces).escapes ↔ ∃ i p, pieces[i]? = some p ∧ p.escape ∧ InPiece pieces i x := by
  rw [escapes, SpanSet.mem_ofSpans]
  simp only [Covers, List.mem_map, List.mem_filter, ofPieces, mem_correctionsOf, Nat.zero_add]
  constructor
  · rintro ⟨s, ⟨c, ⟨⟨i, p, hp, h1, rfl⟩, hesc⟩, rfl⟩, hx⟩
    by_cases he : p.escape
    · simp only [he, if_true, Correction.span, Span.mem_def, Span.stop] at hx
      exact ⟨i, p, hp, he, by rw [InPiece, totalWidth_take_succ hp]; exact hx⟩
    · simp [Correction.isEscape, he] at hesc
  · rintro ⟨i, p, hp, he, hx⟩
    have h2 := hwide p (List.mem_of_getElem? hp) he
    rw [InPiece, totalWidth_take_succ hp] at hx
    refine ⟨_, ⟨_, ⟨⟨i, p, hp, by omega, rfl⟩, ?_⟩, rfl⟩, ?_⟩
    · simp only [Correction.isEscape, he, if_true, decide_eq_true_eq]
      omega
    · simpa only [he, if_true, Correction.span, Span.mem_def, Span.stop] using hx

/-! ## Sets that hold whole pieces -/

/-- A set of units that holds all units of a piece or none of them. -/
structure Piecewise (pieces : List Piece) (s : SpanSet) : Prop where
  /-- It holds no unit beyond the pieces. -/
  inside : ∀ x ∈ s, x < totalWidth pieces
  /-- Two units of one piece are both in it or both outside. -/
  whole : ∀ i < pieces.length, ∀ x y, InPiece pieces i x → InPiece pieces i y → x ∈ s → y ∈ s

/-- **The spans of such a set begin and end where pieces do.** -/
theorem Piecewise.bounds {pieces : List Piece} {s : SpanSet} (h : Piecewise pieces s) {t : Span}
    (ht : t ∈ s.toList) :
    (∃ i ≤ pieces.length, t.start = totalWidth (pieces.take i)) ∧
      ∃ j ≤ pieces.length, t.stop = totalWidth (pieces.take j) := by
  have hpos := s.normal.nonempty t ht
  have hlast : t.stop - 1 ∈ s := by
    refine (SpanSet.mem_iff_of_mem_toList ht ?_).mpr ?_ <;>
      simp only [Span.mem_def, Span.stop] <;> omega
  have hend := h.inside _ hlast
  -- Inside a piece, a bound and the unit before it would be on different sides.
  have hbound : ∀ x, (x = t.start ∨ x = t.stop) → ∃ i ≤ pieces.length, x = totalWidth (pieces.take i) := by
    intro x hx
    have hle : x ≤ totalWidth pieces := by simp only [Span.stop] at *; omega
    rcases exists_offset_or_inside pieces hle with hoffset | ⟨i, hi, hlo, hhi⟩
    · exact hoffset
    · have hbefore : InPiece pieces i (x - 1) := ⟨by omega, by omega⟩
      have hat : InPiece pieces i x := ⟨by omega, hhi⟩
      have hsame : x - 1 ∈ s ↔ x ∈ s := ⟨h.whole i hi _ _ hbefore hat, h.whole i hi _ _ hat hbefore⟩
      rw [SpanSet.mem_iff_of_mem_toList ht (by simp only [Span.stop] at *; omega),
        SpanSet.mem_iff_of_mem_toList ht (by simp only [Span.stop] at *; omega)] at hsame
      simp only [Span.mem_def, Span.stop] at *
      omega
  exact ⟨hbound _ (Or.inl rfl), hbound _ (Or.inr rfl)⟩

/-- The units from one character to another. -/
def unitsBetween (pieces : List Piece) (a b : Nat) : Span :=
  Span.between (totalWidth (pieces.take a)) (totalWidth (pieces.take b))

theorem mem_unitsBetween_iff {pieces : List Piece} (hw : ∀ p ∈ pieces, 1 ≤ p.width) {a b i x : Nat}
    (hb : b ≤ pieces.length) (hi : i < pieces.length) (hx : InPiece pieces i x) :
    x ∈ unitsBetween pieces a b ↔ a ≤ i ∧ i < b := by
  unfold InPiece at hx
  rw [unitsBetween, Span.mem_between]
  constructor
  · rintro ⟨ha, hlt⟩
    constructor
    · refine Nat.le_of_not_lt fun hia => ?_
      rcases Nat.le_total a pieces.length with hlen | hlen
      · have := totalWidth_take_le hw (show i + 1 ≤ a from hia) hlen
        omega
      · have := totalWidth_take_le hw (show i + 1 ≤ pieces.length from hi) (Nat.le_refl _)
        rw [List.take_of_length_le hlen] at ha
        rw [List.take_length] at this
        omega
    · refine Nat.lt_of_not_le fun hbi => ?_
      have := totalWidth_take_le hw hbi (by omega)
      omega
  · rintro ⟨ha, hlt⟩
    have h₁ := totalWidth_take_le hw ha (by omega)
    have h₂ := totalWidth_take_le hw (show i + 1 ≤ b from hlt) hb
    omega

theorem mem_escapes_iff {pieces : List Piece} (hw : ∀ p ∈ pieces, 1 ≤ p.width)
    (hwide : ∀ p ∈ pieces, p.escape → 2 ≤ p.width) {i x : Nat} {p : Piece}
    (hp : pieces[i]? = some p) (hx : InPiece pieces i x) :
    x ∈ (ofPieces pieces).escapes ↔ p.escape = true := by
  rw [mem_escapes_ofPieces hwide]
  constructor
  · rintro ⟨j, q, hq, he, hjx⟩
    obtain rfl : i = j := hx.unique hw (List.getElem?_eq_some_iff.mp hp).1
      (List.getElem?_eq_some_iff.mp hq).1 hjx
    rw [hp, Option.some.injEq] at hq
    rwa [hq]
  · exact fun he => ⟨i, p, hp, he, hx⟩

theorem lt_totalWidth_of_mem_unitsBetween {pieces : List Piece} {a b x : Nat}
    (hx : x ∈ unitsBetween pieces a b) : x < totalWidth pieces := by
  rw [unitsBetween, Span.mem_between] at hx
  have h : totalWidth pieces = totalWidth (pieces.take b) + totalWidth (pieces.drop b) := by
    rw [← totalWidth_append, List.take_append_drop]
  omega

theorem piecewise_overlap {pieces : List Piece} (hw : ∀ p ∈ pieces, 1 ≤ p.width)
    (hwide : ∀ p ∈ pieces, p.escape → 2 ≤ p.width) {a b : Nat} (hb : b ≤ pieces.length) :
    Piecewise pieces ((SpanSet.single (unitsBetween pieces a b)).overlap (ofPieces pieces).escapes) where
  inside x hx := by
    rw [SpanSet.mem_overlap, SpanSet.mem_single] at hx
    exact lt_totalWidth_of_mem_unitsBetween hx.1
  whole i hi x y hx hy := by
    have hp := List.getElem?_eq_getElem hi
    rw [SpanSet.mem_overlap, SpanSet.mem_overlap, SpanSet.mem_single, SpanSet.mem_single,
      mem_unitsBetween_iff hw hb hi hx, mem_unitsBetween_iff hw hb hi hy,
      mem_escapes_iff hw hwide hp hx, mem_escapes_iff hw hwide hp hy]
    exact id

theorem piecewise_difference {pieces : List Piece} (hw : ∀ p ∈ pieces, 1 ≤ p.width)
    (hwide : ∀ p ∈ pieces, p.escape → 2 ≤ p.width) {a b : Nat} (hb : b ≤ pieces.length) :
    Piecewise pieces
      ((SpanSet.single (unitsBetween pieces a b)).difference (ofPieces pieces).escapes) where
  inside x hx := by
    rw [SpanSet.mem_difference, SpanSet.mem_single] at hx
    exact lt_totalWidth_of_mem_unitsBetween hx.1
  whole i hi x y hx hy := by
    have hp := List.getElem?_eq_getElem hi
    rw [SpanSet.mem_difference, SpanSet.mem_difference, SpanSet.mem_single, SpanSet.mem_single,
      mem_unitsBetween_iff hw hb hi hx, mem_unitsBetween_iff hw hb hi hy,
      mem_escapes_iff hw hwide hp hx, mem_escapes_iff hw hwide hp hy]
    exact id

/-! ## The tags of one token -/

/-- **What the tags of a token are**, said of the token alone: they have its
category, and divide the units of its characters into runs that are escapes
and runs that are not. -/
structure TokenTags (d : Decoded) (base : Nat) (t : Sql.Token) (tags : List SqlTag) : Prop where
  /-- Every tag has the category of the token. -/
  category : ∀ tag ∈ tags, tag.category = t.category
  /-- No tag is empty. -/
  nonempty : ∀ tag ∈ tags, 0 < tag.span.len
  /-- The tags come in order and share nothing. -/
  ascending : tags.Pairwise fun a b => a.span.stop ≤ b.span.start
  /-- Together they cover the units of the token's characters, and no other. -/
  covers : ∀ x, Covers (tags.map SqlTag.span) x ↔
    base + d.sourceOffset t.start ≤ x ∧ x < base + d.sourceOffset t.stop
  /-- A tag is marked as an escape exactly where its units belong to one. -/
  escape : ∀ tag ∈ tags, ∀ x ∈ tag.span, tag.escape = true ↔ x - base ∈ d.escapes
  /-- A tag begins and ends where a character of the text does. -/
  aligned : ∀ tag ∈ tags, (∃ i ≤ d.chars.length, tag.span.start = base + d.sourceOffset i) ∧
    ∃ j ≤ d.chars.length, tag.span.stop = base + d.sourceOffset j
  /-- No bound of a tag falls inside an escape sequence or a surrogate pair. -/
  uncut : ∀ tag ∈ tags, ∀ c ∈ d.corrections, ∀ x, (x = tag.span.start ∨ x = tag.span.stop) →
    ¬ (base + c.extent.start < x ∧ x < base + c.extent.stop)

theorem mem_cut {d : Decoded} {base : Nat} {category : Sql.Category} {s : Span} {tag : SqlTag} :
    tag ∈ d.cut base category s ↔
      (∃ t ∈ ((SpanSet.single s).overlap d.escapes).toList, tag = ⟨t.shift base, category, true⟩) ∨
      ∃ t ∈ ((SpanSet.single s).difference d.escapes).toList,
        tag = ⟨t.shift base, category, false⟩ := by
  simp only [cut, List.mem_mergeSort, List.mem_append, List.mem_map, eq_comm]

/-- The tags of a span hold the units of the span, each once, with the mark
that the escapes give it. -/
theorem mem_span_of_mem_cut {d : Decoded} {base : Nat} {category : Sql.Category} {s : Span}
    {tag : SqlTag} (h : tag ∈ d.cut base category s) {x : Nat} (hx : x ∈ tag.span) :
    base ≤ x ∧ x - base ∈ s ∧ (tag.escape = true ↔ x - base ∈ d.escapes) := by
  rcases mem_cut.mp h with ⟨t, ht, rfl⟩ | ⟨t, ht, rfl⟩
  · obtain ⟨hle, hxt⟩ := Span.mem_shift.mp hx
    have hmem : x - base ∈ (SpanSet.single s).overlap d.escapes := ⟨t, ht, hxt⟩
    rw [SpanSet.mem_overlap, SpanSet.mem_single] at hmem
    exact ⟨hle, hmem.1, fun _ => hmem.2, fun _ => rfl⟩
  · obtain ⟨hle, hxt⟩ := Span.mem_shift.mp hx
    have hmem : x - base ∈ (SpanSet.single s).difference d.escapes := ⟨t, ht, hxt⟩
    rw [SpanSet.mem_difference, SpanSet.mem_single] at hmem
    exact ⟨hle, hmem.1, fun h => absurd h Bool.false_ne_true, fun h => absurd h hmem.2⟩

theorem len_pos_of_mem_cut {d : Decoded} {base : Nat} {category : Sql.Category} {s : Span}
    {tag : SqlTag} (h : tag ∈ d.cut base category s) : 0 < tag.span.len := by
  rcases mem_cut.mp h with ⟨t, ht, rfl⟩ | ⟨t, ht, rfl⟩
  · exact ((SpanSet.single s).overlap d.escapes).normal.nonempty t ht
  · exact ((SpanSet.single s).difference d.escapes).normal.nonempty t ht

theorem covers_cut {d : Decoded} {base : Nat} {category : Sql.Category} {s : Span} {x : Nat} :
    Covers ((d.cut base category s).map SqlTag.span) x ↔ base ≤ x ∧ x - base ∈ s := by
  constructor
  · rintro ⟨u, hu, hx⟩
    obtain ⟨tag, htag, rfl⟩ := List.mem_map.mp hu
    obtain ⟨hle, hmem, -⟩ := mem_span_of_mem_cut htag hx
    exact ⟨hle, hmem⟩
  · rintro ⟨hle, hx⟩
    by_cases he : x - base ∈ d.escapes
    · have hmem : x - base ∈ (SpanSet.single s).overlap d.escapes := by
        rw [SpanSet.mem_overlap, SpanSet.mem_single]
        exact ⟨hx, he⟩
      obtain ⟨t, ht, hxt⟩ := hmem
      exact ⟨_, List.mem_map.mpr ⟨_, mem_cut.mpr (Or.inl ⟨t, ht, rfl⟩), rfl⟩,
        Span.mem_shift.mpr ⟨hle, hxt⟩⟩
    · have hmem : x - base ∈ (SpanSet.single s).difference d.escapes := by
        rw [SpanSet.mem_difference, SpanSet.mem_single]
        exact ⟨hx, he⟩
      obtain ⟨t, ht, hxt⟩ := hmem
      exact ⟨_, List.mem_map.mpr ⟨_, mem_cut.mpr (Or.inr ⟨t, ht, rfl⟩), rfl⟩,
        Span.mem_shift.mpr ⟨hle, hxt⟩⟩

/-- Tags that share no unit and are sorted by start come one after the
other. -/
theorem pairwise_stop_le_start {tags : List SqlTag} (hpos : ∀ tag ∈ tags, 0 < tag.span.len)
    (hdisjoint : tags.Pairwise fun a b => ∀ x ∈ a.span, x ∉ b.span)
    (hsorted : tags.Pairwise fun a b => a.span.start ≤ b.span.start) :
    tags.Pairwise fun a b => a.span.stop ≤ b.span.start := by
  refine (hdisjoint.and hsorted).imp_of_mem ?_
  rintro a b ha hb ⟨hshare, hle⟩
  refine Nat.le_of_not_lt fun hlt => ?_
  exact hshare b.span.start ⟨hle, hlt⟩ (Span.start_mem (hpos b hb))

theorem pairwise_disjoint_toList (s : SpanSet) (base : Nat) (category : Sql.Category) (mark : Bool) :
    (s.toList.map fun t => SqlTag.mk (t.shift base) category mark).Pairwise
      fun a b => ∀ x ∈ a.span, x ∉ b.span := by
  rw [List.pairwise_map]
  refine s.normal.apart.imp ?_
  intro t u hlt x hx hxu
  rw [Span.mem_def, Span.start_shift, Span.stop_shift] at hx hxu
  omega

theorem ascending_cut (d : Decoded) (base : Nat) (category : Sql.Category) (s : Span) :
    (d.cut base category s).Pairwise fun a b => a.span.stop ≤ b.span.start := by
  refine pairwise_stop_le_start (fun tag h => len_pos_of_mem_cut h) ?_ ?_
  · refine ((List.mergeSort_perm _ _).pairwise_iff (fun h x hx hx' => h x hx' hx)).mpr ?_
    rw [List.pairwise_append]
    refine ⟨pairwise_disjoint_toList _ _ _ _, pairwise_disjoint_toList _ _ _ _, ?_⟩
    intro a ha b hb x hxa hxb
    -- One of the two is marked as an escape and the other is not.
    obtain ⟨t, ht, rfl⟩ := List.mem_map.mp ha
    obtain ⟨u, hu, rfl⟩ := List.mem_map.mp hb
    have h₁ := (mem_span_of_mem_cut (mem_cut.mpr (Or.inl ⟨t, ht, rfl⟩)) hxa).2.2.mp rfl
    have h₂ := (mem_span_of_mem_cut (mem_cut.mpr (Or.inr ⟨u, hu, rfl⟩)) hxb).2.2.mpr h₁
    exact Bool.false_ne_true h₂
  · refine (List.pairwise_mergeSort ?_ ?_ _).imp (fun h => of_decide_eq_true h)
    · intro a b c; simp only [decide_eq_true_eq]; omega
    · intro a b; simp only [Bool.or_eq_true, decide_eq_true_eq]; omega

/-- The tags of the units from a token's first character to its end are the
tags of the token. -/
theorem tokenTags_cut {pieces : List Piece} (hw : ∀ p ∈ pieces, 1 ≤ p.width)
    (hwide : ∀ p ∈ pieces, p.escape → 2 ≤ p.width) (base : Nat) {t : Sql.Token}
    (ht : t.stop ≤ pieces.length) :
    TokenTags (ofPieces pieces) base t
      ((ofPieces pieces).cut base t.category (unitsBetween pieces t.start t.stop)) := by
  have hstart : t.start ≤ pieces.length := Nat.le_trans (Nat.le_add_right _ _) ht
  have hlen : (ofPieces pieces).chars.length = pieces.length := List.length_map _
  have haligned : ∀ tag ∈ (ofPieces pieces).cut base t.category (unitsBetween pieces t.start t.stop),
      (∃ i ≤ pieces.length, tag.span.start = base + totalWidth (pieces.take i)) ∧
        ∃ j ≤ pieces.length, tag.span.stop = base + totalWidth (pieces.take j) := by
    intro tag htag
    rcases mem_cut.mp htag with ⟨u, hu, rfl⟩ | ⟨u, hu, rfl⟩
    · obtain ⟨⟨i, hi, h₁⟩, j, hj, h₂⟩ := (piecewise_overlap hw hwide ht).bounds hu
      exact ⟨⟨i, hi, by rw [Span.start_shift, h₁, Nat.add_comm]⟩,
        j, hj, by rw [Span.stop_shift, h₂, Nat.add_comm]⟩
    · obtain ⟨⟨i, hi, h₁⟩, j, hj, h₂⟩ := (piecewise_difference hw hwide ht).bounds hu
      exact ⟨⟨i, hi, by rw [Span.start_shift, h₁, Nat.add_comm]⟩,
        j, hj, by rw [Span.stop_shift, h₂, Nat.add_comm]⟩
  refine ⟨?_, fun _ h => len_pos_of_mem_cut h, ascending_cut _ _ _ _, ?_, ?_, ?_, ?_⟩
  · intro tag htag
    rcases mem_cut.mp htag with ⟨u, -, rfl⟩ | ⟨u, -, rfl⟩ <;> rfl
  · intro x
    rw [covers_cut, unitsBetween, Span.mem_between, sourceOffset_ofPieces hw hstart,
      sourceOffset_ofPieces hw ht]
    omega
  · exact fun tag htag x hx => (mem_span_of_mem_cut htag hx).2.2
  · intro tag htag
    obtain ⟨⟨i, hi, h₁⟩, j, hj, h₂⟩ := haligned tag htag
    rw [hlen]
    exact ⟨⟨i, hi, by rw [h₁, sourceOffset_ofPieces hw hi]⟩,
      j, hj, by rw [h₂, sourceOffset_ofPieces hw hj]⟩
  · -- A bound is the offset of a character, and no such offset lies inside a piece.
    intro tag htag c hc x hx
    obtain ⟨k, p, hp, -, rfl⟩ := mem_correctionsOf.mp hc
    have hk := (List.getElem?_eq_some_iff.mp hp).1
    obtain ⟨i, hi, rfl⟩ : ∃ i ≤ pieces.length, x = base + totalWidth (pieces.take i) := by
      rcases hx with rfl | rfl
      · exact (haligned tag htag).1
      · exact (haligned tag htag).2
    have hnext := totalWidth_take_succ hp
    simp only [Correction.extent, Span.stop]
    rcases Nat.lt_or_ge k i with hki | hki
    · have := totalWidth_take_le hw (show k + 1 ≤ i from hki) hi
      omega
    · have := totalWidth_take_le hw hki (Nat.le_of_lt hk)
      omega

/-! ## One cursor for all tokens -/

/-- The cursor over the corrections after the first `k` characters: what the
corrections passed have added, and the corrections ahead. -/
def cursor (pieces : List Piece) (k : Nat) : Nat × List Correction :=
  (totalWidth (pieces.take k) - k, correctionsOf (totalWidth (pieces.take k)) (pieces.drop k))

/-- **Moving the cursor on is the same as starting over.** -/
theorem absorb_cursor {pieces : List Piece} (hw : ∀ p ∈ pieces, 1 ≤ p.width) {k j : Nat}
    (hkj : k ≤ j) (hj : j ≤ pieces.length) :
    absorb j (cursor pieces k).1 (cursor pieces k).2 = cursor pieces j := by
  obtain ⟨i, rfl⟩ := Nat.exists_eq_add_of_le hkj
  have hk := le_totalWidth_take hw (show k ≤ pieces.length by omega)
  have hwd : ∀ p ∈ pieces.drop k, 1 ≤ p.width := fun p hp => hw p (List.mem_of_mem_drop hp)
  have hi : i ≤ (pieces.drop k).length := by rw [List.length_drop]; omega
  have hwide := le_totalWidth_take hwd hi
  have hstep := absorb_correctionsOf hwd hi k (totalWidth (pieces.take k) - k)
  rw [show k + (totalWidth (pieces.take k) - k) = totalWidth (pieces.take k) by omega] at hstep
  rw [cursor, cursor, hstep, List.take_add, totalWidth_append, List.drop_drop]
  congr 1
  omega

/-- Whether a token gives any tags. -/
def isShown (t : Sql.Token) : Bool := decide (t.len ≠ 0) && decide (t.category ≠ .none)

theorem tagsFrom_eq_flatMap {pieces : List Piece} (hw : ∀ p ∈ pieces, 1 ≤ p.width) (base : Nat)
    {k : Nat} {tokens : List Sql.Token}
    (hahead : ∀ t ∈ tokens, isShown t → k ≤ t.start ∧ t.stop ≤ pieces.length)
    (horder : tokens.Pairwise fun a b => isShown a → isShown b → a.stop ≤ b.start) :
    (ofPieces pieces).tagsFrom base (cursor pieces k).1 (cursor pieces k).2 tokens =
      (tokens.filter isShown).flatMap fun t =>
        (ofPieces pieces).cut base t.category (unitsBetween pieces t.start t.stop) := by
  induction tokens generalizing k with
  | nil => rfl
  | cons t rest ih =>
    obtain ⟨hfirst, hrest⟩ := List.pairwise_cons.mp horder
    by_cases hshown : isShown t
    · have hdrop : ¬ (t.len = 0 ∨ t.category = .none) := by
        simpa [isShown, not_or] using hshown
      obtain ⟨hk, hstop⟩ := hahead t List.mem_cons_self hshown
      have hstart : t.start ≤ t.stop := Nat.le_add_right _ _
      have hs := le_totalWidth_take hw (show t.start ≤ pieces.length by omega)
      have he := le_totalWidth_take hw hstop
      rw [tagsFrom, if_neg hdrop, List.filter_cons_of_pos hshown, List.flatMap_cons]
      simp only [absorb_cursor hw hk (by omega), absorb_cursor hw hstart hstop]
      congr 1
      · rw [unitsBetween, cursor, cursor, show ∀ a b : Nat, b ≤ a → b + (a - b) = a by omega,
          show ∀ a b : Nat, b ≤ a → b + (a - b) = a by omega]
        · exact he
        · exact hs
      · refine ih (fun u hu hus => ?_) hrest
        exact ⟨hfirst u hu hshown hus, (hahead u (List.mem_cons_of_mem _ hu) hus).2⟩
    · have hdrop : t.len = 0 ∨ t.category = .none := by
        simpa [isShown, or_iff_not_imp_left] using hshown
      rw [tagsFrom, if_pos hdrop, List.filter_cons_of_neg hshown]
      exact ih (fun u hu => hahead u (List.mem_cons_of_mem _ hu)) hrest

/-- Tokens of a text of `n` characters, by start, that share no character. -/
structure InOrder (n : Nat) (tokens : List Sql.Token) : Prop where
  /-- No token starts before one that it follows. -/
  sorted : tokens.Pairwise fun a b => a.start ≤ b.start
  /-- No character is in two of them. -/
  disjoint : tokens.Pairwise fun a b =>
    ∀ i, ¬ (a.start ≤ i ∧ i < a.stop ∧ b.start ≤ i ∧ i < b.stop)
  /-- Every token ends inside the text. -/
  inside : ∀ t ∈ tokens, t.stop ≤ n

/-- Tokens that follow one another are in order. -/
theorem InOrder.of_stop_le_start {n : Nat} {tokens : List Sql.Token}
    (h : tokens.Pairwise fun a b => a.stop ≤ b.start) (hn : ∀ t ∈ tokens, t.stop ≤ n) :
    InOrder n tokens where
  sorted := h.imp fun hab => Nat.le_trans (Nat.le_add_right _ _) hab
  disjoint := h.imp fun hab i hi => by omega
  inside := hn

theorem InOrder.stop_le_start {n : Nat} {tokens : List Sql.Token} (h : InOrder n tokens) :
    tokens.Pairwise fun a b => isShown a → isShown b → a.stop ≤ b.start := by
  refine (h.sorted.and h.disjoint).imp ?_
  rintro a b ⟨hle, hshare⟩ - hb
  have hpos : b.len ≠ 0 := by
    have := (Bool.and_eq_true_iff.mp hb).1
    simpa using this
  have hno := hshare b.start
  simp only [Sql.Token.stop] at *
  omega

/-- **The tags of all tokens are those of each token on its own.** -/
theorem tagTokens_eq_flatMap {pieces : List Piece} (hw : ∀ p ∈ pieces, 1 ≤ p.width) (base : Nat)
    {tokens : List Sql.Token} (h : InOrder pieces.length tokens) :
    (ofPieces pieces).tagTokens base tokens =
      (tokens.filter isShown).flatMap fun t =>
        (ofPieces pieces).cut base t.category (unitsBetween pieces t.start t.stop) := by
  have hzero : cursor pieces 0 = (0, (ofPieces pieces).corrections) := rfl
  have hloop := tagsFrom_eq_flatMap hw base (k := 0)
    (fun t ht _ => ⟨Nat.zero_le _, h.inside t ht⟩) h.stop_le_start
  rwa [hzero] at hloop

/-- **Retagging is done token by token.** The tags of tokens in order are, one
after the other, the tags of each token that has a category and a character:
runs of units of its characters, marked where they belong to escapes and
never cut inside a piece. -/
theorem tagTokens_perToken {kind : LiteralKind} {units : List CodeUnit} {d : Decoded}
    (h : ofUnits kind units = .ok d) (base : Nat) {tokens : List Sql.Token}
    (horder : InOrder d.chars.length tokens) :
    ∃ groups, d.tagTokens base tokens = groups.flatten ∧
      List.Forall₂ (TokenTags d base) (tokens.filter isShown) groups := by
  obtain ⟨pieces, hread, rfl⟩ := ofUnits_eq_ok.mp h
  have hlen : (ofPieces pieces).chars.length = pieces.length := List.length_map _
  rw [hlen] at horder
  refine ⟨(tokens.filter isShown).map fun t =>
    (ofPieces pieces).cut base t.category (unitsBetween pieces t.start t.stop), ?_, ?_⟩
  · rw [tagTokens_eq_flatMap hread.one_le_width base horder, List.flatMap_def]
  · rw [List.forall₂_map_right_iff]
    refine List.forall₂_same.mpr fun t ht => ?_
    exact tokenTags_cut hread.one_le_width hread.two_le_width base
      (horder.inside t (List.mem_filter.mp ht).1)

/-- Two escapes side by side in different tokens, a blank that gives no tag, and
a surrogate pair. -/
theorem tagTokens_perToken_mixed :
    ∃ d tokens, ofUnits .plain (Utf16.encode "\\x28\\x29\\t😀".toList) = .ok d ∧
      tokens = [⟨.operator, 0, 1⟩, ⟨.operator, 1, 1⟩, ⟨.none, 2, 1⟩, ⟨.identifier, 3, 1⟩] ∧
      InOrder d.chars.length tokens ∧
      d.tagTokens 7 tokens = [⟨⟨7, 4⟩, .operator, true⟩, ⟨⟨11, 4⟩, .operator, true⟩,
        ⟨⟨17, 2⟩, .identifier, false⟩] ∧
      ∃ groups, d.tagTokens 7 tokens = groups.flatten ∧
        List.Forall₂ (TokenTags d 7) (tokens.filter isShown) groups := by
  let tokens : List Sql.Token :=
    [⟨.operator, 0, 1⟩, ⟨.operator, 1, 1⟩, ⟨.none, 2, 1⟩, ⟨.identifier, 3, 1⟩]
  have hd : ∃ d, ofUnits .plain (Utf16.encode "\\x28\\x29\\t😀".toList) = .ok d ∧
      d.chars.length = 4 ∧ d.tagTokens 7 tokens = [⟨⟨7, 4⟩, .operator, true⟩,
        ⟨⟨11, 4⟩, .operator, true⟩, ⟨⟨17, 2⟩, .identifier, false⟩] :=
    ⟨_, by cbv, by cbv, by cbv⟩
  obtain ⟨d, hok, hlen, htags⟩ := hd
  have horder : InOrder d.chars.length tokens := by
    rw [hlen]
    exact .of_stop_le_start (by decide) (by decide)
  exact ⟨d, tokens, hok, rfl, horder, htags, tagTokens_perToken hok 7 horder⟩

end Decoded

end EmbeddedSql
