import EmbeddedSql.Proofs.PairBounds

/-!
# The table of corrections

A decoded content keeps no list of its pieces, only a table with a line for each
piece of more than one unit. Offsets are computed by adding up what the lines say,
without a look at the content, so the table has to account for every unit.

It does (`corrections_table`). A line has an *extent*, the units of its piece, and
the extents follow one another inside the content. A line is one of three: an
escape sequence, a doubled delimiter, or a surrogate pair, and every surrogate pair
of the content has a line, since no escape sequence holds a part of one. What lies
in no extent is read one unit at a time.
-/

namespace EmbeddedSql

open Utf16

/-! ## What a line stands for -/

/-- **What a correction records of a content**: one of three sorts of pieces. -/
inductive Correction.Records (kind : LiteralKind) (units : List CodeUnit) : Correction → Prop
  /-- An escape sequence, from its backslash on. -/
  | sequence {i skip : Nat} : kind.hasEscapes = true → units[i]? = some (ascii '\\') → 0 < skip →
      Records kind units ⟨i, skip + 1, skip⟩
  /-- A doubled delimiter: a brace of an interpolated literal, or a quote of a
  verbatim one. -/
  | doubled {i : Nat} {u : CodeUnit} : kind.doubles u = true → units[i]? = some u →
      units[i + 1]? = some u → Records kind units ⟨i, 2, 1⟩
  /-- A surrogate pair, which is no escape. -/
  | pair {i : Nat} : splitsAt units (i + 1) = true → Records kind units ⟨i, 0, 1⟩

section Piece

variable {kind : LiteralKind} {units rest : List CodeUnit} {i : Nat} {u : CodeUnit} {p : Piece}

/-- A piece of more than one unit is recorded as what it is. -/
theorem records_of_nextPiece? (hunits : units.drop i = u :: rest)
    (h : nextPiece? kind u rest = some p) (hwide : 1 < p.width) :
    Correction.Records kind units ⟨i, if p.escape then p.width else 0, p.width - 1⟩ := by
  have hget : ∀ j, units[i + j]? = (u :: rest)[j]? := fun j => by rw [← hunits, List.getElem?_drop]
  rcases nextPiece?_cases h with ⟨hdoubles, hhead, rfl⟩ | ⟨hescapes, rfl, hpiece⟩ |
    ⟨v, tail, rfl, hpair, rfl⟩ | ⟨-, rfl⟩
  · refine .doubled hdoubles (hget 0) ?_
    rw [hget 1, List.getElem?_cons_succ, ← List.head?_eq_getElem?, hhead]
  · have hskip : 0 < p.width - 1 := Nat.sub_pos_of_lt hwide
    rw [(escapePiece?_bounds hpiece).1, if_pos rfl]
    have hrecords := Correction.Records.sequence hescapes (hget 0) hskip
    rwa [Nat.sub_add_cancel (Nat.le_of_lt hwide)] at hrecords
  · refine .pair ?_
    rw [splitsAt, Nat.add_sub_cancel, hget 1, ← Nat.add_zero i, hget 0]
    simpa using hpair
  · exact absurd hwide (Nat.lt_irrefl 1)

/-- A piece of one unit is that unit. -/
theorem char_of_width_eq_one (h : nextPiece? kind u rest = some p) (hone : p.width = 1) :
    p.char = single u := by
  rcases nextPiece?_cases h with ⟨-, -, rfl⟩ | ⟨-, -, hpiece⟩ | ⟨v, tail, -, -, rfl⟩ | ⟨-, rfl⟩
  · cases hone
  · have hwidth := (escapePiece?_bounds hpiece).2.1
    omega
  · cases hone
  · rfl

end Piece

/-! ## Pieces in their places -/

section Pieces

variable {kind : LiteralKind} {units : List CodeUnit} {pieces : List Piece}

/-- Every unit is in a piece. -/
theorem exists_inPiece (hw : ∀ p ∈ pieces, 1 ≤ p.width) {x : Nat} (hx : x < totalWidth pieces) :
    ∃ i p, pieces[i]? = some p ∧ InPiece pieces i x := by
  rcases exists_offset_or_inside pieces (Nat.le_of_lt hx) with ⟨i, hi, rfl⟩ | ⟨i, hi, hlo, hhi⟩
  · have hlt : i < pieces.length := Nat.lt_of_le_of_ne hi fun heq => by
      rw [heq, List.take_length] at hx
      exact Nat.lt_irrefl _ hx
    have hp := List.getElem?_eq_getElem hlt
    exact ⟨i, _, hp, Nat.le_refl _, totalWidth_take_lt hw (Nat.lt_succ_self i) hlt⟩
  · exact ⟨i, _, List.getElem?_eq_getElem hi, Nat.le_of_lt hlo, hhi⟩

/-- A piece is read where the pieces before it end. -/
theorem Reads.nextPiece?_at (h : Reads kind units pieces) {i : Nat} {p : Piece}
    (hp : pieces[i]? = some p) :
    ∃ u rest, units.drop (totalWidth (pieces.take i)) = u :: rest ∧
      nextPiece? kind u rest = some p := by
  obtain ⟨hi, rfl⟩ := List.getElem?_eq_some_iff.mp hp
  rw [← List.take_append_drop i pieces, List.drop_eq_getElem_cons hi] at h
  have hread := h.split.2
  generalize units.drop (totalWidth (pieces.take i)) = left at hread ⊢
  cases hread with
  | cons hnext _ => exact ⟨_, _, rfl, hnext⟩

/-- **Extents follow one another.** -/
theorem pairwise_correctionsOf (hw : ∀ p ∈ pieces, 1 ≤ p.width) (pos : Nat) :
    (correctionsOf pos pieces).Pairwise fun c c' => c.extent.stop ≤ c'.index := by
  induction pieces generalizing pos with
  | nil => exact .nil
  | cons p pieces ih =>
    obtain ⟨hp, hrest⟩ := List.forall_mem_cons.mp hw
    rw [correctionsOf]
    refine List.pairwise_append.mpr ⟨?_, ih hrest _, fun c hc c' hc' => ?_⟩
    · split
      · exact List.pairwise_singleton _ _
      · exact .nil
    · split at hc
      · obtain rfl := List.mem_singleton.mp hc
        have hle := le_index_of_mem_correctionsOf hc'
        simp only [Correction.extent, Span.stop]
        omega
      · cases hc

/-- **Characters and skipped units add up to the content.** -/
theorem length_add_sum_skip (hw : ∀ p ∈ pieces, 1 ≤ p.width) (pos : Nat) :
    pieces.length + ((correctionsOf pos pieces).map Correction.skip).sum = totalWidth pieces := by
  induction pieces generalizing pos with
  | nil => rfl
  | cons p pieces ih =>
    obtain ⟨hp, hrest⟩ := List.forall_mem_cons.mp hw
    have hsum := ih hrest (pos + p.width)
    rw [correctionsOf, totalWidth_cons, List.length_cons, List.map_append, List.sum_append]
    split
    · simp only [List.map_singleton, List.sum_singleton]
      omega
    · simp only [List.map_nil, List.sum_nil]
      omega

/-- A unit of a wide piece is in an extent. -/
theorem exists_mem_extent {i x : Nat} {p : Piece} (hp : pieces[i]? = some p) (hwide : 1 < p.width)
    (hin : InPiece pieces i x) : ∃ c ∈ correctionsOf 0 pieces, x ∈ c.extent := by
  refine ⟨_, mem_correctionsOf.mpr ⟨i, p, hp, hwide, rfl⟩, ?_⟩
  rw [InPiece, totalWidth_take_succ hp] at hin
  rw [Span.mem_def]
  simp only [Correction.extent, Span.stop]
  omega

/-- Each line stands for a piece of the content. -/
theorem Reads.records (h : Reads kind units pieces) {c : Correction}
    (hc : c ∈ correctionsOf 0 pieces) : c.extent.stop ≤ units.length ∧ c.Records kind units := by
  obtain ⟨i, p, hp, hwide, rfl⟩ := mem_correctionsOf.mp hc
  obtain ⟨u, rest, hunits, hnext⟩ := h.nextPiece?_at hp
  rw [Nat.zero_add]
  refine ⟨?_, records_of_nextPiece? hunits hnext hwide⟩
  have hlen := congrArg List.length hunits
  have hbounds := (nextPiece?_bounds hnext).2.1
  rw [List.length_drop, List.length_cons] at hlen
  simp only [Correction.extent, Span.stop]
  omega

/-- **Every surrogate pair of the content has a line**, and no other unit has a line
like it. -/
theorem Reads.mem_correctionsOf_iff_splitsAt (h : Reads kind units pieces) (x : Nat) :
    ⟨x, 0, 1⟩ ∈ correctionsOf 0 pieces ↔ splitsAt units (x + 1) = true := by
  constructor
  · intro hc
    cases (h.records hc).2 with
    | pair hsplit => exact hsplit
  · intro hsplit
    have hhigh : (units[x]?).any isHigh = true := by
      rw [splitsAt, Bool.and_eq_true, Bool.and_eq_true] at hsplit
      exact hsplit.1.2
    have hx : x < totalWidth pieces := by
      rw [h.totalWidth_eq]
      refine Nat.lt_of_not_le fun hle => ?_
      simp [List.getElem?_eq_none hle] at hhigh
    obtain ⟨i, p, hp, hin⟩ := exists_inPiece h.one_le_width hx
    obtain ⟨u, rest, hunits, hnext⟩ := h.nextPiece?_at hp
    have hsucc := totalWidth_take_succ hp
    rw [InPiece, hsucc] at hin
    -- An escape has no high surrogate, and a piece that is none does not end in a pair.
    have hescape : p.escape = false := by
      refine Bool.eq_false_iff.mpr fun hescape => ?_
      obtain ⟨w, hw, hwhigh⟩ := (Option.any_eq_true _ _).mp hhigh
      have hmem : ((u :: rest).take p.width)[x - totalWidth (pieces.take i)]? = some w := by
        rw [List.getElem?_take_of_lt (by omega), ← hunits, List.getElem?_drop,
          Nat.add_sub_cancel' hin.1, hw]
      rw [not_isHigh_of_escape hnext hescape w (List.mem_of_getElem? hmem)] at hwhigh
      cases hwhigh
    have hend : totalWidth (pieces.take i) + p.width ≠ x + 1 := fun heq => by
      have hnot := h.not_splitsAt (i + 1)
      rw [hsucc, heq, hsplit] at hnot
      cases hnot
    have htwo := (nextPiece?_bounds hnext).2.2.2 hescape
    obtain ⟨rfl, hwidth⟩ : x = totalWidth (pieces.take i) ∧ p.width = 2 := by omega
    refine mem_correctionsOf.mpr ⟨i, p, hp, by omega, ?_⟩
    rw [hescape, if_neg Bool.false_ne_true, hwidth, Nat.zero_add]

end Pieces

namespace Decoded

/-- **The table of corrections accounts for every unit of the content.** Its lines
are in order, and their extents follow one another inside the content. As many units
are skipped as the content has more of than the text has characters. Each line is an
escape sequence or a doubled delimiter, with the length of its extent, or else a
surrogate pair, with length zero, and every surrogate pair of the content has a line.
A unit in no extent stands for one character of the text: for itself, or for the
replacement character if it is a surrogate. -/
theorem corrections_table {kind : LiteralKind} {units : List CodeUnit} {d : Decoded}
    (h : ofUnits kind units = .ok d) :
    d.corrections.Pairwise (fun c c' => c.index < c'.index ∧ c.extent.stop ≤ c'.index) ∧
      (∀ c ∈ d.corrections, c.extent.stop ≤ units.length ∧ c.Records kind units) ∧
      d.chars.length + (d.corrections.map Correction.skip).sum = units.length ∧
      (∀ x, ⟨x, 0, 1⟩ ∈ d.corrections ↔ splitsAt units (x + 1) = true) ∧
      ∀ x u, units[x]? = some u → (∀ c ∈ d.corrections, x ∉ c.extent) →
        ∃ k, d.chars[k]? = some (single u) ∧ d.sourceOffset k = x ∧
          d.sourceOffset (k + 1) = x + 1 := by
  obtain ⟨pieces, hread, rfl⟩ := ofUnits_eq_ok.mp h
  have hw := hread.one_le_width
  have hlen : (ofPieces pieces).chars.length = pieces.length := List.length_map _
  refine ⟨?_, fun c hc => hread.records hc, ?_, hread.mem_correctionsOf_iff_splitsAt,
    fun x u hu hout => ?_⟩
  · refine (pairwise_correctionsOf hw 0).imp fun {c c'} hle => ⟨?_, hle⟩
    simp only [Correction.extent, Span.stop] at hle
    omega
  · rw [hlen, ← hread.totalWidth_eq]
    exact length_add_sum_skip hw 0
  · have hx : x < totalWidth pieces := by
      rw [hread.totalWidth_eq]
      exact (List.getElem?_eq_some_iff.mp hu).1
    obtain ⟨i, p, hp, hin⟩ := exists_inPiece hw hx
    obtain ⟨v, rest, hunits, hnext⟩ := hread.nextPiece?_at hp
    have hone : p.width = 1 := by
      refine Nat.le_antisymm (Nat.le_of_not_lt fun hwide => ?_) (hw p (List.mem_of_getElem? hp))
      obtain ⟨c, hc, hxc⟩ := exists_mem_extent hp hwide hin
      exact hout c hc hxc
    have hi := (List.getElem?_eq_some_iff.mp hp).1
    have hsucc := totalWidth_take_succ hp
    obtain rfl : x = totalWidth (pieces.take i) := by
      rw [InPiece] at hin
      omega
    have huv : units[totalWidth (pieces.take i)]? = some v := by
      rw [← Nat.add_zero (totalWidth _), ← List.getElem?_drop, hunits, List.getElem?_cons_zero]
    obtain rfl := Option.some.inj (hu.symm.trans huv)
    refine ⟨i, ?_, sourceOffset_ofPieces hw (Nat.le_of_lt hi), ?_⟩
    · rw [ofPieces, List.getElem?_map, hp, Option.map_some, char_of_width_eq_one hnext hone]
    · rw [sourceOffset_ofPieces hw hi, hsucc, hone]

/-- A `\x` that stops at a letter, a doubled brace, a surrogate pair, an escaped one,
and half a pair at the end. -/
theorem corrections_table_mixed :
    ∃ units d, units = encode "a\\x4g\x7b\x7b😀\\uD83D\\uDE00".toList ++ [0xD83D] ∧
      ofUnits .interpolated units = .ok d ∧
      d.corrections = [⟨1, 3, 2⟩, ⟨5, 2, 1⟩, ⟨7, 0, 1⟩, ⟨9, 12, 11⟩] ∧
      d.corrections.Pairwise (fun c c' => c.index < c'.index ∧ c.extent.stop ≤ c'.index) ∧
      (∀ c ∈ d.corrections, c.extent.stop ≤ units.length ∧ c.Records .interpolated units) ∧
      d.chars.length + (d.corrections.map Correction.skip).sum = units.length ∧
      (⟨7, 0, 1⟩ ∈ d.corrections ↔ splitsAt units 8 = true) ∧
      ∃ k, d.chars[k]? = some replacement ∧ d.sourceOffset k = 21 ∧ d.sourceOffset (k + 1) = 22 := by
  have hd : ∃ d, ofUnits .interpolated
        (encode "a\\x4g\x7b\x7b😀\\uD83D\\uDE00".toList ++ [0xD83D]) = .ok d ∧
      d.corrections = [⟨1, 3, 2⟩, ⟨5, 2, 1⟩, ⟨7, 0, 1⟩, ⟨9, 12, 11⟩] := ⟨_, by cbv, by cbv⟩
  obtain ⟨d, hok, hcorrections⟩ := hd
  obtain ⟨horder, hrecords, hsum, hpairs, halone⟩ := corrections_table hok
  have hlast : (encode "a\\x4g\x7b\x7b😀\\uD83D\\uDE00".toList ++ [0xD83D])[21]? = some 0xD83D := by
    decide +kernel
  have hout : ∀ c ∈ d.corrections, 21 ∉ c.extent := by
    rw [hcorrections]
    decide
  exact ⟨_, d, rfl, hok, hcorrections, horder, hrecords, hsum, hpairs 7, halone 21 _ hlast hout⟩

end Decoded

end EmbeddedSql
