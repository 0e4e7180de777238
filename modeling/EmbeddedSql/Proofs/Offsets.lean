import EmbeddedSql.Proofs.Pieces
import Mathlib

/-!
# Where characters come from

The offset of a character in its source is the total width of the pieces
before it. That is not how it is computed: the table of corrections only
lists the pieces of more than one unit, and the offset is a running sum over
the table that stops at the first correction that lies beyond it.

The two agree because the running offset after `i` pieces is the offset of the
`i`-th piece, and the corrections before that offset are exactly those of the
first `i` pieces. `absorb_correctionsOf` says so for a walk that starts
anywhere between two pieces, which is also what is needed to walk the table
once for many characters.
-/

namespace EmbeddedSql

/-! ## The running offset -/

theorem le_index_of_mem_correctionsOf {pos : Nat} {pieces : List Piece} {c : Correction}
    (hc : c ∈ correctionsOf pos pieces) : pos ≤ c.index := by
  induction pieces generalizing pos with
  | nil => simp [correctionsOf] at hc
  | cons p pieces ih =>
    rcases List.mem_append.mp hc with hc | hc
    · split at hc
      · obtain rfl := List.mem_singleton.mp hc
        exact Nat.le_refl _
      · simp at hc
    · exact Nat.le_trans (Nat.le_add_right _ _) (ih hc)

/-- Corrections that lie at the bound or beyond it are left alone. -/
theorem absorb_of_le {bound skipped : Nat} {corrections : List Correction}
    (h : ∀ c ∈ corrections, bound + skipped ≤ c.index) :
    absorb bound skipped corrections = (skipped, corrections) := by
  cases corrections with
  | nil => rfl
  | cons c rest =>
    have hc := h c List.mem_cons_self
    rw [absorb, if_neg (by omega)]

/-- A run of pieces is at least as wide as it is long. -/
theorem length_le_totalWidth {pieces : List Piece} (hw : ∀ p ∈ pieces, 1 ≤ p.width) :
    pieces.length ≤ totalWidth pieces := by
  induction pieces with
  | nil => exact Nat.le_refl _
  | cons p pieces ih =>
    have hp := hw p List.mem_cons_self
    have hrest := ih fun q hq => hw q (List.mem_cons_of_mem _ hq)
    rw [List.length_cons, totalWidth_cons]
    omega

theorem le_totalWidth_take {pieces : List Piece} (hw : ∀ p ∈ pieces, 1 ≤ p.width) {i : Nat}
    (hi : i ≤ pieces.length) : i ≤ totalWidth (pieces.take i) := by
  have h : (pieces.take i).length ≤ totalWidth (pieces.take i) :=
    length_le_totalWidth fun q hq => hw q (List.mem_of_mem_take hq)
  rwa [List.length_take, Nat.min_eq_left hi] at h

theorem totalWidth_take_lt {pieces : List Piece} (hw : ∀ p ∈ pieces, 1 ≤ p.width) {i j : Nat}
    (hij : i < j) (hj : j ≤ pieces.length) :
    totalWidth (pieces.take i) < totalWidth (pieces.take j) := by
  obtain ⟨n, rfl⟩ := Nat.exists_eq_add_of_le (Nat.le_of_lt hij)
  have hwide : n ≤ totalWidth ((pieces.drop i).take n) :=
    le_totalWidth_take (fun q hq => hw q (List.mem_of_mem_drop hq))
      (by rw [List.length_drop]; omega)
  rw [List.take_add, totalWidth_append]
  omega

/-- **The walk over the corrections keeps pace with the pieces.** From between
two pieces, with as many characters read as `k` says, moving `i` characters on
passes exactly the corrections of the next `i` pieces. -/
theorem absorb_correctionsOf {pieces : List Piece} (hw : ∀ p ∈ pieces, 1 ≤ p.width)
    {i : Nat} (hi : i ≤ pieces.length) (k skipped : Nat) :
    absorb (k + i) skipped (correctionsOf (k + skipped) pieces) =
      (skipped + (totalWidth (pieces.take i) - i),
        correctionsOf (k + skipped + totalWidth (pieces.take i)) (pieces.drop i)) := by
  induction i generalizing pieces k skipped with
  | zero =>
    have hbeyond : ∀ c ∈ correctionsOf (k + skipped) pieces, k + 0 + skipped ≤ c.index :=
      fun c hc => le_index_of_mem_correctionsOf hc
    rw [absorb_of_le hbeyond]
    simp
  | succ i ih =>
    cases pieces with
    | nil => simp at hi
    | cons p pieces =>
      have hp := hw p List.mem_cons_self
      have hrest : ∀ q ∈ pieces, 1 ≤ q.width := fun q hq => hw q (List.mem_cons_of_mem _ hq)
      have hlen : i ≤ pieces.length := by simpa using hi
      have hwide := le_totalWidth_take hrest hlen
      -- After `p` one more character is read, and `p.width - 1` more units are skipped.
      have hstep := ih hrest hlen (k + 1) (skipped + (p.width - 1))
      rw [show k + 1 + i = k + (i + 1) by omega,
        show k + 1 + (skipped + (p.width - 1)) = k + skipped + p.width by omega] at hstep
      have hpass : absorb (k + (i + 1)) skipped (correctionsOf (k + skipped) (p :: pieces)) =
          absorb (k + (i + 1)) (skipped + (p.width - 1))
            (correctionsOf (k + skipped + p.width) pieces) := by
        by_cases hone : 1 < p.width
        · rw [correctionsOf, if_pos hone, List.singleton_append, absorb, if_pos]
          simp only
          omega
        · rw [correctionsOf, if_neg hone, List.nil_append, show p.width - 1 = 0 by omega]
          rfl
      rw [hpass, hstep, List.take_succ_cons, List.drop_succ_cons, totalWidth_cons, Nat.add_assoc,
        Nat.add_assoc (k + skipped)]
      congr 1
      omega

namespace Decoded

theorem ofUnits_eq_ok {kind : LiteralKind} {units : List CodeUnit} {d : Decoded} :
    ofUnits kind units = .ok d ↔ ∃ pieces, Reads kind units pieces ∧ d = ofPieces pieces := by
  unfold ofUnits
  constructor
  · intro h
    cases hread : readPieces kind 0 units with
    | error e => rw [hread] at h; simp [Except.map] at h
    | ok pieces =>
      rw [hread] at h
      cases h
      exact ⟨pieces, readPieces_eq_ok.mp hread, rfl⟩
  · rintro ⟨pieces, hread, rfl⟩
    rw [readPieces_eq_ok.mpr hread]
    rfl

/-- **The offset of a character is the width of what stands before it.** -/
theorem sourceOffset_ofPieces {pieces : List Piece} (hw : ∀ p ∈ pieces, 1 ≤ p.width)
    {i : Nat} (hi : i ≤ pieces.length) :
    (ofPieces pieces).sourceOffset i = totalWidth (pieces.take i) := by
  have h := absorb_correctionsOf hw hi 0 0
  have hwide := le_totalWidth_take hw hi
  rw [Nat.zero_add, Nat.zero_add] at h
  rw [sourceOffset, ofPieces, h]
  simp only
  omega

/-- The pieces from one index to another are a reading of the units between
their offsets. -/
theorem reads_extract {kind : LiteralKind} {units : List CodeUnit} {pieces : List Piece}
    (h : Reads kind units pieces) {s e : Nat} (hse : s ≤ e) :
    Reads kind (units.extract (totalWidth (pieces.take s)) (totalWidth (pieces.take e)))
      (pieces.extract s e) := by
  obtain ⟨n, rfl⟩ := Nat.exists_eq_add_of_le hse
  rw [← List.take_append_drop s pieces] at h
  have htail := h.split.2
  rw [← List.take_append_drop n (pieces.drop s)] at htail
  have hpart := htail.split.1
  simpa only [List.extract_eq_take_drop, List.take_add, totalWidth_append,
    Nat.add_sub_cancel_left] using hpart

/-- **Offsets are faithful to the source.** The offsets of the characters of a
decoded content grow from its start to its end, one character at a time, and
between the offsets of two characters stands a content of the same kind that
decodes to the characters between them. -/
theorem sourceOffset_faithful {kind : LiteralKind} {units : List CodeUnit} {d : Decoded}
    (h : ofUnits kind units = .ok d) :
    d.sourceOffset 0 = 0 ∧ d.sourceOffset d.chars.length = units.length ∧
      (∀ i j, i < j → j ≤ d.chars.length → d.sourceOffset i < d.sourceOffset j) ∧
      ∀ s e, s ≤ e → e ≤ d.chars.length →
        ∃ part, ofUnits kind (units.extract (d.sourceOffset s) (d.sourceOffset e)) = .ok part ∧
          part.chars = d.chars.extract s e := by
  obtain ⟨pieces, hread, rfl⟩ := ofUnits_eq_ok.mp h
  have hw := hread.one_le_width
  have hlen : (ofPieces pieces).chars.length = pieces.length := List.length_map _
  rw [hlen]
  refine ⟨?_, ?_, fun i j hij hj => ?_, fun s e hse he => ?_⟩
  · rw [sourceOffset_ofPieces hw (Nat.zero_le _), List.take_zero, totalWidth_nil]
  · rw [sourceOffset_ofPieces hw (Nat.le_refl _), List.take_length, hread.totalWidth_eq]
  · rw [sourceOffset_ofPieces hw (by omega), sourceOffset_ofPieces hw hj]
    exact totalWidth_take_lt hw hij hj
  · refine ⟨ofPieces (pieces.extract s e), ?_, ?_⟩
    · rw [sourceOffset_ofPieces hw (by omega), sourceOffset_ofPieces hw he]
      exact ofUnits_eq_ok.mpr ⟨_, reads_extract hread hse, rfl⟩
    · simp only [ofPieces, List.extract_eq_take_drop, List.map_take, List.map_drop]

/-- A doubled brace, a `\x` that stops at a letter and an escaped surrogate
pair, in one content. -/
theorem sourceOffset_faithful_mixed :
    ∃ units d, units = Utf16.encode "a\x7b\x7b\\x4g\\uD83D\\uDE00".toList ∧
      ofUnits .interpolated units = .ok d ∧ d.chars = ['a', '\x7b', '\x04', 'g', '😀'] ∧
      d.sourceOffset 5 = 19 ∧
      ∃ part, ofUnits .interpolated (units.extract (d.sourceOffset 1) (d.sourceOffset 5)) = .ok part ∧
        part.chars = d.chars.extract 1 5 := by
  have hd : ∃ d, ofUnits .interpolated (Utf16.encode "a\x7b\x7b\\x4g\\uD83D\\uDE00".toList) = .ok d ∧
      d.chars = ['a', '\x7b', '\x04', 'g', '😀'] ∧ d.sourceOffset 5 = 19 :=
    ⟨_, by cbv, by cbv, by cbv⟩
  obtain ⟨d, hok, hchars, hoffset⟩ := hd
  have hlen : d.chars.length = 5 := by rw [hchars]; rfl
  exact ⟨_, d, rfl, hok, hchars, hoffset,
    (sourceOffset_faithful hok).2.2.2 1 5 (by decide) (by omega)⟩

end Decoded

end EmbeddedSql
