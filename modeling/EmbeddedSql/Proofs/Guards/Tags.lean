import EmbeddedSql.Checked.Report
import EmbeddedSql.Proofs.Guards.Spans
import EmbeddedSql.Proofs.Highlighting

/-!
# Tags put back without failure

The units that characters take beyond their first add up to no more than the
content has. So the running count of a cursor in the corrections, together with
what is still ahead of it, is a sum that no step changes (`absorb_conserves`),
and with it bounded, nothing that is added to a position overflows.

A token is grown from its own length on, while the cursor it is compared with
goes on from the count before it. Both walks pass the same corrections, because
they compare with the same sum (`absorb_shift`), so the token never gets shorter
and the difference that is added to the count is what the cursor adds.
-/

namespace EmbeddedSql

/-! ## What the corrections add -/

/-- How many units corrections add up to. -/
def totalSkip (corrections : List Correction) : Nat := (corrections.map Correction.skip).sum

theorem totalSkip_cons (c : Correction) (corrections : List Correction) :
    totalSkip (c :: corrections) = c.skip + totalSkip corrections := List.sum_cons

/-- **Nothing is lost**: what a cursor has added and what is ahead of it are
together what they were. -/
theorem absorb_conserves (bound added : Nat) (corrections : List Correction) :
    (absorb bound added corrections).1 + totalSkip (absorb bound added corrections).2
      = added + totalSkip corrections := by
  fun_induction absorb bound added corrections with
  | case1 => rfl
  | case2 added c rest hlt ih => rw [ih, totalSkip_cons, Nat.add_assoc]
  | case3 => rfl

theorem le_absorb (bound added : Nat) (corrections : List Correction) :
    added ≤ (absorb bound added corrections).1 := by
  fun_induction absorb bound added corrections with
  | case1 => exact Nat.le_refl _
  | case2 added c rest hlt ih => exact Nat.le_trans (Nat.le_add_right _ _) ih
  | case3 => exact Nat.le_refl _

/-- **Cursors that compare with the same sum pass the same corrections.** -/
theorem absorb_shift {bound added bound' added' : Nat} (h : bound + added = bound' + added')
    (corrections : List Correction) :
    (absorb bound added corrections).1 + added' = (absorb bound' added' corrections).1 + added ∧
      (absorb bound added corrections).2 = (absorb bound' added' corrections).2 := by
  induction corrections generalizing added added' with
  | nil => exact ⟨Nat.add_comm _ _, rfl⟩
  | cons c rest ih =>
    unfold absorb
    by_cases hlt : c.index < bound + added
    · rw [if_pos hlt, if_pos (h ▸ hlt)]
      have hskip : bound + (added + c.skip) = bound' + (added' + c.skip) := by omega
      obtain ⟨hsum, hrest⟩ := ih hskip
      exact ⟨by omega, hrest⟩
    · rw [if_neg hlt, if_neg (h ▸ hlt)]
      exact ⟨Nat.add_comm _ _, rfl⟩

section Pieces

variable {pieces : List Piece}

theorem length_correctionsOf_le (pos : Nat) :
    (correctionsOf pos pieces).length ≤ pieces.length := by
  induction pieces generalizing pos with
  | nil => exact Nat.le_refl _
  | cons p pieces ih =>
    have hrest := ih (pos + p.width)
    rw [correctionsOf, List.length_append, List.length_cons]
    split
    · rw [List.length_singleton]
      omega
    · rw [List.length_nil]
      omega

theorem totalSkip_correctionsOf_le (pos : Nat) :
    totalSkip (correctionsOf pos pieces) ≤ totalWidth pieces := by
  induction pieces generalizing pos with
  | nil => exact Nat.le_refl _
  | cons p pieces ih =>
    have hrest := ih (pos + p.width)
    rw [correctionsOf, totalWidth_cons]
    split
    · rw [List.singleton_append, totalSkip_cons]
      simp only
      omega
    · rw [List.nil_append]
      omega

/-- An escape ends with the pieces at the latest. -/
theorem stop_span_le_of_mem_correctionsOf {pos : Nat} {c : Correction}
    (hc : c ∈ correctionsOf pos pieces) : c.span.stop ≤ pos + totalWidth pieces := by
  obtain ⟨i, p, hp, -, rfl⟩ := mem_correctionsOf.mp hc
  have hsplit : totalWidth pieces
      = totalWidth (pieces.take (i + 1)) + totalWidth (pieces.drop (i + 1)) := by
    rw [← totalWidth_append, List.take_append_drop]
  rw [totalWidth_take_succ hp] at hsplit
  simp only [Correction.span, Span.stop]
  split <;> omega

end Pieces

namespace Checked

/-! ## Cursors -/

/-- A cursor by index stands where the cursor in what is ahead does. -/
theorem exists_absorb_eq {corrections : List Correction} (hlen : corrections.length < 2 ^ 64)
    (bound added next : Nat) (hsum : bound + added + totalSkip (corrections.drop next) < 2 ^ 64) :
    ∃ next', absorb corrections bound added next
        = some ((EmbeddedSql.absorb bound added (corrections.drop next)).1, next') ∧
      corrections.drop next' = (EmbeddedSql.absorb bound added (corrections.drop next)).2 := by
  generalize hahead : corrections.drop next = ahead at hsum ⊢
  induction ahead generalizing added next with
  | nil =>
    refine ⟨next, ?_, hahead⟩
    rw [List.drop_eq_nil_iff] at hahead
    rw [absorb, if_neg (by omega)]
    rfl
  | cons c rest ih =>
    obtain ⟨hlt, hc, hrest⟩ := drop_eq_cons hahead
    rw [totalSkip_cons] at hsum
    rw [absorb, if_pos hlt, hc, some_bind, add_eq (by omega), some_bind, EmbeddedSql.absorb]
    split
    · rw [add_eq (by omega), some_bind, add_eq (by omega), some_bind]
      exact ih _ _ hrest (by omega)
    · exact ⟨next, rfl, hahead⟩

/-- A token that starts where the count is `skipped` grows by what the cursor
adds up to its end. -/
theorem exists_absorb_token_eq {corrections : List Correction}
    (hlen : corrections.length < 2 ^ 64) (t : Sql.Token) (skipped next : Nat)
    (hsum : t.stop + skipped + totalSkip (corrections.drop next) < 2 ^ 64) :
    ∃ len next', absorb corrections (t.start + skipped) t.len next = some (len, next') ∧
      t.len ≤ len ∧
      len + skipped = (EmbeddedSql.absorb t.stop skipped (corrections.drop next)).1 + t.len ∧
      corrections.drop next' = (EmbeddedSql.absorb t.stop skipped (corrections.drop next)).2 := by
  have hsame : t.start + skipped + t.len = t.stop + skipped := Nat.add_right_comm _ _ _
  obtain ⟨next', habsorb, hahead⟩ := exists_absorb_eq hlen (t.start + skipped) t.len next
    (by rwa [hsame])
  obtain ⟨hshift, hrest⟩ := absorb_shift hsame (corrections.drop next)
  exact ⟨_, next', habsorb, le_absorb _ _ _, hshift, hahead.trans hrest⟩

/-! ## Tags -/

theorem tagAt_eq {base : Nat} {category : Sql.Category} {escape : Bool} {s : Span}
    (h : s.start + base < 2 ^ 64) :
    tagAt base category escape s = some ⟨s.shift base, category, escape⟩ := by
  rw [tagAt, shift_eq h]
  rfl

/-- A set inside a span, put back on the source. -/
theorem mapM_tagAt_eq {set : SpanSet} {s : Span} (hset : ∀ p ∈ set, p ∈ s) {base : Nat}
    (h : s.stop + base < 2 ^ 64) (category : Sql.Category) (escape : Bool) :
    set.toList.mapM (tagAt base category escape)
      = some (set.toList.map fun t => SqlTag.mk (t.shift base) category escape) := by
  refine mapM_eq fun t ht => tagAt_eq ?_
  have hstop := SpanSet.stop_le_of_mem (fun p hp => (hset p hp).2) ht
  have hle := t.start_le_stop
  omega

section Split

variable {d : Decoded} {n : Nat} (hn : n < 2 ^ 64) (hescapes : ∀ e ∈ d.escapes.toList, e.stop ≤ n)

include hn hescapes in
theorem split_eq {base : Nat} {s : Span} (h : s.stop + base < 2 ^ 64) (category : Sql.Category) :
    split d.escapes.toList base category s = some (d.cut base category s) := by
  have hlen : d.escapes.toList.length < 2 ^ 64 :=
    Nat.lt_of_le_of_lt (d.escapes.normal.length_le hescapes) hn
  have hfits : ∀ e ∈ d.escapes.toList, e.stop < 2 ^ 64 := fun e he =>
    Nat.lt_of_le_of_lt (hescapes e he) hn
  have hsingle : ∀ t ∈ (SpanSet.single s).toList, t.stop ≤ s.stop := fun t ht =>
    SpanSet.stop_le_of_mem (fun p hp => (SpanSet.mem_single.mp hp).2) ht
  have hwhole : normalize [s] = some (SpanSet.single s).toList := by
    rw [normalize_eq fun t ht => by rw [List.mem_singleton.mp ht]; omega, SpanSet.single,
      SpanSet.ofSpans, SpanSet.toList_ofNormal]
  have hcommon : commonParts (SpanSet.single s).toList d.escapes.toList 0 0
      = some ((SpanSet.single s).overlap d.escapes).toList := by
    rw [commonParts_eq (fun t ht => Nat.lt_of_le_of_lt (hsingle t ht) (by omega)) hfits
      (Nat.lt_of_le_of_lt ((SpanSet.single s).normal.length_le hsingle) (by omega)) hlen,
      SpanSet.overlap, SpanSet.toList_ofNormal]
    rfl
  have hrest : remainder d.escapes.toList 0 (SpanSet.single s).toList
      = some ((SpanSet.single s).difference d.escapes).toList := by
    rw [remainder_eq hfits hlen fun t ht => Nat.lt_of_le_of_lt (hsingle t ht) (by omega),
      SpanSet.difference, SpanSet.toList_ofNormal]
    rfl
  rw [split, hwhole, some_bind, hcommon, some_bind,
    mapM_tagAt_eq (fun p hp => SpanSet.mem_single.mp (SpanSet.mem_overlap.mp hp).1) h, some_bind,
    hrest, some_bind,
    mapM_tagAt_eq (fun p hp => SpanSet.mem_single.mp (SpanSet.mem_difference.mp hp).1) h]
  rfl

include hescapes in
theorem tagsFrom_eq (hn : n < 2 ^ 62) {base : Nat} (hbase : base < 2 ^ 62)
    (hlen : d.corrections.length < 2 ^ 64) {skipped next : Nat}
    (hsum : skipped + totalSkip (d.corrections.drop next) ≤ n) {tokens : List Sql.Token}
    (htokens : ∀ t ∈ tokens, t.stop ≤ n) :
    tagsFrom d.corrections d.escapes.toList base skipped next tokens
      = some (d.tagsFrom base skipped (d.corrections.drop next) tokens) := by
  induction tokens generalizing skipped next with
  | nil => rfl
  | cons t rest ih =>
    obtain ⟨hstop, hrest⟩ := List.forall_mem_cons.mp htokens
    rw [tagsFrom, Decoded.tagsFrom]
    split
    · exact ih hsum hrest
    · dsimp only
      obtain ⟨first, hfirst, hahead⟩ := exists_absorb_eq hlen t.start skipped next
        (by simp only [Sql.Token.stop] at hstop; omega)
      have hconserved := absorb_conserves t.start skipped (d.corrections.drop next)
      generalize EmbeddedSql.absorb t.start skipped (d.corrections.drop next) = atStart at *
      obtain ⟨len, last, hlast, hgrown, hsum', hahead'⟩ := exists_absorb_token_eq hlen t
        atStart.1 first (by rw [hahead]; omega)
      have hconserved' := absorb_conserves t.stop atStart.1 atStart.2
      rw [hahead] at hsum' hahead'
      generalize EmbeddedSql.absorb t.stop atStart.1 atStart.2 = atStop at *
      have hspan : (⟨t.start + atStart.1, len⟩ : Span)
          = Span.between (t.start + atStart.1) (t.stop + atStop.1) := by
        rw [Span.between, Span.mk.injEq, Sql.Token.stop]
        exact ⟨rfl, by omega⟩
      have hreach : t.start + atStart.1 + len = t.stop + atStop.1 := by
        rw [Sql.Token.stop]
        omega
      rw [hfirst, some_bind]
      dsimp only
      rw [add_eq (by omega), some_bind, hlast, some_bind]
      dsimp only
      rw [sub_eq hgrown, some_bind, add_eq (by omega), some_bind, hspan,
        split_eq (Nat.lt_trans hn (by decide)) hescapes (by rw [Span.stop_between]; omega),
        some_bind, show atStart.1 + (len - t.len) = atStop.1 by omega,
        ih (by rw [hahead']; omega) hrest, hahead']
      rfl

end Split

/-- **The tags of a decoded content**, put back on the source. -/
theorem tagTokens_eq {kind : LiteralKind} {units : List CodeUnit} {d : Decoded}
    (h : Decoded.ofUnits kind units = .ok d) {base : Nat} (hbase : base + units.length < 2 ^ 62) :
    tagTokens d base (Sql.tokenize d.chars) = some (d.tagTokens base (Sql.tokenize d.chars)) := by
  obtain ⟨pieces, hread, rfl⟩ := Decoded.ofUnits_eq_ok.mp h
  have hwidth := hread.totalWidth_eq
  have hpieces := length_le_totalWidth hread.one_le_width
  have hcount : (correctionsOf 0 pieces).length ≤ pieces.length := length_correctionsOf_le 0
  have hskip : totalSkip (correctionsOf 0 pieces) ≤ totalWidth pieces :=
    totalSkip_correctionsOf_le 0
  have hspans : ∀ s ∈ ((Decoded.ofPieces pieces).corrections.filter Correction.isEscape).map
      Correction.span, s.stop < units.length + 1 := by
    intro s hs
    obtain ⟨c, hc, rfl⟩ := List.mem_map.mp hs
    have := stop_span_le_of_mem_correctionsOf (List.mem_of_mem_filter hc)
    omega
  have hescapes : ∀ e ∈ (Decoded.ofPieces pieces).escapes.toList, e.stop ≤ units.length :=
    fun e he => Nat.le_of_lt_succ (SpanSet.stop_lt_of_mem_ofSpans hspans he)
  have hchars : (Decoded.ofPieces pieces).chars.length = pieces.length := List.length_map _
  have htiles := Sql.tiles_tokenize (Decoded.ofPieces pieces).chars
  have hnormal : normalize (((Decoded.ofPieces pieces).corrections.filter Correction.isEscape).map
      Correction.span) = some (Decoded.ofPieces pieces).escapes.toList := by
    rw [normalize_eq fun s hs => Nat.lt_trans (hspans s hs) (by omega), Decoded.escapes,
      SpanSet.ofSpans, SpanSet.toList_ofNormal]
  rw [tagTokens, hnormal, some_bind, tagsFrom_eq hescapes (by omega) (by omega)
    (show (correctionsOf 0 pieces).length < 2 ^ 64 by omega)
    (show 0 + totalSkip (correctionsOf 0 pieces) ≤ units.length by omega)
    fun t ht => Nat.le_trans (htiles.bounds ht).2 (by omega)]
  rfl

end Checked

end EmbeddedSql
