import EmbeddedSql.Literal.Head
import EmbeddedSql.Proofs.Balance
import EmbeddedSql.Proofs.Progress

/-!
# Two readings of an opening

How a literal opens is read twice. The scanner reads it in the buffer, with the
rules of the language built in, and goes on to the content. Later the head of the
stitched literal is read again, from the text of its first fragment alone and
against a table of markers. The two must come to the same kind and the same
lengths, or else the delimiters are cut off in the wrong place.

They do (`headAgrees_scanned`), with one difference that is meant: the scanner
takes any number of `$`, and the second reading refuses more than one where the
literal is not raw. What makes the first fragment enough is that it never ends
before the content begins. The quotes behind the first may be cut off, in a
literal that is not raw, but they do not count there.
-/

namespace EmbeddedSql

open Utf16 (ascii)

/-! ## Markers -/

/-- Marker units: so many `$`, and an `@` or none, in any order. -/
inductive Markers : Nat → Bool → List CodeUnit → Prop
  /-- No markers. -/
  | nil : Markers 0 false []
  /-- A `$` more. -/
  | dollar {k : Nat} {v : Bool} {m : List CodeUnit} : Markers k v m → Markers (k + 1) v (ascii '$' :: m)
  /-- The only `@`. -/
  | verbatim {k : Nat} {m : List CodeUnit} : Markers k false m → Markers k true (ascii '@' :: m)

namespace Markers

variable {k : Nat} {v : Bool} {m : List CodeUnit}

theorem dollar_mem_iff (h : Markers k v m) : ascii '$' ∈ m ↔ 0 < k := by
  induction h with
  | nil => simp
  | dollar => simp
  | verbatim _ ih => rw [List.mem_cons, ih, or_iff_right (by decide)]

theorem verbatim_mem_iff (h : Markers k v m) : ascii '@' ∈ m ↔ v = true := by
  induction h with
  | nil => simp
  | dollar _ ih => rw [List.mem_cons, ih, or_iff_right (by decide)]
  | verbatim => simp

/-- Only a `$` can be repeated. -/
theorem nodup_iff (h : Markers k v m) : m.Nodup ↔ k ≤ 1 := by
  induction h with
  | nil => simp
  | dollar hm ih =>
    rw [List.nodup_cons, hm.dollar_mem_iff, ih]
    omega
  | verbatim hm ih => rw [List.nodup_cons, hm.verbatim_mem_iff, ih, and_iff_right Bool.false_ne_true]

end Markers

namespace LiteralStyle

variable {k : Nat} {v : Bool} {m : List CodeUnit}

/-- **Markers are read one by one** up to the quote, and what they say adds up. -/
theorem readMarkers_csharp (h : Markers k v m) (rest seen : List CodeUnit)
    (verbatim interpolated : Bool) (hseen : v = true → ascii '@' ∉ seen) :
    csharp.readMarkers seen (.quoted verbatim interpolated false) (m ++ ascii '"' :: rest) =
      .ok ⟨m.reverse ++ seen, .quoted (verbatim || v) (interpolated || decide (0 < k)) false,
        ascii '"' :: rest⟩ := by
  induction h generalizing seen verbatim interpolated with
  | nil => simp [readMarkers]
  | @dollar k v m hm ih =>
    have hmarker : csharp.marker? (ascii '$') = some ⟨'$', .interpolated, true⟩ := by decide
    have hquote : (ascii '$' == ascii '"') = false := by decide
    have hnext : v = true → ascii '@' ∉ ascii '$' :: seen := fun hv => by
      rw [List.mem_cons, not_or]
      exact ⟨by decide, hseen hv⟩
    simp only [List.cons_append, readMarkers, hquote, hmarker, Bool.not_true, Bool.and_false,
      Bool.false_eq_true, if_false]
    rw [LiteralKind.interpolated, LiteralKind.join, Bool.or_false, Bool.or_true, Bool.or_false,
      ih _ _ _ hnext,
      List.reverse_cons, List.append_assoc]
    simp
  | @verbatim k m hm ih =>
    have hmarker : csharp.marker? (ascii '@') = some ⟨'@', .verbatim, false⟩ := by decide
    have hquote : (ascii '@' == ascii '"') = false := by decide
    have hfresh : seen.contains (ascii '@') = false := by
      rw [← Bool.not_eq_true, List.contains_iff_mem]
      exact hseen rfl
    simp only [List.cons_append, readMarkers, hquote, hmarker, hfresh, Bool.false_and,
      Bool.false_eq_true, if_false]
    rw [LiteralKind.verbatim, LiteralKind.join, Bool.or_true, Bool.or_false, Bool.or_false,
      ih _ _ _ nofun,
      List.reverse_cons, List.append_assoc]
    simp

/-- Markers are read by the table of markers alone. -/
theorem readMarkers_congr {style style' : LiteralStyle} (h : style.markers = style'.markers)
    (seen : List CodeUnit) (kind : LiteralKind) (units : List CodeUnit) :
    style.readMarkers seen kind units = style'.readMarkers seen kind units := by
  induction units generalizing seen kind with
  | nil => rfl
  | cons u units ih => simp only [readMarkers, marker?, h, ih]

/-- **The head of markers and quotes**, in any style with the markers of C#: enough
quotes make a raw literal unless it is verbatim, and in any other literal one `$` is
all there may be. -/
theorem readHead_of_markers {style : LiteralStyle} (hstyle : style.markers = csharp.markers)
    (h : Markers k v m) {rest : List CodeUnit} {quotes : Nat} (hquotes : 0 < quotes)
    (hrest : rest.head? = some (ascii '"'))
    (hrun : (rest.takeWhile (· == ascii '"')).length = quotes) :
    style.readHead (m ++ rest) =
      if style.rawQuotes.any (· ≤ quotes) = true ∧ v = false then
        .ok ⟨.quoted v (decide (0 < k)) true, m.length + quotes, quotes⟩
      else if k ≤ 1 then .ok ⟨.quoted v (decide (0 < k)) false, m.length + 1, 1⟩
      else .error .malformedHead := by
  obtain ⟨units, rfl⟩ : ∃ units, rest = ascii '"' :: units := by
    cases rest with
    | nil => simp at hrest
    | cons u units => exact ⟨units, by rw [List.head?_cons, Option.some.injEq] at hrest; rw [hrest]⟩
  have hread := readMarkers_csharp h units [] false false fun _ => List.not_mem_nil
  have hraw : (style.rawQuotes.any (· ≤ quotes) && !v) = true ↔
      style.rawQuotes.any (· ≤ quotes) = true ∧ v = false := by
    rw [Bool.and_eq_true, Bool.not_eq_true']
  have hnodup : m.reverse.Nodup ↔ k ≤ 1 := by
    rw [m.reverse_perm.nodup_iff, h.nodup_iff]
  rw [readHead, readMarkers_congr hstyle, LiteralKind.plain, hread]
  simp only [Bool.false_or, List.append_nil, bind, Except.bind, hrun, Nat.ne_of_gt hquotes, if_false,
    LiteralKind.isVerbatim, LiteralKind.raw, LiteralKind.join, Bool.or_false, Bool.or_true,
    List.length_reverse, pure, Except.pure, hraw, hnodup]
  rfl

/-- In C# three quotes are enough. -/
theorem readHead_csharp (h : Markers k v m) {rest : List CodeUnit} {quotes : Nat} (hquotes : 0 < quotes)
    (hrest : rest.head? = some (ascii '"'))
    (hrun : (rest.takeWhile (· == ascii '"')).length = quotes) :
    csharp.readHead (m ++ rest) =
      if 3 ≤ quotes ∧ v = false then
        .ok ⟨.quoted v (decide (0 < k)) true, m.length + quotes, quotes⟩
      else if k ≤ 1 then .ok ⟨.quoted v (decide (0 < k)) false, m.length + 1, 1⟩
      else .error .malformedHead := by
  have hraw : csharp.rawQuotes.any (· ≤ quotes) = true ↔ 3 ≤ quotes := by simp [csharp]
  simp only [readHead_of_markers rfl h hquotes hrest hrun, hraw]

end LiteralStyle

namespace Host

variable {b : Buffer}

/-! ## The scanner's reading -/

/-- What the scanner counts as markers are markers. -/
theorem markers_of_markersFrom (b : Buffer) (dollars : Nat) (verbatim : Bool) (pos : Nat) :
    ∃ k v, Markers k v (b.slice (.between pos (markersFrom b dollars verbatim pos).2.2)) ∧
      (markersFrom b dollars verbatim pos).1 = dollars + k ∧
      (markersFrom b dollars verbatim pos).2.1 = (verbatim || v) ∧ (verbatim = true → v = false) := by
  fun_induction markersFrom b dollars verbatim pos with
  | case1 dollars verbatim pos _ hdollar ih =>
    obtain ⟨k, v, hm, hk, hv, hone⟩ := ih
    refine ⟨k + 1, v, ?_, by omega, hv, hone⟩
    rw [slice_of_isAt hdollar (le_markersFrom b (dollars + 1) verbatim (pos + 1))]
    exact .dollar hm
  | case2 dollars verbatim pos _ _ hmarker ih =>
    obtain ⟨hat, hfirst⟩ := Bool.and_eq_true_iff.mp hmarker
    rw [Bool.not_eq_true'] at hfirst
    subst hfirst
    obtain ⟨k, v, hm, hk, hv, hone⟩ := ih
    obtain rfl := hone rfl
    refine ⟨k, true, ?_, hk, hv, fun h => absurd h Bool.false_ne_true⟩
    rw [slice_of_isAt hat (le_markersFrom b dollars true (pos + 1))]
    exact .verbatim hm
  | case3 dollars verbatim pos =>
    refine ⟨0, false, ?_, rfl, (Bool.or_false _).symm, fun _ => rfl⟩
    rw [b.slice_of_le (Nat.le_refl pos)]
    exact .nil
  | case4 dollars verbatim pos =>
    refine ⟨0, false, ?_, rfl, (Bool.or_false _).symm, fun _ => rfl⟩
    rw [b.slice_of_le (Nat.le_refl pos)]
    exact .nil

/-- What stands where a literal opens. -/
structure LiteralOpening.Opens (b : Buffer) (o : LiteralOpening) : Prop where
  /-- The markers come first, -/
  le : o.start ≤ o.quoteAt
  /-- as many as were counted. -/
  markers : Markers o.dollars o.verbatim (b.slice (.between o.start o.quoteAt))
  /-- Then comes a quote, -/
  quote : b.isAt o.quoteAt '"' = true
  /-- and with it all the quotes in a row. -/
  run : runEnd b '"' o.quoteAt = o.quoteAt + o.quotes

theorem opens_of_opening? {start : Nat} {o : LiteralOpening} (h : opening? b start = some o) :
    o.Opens b := by
  have hle := le_markersFrom b 0 false start
  obtain ⟨k, v, hm, hk, hv, -⟩ := markers_of_markersFrom b 0 false start
  unfold opening? at h
  split at h
  next dollars verbatim quoteAt heq =>
    rw [heq] at hle hm hk hv
    simp only [Nat.zero_add, Bool.false_or] at hle hm hk hv
    split at h
    · next hquote =>
      cases h
      subst hk hv
      refine ⟨hle, hm, hquote, ?_⟩
      have hrun : runEnd b '"' quoteAt = runEnd b '"' (quoteAt + 1) := by
        obtain ⟨hpos, hunit⟩ := Array.getElem?_eq_some_iff.mp (beq_iff_eq.mp hquote)
        rw [runEnd, skipWhile, dif_pos hpos, if_pos (by rw [hunit, beq_self_eq_true])]
        rfl
      have hlt : quoteAt + 1 ≤ runEnd b '"' (quoteAt + 1) := le_skipWhile _ _ _
      simp only
      omega
    · simp at h

theorem LiteralOpening.Opens.quotes_pos {o : LiteralOpening} (h : o.Opens b) : 0 < o.quotes := by
  have hlt := lt_runEnd_of_isAt h.quote
  rw [h.run] at hlt
  omega

/-! ## Agreement -/

/-- **The two readings of an opening agree** on a fragment. More than one `$` is
refused unless the literal is raw. Otherwise the kind is what the scanner saw, the
opening reaches up to the scanner's content, and the closing has the length it
looks for. -/
structure HeadAgrees (b : Buffer) (o : LiteralOpening) (fragment : Span) : Prop where
  /-- When the head is refused. -/
  error_iff : LiteralStyle.csharp.readHead (b.slice fragment) = .error .malformedHead ↔
    2 ≤ o.dollars ∧ ¬ (3 ≤ o.quotes ∧ o.verbatim = false)
  /-- What it is read as otherwise. -/
  ok : ¬ (2 ≤ o.dollars ∧ ¬ (3 ≤ o.quotes ∧ o.verbatim = false)) →
    LiteralStyle.csharp.readHead (b.slice fragment) = .ok
      { kind := .quoted o.verbatim (decide (1 ≤ o.dollars)) (decide (3 ≤ o.quotes ∧ o.verbatim = false))
        openingLen := o.body - o.start
        closingLen := if 3 ≤ o.quotes ∧ o.verbatim = false then o.quotes else 1 }

theorem LiteralOpening.isRaw_iff {o : LiteralOpening} :
    o.isRaw = true ↔ 3 ≤ o.quotes ∧ o.verbatim = false := by
  rw [isRaw, Bool.and_eq_true, decide_eq_true_eq, Bool.not_eq_true']

/-- A fragment that reaches from the opening to the content, or further, shows all
of the opening that counts. -/
theorem LiteralOpening.Opens.headAgrees {o : LiteralOpening} (h : o.Opens b) {fragment : Span}
    (hstart : fragment.start = o.start) (hstop : o.body ≤ fragment.stop) :
    HeadAgrees b o fragment := by
  have hpos := h.quotes_pos
  have hbody : o.quoteAt + 1 ≤ o.body := by
    unfold LiteralOpening.body
    split
    · omega
    · omega
  have hquote : (b.slice (.between o.quoteAt fragment.stop)).head? = some (ascii '"') := by
    rw [slice_of_isAt h.quote (by omega), List.head?_cons]
  have hslice : b.slice fragment =
      b.slice (.between o.start o.quoteAt) ++ b.slice (.between o.quoteAt fragment.stop) := by
    rw [b.slice_append h.le (by omega), ← hstart, fragment.between_start_stop]
  have hlen : (b.slice (.between o.start o.quoteAt)).length = o.quoteAt - o.start :=
    b.length_slice (Nat.le_of_lt (lt_size_of_isAt h.quote))
  have hrun := length_takeWhile_slice b (· == ascii '"') o.quoteAt fragment.stop
  rw [show skipWhile b (· == ascii '"') o.quoteAt = o.quoteAt + o.quotes from h.run] at hrun
  have hread := LiteralStyle.readHead_csharp h.markers (by omega) hquote hrun
  rw [← hslice, hlen] at hread
  by_cases hraw : 3 ≤ o.quotes ∧ o.verbatim = false
  · -- All the quotes of a raw literal are in the fragment.
    have hall : o.body = o.quoteAt + o.quotes := if_pos (isRaw_iff.mpr hraw)
    have hcount : min (o.quoteAt + o.quotes) fragment.stop - o.quoteAt = o.quotes := by omega
    rw [hcount, if_pos hraw] at hread
    constructor
    · simp [hread, hraw]
    · intro _
      have hlead : o.quoteAt - o.start + o.quotes = o.body - o.start := by
        have hle := h.le
        omega
      rw [hread, if_pos hraw, decide_eq_true hraw, hlead]
      rfl
  · have hone : o.body = o.quoteAt + 1 := if_neg (mt isRaw_iff.mp hraw)
    have hfew : ¬ (3 ≤ min (o.quoteAt + o.quotes) fragment.stop - o.quoteAt ∧ o.verbatim = false) := by
      rintro ⟨hmany, hplain⟩
      exact hraw ⟨by omega, hplain⟩
    rw [if_neg hfew] at hread
    constructor
    · rw [hread]
      split
      · next hle => simp only [reduceCtorEq, false_iff]; omega
      · next hle => simp only [true_iff]; exact ⟨by omega, hraw⟩
    · intro hok
      have hle : o.dollars ≤ 1 := Nat.le_of_not_lt fun hlt => hok ⟨hlt, hraw⟩
      have hlead : o.quoteAt - o.start + 1 = o.body - o.start := by
        have hle := h.le
        omega
      rw [hread, if_pos hle, if_neg hraw, decide_eq_false hraw, hlead]
      rfl

/-- **Whatever literal is scanned, its head is read as it was opened**: for each
literal of a scan, however deeply nested, and for each literal that is scanned on
its own from where it starts, the first string fragment that is tagged shows the
opening that the scanner saw. -/
theorem headAgrees_scanned (b : Buffer) :
    (∀ l ∈ (scan b).literals, ∃ fragment, l.fragments[0]? = some fragment ∧
        opening? b l.opening.start = some l.opening ∧ HeadAgrees b l.opening fragment) ∧
      ∀ found start o, opening? b start = some o → ∃ fragment more,
        (scanLiteral b found start).2.tags =
            found.tags ++ (⟨fragment, .string⟩ :: more : List HostTag).toArray ∧
          HeadAgrees b o fragment := by
  refine ⟨fun l hl => ?_, fun found start o ho => ?_⟩
  · obtain ⟨pos, inner, nested, hm, hcontent⟩ :=
      (scans_to_size b).exists_content (Array.mem_toList_iff.mpr hl)
    obtain ⟨fragment, rest, more, hfragments, -, hstart, hstop⟩ := hcontent.exists_first rfl
    have ho := opening?_of_codeMove hm
    have hfirst : l.fragments[0]? = some fragment := by
      rw [← Array.getElem?_toList, hfragments, List.getElem?_cons_zero]
    refine ⟨fragment, hfirst, ?_, (opens_of_opening? ho).headAgrees hstart hstop⟩
    rwa [(placed_of_opening? ho).start]
  · obtain ⟨tags, literals, fragments, closers, ending, hrun, hfound⟩ :=
      (runs b).2 (.begin o) found o.body
    obtain ⟨fragment, rest, more, -, rfl, hstart, hstop⟩ := hrun.exists_first rfl
    refine ⟨fragment, more, ?_, (opens_of_opening? ho).headAgrees hstart hstop⟩
    rw [scanLiteral, ho]
    exact congrArg Found.tags hfound

/-- Two `$` before a single quote, and a verbatim literal whose content begins
with a doubled quote. -/
theorem headAgrees_scanned_mixed :
    ∃ b : Buffer, b = .ofText "$$\"b\"+$@\"\"\"a\x7b1\x7d\"" ∧
      (∃ l ∈ (scan b).literals, l.opening = ⟨0, 2, false, 2, 1⟩ ∧
        ∃ fragment, l.fragments[0]? = some fragment ∧ HeadAgrees b l.opening fragment) ∧
      opening? b 6 = some ⟨6, 1, true, 8, 3⟩ ∧
      ∃ fragment more, (scanLiteral b {} 6).2.tags =
          (⟨fragment, .string⟩ :: more : List HostTag).toArray ∧
        HeadAgrees b ⟨6, 1, true, 8, 3⟩ fragment := by
  obtain ⟨hscan, hone⟩ := headAgrees_scanned (.ofText "$$\"b\"+$@\"\"\"a\x7b1\x7d\"")
  have hopening : opening? (.ofText "$$\"b\"+$@\"\"\"a\x7b1\x7d\"") 6 = some ⟨6, 1, true, 8, 3⟩ := by
    decide +kernel
  refine ⟨_, rfl, ?_, hopening, ?_⟩
  · have hliteral : ∃ l ∈ (scan (.ofText "$$\"b\"+$@\"\"\"a\x7b1\x7d\"")).literals,
        l.opening = ⟨0, 2, false, 2, 1⟩ := by decide +kernel
    obtain ⟨l, hl, heq⟩ := hliteral
    obtain ⟨fragment, hfirst, -, hagrees⟩ := hscan l hl
    exact ⟨l, hl, heq, fragment, hfirst, hagrees⟩
  · obtain ⟨fragment, more, htags, hagrees⟩ := hone {} 6 _ hopening
    exact ⟨fragment, more, by simpa using htags, hagrees⟩

end Host

end EmbeddedSql
