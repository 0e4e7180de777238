import EmbeddedSql.Proofs.Heads
import EmbeddedSql.Report
import Mathlib.Logic.Relation

/-!
# Where a closing delimiter is taken off

Whether a literal is closed is known to the scanner, which reads its content
from the opening on. It is not passed on. When the content is cut out later,
the closing delimiter is taken off wherever the last fragment ends with quotes,
as many as close the literal, and the scan is not consulted.

In a raw literal that comes to the same, because so many quotes in a row cannot
be text. In any other literal one quote closes, and a quote can be text: behind
a backslash, or doubled if the literal is verbatim. So a literal that is not
closed loses its last unit when that unit is an escaped quote, and it keeps its
tail in every other case (`endsWithClosing_scanned`).
-/

namespace EmbeddedSql

open Relation (ReflTransGen)
open Utf16 (ascii)

/-! ## The content and its two cuts -/

/-- The content of a literal with its opening taken off, and its closing too if
`cut` says so. -/
def contentCut (head : LiteralHead) (cut : Bool) (fragments : List Span) :
    Except LiteralError (List Span) :=
  let content := fragments.zipIdx.filterMap fun (s, i) =>
    let start := if i == 0 then s.start + head.openingLen else s.start
    let stop := if i + 1 == fragments.length && cut then s.stop - head.closingLen else s.stop
    if start < stop then some (Span.between start stop) else none
  if content.isEmpty then .error .emptyAfterTrim else .ok content

/-- Only the last fragment decides whether the closing is taken off. -/
theorem contentOf_eq_contentCut (b : Buffer) (head : LiteralHead) {fragments : List Span} {last : Span}
    (hlast : fragments.getLast? = some last) :
    contentOf b head fragments = contentCut head (endsWithClosing b head last) fragments := by
  have hcongr : ∀ p ∈ fragments.zipIdx,
      trimFragment? b head (p.2 == 0) (p.2 + 1 == fragments.length) p.1
        = (let start := if p.2 == 0 then p.1.start + head.openingLen else p.1.start
           let stop := if p.2 + 1 == fragments.length && endsWithClosing b head last
             then p.1.stop - head.closingLen else p.1.stop
           if start < stop then some (Span.between start stop) else none) := by
    rintro ⟨s, i⟩ hmem
    by_cases hi : i + 1 = fragments.length
    · obtain rfl : s = last := by
        have hs := List.mem_zipIdx_iff_getElem?.mp hmem
        rw [List.getLast?_eq_getElem?, ← hi, Nat.add_sub_cancel] at hlast
        exact Option.some.inj (hs.symm.trans hlast)
      rfl
    · simp [trimFragment?, hi]
  unfold contentOf contentCut
  rw [List.filterMap_congr hcongr]

/-- A slice of one character only. -/
theorem all_slice_iff {b : Buffer} {c : Char} (start : Nat) {stop : Nat} (hsize : stop ≤ b.size) :
    (b.slice (.between start stop)).all (· == ascii c) = true ↔
      ∀ i, start ≤ i → i < stop → b.isAt i c = true := by
  by_cases hlt : start < stop
  · have hpos : start < b.units.size := Nat.lt_of_lt_of_le hlt hsize
    have hunit : (b.units[start] == ascii c) = b.isAt start c := by
      rw [Buffer.isAt, Buffer.unit?, Array.getElem?_eq_getElem hpos, Option.some_beq_some]
    rw [b.slice_cons hpos hlt, List.all_cons, Bool.and_eq_true, hunit, all_slice_iff (start + 1) hsize]
    constructor
    · rintro ⟨hfirst, hrest⟩ i hlo hhi
      rcases Nat.lt_or_eq_of_le hlo with hlo | rfl
      · exact hrest i hlo hhi
      · exact hfirst
    · intro h
      exact ⟨h start (Nat.le_refl _) hlt, fun i hlo => h i (Nat.le_of_succ_le hlo)⟩
  · rw [b.slice_of_le (Nat.le_of_not_lt hlt), List.all_nil]
    refine iff_of_true rfl fun i hlo hhi => ?_
    omega
termination_by stop - start

/-- What it means to end with a closing delimiter. -/
theorem endsWithClosing_iff {b : Buffer} {head : LiteralHead} {s : Span} (hsize : s.stop ≤ b.size) :
    endsWithClosing b head s = true ↔ head.closingLen ≤ s.len ∧
      ∀ i, s.stop - head.closingLen ≤ i → i < s.stop → b.isAt i '"' = true := by
  have hlen : (b.slice s).length = s.len := by
    have hslice : (b.slice (.between s.start s.stop)).length = s.stop - s.start :=
      b.length_slice hsize
    rwa [s.between_start_stop, Span.stop, Nat.add_sub_cancel_left] at hslice
  rw [endsWithClosing, Bool.and_eq_true, decide_eq_true_eq, hlen]
  refine and_congr_right fun hle => ?_
  have hdrop : (b.slice s).drop (s.len - head.closingLen)
      = b.slice (.between (s.stop - head.closingLen) s.stop) := by
    have hstop : s.start + s.len = s.stop := rfl
    have hfront : (b.slice (.between s.start (s.stop - head.closingLen))).length
        = s.len - head.closingLen := by
      rw [b.length_slice (by omega)]
      omega
    have hsplit : b.slice (.between s.start (s.stop - head.closingLen)) ++
        b.slice (.between (s.stop - head.closingLen) s.stop) = b.slice (.between s.start s.stop) :=
      b.slice_append (by omega) (by omega)
    rw [s.between_start_stop] at hsplit
    rw [← hsplit, ← hfront, List.drop_left]
  rw [hdrop, all_slice_iff _ hsize]

namespace Host

variable {b : Buffer} {o : LiteralOpening}

/-! ## What is passed as text -/

/-- **Text passed by a scan**, from one position of a literal's content to
another. -/
def Passes (b : Buffer) (o : LiteralOpening) : Nat → Nat → Prop :=
  ReflTransGen fun pos next => contentMove b o pos = .past next

/-- An **escaped quote** right before a position: doubled in a verbatim literal,
and behind a backslash in any other. -/
def EscapedQuote (b : Buffer) (o : LiteralOpening) (stop : Nat) : Prop :=
  b.isAt (stop - 1) '"' = true ∧ b.isAt (stop - 2) (if o.verbatim then '"' else '\\') = true

theorem not_isAt_of_isAt {pos : Nat} {c d : Char} (h : b.isAt pos c = true)
    (hne : ascii c ≠ ascii d) : b.isAt pos d = false := by
  rw [Buffer.isAt, beq_iff_eq] at h
  rw [Buffer.isAt, h]
  simpa using hne

/-- What is passed in a literal that is not raw: one unit that is no quote, or
two of which the second is no quote or escaped. -/
theorem quoted_past_cases {pos next : Nat} (hraw : o.isRaw = false)
    (h : contentMove b o pos = .past next) :
    (next = pos + 1 ∧ b.isAt pos '"' = false) ∨
      (next = pos + 2 ∧ (b.isAt (pos + 1) '"' = false ∨
        b.isAt pos (if o.verbatim then '"' else '\\') = true)) := by
  have hbackslash : b.isAt pos '\\' = true → b.isAt pos '"' = false := fun h =>
    not_isAt_of_isAt h (by decide)
  have hopen : b.isAt (pos + 1) '\x7b' = true → b.isAt (pos + 1) '"' = false := fun h =>
    not_isAt_of_isAt h (by decide)
  have hclose : b.isAt (pos + 1) '\x7d' = true → b.isAt (pos + 1) '"' = false := fun h =>
    not_isAt_of_isAt h (by decide)
  unfold contentMove quotedMove at h
  grind

/-- Text that ends with a quote, in a literal that is not raw, ends with an
escaped one. -/
theorem escapedQuote_of_past {pos next : Nat} (hraw : o.isRaw = false)
    (h : contentMove b o pos = .past next) (hquote : b.isAt (next - 1) '"' = true) :
    EscapedQuote b o next := by
  rcases quoted_past_cases hraw h with ⟨rfl, hother⟩ | ⟨rfl, hother | hescape⟩
  · rw [Nat.add_sub_cancel, hother] at hquote
    exact absurd hquote Bool.false_ne_true
  · rw [show pos + 2 - 1 = pos + 1 by omega, hother] at hquote
    exact absurd hquote Bool.false_ne_true
  · exact ⟨hquote, by rwa [Nat.add_sub_cancel]⟩

/-- A run ends where the character is not. -/
theorem not_isAt_runEnd (b : Buffer) (c : Char) (pos : Nat) : b.isAt (runEnd b c pos) c = false := by
  unfold runEnd
  fun_induction skipWhile b (· == ascii c) pos with
  | case1 pos hpos hunit ih => exact ih
  | case2 pos hpos hunit =>
    rw [Buffer.isAt, Buffer.unit?, Array.getElem?_eq_getElem hpos, Option.some_beq_some]
    simpa using hunit
  | case3 pos hpos =>
    rw [Buffer.isAt, Buffer.unit?, Array.getElem?_eq_none (Nat.le_of_not_lt hpos)]
    rfl

/-- Text that ends with a quote, in a raw literal, ends with a run of quotes too
short to close it. -/
theorem run_of_past {pos next : Nat} (hraw : o.isRaw = true)
    (h : contentMove b o pos = .past next) (hquote : b.isAt (next - 1) '"' = true) :
    b.isAt pos '"' = true ∧ b.isAt next '"' = false ∧ next < pos + o.quotes := by
  have hlt := (lt_of_contentMove_past h).2
  have hend := not_isAt_runEnd b '"' (pos + 1)
  have hbraces : b.isAt pos '\x7b' = true → b.isAt (runEnd b '\x7b' (pos + 1) - 1) '"' = false := by
    intro hbrace
    have hle : pos + 1 ≤ runEnd b '\x7b' (pos + 1) := le_skipWhile _ _ _
    refine not_isAt_of_isAt (c := '\x7b') ?_ (by decide)
    rcases Nat.lt_or_eq_of_le hle with hlt | heq
    · exact isAt_of_lt_runEnd (Nat.le_sub_one_of_lt hlt) (Nat.sub_one_lt_of_lt hlt)
    · rwa [← heq, Nat.add_sub_cancel]
  unfold contentMove rawMove at h
  grind

/-- **Where a fragment breaks off**: text was passed up to there, save for braces
that do not belong to the hole that follows. -/
structure BreaksOff (b : Buffer) (o : LiteralOpening) (base stop : Nat) : Prop where
  /-- Text is passed, and then braces may come. -/
  passed : ∃ pos, Passes b o base pos ∧ pos ≤ stop ∧ ∀ i, pos ≤ i → i < stop → b.isAt i '\x7b' = true
  /-- The buffer goes that far. -/
  le_size : stop ≤ b.size

/-- A quote where a fragment breaks off was passed as text. -/
theorem BreaksOff.passes {base stop : Nat} (h : BreaksOff b o base stop) (hlt : base < stop)
    (hquote : b.isAt (stop - 1) '"' = true) :
    ∃ pos, Passes b o base pos ∧ contentMove b o pos = .past stop := by
  obtain ⟨pos, hpassed, hle, hbraces⟩ := h.passed
  obtain rfl : pos = stop := by
    by_contra hne
    have hbrace := hbraces (stop - 1) (by omega) (by omega)
    rw [not_isAt_of_isAt hbrace (by decide)] at hquote
    exact Bool.false_ne_true hquote
  rcases hpassed.cases_tail with heq | hlast
  · omega
  · exact hlast

/-- **In a raw literal no fragment breaks off behind a closing delimiter.** -/
theorem BreaksOff.not_closing {base stop : Nat} (h : BreaksOff b o base stop) (hraw : o.isRaw = true)
    (hquotes : 0 < o.quotes) (hroom : base + o.quotes ≤ stop) :
    ¬ ∀ i, stop - o.quotes ≤ i → i < stop → b.isAt i '"' = true := by
  intro hquote
  have hlastquote := hquote (stop - 1) (by omega) (by omega)
  obtain ⟨pos, hpassed, hlast⟩ := h.passes (by omega) hlastquote
  obtain ⟨hfirst, -, hshort⟩ := run_of_past hraw hlast hlastquote
  have hlt := (lt_of_contentMove_past hlast).2
  -- The run is too short to reach back to `base`, so a move ends in front of it.
  rcases hpassed.cases_tail with rfl | ⟨before, -, hmove⟩
  · omega
  · obtain ⟨-, hend, -⟩ := run_of_past hraw hmove (hquote (pos - 1) (by omega) (by omega))
    rw [hfirst] at hend
    exact Bool.false_ne_true hend.symm

/-! ## The fragments of a run -/

/-- A fragment that ends with the closing delimiter. -/
def Closes (b : Buffer) (o : LiteralOpening) (f : Span) : Prop :=
  ∃ pos, f.start ≤ pos ∧ contentMove b o pos = .finish .closed f.stop

/-- Only a closing delimiter is passed at the end of a literal. -/
theorem stop_eq_of_not_closed {pos stop : Nat} {ending : Ending}
    (h : contentMove b o pos = .finish ending stop) (hending : ending ≠ .closed) : stop = pos := by
  unfold contentMove rawMove quotedMove at h
  grind

/-- The braces before a hole that do not belong to it. -/
theorem isAt_of_contentMove_hole {pos first code i : Nat} (h : contentMove b o pos = .hole first code)
    (hlo : pos ≤ i) (hhi : i < first) : b.isAt i '\x7b' = true := by
  have hrun : b.isAt pos '\x7b' = true → i < runEnd b '\x7b' (pos + 1) → b.isAt i '\x7b' = true := by
    intro hfirst hlt
    rcases Nat.lt_or_eq_of_le hlo with hlo | rfl
    · exact isAt_of_lt_runEnd hlo hlt
    · exact hfirst
  unfold contentMove rawMove quotedMove at h
  grind

/-- The fragment before a hole breaks off. -/
theorem breaksOff_of_hole {base start pos first code : Nat} (hpassed : Passes b o base pos)
    (hstart : start ≤ pos) (h : contentMove b o pos = .hole first code) :
    BreaksOff b o base (Span.between start first).stop := by
  have hin := entered_of_contentMove h
  have hle := hin.le
  have hsize := hin.le_size
  rw [Span.stop_between, Nat.max_eq_right (by omega)]
  exact ⟨⟨pos, hpassed, hle, fun i => isAt_of_contentMove_hole h⟩, by omega⟩

/-- **Where the fragments of a literal end.** If it is closed the last one ends
with the closing delimiter, and otherwise all of them break off. `base` is where
the content of the first one begins. -/
theorem Scans.fragments_end {part : Part} {stop : Nat} {tags : List HostTag}
    {literals : List ScannedLiteral} (h : Scans b part stop tags literals) (hsound : part.Sound b)
    {o : LiteralOpening} {start pos : Nat} {fragments : List Span} {closers : List Nat}
    {ending : Ending} (hpart : part = .content o start pos fragments closers ending) {base : Nat}
    (hpassed : Passes b o base pos) :
    (ending = .closed → ∃ f, fragments.getLast? = some f ∧ Closes b o f) ∧
      (ending ≠ .closed → ∀ f ∈ fragments,
        (f.start = start ∧ BreaksOff b o base f.stop) ∨ BreaksOff b o f.start f.stop) := by
  induction h generalizing o start pos fragments closers ending base with
  | done => cases hpart
  | past => cases hpart
  | literal => cases hpart
  | opens => cases hpart
  | leave => cases hpart
  | closes => cases hpart
  | text hm _ ih =>
    cases hpart
    exact ih (hsound.text hm) rfl (hpassed.tail hm)
  | @finish o start pos stop ending hm =>
    cases hpart
    obtain ⟨hle, hsize, -⟩ := stop_of_contentMove_finish hsound.2.1 hm
    have hstop : (Span.between start stop).stop = stop := by
      rw [Span.stop_between]
      have := hsound.1
      omega
    refine ⟨?_, ?_⟩
    · rintro rfl
      exact ⟨.between start stop, rfl, pos, hsound.1, by rwa [hstop]⟩
    · intro hending f hf
      obtain rfl := List.mem_singleton.mp hf
      obtain rfl := stop_eq_of_not_closed hm hending
      refine Or.inl ⟨rfl, ?_⟩
      rw [hstop]
      exact ⟨⟨stop, hpassed, Nat.le_refl _, fun i hlo hhi => by omega⟩, hsize⟩
  | @hole o start pos first code mid stop fragments closers ending _ _ _ _ hm hcode hmid _ _
      ihrest =>
    cases hpart
    have hin := entered_of_contentMove hm
    have hle := (hcode.layout hin.le_size.2).le
    have hbehind := Part.Sound.behind hin hsound.2.2.1 hle (hcode.isAt_stop rfl hmid) fragments closers
      ending
    have hnew : Passes b o (mid + closingBraces b o mid) (mid + closingBraces b o mid) := .refl
    obtain ⟨hclosed, hopen⟩ := ihrest hbehind rfl hnew
    refine ⟨?_, ?_⟩
    · intro hending
      obtain ⟨f, hlast, hf⟩ := hclosed hending
      refine ⟨f, ?_, hf⟩
      rw [List.getLast?_cons, hlast]
      rfl
    · intro hending f hf
      rcases List.mem_cons.mp hf with rfl | hf
      · exact Or.inl ⟨rfl, breaksOff_of_hole hpassed hsound.1 hm⟩
      · rcases hopen hending f hf with ⟨heq, hbreak⟩ | hbreak
        · exact Or.inr (heq ▸ hbreak)
        · exact Or.inr hbreak
  | lost hm =>
    cases hpart
    refine ⟨nofun, fun _ f hf => ?_⟩
    obtain rfl := List.mem_singleton.mp hf
    exact Or.inl ⟨rfl, breaksOff_of_hole hpassed hsound.1 hm⟩

/-! ## The last fragment -/

/-- How many quotes close a literal. -/
def LiteralOpening.closing (o : LiteralOpening) : Nat := if o.isRaw then o.quotes else 1

/-- What closes a literal is a run of quotes, long enough. -/
theorem quotes_of_contentMove {pos stop : Nat} (h : contentMove b o pos = .finish .closed stop) :
    pos + o.closing ≤ stop ∧ ∀ i, pos ≤ i → i < stop → b.isAt i '"' = true := by
  have hrun : ∀ i, b.isAt pos '"' = true → pos ≤ i → i < runEnd b '"' (pos + 1) →
      b.isAt i '"' = true := by
    intro i hfirst hlo hlt
    rcases Nat.lt_or_eq_of_le hlo with hlo | rfl
    · exact isAt_of_lt_runEnd hlo hlt
    · exact hfirst
  have hle : pos + 1 ≤ runEnd b '"' (pos + 1) := le_skipWhile _ _ _
  unfold contentMove rawMove quotedMove at h
  unfold LiteralOpening.closing
  grind

/-- The unit where the content of a raw literal begins is no quote. -/
theorem LiteralOpening.Opens.not_isAt_body (h : o.Opens b) (hraw : o.isRaw = true) :
    b.isAt o.body '"' = false := by
  rw [body, if_pos hraw, ← h.run]
  exact not_isAt_runEnd b '"' o.quoteAt

theorem LiteralOpening.closing_pos (o : LiteralOpening) : 0 < o.closing := by
  unfold closing
  split
  · next hraw => exact Nat.lt_of_lt_of_le (by decide) (isRaw_iff.mp hraw).1
  · exact Nat.one_pos

/-- The head of a stitched literal has the delimiters that the scan saw. -/
theorem head_scanned {l : ScannedLiteral} (hl : l ∈ (scan b).literals) {s : StitchedLiteral}
    (hs : s.fragments.toList = l.fragments.toList.filter fun f => 0 < f.len) {head : LiteralHead}
    (hhead : headOf .csharp b s = .ok head) :
    l.opening.start + head.openingLen = l.opening.body ∧ head.closingLen = l.opening.closing := by
  obtain ⟨pos, inner, nested, hm, hcontent⟩ :=
    (scans_to_size b).exists_content (Array.mem_toList_iff.mpr hl)
  obtain ⟨f, rest, more, hfragments, -, hstart, hstop⟩ := hcontent.exists_first rfl
  have hplaced := placed_of_codeMove hm
  have hagrees := (opens_of_opening? (opening?_of_codeMove hm)).headAgrees hstart hstop
  have hbody := hplaced.body
  rw [← hplaced.start] at hbody
  have hpos : 0 < f.len := by
    rw [Span.stop] at hstop
    omega
  have hfirst? : s.fragments.first? = some f := by
    rw [SpanSet.first?, ← Array.getElem?_toList, ← SpanSet.toList, hs, hfragments,
      List.filter_cons_of_pos (by simpa using hpos), List.getElem?_cons_zero]
  have hread : LiteralStyle.csharp.readHead (b.slice f) = .ok head := by
    rwa [headOf, hfirst?] at hhead
  have hok : ¬ (2 ≤ l.opening.dollars ∧ ¬ (3 ≤ l.opening.quotes ∧ l.opening.verbatim = false)) := by
    intro hbad
    rw [hagrees.error_iff.mpr hbad] at hread
    cases hread
  rw [hagrees.ok hok] at hread
  cases hread
  refine ⟨by simp only; omega, ?_⟩
  simp only [LiteralOpening.closing, LiteralOpening.isRaw_iff]

/-- A fragment that breaks off and still ends with the quotes of a closing
delimiter ends with an escaped quote, and the literal is not raw. -/
theorem BreaksOff.escapedQuote {base stop : Nat} (h : BreaksOff b o base stop)
    (hpos : 0 < o.closing) (hroom : base + o.closing ≤ stop)
    (hquotes : ∀ i, stop - o.closing ≤ i → i < stop → b.isAt i '"' = true) :
    o.isRaw = false ∧ EscapedQuote b o stop := by
  cases hraw : o.isRaw with
  | true =>
    rw [LiteralOpening.closing, if_pos hraw] at hpos hroom hquotes
    exact absurd hquotes (h.not_closing hraw hpos hroom)
  | false =>
    have hquote := hquotes (stop - 1) (by omega) (by omega)
    obtain ⟨pos, -, hlast⟩ := h.passes (by omega) hquote
    exact ⟨rfl, escapedQuote_of_past hraw hlast hquote⟩

/-- Quotes at the end of a literal that has content are not those that open it:
in a raw literal the unit where the content begins is none. -/
theorem LiteralOpening.Opens.room_of_quotes (h : o.Opens b) {stop : Nat} (hbeyond : o.body < stop)
    (hquotes : ∀ i, stop - o.closing ≤ i → i < stop → b.isAt i '"' = true) :
    o.body + o.closing ≤ stop := by
  by_contra hshort
  have hraw : o.isRaw = true := by
    by_contra hquoted
    rw [closing, if_neg hquoted] at hshort
    exact hshort hbeyond
  have hquote := hquotes o.body (by omega) hbeyond
  rw [h.not_isAt_body hraw] at hquote
  exact Bool.false_ne_true hquote

/-- A fragment that closes its literal holds the closing delimiter. -/
theorem Closes.endsWithClosing {f : Span} (h : Closes b o f) {head : LiteralHead}
    (hlen : head.closingLen = o.closing) : 0 < f.len ∧ endsWithClosing b head f = true := by
  obtain ⟨pos, hstart, hmove⟩ := h
  obtain ⟨hroom, hquotes⟩ := quotes_of_contentMove hmove
  have hclosing := o.closing_pos
  have hstop : f.start + f.len = f.stop := rfl
  have hlast := lt_size_of_isAt (hquotes (f.stop - 1) (by omega) (by omega))
  refine ⟨by omega, ?_⟩
  rw [endsWithClosing_iff (by omega), hlen]
  exact ⟨by omega, fun i hlo hhi => hquotes i (by omega) hhi⟩

/-- An escaped quote is taken for a closing delimiter of one quote. -/
theorem EscapedQuote.endsWithClosing {f : Span} (h : EscapedQuote b o f.stop) (hpos : 0 < f.len)
    (hraw : o.isRaw = false) {head : LiteralHead} (hlen : head.closingLen = o.closing) :
    endsWithClosing b head f = true := by
  have hsize := lt_size_of_isAt h.1
  rw [endsWithClosing_iff (by omega), hlen, LiteralOpening.closing, if_neg (by simp [hraw])]
  refine ⟨hpos, fun i hlo hhi => ?_⟩
  obtain rfl : i = f.stop - 1 := by omega
  exact h.1

/-- The last of the fragments that are not empty is the last of all if that is
not empty. -/
theorem getLast?_filter_len {fragments : List Span} {f : Span} (h : fragments.getLast? = some f)
    (hpos : 0 < f.len) : (fragments.filter fun f => 0 < f.len).getLast? = some f := by
  obtain ⟨init, rfl⟩ := List.getLast?_eq_some_iff.mp h
  rw [List.filter_append, List.filter_cons_of_pos (by simpa using hpos), List.filter_nil,
    List.getLast?_concat]

/-- **Whether the closing delimiter is taken off**, for every literal of a scan.
Let its stitched fragments be those of the scan that are not empty, let its head
be accepted, and let the last fragment reach beyond the opening delimiter. Then
the closing delimiter is taken off that fragment exactly if the scan closed the
literal, or if the literal is not raw and its last unit is an escaped quote. -/
theorem endsWithClosing_scanned (b : Buffer) {l : ScannedLiteral} (hl : l ∈ (scan b).literals)
    {s : StitchedLiteral} (hs : s.fragments.toList = l.fragments.toList.filter fun f => 0 < f.len)
    {head : LiteralHead} (hhead : headOf .csharp b s = .ok head) {last : Span}
    (hlast : s.fragments.toList.getLast? = some last)
    (hbeyond : l.opening.start + head.openingLen < last.stop) :
    (endsWithClosing b head last = true ↔
        l.ending = .closed ∨ l.opening.isRaw = false ∧ EscapedQuote b l.opening last.stop) ∧
      contentOf b head s.fragments.toList
        = contentCut head (endsWithClosing b head last) s.fragments.toList := by
  refine ⟨?_, contentOf_eq_contentCut b head hlast⟩
  obtain ⟨pos, inner, nested, hm, hcontent⟩ :=
    (scans_to_size b).exists_content (Array.mem_toList_iff.mpr hl)
  have hopens := opens_of_opening? (opening?_of_codeMove hm)
  have hclosing := l.opening.closing_pos
  obtain ⟨hlead, hlen⟩ := head_scanned hl hs hhead
  rw [hlead] at hbeyond
  obtain ⟨hclosed, hopen⟩ := hcontent.fragments_end
    (.literal (placed_of_codeMove hm) l.fragments.toList l.closers.toList l.ending) rfl .refl
  obtain ⟨hmem, hpos⟩ : last ∈ l.fragments.toList ∧ 0 < last.len := by
    have hmem := List.mem_of_getLast? hlast
    rwa [hs, List.mem_filter, decide_eq_true_eq] at hmem
  constructor
  · intro hends
    refine or_iff_not_imp_left.mpr fun hending => ?_
    rcases hopen hending last hmem with ⟨-, hbreak⟩ | hbreak
    · obtain ⟨-, hquotes⟩ := (endsWithClosing_iff hbreak.le_size).mp hends
      rw [hlen] at hquotes
      exact hbreak.escapedQuote hclosing (hopens.room_of_quotes hbeyond hquotes) hquotes
    · obtain ⟨hle, hquotes⟩ := (endsWithClosing_iff hbreak.le_size).mp hends
      rw [hlen] at hle hquotes
      exact hbreak.escapedQuote hclosing (Nat.add_le_add_left hle _) hquotes
  · rintro (hending | ⟨hraw, hquote⟩)
    · obtain ⟨f, hf, hcloses⟩ := hclosed hending
      obtain ⟨hsome, hends⟩ := hcloses.endsWithClosing hlen
      rw [hs, getLast?_filter_len hf hsome] at hlast
      rwa [← Option.some.inj hlast]
    · exact hquote.endsWithClosing hpos hraw hlen

/-- A literal that is closed right behind an escaped quote. -/
theorem endsWithClosing_scanned_closed :
    ∃ (b : Buffer) (l : ScannedLiteral) (s : StitchedLiteral) (head : LiteralHead) (last : Span),
      b = .ofText "\"a\\\"\"" ∧ l ∈ (scan b).literals ∧ s ∈ literalsIn b (classify b) b.full ∧
      headOf .csharp b s = .ok head ∧ last = .between 0 5 ∧
      (endsWithClosing b head last = true ↔
        l.ending = .closed ∨ l.opening.isRaw = false ∧ EscapedQuote b l.opening last.stop) := by
  have hread : headOf .csharp (.ofText "\"a\\\"\"") ⟨.single ⟨0, 5⟩, none⟩ = .ok ⟨.plain, 1, 1⟩ := by
    decide +kernel
  refine ⟨_, ⟨⟨0, 0, false, 0, 1⟩, #[⟨0, 5⟩], #[], .closed, 5⟩, _, _, .between 0 5, rfl,
    by decide +kernel, by decide +kernel, hread, rfl, ?_⟩
  exact (endsWithClosing_scanned _ (by decide +kernel) (by decide +kernel) hread (by decide +kernel)
    (by decide +kernel)).1

/-- **A literal that is not closed can lose its tail.** The text is a quote, a
letter, a backslash and a quote, and the scan comes to its end inside the
literal. The last quote is taken off nevertheless. -/
theorem endsWithClosing_escaped_tail :
    ∃ (b : Buffer) (l : ScannedLiteral) (s : StitchedLiteral) (head : LiteralHead),
      b = .ofText "\"a\\\"" ∧ l ∈ (scan b).literals ∧ s ∈ literalsIn b (classify b) b.full ∧
      s.fragments.toList = l.fragments.toList ∧ headOf .csharp b s = .ok head ∧
      s.fragments.toList.getLast? = some (.between 0 4) ∧ l.ending = .endOfText ∧
      contentOf b head s.fragments.toList = .ok [.between 1 3] := by
  refine ⟨.ofText "\"a\\\"", ⟨⟨0, 0, false, 0, 1⟩, #[⟨0, 4⟩], #[], .endOfText, 4⟩,
    ⟨.single ⟨0, 4⟩, none⟩, ⟨.plain, 1, 1⟩, rfl, ?_⟩
  decide +kernel

end Host

end EmbeddedSql
