import EmbeddedSql.Proofs.Offsets
import Mathlib.Data.List.TakeWhile

/-!
# Spelling characters in a literal

A character can be written in a literal in several ways: as itself, doubled, as
a backslash and a letter, by the number of its code unit, by its own number, or
as two escapes that spell a surrogate pair. `Spells` says which of them a kind
of literal admits. It is written down from the side of the writer: it says what
digits stand for a number and which letter stands for a character, where the
decoder reads numbers off digits and characters off letters.

Decoding undoes every choice (`exists_reads`): it takes the characters one by
one off the spellings, whichever spelling stands next to which. The reason is
that a spelling is read in the same way whatever follows it (`Spells.readsAs`). For
a spelling of several units that is clear from its length; an escaped character
of one unit is never a high surrogate, so no escape behind it is drawn in.
-/

namespace EmbeddedSql

open Utf16

/-! ## The units of a character -/

namespace Utf16

theorem toNat_bounds (c : Char) : c.toNat < 0xD800 ∨ 0xDFFF < c.toNat ∧ c.toNat < 0x110000 := c.valid

/-- A character of one unit: the unit is no surrogate and stands for it. -/
theorem single_of_encodeChar {c : Char} {u : CodeUnit} (h : encodeChar c = [u]) :
    single u = c ∧ isHigh u = false ∧ isLow u = false := by
  unfold encodeChar at h
  split at h
  · next hlt =>
    obtain rfl : UInt16.ofNat c.toNat = u := List.singleton_inj.mp h
    have hvalue : (UInt16.ofNat c.toNat).toNat = c.toNat := UInt16.toNat_ofNat_of_lt' hlt
    have hbounds := toNat_bounds c
    have hhigh : isHigh (UInt16.ofNat c.toNat) = false := by
      rw [isHigh, hvalue, Bool.and_eq_false_iff, decide_eq_false_iff_not, decide_eq_false_iff_not]
      omega
    have hlow : isLow (UInt16.ofNat c.toNat) = false := by
      rw [isLow, hvalue, Bool.and_eq_false_iff, decide_eq_false_iff_not, decide_eq_false_iff_not]
      omega
    refine ⟨?_, hhigh, hlow⟩
    rw [single, hhigh, hlow, hvalue, Char.ofNat_toNat]
    rfl
  · simp at h

/-- A character of two units: they are a surrogate pair that stands for it. -/
theorem pair_of_encodeChar {c : Char} {high low : CodeUnit} (h : encodeChar c = [high, low]) :
    pair high low = c ∧ isHigh high = true ∧ isLow low = true := by
  unfold encodeChar at h
  split at h
  · simp at h
  · next hge =>
    obtain ⟨rfl, rfl⟩ : UInt16.ofNat (0xD800 + (c.toNat - 0x10000) / 0x400) = high ∧
        UInt16.ofNat (0xDC00 + (c.toNat - 0x10000) % 0x400) = low := by
      simpa only [List.cons.injEq, and_true] using h
    have hbounds := toNat_bounds c
    have hhigh : (UInt16.ofNat (0xD800 + (c.toNat - 0x10000) / 0x400)).toNat =
        0xD800 + (c.toNat - 0x10000) / 0x400 := UInt16.toNat_ofNat_of_lt' (by
      show 0xD800 + (c.toNat - 0x10000) / 0x400 < 65536
      omega)
    have hlow : (UInt16.ofNat (0xDC00 + (c.toNat - 0x10000) % 0x400)).toNat =
        0xDC00 + (c.toNat - 0x10000) % 0x400 := UInt16.toNat_ofNat_of_lt' (by
      show 0xDC00 + (c.toNat - 0x10000) % 0x400 < 65536
      omega)
    refine ⟨?_, ?_, ?_⟩
    · have hvalue : 0x10000 + (0xD800 + (c.toNat - 0x10000) / 0x400 - 0xD800) * 0x400 +
          (0xDC00 + (c.toNat - 0x10000) % 0x400 - 0xDC00) = c.toNat := by omega
      rw [pair, hhigh, hlow, hvalue, Char.ofNat_toNat]
    · rw [isHigh, hhigh, Bool.and_eq_true, decide_eq_true_eq, decide_eq_true_eq]
      omega
    · rw [isLow, hlow, Bool.and_eq_true, decide_eq_true_eq, decide_eq_true_eq]
      omega

theorem encodeChar_cases (c : Char) :
    (∃ u, encodeChar c = [u]) ∨ ∃ high low, encodeChar c = [high, low] := by
  unfold encodeChar
  split
  · exact Or.inl ⟨_, rfl⟩
  · exact Or.inr ⟨_, _, rfl⟩

end Utf16

/-! ## Numbers in digits -/

/-- A unit writes a hexadecimal digit, in either case. -/
def WritesDigit (u : CodeUnit) (d : Nat) : Prop :=
  d < 16 ∧ (u = ascii d.digitChar ∨ u = ascii d.digitChar.toUpper)

instance (u : CodeUnit) (d : Nat) : Decidable (WritesDigit u d) := inferInstanceAs (Decidable (_ ∧ _))

/-- **Units write a number** in hexadecimal digits, the last one counting
least. -/
inductive WritesHex : List CodeUnit → Nat → Prop
  | nil : WritesHex [] 0
  | snoc {units : List CodeUnit} {n : Nat} {u : CodeUnit} {d : Nat} :
      WritesHex units n → WritesDigit u d → WritesHex (units ++ [u]) (16 * n + d)

theorem WritesDigit.hexDigit?_eq {u : CodeUnit} {d : Nat} (h : WritesDigit u d) :
    hexDigit? u = some d := by
  have hall : ∀ d < 16, hexDigit? (ascii d.digitChar) = some d ∧
      hexDigit? (ascii d.digitChar.toUpper) = some d := by decide
  obtain ⟨hd, rfl | rfl⟩ := h
  · exact (hall d hd).1
  · exact (hall d hd).2

namespace WritesHex

theorem hexValue?_eq {units : List CodeUnit} {n : Nat} (h : WritesHex units n) :
    hexValue? units = some n := by
  induction h with
  | nil => rfl
  | @snoc units n u d _ hu ih =>
    rw [hexValue?] at ih ⊢
    rw [List.foldlM_append, ih, Option.bind_eq_bind, Option.bind_some, List.foldlM_cons,
      hu.hexDigit?_eq, Nat.mul_comm]
    rfl

theorem isSome_hexDigit? {units : List CodeUnit} {n : Nat} (h : WritesHex units n) :
    ∀ u ∈ units, (hexDigit? u).isSome = true := by
  induction h with
  | nil => simp
  | snoc _ hu ih =>
    intro v hv
    rcases List.mem_append.mp hv with hv | hv
    · exact ih v hv
    · rw [List.mem_singleton.mp hv, hu.hexDigit?_eq]
      rfl

/-- Digits of a fixed number are read off what they begin. -/
theorem fixedHex?_append {digits : List CodeUnit} {n : Nat} (h : WritesHex digits n)
    (rest : List CodeUnit) : fixedHex? digits.length (digits ++ rest) = some n := by
  rw [fixedHex?_eq_some, List.take_left, List.length_append]
  exact ⟨Nat.le_add_right _ _, h.hexValue?_eq⟩

/-- Four digits are as many as are taken, even if more follow. -/
theorem hexRun_append {digits : List CodeUnit} {n : Nat} (h : WritesHex digits n)
    (hlen : digits.length = 4) (rest : List CodeUnit) : hexRun (digits ++ rest) = digits := by
  rw [hexRun, ← hlen, List.take_left, List.takeWhile_eq_self_iff]
  exact h.isSome_hexDigit?

end WritesHex

/-! ## Spellings -/

namespace LiteralKind

/-- A character that is written twice: the quote in a verbatim literal, and
braces in an interpolated one. -/
def IsDoubled (kind : LiteralKind) (c : Char) : Prop :=
  kind.isRaw = false ∧ (kind.isVerbatim = true ∧ c = '"' ∨
    kind.isInterpolated = true ∧ (c = '\x7b' ∨ c = '\x7d'))

instance (kind : LiteralKind) (c : Char) : Decidable (kind.IsDoubled c) :=
  inferInstanceAs (Decidable (_ ∧ _))

/-- A backslash has a meaning of its own. -/
def Escapes (kind : LiteralKind) : Prop := kind.isRaw = false ∧ kind.isVerbatim = false

end LiteralKind

/-- The letter that stands for a character behind a backslash. -/
def escapeLetter? : Char → Option Char
  | '\'' => some '\''
  | '"' => some '"'
  | '\\' => some '\\'
  | '\x00' => some '0'
  | '\x07' => some 'a'
  | '\x08' => some 'b'
  | '\x0C' => some 'f'
  | '\n' => some 'n'
  | '\r' => some 'r'
  | '\t' => some 't'
  | '\x0B' => some 'v'
  | _ => none

theorem simpleEscape?_of_escapeLetter? {c l : Char} (h : escapeLetter? c = some l) :
    simpleEscape? (ascii l) = some c := by
  unfold escapeLetter? at h
  split at h <;> cases h <;> decide

/-- **A code unit as an escape**: `\u` or `\x`, and four digits. -/
inductive UnitEscape (u : CodeUnit) : List CodeUnit → Prop
  | short {digits : List CodeUnit} : digits.length = 4 → WritesHex digits u.toNat →
      UnitEscape u (ascii '\\' :: ascii 'u' :: digits)
  | hex {digits : List CodeUnit} : digits.length = 4 → WritesHex digits u.toNat →
      UnitEscape u (ascii '\\' :: ascii 'x' :: digits)

/-- **The ways to write a character** in a literal of a kind. -/
inductive Spells (kind : LiteralKind) (c : Char) : List CodeUnit → Prop
  /-- As itself. -/
  | own : ¬ kind.IsDoubled c → (kind.Escapes → c ≠ '\\') → Spells kind c (encodeChar c)
  /-- Twice. -/
  | doubled : kind.IsDoubled c → Spells kind c (encodeChar c ++ encodeChar c)
  /-- By a letter. -/
  | letter {l : Char} : kind.Escapes → escapeLetter? c = some l →
      Spells kind c [ascii '\\', ascii l]
  /-- By the number of its only unit. -/
  | unit {u : CodeUnit} {units : List CodeUnit} : kind.Escapes → encodeChar c = [u] →
      UnitEscape u units → Spells kind c units
  /-- By the numbers of its two units. -/
  | pair {high low : CodeUnit} {us vs : List CodeUnit} : kind.Escapes → encodeChar c = [high, low] →
      UnitEscape high us → UnitEscape low vs → Spells kind c (us ++ vs)
  /-- By its own number, in eight digits. -/
  | scalar {digits : List CodeUnit} : kind.Escapes → digits.length = 8 → WritesHex digits c.toNat →
      Spells kind c (ascii '\\' :: ascii 'U' :: digits)

/-! ## Reading a spelling -/

/-- What is read at the start of `units`, whatever follows them, is all of them,
and it stands for `c`. -/
def ReadsAs (kind : LiteralKind) (c : Char) (units : List CodeUnit) : Prop :=
  ∃ u us, units = u :: us ∧ ∀ rest, ∃ escape,
    nextPiece? kind u (us ++ rest) = some ⟨c, units.length, escape⟩

theorem UnitEscape.body {u : CodeUnit} {units : List CodeUnit} (h : UnitEscape u units) :
    ∃ body, units = ascii '\\' :: body ∧ body.length = 5 ∧
      ∀ rest, EscapeBody (body ++ rest) (.unit u) 5 := by
  have hunit : UInt16.ofNat u.toNat = u := UInt16.ofNat_toNat
  cases h with
  | @short digits hlen hwrites =>
    refine ⟨_, rfl, by rw [List.length_cons, hlen], fun rest => ?_⟩
    have hfixed := hwrites.fixedHex?_append rest
    rw [hlen] at hfixed
    have hbody := EscapeBody.unit hfixed
    rwa [hunit] at hbody
  | @hex digits hlen hwrites =>
    refine ⟨_, rfl, by rw [List.length_cons, hlen], fun rest => ?_⟩
    have hrun := hwrites.hexRun_append hlen rest
    have hbody : EscapeBody (ascii 'x' :: (digits ++ rest)) (.unit (UInt16.ofNat u.toNat))
        ((hexRun (digits ++ rest)).length + 1) := by
      refine EscapeBody.run ?_ ?_
      · rw [hrun]
        exact List.ne_nil_of_length_eq_add_one hlen
      · rw [hrun]
        exact hwrites.hexValue?_eq
    rwa [hunit, hrun, hlen] at hbody

/-- A backslash hands over to the reader of escapes. -/
theorem nextPiece?_backslash {kind : LiteralKind} (h : kind.Escapes) (rest : List CodeUnit) :
    nextPiece? kind (ascii '\\') rest = escapePiece? rest := by
  have hdoubles : kind.doubles (ascii '\\') = false := by
    rw [LiteralKind.doubles, show (ascii '\\' == ascii '\x7b') = false by decide,
      show (ascii '\\' == ascii '\x7d') = false by decide,
      show (ascii '\\' == ascii '"') = false by decide]
    simp
  rw [nextPiece?, hdoubles, LiteralKind.hasEscapes, h.1, h.2]
  simp

/-- A unit is that of an ASCII character if it spells this character. -/
theorem eq_ascii_iff {c d : Char} {u : CodeUnit} (h : encodeChar c = [u])
    (hd : encodeChar d = [ascii d]) : u = ascii d ↔ c = d := by
  constructor
  · rintro rfl
    rw [← (single_of_encodeChar h).1, (single_of_encodeChar hd).1]
  · rintro rfl
    exact List.singleton_inj.mp (h.symm.trans hd)

/-- The decoder takes for doubled what the kind doubles. -/
theorem doubles_iff {kind : LiteralKind} {c : Char} {u : CodeUnit} (h : encodeChar c = [u]) :
    kind.doubles u = true ↔ kind.IsDoubled c := by
  simp only [LiteralKind.doubles, LiteralKind.IsDoubled, Bool.and_eq_true, Bool.or_eq_true,
    Bool.not_eq_true', beq_iff_eq, eq_ascii_iff h (show encodeChar '\x7b' = [ascii '\x7b'] by decide),
    eq_ascii_iff h (show encodeChar '\x7d' = [ascii '\x7d'] by decide),
    eq_ascii_iff h (show encodeChar '"' = [ascii '"'] by decide)]
  exact and_congr_right fun _ => Or.comm

theorem escapes_iff {kind : LiteralKind} : kind.hasEscapes = true ↔ kind.Escapes := by
  simp only [LiteralKind.hasEscapes, LiteralKind.Escapes, Bool.and_eq_true, Bool.not_eq_true']

/-- A unit that is neither doubled nor a backslash stands for itself. -/
theorem nextPiece?_own {kind : LiteralKind} {u : CodeUnit} {rest : List CodeUnit}
    (hdoubles : kind.doubles u = false) (hescapes : kind.Escapes → u ≠ ascii '\\') :
    nextPiece? kind u rest = some (ownPiece u rest) := by
  have hback : ¬ (kind.hasEscapes && u == ascii '\\') = true := by
    rw [Bool.and_eq_true, escapes_iff, beq_iff_eq]
    exact fun h => hescapes h.1 h.2
  rw [nextPiece?, hdoubles, Bool.false_and, if_neg Bool.false_ne_true, if_neg hback]

/-- A surrogate is never mistaken for a delimiter. -/
theorem ne_ascii_of_isHigh {u : CodeUnit} {d : Char} (h : isHigh u = true)
    (hd : isHigh (ascii d) = false) : u ≠ ascii d := by
  rintro rfl
  exact Bool.false_ne_true (hd.symm.trans h)

theorem doubles_of_isHigh {kind : LiteralKind} {u : CodeUnit} (h : isHigh u = true) :
    kind.doubles u = false := by
  rw [LiteralKind.doubles, beq_false_of_ne (ne_ascii_of_isHigh h (by decide)),
    beq_false_of_ne (ne_ascii_of_isHigh h (by decide)),
    beq_false_of_ne (ne_ascii_of_isHigh h (by decide))]
  simp

/-- **A spelling is read as its character**, whatever follows it. -/
theorem Spells.readsAs {kind : LiteralKind} {c : Char} {units : List CodeUnit}
    (h : Spells kind c units) : ReadsAs kind c units := by
  cases h with
  | own hdoubled hescapes =>
    rcases encodeChar_cases c with ⟨u, hu⟩ | ⟨high, low, hpair⟩
    · obtain ⟨hsingle, hhigh, -⟩ := single_of_encodeChar hu
      have hbackslash : encodeChar '\\' = [ascii '\\'] := by decide
      refine ⟨u, [], hu, fun rest => ⟨false, ?_⟩⟩
      rw [nextPiece?_own (Bool.eq_false_iff.mpr (mt (doubles_iff hu).mp hdoubled))
        fun h heq => hescapes h ((eq_ascii_iff hu hbackslash).mp heq), List.nil_append, hu]
      cases rest with
      | nil => rw [ownPiece, hsingle]; rfl
      | cons v rest => rw [ownPiece, hhigh, hsingle]; rfl
    · obtain ⟨heq, hhigh, hlow⟩ := pair_of_encodeChar hpair
      refine ⟨high, [low], hpair, fun rest => ⟨false, ?_⟩⟩
      rw [nextPiece?_own (doubles_of_isHigh hhigh) fun _ => ne_ascii_of_isHigh hhigh (by decide),
        List.singleton_append, ownPiece, hhigh, hlow, heq, hpair]
      rfl
  | doubled hdoubled =>
    have hone : ∃ u, encodeChar c = [u] := by
      rcases hdoubled.2 with ⟨-, rfl⟩ | ⟨-, rfl | rfl⟩
      · exact ⟨ascii '"', by decide⟩
      · exact ⟨ascii '\x7b', by decide⟩
      · exact ⟨ascii '\x7d', by decide⟩
    obtain ⟨u, hu⟩ := hone
    rw [hu]
    refine ⟨u, [u], rfl, fun rest => ⟨true, ?_⟩⟩
    rw [nextPiece?, (doubles_iff hu).mpr hdoubled, (single_of_encodeChar hu).1]
    simp
  | @letter l hescapes hl =>
    refine ⟨_, _, rfl, fun rest => ⟨true, ?_⟩⟩
    rw [nextPiece?_backslash hescapes, escapePiece?_eq_some]
    exact Or.inl ⟨c, 1, .letter (simpleEscape?_of_escapeLetter? hl), rfl⟩
  | @unit u units hescapes hu hunit =>
    obtain ⟨hsingle, hhigh, -⟩ := single_of_encodeChar hu
    obtain ⟨body, rfl, hlen, hbody⟩ := hunit.body
    refine ⟨_, _, rfl, fun rest => ⟨true, ?_⟩⟩
    rw [nextPiece?_backslash hescapes, escapePiece?_eq_some, List.length_cons, hlen]
    refine Or.inr (Or.inr ⟨u, 5, hbody rest, fun h => ?_, by rw [hsingle]⟩)
    rw [hhigh] at h
    exact absurd h Bool.false_ne_true
  | @pair high low us vs hescapes hpair hus hvs =>
    obtain ⟨heq, hhigh, hlow⟩ := pair_of_encodeChar hpair
    obtain ⟨first, rfl, hfirst, hfirstBody⟩ := hus.body
    obtain ⟨second, rfl, hsecond, hsecondBody⟩ := hvs.body
    refine ⟨ascii '\\', first ++ ascii '\\' :: second, rfl, fun rest => ⟨true, ?_⟩⟩
    rw [nextPiece?_backslash hescapes, escapePiece?_eq_some, List.length_append, List.length_cons,
      List.length_cons, hfirst, hsecond, List.append_assoc]
    refine Or.inr (Or.inl ⟨high, 5, low, 6, hfirstBody _, hhigh, ?_, by rw [heq]⟩)
    rw [← hfirst, List.drop_left, lowEscape?_eq_some]
    exact ⟨second ++ rest, 5, rfl, hsecondBody rest, hlow, rfl⟩
  | @scalar digits hescapes hlen hwrites =>
    refine ⟨_, _, rfl, fun rest => ⟨true, ?_⟩⟩
    have hfixed := hwrites.fixedHex?_append rest
    rw [hlen] at hfixed
    have hbody := EscapeBody.scalar hfixed c.valid
    rw [Char.ofNat_toNat] at hbody
    rw [nextPiece?_backslash hescapes, escapePiece?_eq_some, List.length_cons, List.length_cons, hlen]
    exact Or.inl ⟨c, 9, hbody, rfl⟩

/-! ## Reading many spellings -/

/-- **Spellings side by side are read one by one**, each as one piece. -/
theorem exists_reads {kind : LiteralKind} {spellings : List (Char × List CodeUnit)}
    (h : ∀ s ∈ spellings, Spells kind s.1 s.2) :
    ∃ pieces, Reads kind (spellings.flatMap Prod.snd) pieces ∧
      pieces.map Piece.char = spellings.map Prod.fst ∧
      pieces.map Piece.width = spellings.map (·.2.length) := by
  induction spellings with
  | nil => exact ⟨[], .nil, rfl, rfl⟩
  | cons s spellings ih =>
    obtain ⟨hs, hrest⟩ := List.forall_mem_cons.mp h
    obtain ⟨pieces, hreads, hchars, hwidths⟩ := ih hrest
    obtain ⟨u, us, hunits, hnext⟩ := hs.readsAs
    obtain ⟨escape, hpiece⟩ := hnext (spellings.flatMap Prod.snd)
    refine ⟨⟨s.1, s.2.length, escape⟩ :: pieces, ?_, ?_, ?_⟩
    · rw [List.flatMap_cons, hunits]
      refine .cons (hunits ▸ hpiece) ?_
      show Reads kind ((us ++ _).drop ((u :: us).length - 1)) pieces
      rwa [List.length_cons, Nat.add_sub_cancel, List.drop_left]
    · rw [List.map_cons, List.map_cons, hchars]
    · rw [List.map_cons, List.map_cons, hwidths]

/-- **Decoding undoes spelling.** However the characters of a text are spelled,
each on its own and in any way that the kind of literal admits, the spellings
one after the other decode to the text, and every character comes from where
its spelling starts. -/
theorem Decoded.ofUnits_spelled {kind : LiteralKind} {spellings : List (Char × List CodeUnit)}
    (h : ∀ s ∈ spellings, Spells kind s.1 s.2) :
    ∃ d, ofUnits kind (spellings.flatMap Prod.snd) = .ok d ∧ d.chars = spellings.map Prod.fst ∧
      ∀ i ≤ spellings.length,
        d.sourceOffset i = ((spellings.take i).flatMap Prod.snd).length := by
  obtain ⟨pieces, hreads, hchars, hwidths⟩ := exists_reads h
  refine ⟨ofPieces pieces, ofUnits_eq_ok.mpr ⟨pieces, hreads, rfl⟩, hchars, fun i hi => ?_⟩
  have hlen : pieces.length = spellings.length := by
    simpa only [List.length_map] using congrArg List.length hchars
  rw [sourceOffset_ofPieces hreads.one_le_width (hlen ▸ hi), totalWidth, List.map_take, hwidths,
    ← List.map_take, List.length_flatMap]

/-- A doubled brace, an escape in front of a letter that could be a digit of it,
and a surrogate pair of two different escapes, with digits of both cases. -/
theorem Decoded.ofUnits_spelled_mixed :
    ∃ spellings : List (Char × List CodeUnit),
      spellings.flatMap Prod.snd = encode "\x7b\x7b\\x0061b\\n\\uD83D\\xde00".toList ∧
      spellings.map Prod.fst = ['\x7b', 'a', 'b', '\n', '😀'] ∧
      (∀ s ∈ spellings, Spells .interpolated s.1 s.2) ∧
      ∃ d, ofUnits .interpolated (spellings.flatMap Prod.snd) = .ok d ∧
        d.chars = spellings.map Prod.fst ∧
        ∀ i ≤ spellings.length,
          d.sourceOffset i = ((spellings.take i).flatMap Prod.snd).length := by
  have hfour : ∀ {a b c d : CodeUnit} (i j k l : Nat), WritesDigit a i → WritesDigit b j →
      WritesDigit c k → WritesDigit d l →
      WritesHex [a, b, c, d] (16 * (16 * (16 * (16 * 0 + i) + j) + k) + l) :=
    fun _ _ _ _ ha hb hc hd => .snoc (.snoc (.snoc (.snoc .nil ha) hb) hc) hd
  have hescapes : LiteralKind.interpolated.Escapes := ⟨rfl, rfl⟩
  have hall : ∀ s ∈ [('\x7b', encode "\x7b\x7b".toList), ('a', encode "\\x0061".toList),
      ('b', encode "b".toList), ('\n', encode "\\n".toList),
      ('😀', encode "\\uD83D".toList ++ encode "\\xde00".toList)], Spells .interpolated s.1 s.2 := by
    simp only [List.forall_mem_cons]
    refine ⟨.doubled (by decide), ?_, .own (by decide) (fun _ => by decide), .letter hescapes rfl,
      ?_, by simp⟩
    · exact .unit hescapes rfl
        (.hex rfl (hfour 0 0 6 1 (by decide) (by decide) (by decide) (by decide)))
    · exact .pair hescapes rfl
        (.short rfl (hfour 0xD 8 3 0xD (by decide) (by decide) (by decide) (by decide)))
        (.hex rfl (hfour 0xD 0xE 0 0 (by decide) (by decide) (by decide) (by decide)))
  exact ⟨_, by decide, rfl, hall, ofUnits_spelled hall⟩

end EmbeddedSql
