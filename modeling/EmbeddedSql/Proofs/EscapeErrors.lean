import EmbeddedSql.Proofs.Spelling

/-!
# Where decoding fails

Decoding a content fails at a backslash that starts no escape sequence, and the
error says which one. A content may hold many backslashes of which only some
start a piece: one may be the second half of an escaped backslash, and one may
have been looked at before it was reached, behind an escaped high surrogate.
The one reported is the first that a reading comes to and cannot read.

That can be said without a reading of the whole. The units before the backslash
are a content that decodes on its own, and behind it stands no body of an
escape. For this to be enough, cutting a content at such a backslash must not
change how the units before it are read, in either direction. From the whole to
the cut this is the locality of pieces; from the cut to the whole it is
`nextPiece?_append`: a backslash is no digit, no second brace and no low
surrogate, and if no body follows it, it does not spell a low surrogate either.

What may follow a backslash is stated from the side of the writer, as in the
spellings of characters (`BodyStarts`).
-/

namespace EmbeddedSql

open Utf16

/-! ## Bodies of escapes -/

/-- **What stands behind the backslash of an escape sequence.** -/
inductive ValidBody : List CodeUnit → Prop
  /-- A letter that stands for a character. -/
  | letter {c l : Char} : escapeLetter? c = some l → ValidBody [ascii l]
  /-- Four digits after `u`. -/
  | unit {digits : List CodeUnit} {n : Nat} : WritesHex digits n → digits.length = 4 →
      ValidBody (ascii 'u' :: digits)
  /-- Eight digits after `U`, which write the number of a character. -/
  | scalar {digits : List CodeUnit} {n : Nat} : WritesHex digits n → digits.length = 8 →
      n.isValidChar → ValidBody (ascii 'U' :: digits)
  /-- One to four digits after `x`. -/
  | run {digits : List CodeUnit} {n : Nat} : WritesHex digits n → 1 ≤ digits.length →
      digits.length ≤ 4 → ValidBody (ascii 'x' :: digits)

/-- Some body of an escape sequence stands at the start of `units`. -/
def BodyStarts (units : List CodeUnit) : Prop := ∃ body rest, units = body ++ rest ∧ ValidBody body

theorem writesDigit_of_hexDigit? {u : CodeUnit} {d : Nat} (h : hexDigit? u = some d) :
    WritesDigit u d := by
  have hlt := hexDigit?_lt h
  have hwritten : ∀ d < 16,
      WritesDigit (UInt16.ofNat (if d < 10 then 0x30 + d else 0x41 + (d - 10))) d ∧
      WritesDigit (UInt16.ofNat (if d < 10 then 0x30 + d else 0x61 + (d - 10))) d := by decide
  have heq : u.toNat = (if d < 10 then 0x30 + d else 0x41 + (d - 10)) ∨
      u.toNat = (if d < 10 then 0x30 + d else 0x61 + (d - 10)) := by
    simp only [hexDigit?] at h
    split at h
    · cases h; left; split <;> omega
    · split at h
      · cases h; left; split <;> omega
      · split at h
        · cases h; right; split <;> omega
        · simp at h
  rw [← UInt16.ofNat_toNat (x := u)]
  rcases heq with heq | heq
  · rw [heq]; exact (hwritten d hlt).1
  · rw [heq]; exact (hwritten d hlt).2

/-- Digits that are read as a number write it. -/
theorem writesHex_of_hexValue? {units : List CodeUnit} {n : Nat} (h : hexValue? units = some n) :
    WritesHex units n := by
  induction units using List.reverseRecOn generalizing n with
  | nil =>
    obtain rfl : 0 = n := by simpa [hexValue?] using h
    exact .nil
  | append_singleton units u ih =>
    rw [hexValue?, List.foldlM_append] at h
    obtain ⟨m, hm, hlast⟩ := Option.bind_eq_some_iff.mp h
    rw [List.foldlM_cons] at hlast
    obtain ⟨k, hk, hkn⟩ := Option.bind_eq_some_iff.mp hlast
    obtain ⟨d, hd, rfl⟩ := Option.map_eq_some_iff.mp hk
    obtain rfl : m * 16 + d = n := by simpa using hkn
    rw [Nat.mul_comm]
    exact .snoc (ih hm) (writesDigit_of_hexDigit? hd)

theorem escapeLetter?_of_simpleEscape? {u : CodeUnit} {c : Char} (h : simpleEscape? u = some c) :
    ∃ l, escapeLetter? c = some l ∧ u = ascii l := by
  obtain ⟨⟨l, c'⟩, hmem, hsome⟩ := List.exists_of_findSome?_eq_some h
  have hall : ∀ e ∈ [('\'', '\''), ('"', '"'), ('\\', '\\'), ('0', '\x00'), ('a', '\x07'),
      ('b', '\x08'), ('f', '\x0C'), ('n', '\n'), ('r', '\r'), ('t', '\t'), ('v', '\x0B')],
      escapeLetter? e.2 = some e.1 := by decide
  obtain ⟨hu, rfl⟩ : (u == ascii l) = true ∧ c' = c := by
    simpa only [Option.ite_none_right_eq_some, Option.some.injEq] using hsome
  exact ⟨l, hall _ hmem, eq_of_beq hu⟩

theorem hexRun_isSome (units : List CodeUnit) :
    ∀ u ∈ hexRun units, (hexDigit? u).isSome = true := by
  intro u hu
  exact List.mem_takeWhile_imp (p := fun d => (hexDigit? d).isSome) hu

/-- Digits are a number. -/
theorem exists_hexValue? {units : List CodeUnit} (h : ∀ u ∈ units, (hexDigit? u).isSome = true) :
    ∃ n, hexValue? units = some n := by
  induction units using List.reverseRecOn with
  | nil => exact ⟨0, rfl⟩
  | append_singleton units u ih =>
    obtain ⟨n, hn⟩ := ih fun v hv => h v (List.mem_append_left _ hv)
    obtain ⟨d, hd⟩ := Option.isSome_iff_exists.mp (h u (by simp))
    exact ⟨n * 16 + d, by
      rw [hexValue?] at hn ⊢
      rw [List.foldlM_append, hn, Option.bind_eq_bind, Option.bind_some, List.foldlM_cons, hd]
      rfl⟩

/-- **The reader of escapes reads every body, and nothing else.** -/
theorem escapeBody?_eq_none_iff {units : List CodeUnit} :
    escapeBody? units = none ↔ ¬ BodyStarts units := by
  rw [← not_iff_not, not_not, ← Ne, Option.ne_none_iff_exists']
  constructor
  · rintro ⟨⟨v, n⟩, h⟩
    cases escapeBody?_eq_some.mp h with
    | @letter u body c hc =>
      obtain ⟨l, hl, rfl⟩ := escapeLetter?_of_simpleEscape? hc
      exact ⟨_, body, rfl, .letter hl⟩
    | @unit body n hn =>
      obtain ⟨hlen, hval⟩ := fixedHex?_eq_some.mp hn
      exact ⟨_, body.drop 4, by rw [List.cons_append, List.take_append_drop],
        .unit (writesHex_of_hexValue? hval) (List.length_take_of_le hlen)⟩
    | @scalar body n hn hvalid =>
      obtain ⟨hlen, hval⟩ := fixedHex?_eq_some.mp hn
      exact ⟨_, body.drop 8, by rw [List.cons_append, List.take_append_drop],
        .scalar (writesHex_of_hexValue? hval) (List.length_take_of_le hlen) hvalid⟩
    | @run body n hne hval =>
      obtain ⟨rest, hrest⟩ : hexRun body <+: body :=
        (List.takeWhile_prefix _).trans (List.take_prefix 4 body)
      exact ⟨_, rest, by rw [List.cons_append, hrest], .run (writesHex_of_hexValue? hval)
        (List.length_pos_iff.mpr hne) (length_hexRun_le_four body)⟩
  · rintro ⟨body, rest, rfl, hbody⟩
    cases hbody with
    | letter hl => exact ⟨_, escapeBody?_eq_some.mpr (.letter (simpleEscape?_of_escapeLetter? hl))⟩
    | unit hwrites hlen =>
      exact ⟨_, escapeBody?_eq_some.mpr (.unit (hlen ▸ hwrites.fixedHex?_append rest))⟩
    | scalar hwrites hlen hvalid =>
      exact ⟨_, escapeBody?_eq_some.mpr (.scalar (hlen ▸ hwrites.fixedHex?_append rest) hvalid)⟩
    | @run digits n hwrites hpos hlen =>
      have hne : hexRun (digits ++ rest) ≠ [] := by
        obtain ⟨d, ds, rfl⟩ := List.exists_cons_of_length_pos hpos
        rw [hexRun, List.cons_append, List.take_succ_cons,
          List.takeWhile_cons_of_pos (p := fun d => (hexDigit? d).isSome)
            (hwrites.isSome_hexDigit? d List.mem_cons_self)]
        exact List.cons_ne_nil _ _
      obtain ⟨m, hm⟩ := exists_hexValue? (hexRun_isSome (digits ++ rest))
      exact ⟨_, escapeBody?_eq_some.mpr (.run hne hm)⟩

/-! ## Cutting at a backslash -/

theorem hexDigit?_backslash : hexDigit? (ascii '\\') = none := by decide

theorem hexRun_append_backslash (units tail : List CodeUnit) :
    hexRun (units ++ ascii '\\' :: tail) = hexRun units := by
  unfold hexRun
  rw [List.take_append, List.takeWhile_append]
  split
  · next hall =>
    have hend : ((ascii '\\' :: tail).take (4 - units.length)).takeWhile
        (fun d => (hexDigit? d).isSome) = [] := by
      cases 4 - units.length with
      | zero => rfl
      | succ n =>
        rw [List.take_succ_cons, List.takeWhile_cons_of_neg]
        rw [hexDigit?_backslash]
        exact Bool.false_ne_true
    rw [hend, List.append_nil, (List.takeWhile_prefix _).eq_of_length hall]
  · rfl

theorem fixedHex?_append_backslash (m : Nat) (units tail : List CodeUnit) :
    fixedHex? m (units ++ ascii '\\' :: tail) = fixedHex? m units := by
  apply Option.ext
  intro n
  rw [fixedHex?_eq_some, fixedHex?_eq_some]
  constructor
  · rintro ⟨hlen, hval⟩
    -- A backslash among the digits would be one of them.
    have hm : m ≤ units.length := by
      refine Nat.le_of_not_lt fun hlt => ?_
      have hmem : ascii '\\' ∈ (units ++ ascii '\\' :: tail).take m := by
        obtain ⟨k, hk⟩ := Nat.exists_eq_add_of_lt hlt
        rw [hk, Nat.add_assoc, List.take_length_add_append, List.take_succ_cons]
        exact List.mem_append_right _ List.mem_cons_self
      have hsome := (writesHex_of_hexValue? hval).isSome_hexDigit? _ hmem
      rw [hexDigit?_backslash] at hsome
      exact Bool.false_ne_true hsome
    rw [List.take_append_of_le_length hm] at hval
    exact ⟨hm, hval⟩
  · rintro ⟨hm, hval⟩
    rw [List.take_append_of_le_length hm, List.length_append]
    exact ⟨Nat.le_add_right_of_le hm, hval⟩

/-- A body of an escape does not go on past a backslash, unless it is one. -/
theorem escapeBody?_append_backslash {units : List CodeUnit} (hne : units ≠ [])
    (tail : List CodeUnit) : escapeBody? (units ++ ascii '\\' :: tail) = escapeBody? units := by
  obtain ⟨u, rest, rfl⟩ := List.exists_cons_of_ne_nil hne
  have hrun := hexRun_append_backslash rest tail
  unfold hexRun at hrun
  simp only [List.cons_append, escapeBody?, fixedHex?_append_backslash, hrun]

/-- Behind a backslash without a body no low surrogate is found. -/
theorem lowEscape?_append_backslash (units : List CodeUnit) {tail : List CodeUnit}
    (htail : escapeBody? tail = none) :
    lowEscape? (units ++ ascii '\\' :: tail) = lowEscape? units := by
  cases units with
  | nil => simp [lowEscape?, htail]
  | cons u rest =>
    cases rest with
    | nil =>
      have hescaped : escapeBody? (ascii '\\' :: tail) = some (.char '\\', 1) := rfl
      simp [lowEscape?, hescaped, show escapeBody? [] = none from rfl]
    | cons v rest =>
      rw [List.cons_append, lowEscape?, lowEscape?,
        escapeBody?_append_backslash (List.cons_ne_nil v rest)]

theorem escapePiece?_append_backslash {units tail : List CodeUnit} {p : Piece}
    (h : escapePiece? units = some p) (htail : escapeBody? tail = none) :
    escapePiece? (units ++ ascii '\\' :: tail) = some p := by
  obtain ⟨⟨v, n⟩, hbody, hp⟩ := Option.map_eq_some_iff.mp h
  have hn := (escapeBody?_eq_some.mp hbody).bounds.2
  have hne : units ≠ [] := by
    rintro rfl
    simp [escapeBody?] at hbody
  have hdrop : (units ++ ascii '\\' :: tail).drop n = units.drop n ++ ascii '\\' :: tail :=
    List.drop_append_of_le_length hn
  rw [escapePiece?, escapeBody?_append_backslash hne, hbody, Option.map_some, ← hp]
  cases v with
  | char c => rfl
  | unit u => simp only [hdrop, lowEscape?_append_backslash _ htail]

theorem ownPiece_append_backslash (u : CodeUnit) (units tail : List CodeUnit) :
    ownPiece u (units ++ ascii '\\' :: tail) = ownPiece u units := by
  cases units with
  | nil => simp [ownPiece, show isLow (ascii '\\') = false by decide]
  | cons v rest => rfl

/-- **A piece before a backslash without a body stays what it is** when the
backslash and all that follows it are put back. -/
theorem nextPiece?_append {kind : LiteralKind} {u : CodeUnit} {units tail : List CodeUnit}
    {p : Piece} (h : nextPiece? kind u units = some p) (htail : escapeBody? tail = none) :
    nextPiece? kind u (units ++ ascii '\\' :: tail) = some p := by
  have hdoubled : (kind.doubles u && (units ++ ascii '\\' :: tail).head? == some u) =
      (kind.doubles u && units.head? == some u) := by
    cases units with
    | cons v rest => rfl
    | nil =>
      by_cases hu : ascii '\\' = u
      · subst hu
        simp [LiteralKind.doubles, show ascii '\\' ≠ ascii '\x7b' by decide,
          show ascii '\\' ≠ ascii '\x7d' by decide, show ascii '\\' ≠ ascii '"' by decide]
      · simp [hu]
  unfold nextPiece? at h ⊢
  rw [hdoubled]
  split at h
  · next hcond => rw [if_pos hcond, h]
  · next hcond =>
    rw [if_neg hcond]
    split at h
    · next hescapes => rw [if_pos hescapes, escapePiece?_append_backslash h htail]
    · next hescapes => rw [if_neg hescapes, ownPiece_append_backslash, h]

/-! ## The first backslash that cannot be read -/

/-- Only a backslash can fail to start a piece, and only for want of a body. -/
theorem nextPiece?_eq_none {kind : LiteralKind} {u : CodeUnit} {rest : List CodeUnit} :
    nextPiece? kind u rest = none ↔ kind.Escapes ∧ u = ascii '\\' ∧ escapeBody? rest = none := by
  have hpiece : escapePiece? rest = none ↔ escapeBody? rest = none := Option.map_eq_none_iff
  constructor
  · intro h
    unfold nextPiece? at h
    split at h
    · simp at h
    · split at h
      · next hescapes =>
        rw [Bool.and_eq_true, escapes_iff, beq_iff_eq] at hescapes
        exact ⟨hescapes.1, hescapes.2, hpiece.mp h⟩
      · simp at h
  · rintro ⟨hescapes, rfl, hbody⟩
    rw [nextPiece?_backslash hescapes, hpiece.mpr hbody]

/-- An error names a backslash without a body, and what stands before it can be
read. -/
theorem exists_of_readPieces_eq_error {kind : LiteralKind} {pos : Nat} {units : List CodeUnit}
    {e : LiteralError} (h : readPieces kind pos units = .error e) :
    ∃ front tail pieces, units = front ++ ascii '\\' :: tail ∧ kind.Escapes ∧
      e = .malformedEscape (pos + front.length) ∧ Reads kind front pieces ∧
      escapeBody? tail = none := by
  fun_induction readPieces kind pos units with
  | case1 => simp at h
  | case2 pos u rest hnone =>
    cases h
    obtain ⟨hescapes, rfl, hbody⟩ := nextPiece?_eq_none.mp hnone
    exact ⟨[], rest, [], rfl, hescapes, rfl, .nil, hbody⟩
  | case3 pos u rest p hp ih =>
    cases hrest : readPieces kind (pos + p.width) (rest.drop (p.width - 1)) with
    | ok qs => rw [hrest] at h; simp [Except.map] at h
    | error e' =>
      rw [hrest] at h
      obtain rfl : e' = e := by simpa [Except.map] using h
      obtain ⟨front, tail, pieces, hunits, hescapes, rfl, hreads, hbody⟩ := ih hrest
      obtain ⟨hone, hwidth, -⟩ := nextPiece?_bounds hp
      have hsplit : rest = rest.take (p.width - 1) ++ (front ++ ascii '\\' :: tail) := by
        rw [← hunits, List.take_append_drop]
      have hlen : (rest.take (p.width - 1)).length = p.width - 1 :=
        List.length_take_of_le (by omega)
      refine ⟨u :: (rest.take (p.width - 1) ++ front), tail, p :: pieces, ?_, hescapes, ?_, ?_,
        hbody⟩
      · rw [List.cons_append, List.append_assoc, ← hsplit]
      · rw [List.length_cons, List.length_append, hlen]
        congr 1
        omega
      · have hfront :
            rest.take (p.width - 1) ++ front = rest.take (p.width - 1 + front.length) := by
          rw [List.take_add, hunits, List.take_left]
        refine .cons ?_ ?_
        · rw [hfront]
          exact nextPiece?_take hp (by omega)
        · rwa [List.drop_append_of_le_length (by omega), List.drop_of_length_le (by omega),
            List.nil_append]

/-- A backslash without a body, behind a content that can be read, is an error. -/
theorem readPieces_append_backslash {kind : LiteralKind} (hescapes : kind.Escapes)
    {front tail : List CodeUnit} {pieces : List Piece} (h : Reads kind front pieces)
    (htail : escapeBody? tail = none) (pos : Nat) :
    readPieces kind pos (front ++ ascii '\\' :: tail) =
      .error (.malformedEscape (pos + front.length)) := by
  induction h generalizing pos with
  | nil =>
    rw [List.nil_append, readPieces, nextPiece?_eq_none.mpr ⟨hescapes, rfl, htail⟩]
    rfl
  | @cons u rest p pieces hp _ ih =>
    have hwidth := nextPiece?_bounds hp
    rw [List.cons_append, readPieces, nextPiece?_append hp htail]
    simp only
    rw [List.drop_append_of_le_length (by omega), ih (pos + p.width), List.length_drop,
      List.length_cons]
    simp only [Except.map]
    congr 2
    omega

namespace Decoded

theorem exists_ofUnits_eq_ok {kind : LiteralKind} {units : List CodeUnit} :
    (∃ d, ofUnits kind units = .ok d) ↔ ∃ pieces, Reads kind units pieces := by
  constructor
  · rintro ⟨d, hd⟩
    obtain ⟨pieces, hreads, -⟩ := ofUnits_eq_ok.mp hd
    exact ⟨pieces, hreads⟩
  · rintro ⟨pieces, hreads⟩
    exact ⟨ofPieces pieces, ofUnits_eq_ok.mpr ⟨pieces, hreads, rfl⟩⟩

theorem ofUnits_eq_error {kind : LiteralKind} {units : List CodeUnit} {e : LiteralError} :
    ofUnits kind units = .error e ↔ readPieces kind 0 units = .error e := by
  unfold ofUnits
  cases readPieces kind 0 units with
  | error e' => simp [Except.map]
  | ok pieces => simp [Except.map]

/-- **Decoding fails at the first backslash that starts no escape sequence, and
nowhere else.** An error is reported for an offset exactly if backslashes have a
meaning in the literal, a backslash stands there, the units before it decode on
their own, and no body of an escape sequence stands behind it. -/
theorem ofUnits_eq_error_iff (kind : LiteralKind) (units : List CodeUnit) :
    (∀ offset, ofUnits kind units = .error (.malformedEscape offset) ↔
      kind.isRaw = false ∧ kind.isVerbatim = false ∧ offset < units.length ∧
        units[offset]? = some (ascii '\\') ∧
        (∃ d, ofUnits kind (units.take offset) = .ok d) ∧
        ¬ BodyStarts (units.drop (offset + 1))) ∧
    ∀ e, ofUnits kind units = .error e → ∃ offset, e = .malformedEscape offset := by
  refine ⟨fun offset => ?_, fun e he => ?_⟩
  · rw [ofUnits_eq_error, exists_ofUnits_eq_ok, ← escapeBody?_eq_none_iff]
    constructor
    · intro h
      obtain ⟨front, tail, pieces, rfl, hescapes, heq, hreads, hbody⟩ :=
        exists_of_readPieces_eq_error h
      obtain rfl : offset = front.length := by simpa using heq
      refine ⟨hescapes.1, hescapes.2, by simp, by simp, ⟨pieces, by rwa [List.take_left]⟩, ?_⟩
      rw [← List.drop_drop, List.drop_left, List.drop_one, List.tail_cons]
      exact hbody
    · rintro ⟨hraw, hverbatim, hlt, hback, ⟨pieces, hreads⟩, hbody⟩
      have hunits : units = units.take offset ++ ascii '\\' :: units.drop (offset + 1) := by
        rw [List.getElem?_eq_getElem hlt, Option.some.injEq] at hback
        rw [← hback, List.getElem_cons_drop, List.take_append_drop]
      have h := readPieces_append_backslash ⟨hraw, hverbatim⟩ hreads hbody 0
      rwa [← hunits, List.length_take_of_le (Nat.le_of_lt hlt), Nat.zero_add] at h
  · obtain ⟨front, -, -, -, -, rfl, -⟩ := exists_of_readPieces_eq_error (ofUnits_eq_error.mp he)
    exact ⟨_, rfl⟩

end Decoded

end EmbeddedSql
