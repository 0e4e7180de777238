import EmbeddedSql.Proofs.Tiling
import EmbeddedSql.Sql.ByteLexer

/-!
# A scan over bytes cuts between characters

The lexer over bytes answers with lengths that nothing ties to characters: it
steps over the bytes of a name or a comment one at a time, and could stop at
any of them. That it never stops inside a character rests on one property of
UTF-8. The bytes of a character outside ASCII are all outside ASCII, so a scan
that looks for ASCII delimiters passes all of them or none (`pass_char`). The
one place where a scan counts a character as a whole, after a backslash, reads
the first byte of that character and gets its width right.

Every rule on bytes therefore answers as the rule on characters does, measured
in bytes (`byteRules_eq`), and the lexer over bytes finds the tokens of the
lexer (`byteTokenize?_eq`).
-/

namespace EmbeddedSql

namespace Sql

/-! ## The bytes of a character -/

theorem toNat_toUInt8 {c : Char} (h : c.toNat < 128) : c.toUInt8.toNat = c.toNat := by
  show c.val.toUInt8.toNat = c.toNat
  rw [UInt32.toNat_toUInt8]
  exact Nat.mod_eq_of_lt (Nat.lt_trans h (by decide))

theorem toUInt8_inj {c : Char} (hc : c.toNat < 128) {a : Char} (ha : a.toNat < 128) :
    c.toUInt8 = a.toUInt8 ↔ c = a := by
  rw [← UInt8.toNat_inj, toNat_toUInt8 ha, toNat_toUInt8 hc]
  exact Char.toNat_inj

theorem ne_toUInt8_of_foreign {b : UInt8} (hb : 128 ≤ b.toNat) {a : Char} (ha : a.toNat < 128) :
    b ≠ a.toUInt8 := by
  rintro rfl
  rw [toNat_toUInt8 ha] at hb
  omega

/-- An ASCII character is one byte. -/
theorem utf8EncodeChar_ascii {c : Char} (h : c.toNat < 128) :
    String.utf8EncodeChar c = [c.toUInt8] := by
  have hval : c.val.toNat ≤ 127 := Nat.le_of_lt_succ h
  unfold String.utf8EncodeChar
  rw [if_pos hval]
  rfl

theorem utf8Size_ascii {c : Char} (h : c.toNat < 128) : c.utf8Size = 1 := by
  rw [← String.length_utf8EncodeChar, utf8EncodeChar_ascii h, List.length_singleton]

/-- No byte of any other character is one of ASCII. -/
theorem utf8EncodeChar_foreign {c : Char} (h : 128 ≤ c.toNat) :
    ∀ b ∈ String.utf8EncodeChar c, 128 ≤ b.toNat := by
  have hval : ¬ c.val.toNat ≤ 127 := Nat.not_le_of_lt h
  have hofNat : ∀ n, (UInt8.ofNat n).toNat = n % 256 := fun n => UInt8.toNat_ofNat'
  intro b hb
  unfold String.utf8EncodeChar at hb
  rw [if_neg hval] at hb
  grind

/-- The first byte of a character says how many there are. -/
theorem charBytes?_utf8EncodeChar (c : Char) (rest : List UInt8) :
    charBytes? (String.utf8EncodeChar c ++ rest) = some c.utf8Size := by
  have hofNat : ∀ n, (UInt8.ofNat n).toNat = n % 256 := fun n => UInt8.toNat_ofNat'
  unfold String.utf8EncodeChar Char.utf8Size
  simp only [UInt32.le_iff_toNat_le]
  grind [charBytes?, UInt8.lt_iff_toNat_lt]

/-! ## The bytes of a text -/

theorem bytesOf_cons (c : Char) (cs : List Char) :
    bytesOf (c :: cs) = String.utf8EncodeChar c ++ bytesOf cs := List.flatMap_cons

theorem bytesOf_ascii {c : Char} (h : c.toNat < 128) (cs : List Char) :
    bytesOf (c :: cs) = c.toUInt8 :: bytesOf cs := by
  rw [bytesOf_cons, utf8EncodeChar_ascii h, List.singleton_append]

theorem bytesOf_foreign {c : Char} (h : 128 ≤ c.toNat) (cs : List Char) :
    ∃ b rest, bytesOf (c :: cs) = b :: rest ∧ 128 ≤ b.toNat := by
  obtain ⟨b, bs, hbs⟩ := List.exists_cons_of_ne_nil (String.utf8EncodeChar_ne_nil (c := c))
  refine ⟨b, bs ++ bytesOf cs, by rw [bytesOf_cons, hbs, List.cons_append], ?_⟩
  exact utf8EncodeChar_foreign h b (hbs ▸ List.mem_cons_self)

/-- A text starts with an ASCII character if its bytes do. -/
theorem head?_bytesOf {a : Char} (ha : a.toNat < 128) (cs : List Char) :
    (bytesOf cs).head? = some a.toUInt8 ↔ cs.head? = some a := by
  cases cs with
  | nil => simp [bytesOf]
  | cons c cs =>
    rw [List.head?_cons, Option.some_inj]
    by_cases hc : c.toNat < 128
    · rw [bytesOf_ascii hc, List.head?_cons, Option.some_inj, toUInt8_inj hc ha]
    · obtain ⟨b, rest, hbytes, hb⟩ := bytesOf_foreign (Nat.le_of_not_lt hc) cs
      rw [hbytes, List.head?_cons, Option.some_inj]
      refine iff_of_false (ne_toUInt8_of_foreign hb ha) ?_
      rintro rfl
      exact hc ha

/-! ## Scans

A scan that passes every foreign byte passes a foreign character as a whole. -/

theorem pass_foreign {scan : List UInt8 → Option Nat}
    (hscan : ∀ b rest, 128 ≤ b.toNat → scan (b :: rest) = (scan rest).map (1 + ·))
    {bytes : List UInt8} (h : ∀ b ∈ bytes, 128 ≤ b.toNat) (rest : List UInt8) :
    scan (bytes ++ rest) = (scan rest).map (bytes.length + ·) := by
  induction bytes with
  | nil => simp
  | cons b bytes ih =>
    rw [List.cons_append, hscan b _ (h b List.mem_cons_self),
      ih fun x hx => h x (List.mem_cons_of_mem b hx), Option.map_map]
    refine congrArg (fun f => Option.map f _) (funext fun n => ?_)
    show 1 + (bytes.length + n) = (b :: bytes).length + n
    rw [List.length_cons]
    omega

/-- **A scan passes a character** if it passes its byte, should it have only one. -/
theorem pass_char (scan : List UInt8 → Option Nat)
    (hscan : ∀ b rest, 128 ≤ b.toNat → scan (b :: rest) = (scan rest).map (1 + ·))
    {c : Char} {cs : List Char}
    (hascii : c.toNat < 128 → scan (c.toUInt8 :: bytesOf cs) = (scan (bytesOf cs)).map (1 + ·)) :
    scan (bytesOf (c :: cs)) = (scan (bytesOf cs)).map (c.utf8Size + ·) := by
  by_cases hc : c.toNat < 128
  · rw [bytesOf_ascii hc, utf8Size_ascii hc, hascii hc]
  · rw [bytesOf_cons, ← String.length_utf8EncodeChar]
    exact pass_foreign hscan (utf8EncodeChar_foreign (Nat.le_of_not_lt hc)) _

theorem utf8Length_take_succ (c : Char) (cs : List Char) (n : Nat) :
    utf8Length ((c :: cs).take (1 + n)) = c.utf8Size + utf8Length (cs.take n) := by
  rw [Nat.add_comm, List.take_succ_cons, utf8Length]

theorem utf8Length_take_two (c d : Char) (cs : List Char) (n : Nat) :
    utf8Length ((c :: d :: cs).take (2 + n)) = c.utf8Size + d.utf8Size + utf8Length (cs.take n) := by
  rw [show 2 + n = 1 + (1 + n) by omega, utf8Length_take_succ, utf8Length_take_succ, Nat.add_assoc]

/-- Bytes up to an ASCII one are characters up to an ASCII one. -/
theorem takeWhile_bytesOf {a : Char} (ha : a.toNat < 128) (cs : List Char) :
    ((bytesOf cs).takeWhile (· != a.toUInt8)).length = utf8Length (cs.takeWhile (· != a)) := by
  have hstep : ∀ (b : UInt8) (rest : List UInt8), b ≠ a.toUInt8 →
      some ((b :: rest).takeWhile (· != a.toUInt8)).length
        = (some (rest.takeWhile (· != a.toUInt8)).length).map (1 + ·) := by
    intro b rest hb
    rw [List.takeWhile_cons_of_pos (by simpa using hb), List.length_cons, Option.map_some, Nat.add_comm]
  induction cs with
  | nil => rfl
  | cons c cs ih =>
    by_cases hc : c = a
    · subst hc
      rw [bytesOf_ascii ha, List.takeWhile_cons_of_neg (by simp), List.takeWhile_cons_of_neg (by simp)]
      rfl
    · rw [List.takeWhile_cons_of_pos (by simpa using hc), utf8Length, ← ih]
      refine Option.some.inj
        (pass_char (fun bytes => some (bytes.takeWhile (· != a.toUInt8)).length) ?_ ?_)
      · intro b rest hb
        exact hstep b rest (ne_toUInt8_of_foreign hb ha)
      · intro hascii
        exact hstep _ _ (mt (toUInt8_inj hascii ha).mp hc)

/-! ### Block comments -/

theorem blockCommentBytes_pass {depth : Nat} {b : UInt8} {rest : List UInt8}
    (hopen : ¬(b = '/'.toUInt8 ∧ rest.head? = some '*'.toUInt8))
    (hclose : ¬(b = '*'.toUInt8 ∧ rest.head? = some '/'.toUInt8)) :
    blockCommentBytes depth (b :: rest) = 1 + blockCommentBytes depth rest := by
  cases rest with
  | nil => rfl
  | cons d rest =>
    rw [List.head?_cons, Option.some_inj] at hopen hclose
    rw [blockCommentBytes, if_neg hopen, if_neg hclose]

theorem blockCommentBytes_pass_char {depth : Nat} {c : Char} {cs : List Char}
    (hopen : ¬(c = '/' ∧ cs.head? = some '*')) (hclose : ¬(c = '*' ∧ cs.head? = some '/')) :
    blockCommentBytes depth (bytesOf (c :: cs))
      = c.utf8Size + blockCommentBytes depth (bytesOf cs) := by
  refine Option.some.inj (pass_char (fun bytes => some (blockCommentBytes depth bytes)) ?_ ?_)
  · intro b rest hb
    rw [blockCommentBytes_pass (fun h => ne_toUInt8_of_foreign hb (by decide) h.1)
      (fun h => ne_toUInt8_of_foreign hb (by decide) h.1)]
    rfl
  · intro hc
    rw [blockCommentBytes_pass
      (by rwa [toUInt8_inj hc (by decide), head?_bytesOf (by decide)])
      (by rwa [toUInt8_inj hc (by decide), head?_bytesOf (by decide)])]
    rfl

theorem blockCommentBytes_bytesOf (depth : Nat) (cs : List Char) :
    blockCommentBytes depth (bytesOf cs) = utf8Length (cs.take (blockCommentLen depth cs)) := by
  fun_induction blockCommentLen depth cs with
  | case1 => rfl
  | case2 depth c =>
    rw [blockCommentBytes_pass_char (by simp) (by simp)]
    rfl
  | case3 depth c d rest hopen ih =>
    obtain ⟨rfl, rfl⟩ := hopen
    rw [bytesOf_ascii (by decide), bytesOf_ascii (by decide), blockCommentBytes, if_pos ⟨rfl, rfl⟩,
      ih, utf8Length_take_two]
    rfl
  | case4 depth c d rest _ hclose hdepth =>
    obtain ⟨rfl, rfl⟩ := hclose
    rw [bytesOf_ascii (by decide), bytesOf_ascii (by decide), blockCommentBytes, if_neg (by decide),
      if_pos ⟨rfl, rfl⟩, if_pos hdepth]
    rfl
  | case5 depth c d rest _ hclose hdepth ih =>
    obtain ⟨rfl, rfl⟩ := hclose
    rw [bytesOf_ascii (by decide), bytesOf_ascii (by decide), blockCommentBytes, if_neg (by decide),
      if_pos ⟨rfl, rfl⟩, if_neg hdepth, ih, utf8Length_take_two]
    rfl
  | case6 depth c d rest hopen hclose ih =>
    rw [blockCommentBytes_pass_char (by simpa using hopen) (by simpa using hclose), ih,
      utf8Length_take_succ]

/-! ### Quoted text -/

theorem quotedBytes?_pass_char {quote : Char} (hquote : quote.toNat < 128) {backslash : Bool}
    {c : Char} {cs : List Char} (hescape : ¬(backslash ∧ c = '\\')) (hclose : c ≠ quote) :
    quotedBytes? quote.toUInt8 backslash (bytesOf (c :: cs))
      = (quotedBytes? quote.toUInt8 backslash (bytesOf cs)).map (c.utf8Size + ·) := by
  refine pass_char _ ?_ ?_
  · intro b rest hb
    rw [quotedBytes?, if_neg (fun h => ne_toUInt8_of_foreign hb (by decide) h.2),
      if_neg (ne_toUInt8_of_foreign hb hquote)]
  · intro hc
    rw [quotedBytes?, if_neg (by rwa [toUInt8_inj hc (by decide)]),
      if_neg (mt (toUInt8_inj hc hquote).mp hclose)]

theorem quotedBytes?_quote {quote : Char} (hquote : quote.toNat < 128) {backslash : Bool}
    (hescape : ¬(backslash ∧ quote = '\\')) (cs : List Char) :
    quotedBytes? quote.toUInt8 backslash (bytesOf (quote :: cs))
      = if cs.head? = some quote
        then (quotedBytes? quote.toUInt8 backslash ((bytesOf cs).drop 1)).map (2 + ·) else some 1 := by
  rw [bytesOf_ascii hquote, quotedBytes?, if_neg (by rwa [toUInt8_inj hquote (by decide)]), if_pos rfl]
  simp only [head?_bytesOf hquote]

/-- A character after a backslash is passed by its first byte. -/
theorem quotedBytes?_escape {quote : UInt8} {backslash : Bool} (hbackslash : backslash)
    (d : Char) (cs : List Char) :
    quotedBytes? quote backslash (bytesOf ('\\' :: d :: cs))
      = (quotedBytes? quote backslash (bytesOf cs)).map (1 + d.utf8Size + ·) := by
  have hwidth : charBytes? (bytesOf (d :: cs)) = some d.utf8Size := by
    rw [bytesOf_cons, charBytes?_utf8EncodeChar]
  have hdrop : (bytesOf (d :: cs)).drop d.utf8Size = bytesOf cs := by
    rw [bytesOf_cons, ← String.length_utf8EncodeChar, List.drop_left]
  rw [bytesOf_ascii (by decide), quotedBytes?, if_pos ⟨hbackslash, rfl⟩, hwidth]
  show (quotedBytes? quote backslash ((bytesOf (d :: cs)).drop d.utf8Size)).map _ = _
  rw [hdrop]

theorem quotedBytes?_bytesOf {quote : Char} (hquote : quote.toNat < 128) (backslash : Bool)
    (cs : List Char) :
    quotedBytes? quote.toUInt8 backslash (bytesOf cs)
      = some (utf8Length (cs.take (quotedLen quote backslash cs))) := by
  have hempty : quotedBytes? quote.toUInt8 backslash (bytesOf []) = some 0 := by
    rw [bytesOf, List.flatMap_nil, quotedBytes?]
  fun_induction quotedLen quote backslash cs with
  | case1 => exact hempty
  | case2 c =>
    -- A last character is passed, whatever it is.
    by_cases hescape : backslash ∧ c = '\\'
    · obtain ⟨hbackslash, rfl⟩ := hescape
      rw [bytesOf_ascii (by decide), quotedBytes?, if_pos ⟨hbackslash, rfl⟩]
      show (quotedBytes? quote.toUInt8 backslash (bytesOf [])).map (1 + 0 + ·) = _
      rw [hempty]
      rfl
    · by_cases hclose : c = quote
      · subst hclose
        rw [quotedBytes?_quote hquote hescape, if_neg (by simp)]
        exact congrArg some (utf8Size_ascii hquote).symm
      · rw [quotedBytes?_pass_char hquote hescape hclose, hempty]
        rfl
  | case3 c d rest hescape ih =>
    obtain ⟨hbackslash, rfl⟩ := hescape
    rw [quotedBytes?_escape hbackslash, ih, utf8Length_take_two]
    rfl
  | case4 rest hescape ih =>
    rw [quotedBytes?_quote hquote hescape, if_pos List.head?_cons, bytesOf_ascii hquote,
      List.drop_one, List.tail_cons, ih, utf8Length_take_two, utf8Size_ascii hquote]
    rfl
  | case5 d rest hdouble hescape =>
    rw [quotedBytes?_quote hquote hescape, if_neg (by simpa using hdouble)]
    exact congrArg some (utf8Size_ascii hquote).symm
  | case6 c d rest hescape hclose ih =>
    rw [quotedBytes?_pass_char hquote hescape hclose, ih, utf8Length_take_succ]
    rfl

/-! ### Operators -/

section Marks

variable {marks : List Char} (hmarks : marks.all (·.toNat < 128) = true)
include hmarks

theorem toNat_lt_of_mem_marks {c : Char} (hc : c ∈ marks) : c.toNat < 128 :=
  of_decide_eq_true (List.all_eq_true.mp hmarks c hc)

theorem any_toUInt8_ascii {c : Char} (hc : c.toNat < 128) :
    marks.any (·.toUInt8 == c.toUInt8) = marks.contains c := by
  rw [Bool.eq_iff_iff, List.any_eq_true, List.contains_iff_mem]
  constructor
  · rintro ⟨a, ha, heq⟩
    rwa [← (toUInt8_inj (toNat_lt_of_mem_marks hmarks ha) hc).mp (beq_iff_eq.mp heq)]
  · intro h
    exact ⟨c, h, beq_self_eq_true _⟩

theorem any_toUInt8_foreign {b : UInt8} (hb : 128 ≤ b.toNat) :
    marks.any (·.toUInt8 == b) = false := by
  rw [List.any_eq_false]
  intro a ha heq
  exact ne_toUInt8_of_foreign hb (toNat_lt_of_mem_marks hmarks ha) (beq_iff_eq.mp heq).symm

theorem contains_foreign {c : Char} (hc : 128 ≤ c.toNat) : marks.contains c = false := by
  rw [Bool.eq_false_iff, ne_eq, List.contains_iff_mem]
  intro h
  exact absurd (toNat_lt_of_mem_marks hmarks h) (Nat.not_lt_of_le hc)

end Marks

theorem isOperatorByte_ascii {c : Char} (hc : c.toNat < 128) :
    isOperatorByte c.toUInt8 = isOperatorChar c := any_toUInt8_ascii (by decide) hc

theorem isOperatorByte_foreign {b : UInt8} (hb : 128 ≤ b.toNat) : isOperatorByte b = false :=
  any_toUInt8_foreign (by decide) hb

theorem isOperatorChar_foreign {c : Char} (hc : 128 ≤ c.toNat) : isOperatorChar c = false :=
  contains_foreign (by decide) hc

theorem operatorBytes_bytesOf (cs : List Char) :
    operatorBytes (bytesOf cs) = utf8Length (cs.take (operatorLen cs)) := by
  induction cs with
  | nil => rfl
  | cons c cs ih =>
    by_cases hc : c.toNat < 128
    · have hgoes : (isOperatorByte c.toUInt8 ∧
          ¬(c.toUInt8 = '-'.toUInt8 ∧ (bytesOf cs).head? = some '-'.toUInt8) ∧
          ¬(c.toUInt8 = '/'.toUInt8 ∧ (bytesOf cs).head? = some '*'.toUInt8)) ↔
          (isOperatorChar c && !startsComment (c :: cs)) = true := by
        rw [isOperatorByte_ascii hc, toUInt8_inj hc (by decide), toUInt8_inj hc (by decide),
          head?_bytesOf (by decide), head?_bytesOf (by decide), Bool.and_eq_true, Bool.not_eq_true',
          ← Bool.not_eq_true, startsComment_cons, not_or]
      rw [bytesOf_ascii hc, operatorBytes, operatorLen]
      by_cases hgo : (isOperatorChar c && !startsComment (c :: cs)) = true
      · rw [if_pos (hgoes.mpr hgo), if_pos hgo, utf8Length_take_succ, utf8Size_ascii hc, ih]
      · rw [if_neg (mt hgoes.mp hgo), if_neg hgo]
        rfl
    · have hforeign := Nat.le_of_not_lt hc
      obtain ⟨b, rest, hbytes, hb⟩ := bytesOf_foreign hforeign cs
      rw [hbytes, operatorBytes, operatorLen, isOperatorByte_foreign hb,
        isOperatorChar_foreign hforeign]
      simp [utf8Length]

/-! ## The rules -/

/-- **A rule on bytes answers as a rule on characters**, if it does so on an
ASCII character and neither applies to another one. -/
theorem onBytes_eq_measured {byteRule : UInt8 → List UInt8 → Option (Option Lexeme)}
    {rule : Char → List Char → Option Lexeme}
    (hascii : ∀ c cs, c.toNat < 128 → byteRule c.toUInt8 (bytesOf cs) = measured rule c cs)
    (hbyte : ∀ b rest, 128 ≤ b.toNat → byteRule b rest = some none)
    (hchar : ∀ c cs, 128 ≤ c.toNat → rule c cs = none) : onBytes byteRule = measured rule := by
  funext c cs
  by_cases hc : c.toNat < 128
  · rw [onBytes, bytesOf_ascii hc]
    exact hascii c cs hc
  · have hforeign := Nat.le_of_not_lt hc
    obtain ⟨b, rest, hbytes, hb⟩ := bytesOf_foreign hforeign cs
    rw [onBytes, hbytes, measured, hchar c cs hforeign]
    exact hbyte b rest hb

theorem ne_of_foreign {c : Char} (hc : 128 ≤ c.toNat) {a : Char} (ha : a.toNat < 128) : c ≠ a := by
  rintro rfl
  omega

theorem onBytes_commentBytes : onBytes commentBytes = measured comment? := by
  refine onBytes_eq_measured ?_ ?_ ?_
  · intro c cs hc
    unfold commentBytes measured comment?
    simp (disch := decide) only [toUInt8_inj hc, head?_bytesOf, ← bytesOf_ascii hc,
      blockCommentBytes_bytesOf, takeWhile_bytesOf]
    split
    · rw [Option.map_some, utf8Length_take_succ, utf8Size_ascii hc,
        ← List.prefix_iff_eq_take.mp (List.takeWhile_prefix _)]
    · split
      · rfl
      · rfl
  · intro b rest hb
    simp (disch := decide) [commentBytes, ne_toUInt8_of_foreign hb]
  · intro c cs hc
    simp (disch := decide) [comment?, ne_of_foreign hc]

theorem onBytes_castBytes : onBytes castBytes = measured cast? := by
  refine onBytes_eq_measured ?_ ?_ ?_
  · intro c cs hc
    unfold castBytes measured cast?
    simp (disch := decide) only [toUInt8_inj hc, head?_bytesOf]
    split
    · next h =>
      obtain ⟨rfl, hhead⟩ := h
      obtain ⟨rest, rfl⟩ := List.head?_eq_some_iff.mp hhead
      rfl
    · rfl
  · intro b rest hb
    simp (disch := decide) [castBytes, ne_toUInt8_of_foreign hb]
  · intro c cs hc
    simp (disch := decide) [cast?, ne_of_foreign hc]

theorem onBytes_punctuationBytes : onBytes punctuationBytes = measured punctuation? := by
  refine onBytes_eq_measured ?_ ?_ ?_
  · intro c cs hc
    unfold punctuationBytes measured punctuation? isPunctuationByte isPunctuation
    rw [any_toUInt8_ascii (by decide) hc]
    split
    · rw [Option.map_some, List.take_succ_cons, List.take_zero, utf8Length, utf8Size_ascii hc]
      rfl
    · rfl
  · intro b rest hb
    rw [punctuationBytes, isPunctuationByte, any_toUInt8_foreign (by decide) hb]
    rfl
  · intro c cs hc
    rw [punctuation?, isPunctuation, contains_foreign (by decide) hc]
    rfl

theorem onBytes_operatorRunBytes : onBytes operatorRunBytes = measured operator? := by
  refine onBytes_eq_measured ?_ ?_ ?_
  · intro c cs hc
    unfold operatorRunBytes measured operator?
    rw [isOperatorByte_ascii hc, operatorBytes_bytesOf]
    split
    · rw [Option.map_some, utf8Length_take_succ, utf8Size_ascii hc]
    · rfl
  · intro b rest hb
    rw [operatorRunBytes, isOperatorByte_foreign hb]
    rfl
  · intro c cs hc
    rw [operator?, isOperatorChar_foreign hc]
    rfl

theorem utf8Length_ascii {cs : List Char} (h : ∀ a ∈ cs, a.toNat < 128) :
    utf8Length cs = cs.length := by
  induction cs with
  | nil => rfl
  | cons c cs ih =>
    rw [utf8Length, utf8Size_ascii (h c List.mem_cons_self),
      ih fun a ha => h a (List.mem_cons_of_mem c ha), List.length_cons, Nat.add_comm]

/-- The quoted text behind an opening of ASCII characters, in bytes. -/
theorem quotedAfter_bytesOf (category : Category) {quote : Char} (hquote : quote.toNat < 128)
    (backslash : Bool) {opening : List Char} (hopening : ∀ a ∈ opening, a.toNat < 128)
    (cs : List Char) :
    quotedAfter category opening.length quote backslash (bytesOf cs)
      = some (some (category,
          utf8Length ((opening ++ cs).take (opening.length + quotedLen quote backslash cs)))) := by
  rw [quotedAfter, quotedBytes?_bytesOf hquote, List.take_length_add_append, utf8Length_append,
    utf8Length_ascii hopening]
  rfl

theorem onBytes_plainQuoteBytes : onBytes plainQuoteBytes = measured quoted? := by
  refine onBytes_eq_measured ?_ ?_ ?_
  · intro c cs hc
    have hopening : ∀ a ∈ [c], a.toNat < 128 := by simpa using hc
    unfold plainQuoteBytes measured quoted?
    simp (disch := decide) only [toUInt8_inj hc]
    split
    · exact quotedAfter_bytesOf .string (by decide) false hopening cs
    · split
      · exact quotedAfter_bytesOf .identifier (by decide) false hopening cs
      · rfl
  · intro b rest hb
    simp (disch := decide) [plainQuoteBytes, ne_toUInt8_of_foreign hb]
  · intro c cs hc
    simp (disch := decide) [quoted?, ne_of_foreign hc]

theorem upperByte_ascii_eq {c : Char} (hc : c.toNat < 128) {a : Char} (ha : a.toNat < 128) :
    upperByte c.toUInt8 = a.toUInt8 ↔ c.toUpper = a := by
  have hall : ∀ n : Fin 128, upperByte (Char.ofNat n).toUInt8 = (Char.ofNat n).toUpper.toUInt8 ∧
      (Char.ofNat n).toUpper.toNat < 128 := by decide
  obtain ⟨hupper, hlt⟩ := hall ⟨c.toNat, hc⟩
  rw [Char.ofNat_toNat] at hupper hlt
  rw [hupper, toUInt8_inj hlt ha]

theorem upperByte_foreign {b : UInt8} (hb : 128 ≤ b.toNat) : upperByte b = b := by
  rw [upperByte, if_neg]
  intro h
  have := UInt8.le_iff_toNat_le.mp h.2
  have hz : 'z'.toUInt8.toNat = 122 := rfl
  omega

theorem toUpper_foreign {c : Char} (hc : 128 ≤ c.toNat) : c.toUpper = c := by
  unfold Char.toUpper
  rw [dif_neg]
  intro h
  have hle : c.toNat ≤ 122 := UInt32.le_iff_toNat_le.mp h.2
  omega

theorem onBytes_letteredBytes : onBytes letteredBytes = measured lettered? := by
  refine onBytes_eq_measured ?_ ?_ ?_
  · intro c cs hc
    cases cs with
    | nil => rfl
    | cons d rest =>
      by_cases hd : d.toNat < 128
      · have hopening : ∀ a ∈ [c, d], a.toNat < 128 := by simp [hc, hd]
        rw [bytesOf_ascii hd]
        unfold letteredBytes measured lettered?
        simp (disch := decide) only [upperByte_ascii_eq hc, toUInt8_inj hd]
        split
        · cases rest with
          | nil => rfl
          | cons q body =>
            by_cases hq : q.toNat < 128
            · have hopening : ∀ a ∈ [c, d, q], a.toNat < 128 := by simp [hc, hd, hq]
              simp (disch := decide) only [bytesOf_ascii hq, toUInt8_inj hq]
              split
              · exact quotedAfter_bytesOf .string (by decide) false hopening body
              · split
                · exact quotedAfter_bytesOf .identifier (by decide) false hopening body
                · rfl
            · obtain ⟨b, bytes, hbytes, hb⟩ := bytesOf_foreign (Nat.le_of_not_lt hq) body
              rw [hbytes]
              simp (disch := decide) [ne_toUInt8_of_foreign hb, ne_of_foreign (Nat.le_of_not_lt hq)]
        · split
          · split
            · exact quotedAfter_bytesOf .string (by decide) true hopening rest
            · split
              · exact quotedAfter_bytesOf .string (by decide) false hopening rest
              · rfl
          · rfl
      · obtain ⟨b, bytes, hbytes, hb⟩ := bytesOf_foreign (Nat.le_of_not_lt hd) rest
        rw [hbytes]
        simp (disch := decide) [letteredBytes, measured, lettered?, ne_toUInt8_of_foreign hb,
          ne_of_foreign (Nat.le_of_not_lt hd)]
  · intro b rest hb
    cases rest with
    | nil => rfl
    | cons d rest =>
      simp (disch := decide) [letteredBytes, upperByte_foreign hb, ne_toUInt8_of_foreign hb]
  · intro c cs hc
    cases cs with
    | nil => rfl
    | cons d rest => simp (disch := decide) [lettered?, toUpper_foreign hc, ne_of_foreign hc]

/-- **The lexer over bytes tries the rules of the lexer**, measured in bytes. -/
theorem byteRules_eq : byteRules = rules.map measured := by
  simp only [byteRules, rules, List.map_cons, List.map_nil, onBytes_commentBytes,
    onBytes_plainQuoteBytes, onBytes_castBytes, onBytes_letteredBytes, onBytes_operatorRunBytes,
    onBytes_punctuationBytes]

theorem findSomeM?_measured (rs : List (Char → List Char → Option Lexeme)) (c : Char)
    (cs : List Char) :
    List.findSomeM? (fun rule : TextRule => rule c cs) (rs.map measured)
      = measured (fun c cs => rs.findSome? fun rule => rule c cs) c cs := by
  induction rs with
  | nil => rfl
  | cons rule rs ih =>
    rw [List.map_cons, List.findSomeM?, ih]
    unfold measured
    simp only [List.findSome?_cons]
    cases rule c cs with
    | none => rfl
    | some lexeme => rfl

/-- **The token at the head of a text, measured in bytes**, is what the lexer
over bytes finds. -/
theorem nextInBytes?_eq (c : Char) (cs : List Char) :
    nextInBytes? c cs
      = some ((nextLexeme c cs).1, utf8Length ((c :: cs).take (nextLexeme c cs).2)) := by
  rw [nextInBytes?, byteRules_eq, findSomeM?_measured, measured, nextLexeme]
  cases rules.findSome? fun rule => rule c cs with
  | none => rfl
  | some lexeme => rfl

/-! ## The loop -/

theorem charsIn?_take (cs : List Char) {n : Nat} (hn : n ≤ cs.length) :
    charsIn? cs (utf8Length (cs.take n)) = some n := by
  induction cs generalizing n with
  | nil =>
    obtain rfl : n = 0 := by simpa using hn
    rfl
  | cons c cs ih =>
    cases n with
    | zero => rfl
    | succ n =>
      obtain ⟨m, hm⟩ : ∃ m, utf8Length ((c :: cs).take (n + 1)) = m + 1 := by
        refine Nat.exists_eq_succ_of_ne_zero ?_
        have hsize := c.utf8Size_pos
        rw [List.take_succ_cons, utf8Length]
        omega
      have hrest : m + 1 - c.utf8Size = utf8Length (cs.take n) := by
        rw [← hm, List.take_succ_cons, utf8Length, Nat.add_sub_cancel_left]
      have hsize : c.utf8Size ≤ m + 1 := by
        rw [← hm, List.take_succ_cons, utf8Length]
        omega
      rw [hm, charsIn?, if_pos hsize, hrest, ih (Nat.le_of_succ_le_succ hn)]
      rfl

theorem tokensBy?_eq (pos : Nat) (cs : List Char) :
    tokensBy? nextInBytes? pos cs = some (tokensFrom pos cs) := by
  fun_induction tokensFrom pos cs with
  | case1 pos => rw [tokensBy?]
  | case2 pos c cs lexeme ih =>
    obtain ⟨hpos, hle⟩ : 1 ≤ lexeme.2 ∧ lexeme.2 ≤ 1 + cs.length := nextLexeme_bounds c cs
    have hchars : charsIn? (c :: cs) (utf8Length ((c :: cs).take lexeme.2)) = some lexeme.2 :=
      charsIn?_take (c :: cs) (by rw [List.length_cons]; omega)
    rw [tokensBy?, nextInBytes?_eq, Option.bind_eq_bind, Option.bind_some, hchars,
      Option.bind_eq_bind, Option.bind_some, if_neg (by omega), ih]
    rfl

/-- **The lexer over bytes finds the tokens of the lexer.** -/
theorem byteTokenize?_eq (text : List Char) : byteTokenize? text = some (tokenize text) :=
  tokensBy?_eq 0 text

/-! ## Lengths and boundaries -/

theorem utf8Length_eq_utf8ByteSize (cs : List Char) :
    utf8Length cs = (String.ofList cs).utf8ByteSize := by
  induction cs with
  | nil => rfl
  | cons c cs ih =>
    have hcons : String.ofList (c :: cs) = String.singleton c ++ String.ofList cs := by
      rw [String.singleton_eq_ofList, ← String.ofList_append, List.singleton_append]
    rw [hcons, String.utf8ByteSize_append, String.utf8ByteSize_singleton, utf8Length, ih]

theorem utf8Length_take_le (cs : List Char) (n : Nat) : utf8Length (cs.take n) ≤ utf8Length cs := by
  have hsplit := utf8Length_append (cs.take n) (cs.drop n)
  rw [List.take_append_drop] at hsplit
  omega

/-- **The lexer tiles a text, and cuts it between characters.** Its tokens are
not empty, follow one another from the first character to the last, and are
found by the loop over bytes, which never fails. At the head of any text that
is not empty the length found in bytes is positive, within the text, and ends
a character. -/
theorem tokenize_tiles_on_boundaries (text : String) :
    Tiles 0 text.length (tokenize text.toList) ∧
      byteTokenize? text.toList = some (tokenize text.toList) ∧
      ∀ c cs, ∃ category n, nextInBytes? c cs = some (category, n) ∧
        1 ≤ n ∧ n ≤ (String.ofList (c :: cs)).utf8ByteSize ∧
        String.Pos.Raw.IsValid (String.ofList (c :: cs)) ⟨n⟩ := by
  refine ⟨?_, byteTokenize?_eq text.toList, fun c cs => ?_⟩
  · rw [← String.length_toList]
    exact tiles_tokenize text.toList
  · obtain ⟨hpos, -⟩ := nextLexeme_bounds c cs
    generalize hlen : (nextLexeme c cs).2 = len at hpos
    refine ⟨_, _, nextInBytes?_eq c cs, ?_, ?_, ?_⟩
    · obtain ⟨m, rfl⟩ := Nat.exists_eq_add_of_le hpos
      rw [hlen, utf8Length_take_succ]
      exact Nat.le_add_right_of_le c.utf8Size_pos
    · rw [← utf8Length_eq_utf8ByteSize]
      exact utf8Length_take_le _ _
    · exact String.Pos.Raw.isValid_ofList.mpr ⟨_, utf8Length_eq_utf8ByteSize _⟩

end Sql

end EmbeddedSql
