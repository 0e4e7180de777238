import EmbeddedSql.Proofs.Tiling

/-!
# The lexer does not see the case of ASCII letters

Two texts that differ in the case of ASCII letters only have the same tokens,
unless a dollar sign stands in them: the name in a dollar delimiter is compared
letter by letter.

It is enough to compare a text with itself in small letters. Making letters small
changes no length and no character that is not a letter, so a scan that asks only
for properties of characters that do not depend on case goes the same way
(`IgnoresCase`). Where a rule names a letter, it names both, or it looks at the
capital of what it reads; and the two tables of words are looked up with the whole
word made capital or small.
-/

namespace EmbeddedSql

namespace Sql

/-! ## Properties that do not depend on case -/

/-- Whether a function of characters gives the same for a letter, capital or small. -/
def IgnoresCase {α : Type} (p : Char → α) : Prop := ∀ c, p c.toLower = p c

/-- The capital letters of ASCII, by their place in the alphabet. -/
def capital (n : Fin 26) : Char := Char.ofNat ('A'.toNat + n)

/-- Making letters small changes capitals and nothing else. -/
theorem toLower_eq_self_or_eq_capital (c : Char) : c.toLower = c ∨ ∃ n, c = capital n := by
  unfold Char.toLower
  split
  · next h =>
    have hlo : 65 ≤ c.toNat := UInt32.le_iff_toNat_le.mp h.1
    have hhi : c.toNat ≤ 90 := UInt32.le_iff_toNat_le.mp h.2
    have hplace : 'A'.toNat + (c.toNat - 65) = c.toNat := Nat.add_sub_cancel' hlo
    refine Or.inr ⟨⟨c.toNat - 65, by omega⟩, ?_⟩
    rw [capital, hplace, Char.ofNat_toNat]
  · exact Or.inl rfl

/-- Only the capitals have to be looked at. -/
theorem ignoresCase_of_capital {α : Type} {p : Char → α}
    (h : ∀ n, p (capital n).toLower = p (capital n)) : IgnoresCase p := by
  intro c
  rcases toLower_eq_self_or_eq_capital c with hsame | ⟨n, rfl⟩
  · rw [hsame]
  · exact h n

/-- A character that is no letter is not made by making letters small. -/
theorem toLower_eq_iff {a : Char} (ha : a.isAlpha = false) {c : Char} : c.toLower = a ↔ c = a := by
  have hletters : ∀ n, (capital n).toLower.isAlpha = true ∧ (capital n).isAlpha = true := by decide
  rcases toLower_eq_self_or_eq_capital c with hsame | ⟨n, rfl⟩
  · rw [hsame]
  · have hne : ∀ b : Char, b.isAlpha = true → b ≠ a := by
      rintro b hb rfl
      exact Bool.false_ne_true (ha.symm.trans hb)
    exact iff_of_false (hne _ (hletters n).1) (hne _ (hletters n).2)

theorem ignoresCase_isBlank : IgnoresCase isBlank := ignoresCase_of_capital (by decide)

theorem ignoresCase_startsWord : IgnoresCase startsWord := ignoresCase_of_capital (by decide)

theorem ignoresCase_continuesName : IgnoresCase continuesName := ignoresCase_of_capital (by decide)

theorem ignoresCase_continuesWord : IgnoresCase continuesWord := ignoresCase_of_capital (by decide)

theorem ignoresCase_isDigit : IgnoresCase Char.isDigit := ignoresCase_of_capital (by decide)

theorem ignoresCase_isOperatorChar : IgnoresCase isOperatorChar := ignoresCase_of_capital (by decide)

theorem ignoresCase_toUpper : IgnoresCase Char.toUpper := ignoresCase_of_capital (by decide)

theorem ignoresCase_toLower : IgnoresCase Char.toLower := ignoresCase_of_capital (by decide)

/-! ## Scans -/

theorem takeWhile_map_toLower {p : Char → Bool} (hp : IgnoresCase p) (cs : List Char) :
    (cs.map Char.toLower).takeWhile p = (cs.takeWhile p).map Char.toLower := by
  rw [List.takeWhile_map]
  exact congrArg (fun q => (cs.takeWhile q).map Char.toLower) (funext hp)

theorem length_takeWhile_map_toLower {p : Char → Bool} (hp : IgnoresCase p) (cs : List Char) :
    ((cs.map Char.toLower).takeWhile p).length = (cs.takeWhile p).length := by
  rw [takeWhile_map_toLower hp, List.length_map]

theorem head?_map_toLower_eq_iff {a : Char} (ha : a.isAlpha = false) {cs : List Char} :
    (cs.map Char.toLower).head? = some a ↔ cs.head? = some a := by
  rw [List.head?_map, Option.map_eq_some_iff]
  simp only [toLower_eq_iff ha, exists_eq_right]

theorem blockCommentLen_map_toLower (depth : Nat) (cs : List Char) :
    blockCommentLen depth (cs.map Char.toLower) = blockCommentLen depth cs := by
  fun_induction blockCommentLen depth cs with
  | case1 => rfl
  | case2 => rfl
  | case3 depth a b rest hopen ih =>
    obtain ⟨rfl, rfl⟩ := hopen
    exact congrArg (2 + ·) ih
  | case4 depth a b rest _ hclose hdepth =>
    obtain ⟨rfl, rfl⟩ := hclose
    exact if_pos hdepth
  | case5 depth a b rest _ hclose hdepth ih =>
    obtain ⟨rfl, rfl⟩ := hclose
    exact (if_neg hdepth).trans (congrArg (2 + ·) ih)
  | case6 depth a b rest hopen hclose ih =>
    rw [List.map_cons, List.map_cons, blockCommentLen]
    simp (disch := decide) only [toLower_eq_iff, if_neg hopen, if_neg hclose]
    exact congrArg (1 + ·) ih

theorem quotedLen_map_toLower {quote : Char} (hquote : quote.isAlpha = false) (backslash : Bool)
    (cs : List Char) :
    quotedLen quote backslash (cs.map Char.toLower) = quotedLen quote backslash cs := by
  fun_induction quotedLen quote backslash cs with
  | case1 => rfl
  | case2 => rfl
  | case3 c d rest hescape ih =>
    rw [List.map_cons, List.map_cons, quotedLen]
    simp (disch := decide) only [toLower_eq_iff, if_pos hescape, ih]
  | case4 rest hescape ih =>
    have hsame : quote.toLower = quote := (toLower_eq_iff hquote).mpr rfl
    rw [List.map_cons, List.map_cons, quotedLen]
    simp only [hsame, if_neg hescape, if_true, ih]
  | case5 d rest hdouble hescape =>
    have hsame : quote.toLower = quote := (toLower_eq_iff hquote).mpr rfl
    rw [List.map_cons, List.map_cons, quotedLen]
    simp only [hsame, if_neg hescape, if_true, toLower_eq_iff hquote, if_neg hdouble]
  | case6 c d rest hescape hclose ih =>
    rw [List.map_cons, List.map_cons, quotedLen, ← List.map_cons, ih]
    simp (disch := decide) only [toLower_eq_iff, toLower_eq_iff hquote, if_neg hescape, if_neg hclose]

theorem startsComment_map_toLower (cs : List Char) :
    startsComment (cs.map Char.toLower) = startsComment cs := by
  cases cs with
  | nil => rfl
  | cons c cs =>
    rw [List.map_cons, Bool.eq_iff_iff, startsComment_cons, startsComment_cons]
    simp (disch := decide) only [toLower_eq_iff, head?_map_toLower_eq_iff]

theorem operatorLen_map_toLower (cs : List Char) :
    operatorLen (cs.map Char.toLower) = operatorLen cs := by
  induction cs with
  | nil => rfl
  | cons c cs ih =>
    have hcomment := startsComment_map_toLower (c :: cs)
    rw [List.map_cons] at hcomment
    rw [List.map_cons, operatorLen, operatorLen, ignoresCase_isOperatorChar, hcomment, ih]

/-! ### Numbers -/

theorem radixLen?_map_toLower {letters : List Char} {digit : Char → Bool}
    (hletters : IgnoresCase letters.contains) (hdigit : IgnoresCase digit) (cs : List Char) :
    radixLen? letters digit (cs.map Char.toLower) = radixLen? letters digit cs := by
  cases cs with
  | nil => rfl
  | cons x cs =>
    have hscore : IgnoresCase (· == '_') := ignoresCase_of_capital (by decide)
    have hrun : IgnoresCase fun d => digit d || d == '_' := fun d =>
      congr (congrArg or (hdigit d)) (hscore d)
    rw [List.map_cons, radixLen?, radixLen?, hletters, length_takeWhile_map_toLower hrun]

theorem signLen_map_toLower (cs : List Char) : signLen (cs.map Char.toLower) = signLen cs := by
  cases cs with
  | nil => rfl
  | cons s cs =>
    rw [List.map_cons, signLen, signLen]
    simp (disch := decide) only [toLower_eq_iff]

theorem exponentLen_map_toLower (cs : List Char) :
    exponentLen (cs.map Char.toLower) = exponentLen cs := by
  cases cs with
  | nil => rfl
  | cons e cs =>
    have hmark : IgnoresCase fun e => decide (e = 'e' ∨ e = 'E') :=
      ignoresCase_of_capital (by decide)
    have hletter : (e.toLower = 'e' ∨ e.toLower = 'E') ↔ (e = 'e' ∨ e = 'E') :=
      decide_eq_decide.mp (hmark e)
    rw [List.map_cons, exponentLen_cons, exponentLen_cons, signLen_map_toLower, ← List.map_drop,
      length_takeWhile_map_toLower ignoresCase_isDigit]
    simp only [hletter]

theorem fractionLen_map_toLower (cs : List Char) :
    fractionLen (cs.map Char.toLower) = fractionLen cs := by
  cases cs with
  | nil => rfl
  | cons p cs =>
    rw [List.map_cons, fractionLen, fractionLen, length_takeWhile_map_toLower ignoresCase_isDigit]
    simp (disch := decide) only [toLower_eq_iff]

theorem decimalLen_map_toLower (cs : List Char) :
    decimalLen (cs.map Char.toLower) = decimalLen cs := by
  have hrun : IgnoresCase fun d => d.isDigit || d == '_' := ignoresCase_of_capital (by decide)
  simp only [decimalLen, length_takeWhile_map_toLower hrun, ← List.map_drop, fractionLen_map_toLower,
    exponentLen_map_toLower]

theorem numberLen?_map_toLower (c : Char) (cs : List Char) :
    numberLen? c.toLower (cs.map Char.toLower) = numberLen? c cs := by
  have hhex : radixLen? ['x', 'X'] isHexDigit (cs.map Char.toLower) =
      radixLen? ['x', 'X'] isHexDigit cs :=
    radixLen?_map_toLower (ignoresCase_of_capital (by decide))
      (ignoresCase_of_capital (by decide)) cs
  have hoct : radixLen? ['o', 'O'] (fun d => decide ('0' ≤ d ∧ d ≤ '7')) (cs.map Char.toLower) =
      radixLen? ['o', 'O'] (fun d => decide ('0' ≤ d ∧ d ≤ '7')) cs :=
    radixLen?_map_toLower (ignoresCase_of_capital (by decide))
      (ignoresCase_of_capital (by decide)) cs
  have hbin : radixLen? ['b', 'B'] (fun d => d == '0' || d == '1') (cs.map Char.toLower) =
      radixLen? ['b', 'B'] (fun d => d == '0' || d == '1') cs :=
    radixLen?_map_toLower (ignoresCase_of_capital (by decide))
      (ignoresCase_of_capital (by decide)) cs
  unfold numberLen?
  simp (disch := decide) only [toLower_eq_iff, hhex, hoct, hbin, decimalLen_map_toLower,
    ignoresCase_isDigit c, length_takeWhile_map_toLower ignoresCase_isDigit, ← List.map_drop,
    exponentLen_map_toLower]

/-! ## Rules -/

/-- **A rule is blind to case** on a text that does not begin with a dollar sign:
it gives the same answer when the letters of the text are made small. -/
def BlindToCase (rule : Char → List Char → Option Lexeme) : Prop :=
  ∀ ⦃c cs⦄, c ≠ '$' → rule c.toLower (cs.map Char.toLower) = rule c cs

theorem blindToCase_blank : BlindToCase blank? := by
  intro c cs _
  rw [blank?, blank?, ignoresCase_isBlank, length_takeWhile_map_toLower ignoresCase_isBlank]

theorem blindToCase_comment : BlindToCase comment? := by
  intro c cs _
  have hline : IgnoresCase (· != '\n') := ignoresCase_of_capital (by decide)
  have hblock := blockCommentLen_map_toLower 0 (c :: cs)
  rw [List.map_cons] at hblock
  rw [comment?, comment?, length_takeWhile_map_toLower hline, hblock]
  simp (disch := decide) only [toLower_eq_iff, head?_map_toLower_eq_iff]

theorem blindToCase_quoted : BlindToCase quoted? := by
  intro c cs _
  rw [quoted?, quoted?, quotedLen_map_toLower (by decide), quotedLen_map_toLower (by decide)]
  simp (disch := decide) only [toLower_eq_iff]

theorem blindToCase_cast : BlindToCase cast? := by
  intro c cs _
  rw [cast?, cast?]
  simp (disch := decide) only [toLower_eq_iff, head?_map_toLower_eq_iff]

theorem blindToCase_lettered : BlindToCase lettered? := by
  intro c cs _
  cases cs with
  | nil => rfl
  | cons d rest =>
    unfold lettered?
    simp (disch := decide) only [List.map_cons, toLower_eq_iff, ignoresCase_toUpper c,
      quotedLen_map_toLower]
    cases rest with
    | nil => rfl
    | cons q body =>
      simp (disch := decide) only [List.map_cons, toLower_eq_iff, quotedLen_map_toLower]

theorem blindToCase_dollar : BlindToCase dollar? := by
  intro c cs hc
  rw [dollar?, dollar?, if_neg hc, if_neg (mt (toLower_eq_iff (by decide)).mp hc)]

theorem blindToCase_parameter : BlindToCase parameter? := by
  intro c cs _
  have hhead : (cs.map Char.toLower).head?.any startsWord = cs.head?.any startsWord := by
    rw [List.head?_map, Option.any_map]
    exact congrArg (Option.any · cs.head?) (funext ignoresCase_startsWord)
  rw [parameter?, parameter?, hhead, length_takeWhile_map_toLower ignoresCase_continuesName]
  simp (disch := decide) only [toLower_eq_iff]

theorem blindToCase_number : BlindToCase number? := by
  intro c cs _
  rw [number?, number?, numberLen?_map_toLower]

theorem wordCategory_map_toLower (word : List Char) :
    wordCategory (word.map Char.toLower) = wordCategory word := by
  have hupper : (word.map Char.toLower).map Char.toUpper = word.map Char.toUpper := by
    rw [List.map_map]
    exact congrArg (List.map · word) (funext ignoresCase_toUpper)
  have hlower : (word.map Char.toLower).map Char.toLower = word.map Char.toLower := by
    rw [List.map_map]
    exact congrArg (List.map · word) (funext ignoresCase_toLower)
  rw [wordCategory, wordCategory, isKeyword, isKeyword, isFunction, isFunction, hupper, hlower]

theorem blindToCase_word : BlindToCase word? := by
  intro c cs _
  have hword := wordCategory_map_toLower (c :: cs.takeWhile continuesWord)
  rw [List.map_cons] at hword
  rw [word?, word?, ignoresCase_startsWord]
  simp only [takeWhile_map_toLower ignoresCase_continuesWord, hword, List.length_map]

theorem blindToCase_operator : BlindToCase operator? := by
  intro c cs _
  rw [operator?, operator?, ignoresCase_isOperatorChar, operatorLen_map_toLower]

theorem blindToCase_punctuation : BlindToCase punctuation? := by
  intro c cs _
  have hmark : IgnoresCase isPunctuation := ignoresCase_of_capital (by decide)
  rw [punctuation?, punctuation?, hmark]

/-! ## The loop -/

theorem nextLexeme_map_toLower {c : Char} (hc : c ≠ '$') (cs : List Char) :
    nextLexeme c.toLower (cs.map Char.toLower) = nextLexeme c cs := by
  rw [nextLexeme, nextLexeme]
  simp only [rules, List.findSome?_cons, List.findSome?_nil, blindToCase_blank hc,
    blindToCase_comment hc, blindToCase_quoted hc, blindToCase_cast hc, blindToCase_lettered hc,
    blindToCase_dollar hc, blindToCase_parameter hc, blindToCase_number hc, blindToCase_word hc,
    blindToCase_operator hc, blindToCase_punctuation hc]

/-- **A text in small letters has the same tokens.** -/
theorem tokensFrom_map_toLower (pos : Nat) (cs : List Char) (hcs : '$' ∉ cs) :
    tokensFrom pos (cs.map Char.toLower) = tokensFrom pos cs := by
  fun_induction tokensFrom pos cs with
  | case1 pos => rw [List.map_nil, tokensFrom]
  | case2 pos c cs lexeme ih =>
    rw [List.mem_cons, not_or] at hcs
    rw [List.map_cons, tokensFrom, nextLexeme_map_toLower (Ne.symm hcs.1), ← List.map_drop,
      ih fun hmem => hcs.2 (List.mem_of_mem_drop hmem)]

/-- **The case of ASCII letters does not matter to the lexer.** Texts without a
dollar sign that are the same in small letters have the same tokens. -/
theorem tokenize_eq_of_map_toLower_eq {text other : List Char} (htext : '$' ∉ text)
    (hother : '$' ∉ other) (hsame : text.map Char.toLower = other.map Char.toLower) :
    tokenize text = tokenize other := by
  rw [tokenize, tokenize, ← tokensFrom_map_toLower 0 text htext,
    ← tokensFrom_map_toLower 0 other hother, hsame]

/-- Letters in every role: a key word, a function, the marks of strings, numbers in
three bases and with an exponent, and a parameter, behind a letter with an accent. -/
theorem tokenize_eq_of_map_toLower_eq_roles :
    ∃ text other : List Char, text = "é select LOWER(e'\\N') u&\"A\" 0XfF 0B1 1E5 :Ab".toList ∧
      other = "é SELECT lower(E'\\n') U&\"a\" 0xFf 0b1 1e5 :aB".toList ∧ '$' ∉ text ∧ '$' ∉ other ∧
      text.map Char.toLower = other.map Char.toLower ∧ text ≠ other ∧
      tokenize text = tokenize other := by
  have htext : '$' ∉ "é select LOWER(e'\\N') u&\"A\" 0XfF 0B1 1E5 :Ab".toList := by decide +kernel
  have hother : '$' ∉ "é SELECT lower(E'\\n') U&\"a\" 0xFf 0b1 1e5 :aB".toList := by decide +kernel
  have hsame : "é select LOWER(e'\\N') u&\"A\" 0XfF 0B1 1E5 :Ab".toList.map Char.toLower =
      "é SELECT lower(E'\\n') U&\"a\" 0xFf 0b1 1e5 :aB".toList.map Char.toLower := by decide +kernel
  exact ⟨_, _, rfl, rfl, htext, hother, hsame, by decide +kernel,
    tokenize_eq_of_map_toLower_eq htext hother hsame⟩

end Sql

end EmbeddedSql
