import EmbeddedSql.Proofs.CutScans

/-!
# Quoted text delimits itself

PostgreSQL has several ways to put a text between quotes, and each has its own way
to keep the text from ending it: a quote is written twice, or behind a backslash
that is itself written twice, or the delimiter is chosen so that the text does not
contain it. Whatever the text is, the lexer finds the end of its quoted form and
goes on behind it as if nothing had been there.

The end is found by a scan, and the scan undoes the writing one character at a
time: it passes exactly what was written for that character. So it meets the
closing quote outside of any pair, and that quote closes unless one more stands
behind it. A dollar delimiter is searched for as a whole, and its first occurrence
in the text with the delimiter behind it is its first occurrence in any longer text.
-/

namespace EmbeddedSql

namespace Sql

/-! ## Quoted forms -/

/-- A text with each of its quotes written twice. -/
def doubled (quote : Char) (s : List Char) : List Char :=
  s.flatMap fun c => if c = quote then [quote, quote] else [c]

/-- **The ways to write a text with backslash escapes.** A backslash is written
twice, a quote twice or behind a backslash, each as one likes, and all else as it
is. -/
inductive Escaped : List Char → List Char → Prop
  | nil : Escaped [] []
  | backslash {s body : List Char} : Escaped s body → Escaped ('\\' :: s) ('\\' :: '\\' :: body)
  | twice {s body : List Char} : Escaped s body → Escaped ('\'' :: s) ('\'' :: '\'' :: body)
  | behind {s body : List Char} : Escaped s body → Escaped ('\'' :: s) ('\\' :: '\'' :: body)
  | plain {c : Char} {s body : List Char} : c ≠ '\\' → c ≠ '\'' → Escaped s body →
      Escaped (c :: s) (c :: body)

/-- What may stand in front of a string constant without backslash escapes. -/
def stringMarks : List (List Char) :=
  [[], ['B'], ['b'], ['X'], ['x'], ['N'], ['n'], ['U', '&'], ['u', '&']]

/-- What may stand in front of a quoted name. -/
def nameMarks : List (List Char) := [[], ['U', '&'], ['u', '&']]

/-- The delimiter with a name. -/
def delimiter (name : List Char) : List Char := '$' :: name ++ ['$']

/-- **The quoted forms of a text** `s`, with their category, in front of `rest`. A
closing quote must not be followed by another one. A dollar delimiter must not
begin in the text, even if it would end behind it. -/
inductive QuotedForm (s rest : List Char) : Category → List Char → Prop
  | string {mark : List Char} : mark ∈ stringMarks → rest.head? ≠ some '\'' →
      QuotedForm s rest .string (mark ++ '\'' :: doubled '\'' s ++ ['\''])
  | name {mark : List Char} : mark ∈ nameMarks → rest.head? ≠ some '"' →
      QuotedForm s rest .identifier (mark ++ '"' :: doubled '"' s ++ ['"'])
  | escaped {e : Char} {body : List Char} : e = 'E' ∨ e = 'e' → Escaped s body →
      rest.head? ≠ some '\'' → QuotedForm s rest .string (e :: '\'' :: body ++ ['\''])
  | dollar {name : List Char} : IsTagName name →
      (∀ i < s.length, ¬ delimiter name <+: (s ++ delimiter name).drop i) →
      QuotedForm s rest .string (delimiter name ++ s ++ delimiter name)

/-! ## The scans -/

section Scans

variable {quote : Char} {backslash : Bool}

theorem quotedLen_pass {c : Char} (hescape : ¬(backslash ∧ c = '\\')) (hc : c ≠ quote)
    (cs : List Char) :
    quotedLen quote backslash (c :: cs) = 1 + quotedLen quote backslash cs := by
  cases cs with
  | nil => rfl
  | cons d cs => rw [quotedLen, if_neg hescape, if_neg hc]

theorem quotedLen_close (hescape : ¬(backslash ∧ quote = '\\')) {rest : List Char}
    (hrest : rest.head? ≠ some quote) : quotedLen quote backslash (quote :: rest) = 1 := by
  cases rest with
  | nil => rfl
  | cons d rest =>
    rw [quotedLen, if_neg hescape, if_pos rfl, if_neg fun hd => hrest (congrArg some hd)]

theorem quotedLen_twice (hescape : ¬(backslash ∧ quote = '\\')) (cs : List Char) :
    quotedLen quote backslash (quote :: quote :: cs) = 2 + quotedLen quote backslash cs := by
  rw [quotedLen, if_neg hescape, if_pos rfl, if_pos rfl]

theorem quotedLen_escape (d : Char) (cs : List Char) :
    quotedLen quote true ('\\' :: d :: cs) = 2 + quotedLen quote true cs := by
  rw [quotedLen, if_pos ⟨rfl, rfl⟩]

/-- **The scan undoes the doubling** and stops behind the closing quote. -/
theorem quotedLen_doubled (s : List Char) {rest : List Char} (hrest : rest.head? ≠ some quote) :
    quotedLen quote false (doubled quote s ++ quote :: rest) = (doubled quote s).length + 1 := by
  have hescape : ∀ c, ¬(false = true ∧ c = '\\') := fun c h => Bool.false_ne_true h.1
  induction s with
  | nil => exact quotedLen_close (hescape quote) hrest
  | cons c s ih =>
    rw [doubled, List.flatMap_cons]
    split
    · show quotedLen quote false (quote :: quote :: (doubled quote s ++ quote :: rest)) = _
      rw [quotedLen_twice (hescape quote), ih, List.length_append]
      show 2 + _ = 2 + (doubled quote s).length + 1
      omega
    · next hc =>
      show quotedLen quote false (c :: (doubled quote s ++ quote :: rest)) = _
      rw [quotedLen_pass (hescape c) hc, ih, List.length_append]
      show 1 + _ = 1 + (doubled quote s).length + 1
      omega

/-- What a scan finds behind a mark and an opening quote is the whole quoted form. -/
theorem length_marked (mark s : List Char) {rest : List Char} (hrest : rest.head? ≠ some quote) :
    mark.length + 1 + quotedLen quote false (doubled quote s ++ quote :: rest) =
      (mark ++ quote :: doubled quote s ++ [quote]).length := by
  rw [quotedLen_doubled s hrest, List.length_append, List.length_append, List.length_cons,
    List.length_singleton]
  omega

/-- **The scan undoes the escapes** and stops behind the closing quote. -/
theorem Escaped.quotedLen_eq {s body rest : List Char} (h : Escaped s body)
    (hrest : rest.head? ≠ some '\'') :
    quotedLen '\'' true (body ++ '\'' :: rest) = body.length + 1 := by
  have hquote : ¬(true = true ∧ '\'' = '\\') := by decide
  induction h with
  | nil => exact quotedLen_close hquote hrest
  | backslash _ ih =>
    rw [List.cons_append, List.cons_append, quotedLen_escape, ih, List.length_cons, List.length_cons]
    omega
  | twice _ ih =>
    rw [List.cons_append, List.cons_append, quotedLen_twice hquote, ih, List.length_cons,
      List.length_cons]
    omega
  | behind _ ih =>
    rw [List.cons_append, List.cons_append, quotedLen_escape, ih, List.length_cons, List.length_cons]
    omega
  | plain hbackslash hc _ ih =>
    rw [List.cons_append, quotedLen_pass (fun h => hbackslash h.2) hc, ih, List.length_cons]
    omega

end Scans

/-- **The first occurrence** in a text with the delimiter behind it is the first in
any longer text. -/
theorem occurrence?_append {sought s : List Char} (hne : sought ≠ []) (rest : List Char)
    (hfirst : ∀ i < s.length, ¬ sought <+: (s ++ sought).drop i) :
    occurrence? sought (s ++ sought ++ rest) = some s.length := by
  induction s with
  | nil =>
    obtain ⟨c, sought, rfl⟩ := List.exists_cons_of_ne_nil hne
    exact if_pos (List.isPrefixOf_iff_prefix.mpr ( List.prefix_append _ rest))
  | cons c s ih =>
    have hhere : ¬ sought.isPrefixOf (c :: (s ++ sought ++ rest)) = true := by
      intro h
      refine hfirst 0 (Nat.succ_pos _) (List.prefix_of_prefix_length_le
        (List.isPrefixOf_iff_prefix.mp h) ( List.prefix_append (c :: (s ++ sought)) rest) ?_)
      rw [List.drop_zero, List.length_append]
      exact Nat.le_add_left _ _
    have hlater : ∀ i < s.length, ¬ sought <+: (s ++ sought).drop i := fun i hi =>
      hfirst (i + 1) (Nat.succ_lt_succ hi)
    rw [List.cons_append, List.cons_append, occurrence?, if_neg hhere, ih hlater]
    rfl

/-! ## The token -/

theorem nextLexeme_of_quoted? {c : Char} {cs : List Char} {lexeme : Lexeme}
    (h : quoted? c cs = some lexeme) : nextLexeme c cs = lexeme := by
  have hc : c = '\'' ∨ c = '"' := by
    unfold quoted? at h
    split at h
    · next hc => exact Or.inl hc
    · exact Or.inr (Option.ite_none_right_eq_some.mp h).1
  have hblank : blank? c cs = none := by rcases hc with rfl | rfl <;> rfl
  have hcomment : comment? c cs = none := by rcases hc with rfl | rfl <;> simp [comment?]
  simp only [nextLexeme, rules, List.findSome?_cons, hblank, hcomment, h, Option.getD_some]

/-- The letters that may stand in front of a quote, or of an ampersand and a quote. -/
def quoteLetters : List Char := ['B', 'b', 'E', 'e', 'N', 'n', 'U', 'u', 'X', 'x']

theorem nextLexeme_of_lettered? {c : Char} (hc : c ∈ quoteLetters) {cs : List Char}
    {lexeme : Lexeme} (h : lettered? c cs = some lexeme) : nextLexeme c cs = lexeme := by
  have hne : ∀ a, a ∉ quoteLetters → c ≠ a := fun a ha heq => ha (heq ▸ hc)
  have hblank : blank? c cs = none := by
    have hall : (quoteLetters.all fun c => !isBlank c) = true := by decide
    have hc := List.all_eq_true.mp hall c hc
    rw [Bool.not_eq_true'] at hc
    rw [blank?, hc]
    rfl
  have hcomment : comment? c cs = none := by
    simp [comment?, hne '-' (by decide), hne '/' (by decide)]
  have hquoted : quoted? c cs = none := by
    simp [quoted?, hne '\'' (by decide), hne '"' (by decide)]
  have hcast : cast? c cs = none := by simp [cast?, hne ':' (by decide)]
  simp only [nextLexeme, rules, List.findSome?_cons, hblank, hcomment, hquoted, hcast, h,
    Option.getD_some]

theorem nextLexeme_of_dollar? {cs : List Char} {lexeme : Lexeme}
    (h : dollar? '$' cs = some lexeme) : nextLexeme '$' cs = lexeme := by
  have hlettered : lettered? '$' cs = none := by
    have hupper : '$'.toUpper = '$' := by decide
    cases cs with
    | nil => rfl
    | cons d cs => simp [lettered?, hupper]
  have hblank : blank? '$' cs = none := rfl
  have hcomment : comment? '$' cs = none := by simp [comment?]
  have hquoted : quoted? '$' cs = none := rfl
  have hcast : cast? '$' cs = none := by simp [cast?]
  simp only [nextLexeme, rules, List.findSome?_cons, hblank, hcomment, hquoted, hcast, hlettered, h,
    Option.getD_some]

/-- A mark and a single quote begin a string constant. -/
theorem nextLexeme_string {mark : List Char} (hmark : mark ∈ stringMarks) (tail : List Char)
    {c : Char} {cs : List Char} (h : mark ++ '\'' :: tail = c :: cs) :
    nextLexeme c cs = (.string, mark.length + 1 + quotedLen '\'' false tail) := by
  simp only [stringMarks, List.mem_cons, List.not_mem_nil, or_false] at hmark
  rcases hmark with rfl | hmark
  · obtain ⟨rfl, rfl⟩ := List.cons.inj h
    exact nextLexeme_of_quoted? rfl
  · rcases hmark with rfl | rfl | rfl | rfl | rfl | rfl | rfl | rfl <;>
      (obtain ⟨rfl, rfl⟩ := List.cons.inj h; exact nextLexeme_of_lettered? (by decide) rfl)

/-- A mark and a double quote begin a quoted name. -/
theorem nextLexeme_name {mark : List Char} (hmark : mark ∈ nameMarks) (tail : List Char)
    {c : Char} {cs : List Char} (h : mark ++ '"' :: tail = c :: cs) :
    nextLexeme c cs = (.identifier, mark.length + 1 + quotedLen '"' false tail) := by
  simp only [nameMarks, List.mem_cons, List.not_mem_nil, or_false] at hmark
  rcases hmark with rfl | hmark
  · obtain ⟨rfl, rfl⟩ := List.cons.inj h
    exact nextLexeme_of_quoted? rfl
  · rcases hmark with rfl | rfl <;>
      (obtain ⟨rfl, rfl⟩ := List.cons.inj h; exact nextLexeme_of_lettered? (by decide) rfl)

/-- An `E` and a single quote begin a string constant with backslash escapes. -/
theorem nextLexeme_escaped {e : Char} (he : e = 'E' ∨ e = 'e') (tail : List Char) :
    nextLexeme e ('\'' :: tail) = (.string, 2 + quotedLen '\'' true tail) := by
  rcases he with rfl | rfl <;> exact nextLexeme_of_lettered? (by decide) rfl

/-- A delimiter begins a string constant that ends behind the next occurrence of
the delimiter. -/
theorem nextLexeme_dollar {name : List Char} (hname : IsTagName name) {tail : List Char} {n : Nat}
    (hn : occurrence? (delimiter name) tail = some n) :
    nextLexeme '$' (name ++ '$' :: tail) = (.string, 2 * (delimiter name).length + n) := by
  have htag : dollarTag? (name ++ '$' :: tail) = some (name ++ ['$']) :=
    dollarTag?_eq_some.mpr ⟨name, tail, hname, rfl, rfl⟩
  have hbody : (name ++ '$' :: tail).drop (name ++ ['$']).length = tail := by
    rw [List.append_cons name '$' tail, List.drop_left]
  have hlen : 1 + (name ++ ['$']).length = (delimiter name).length := Nat.add_comm _ _
  refine nextLexeme_of_dollar? ?_
  have hdelimiter : occurrence? ('$' :: (name ++ ['$'])) tail = some n := hn
  simp only [dollar?, if_true, htag, hbody, hdelimiter, hlen]

/-- **A quoted form is the token at the head** of the text it begins. -/
theorem QuotedForm.nextLexeme_eq {s rest form : List Char} {category : Category}
    (h : QuotedForm s rest category form) {c : Char} {cs : List Char}
    (hform : form ++ rest = c :: cs) : nextLexeme c cs = (category, form.length) := by
  cases h with
  | @string mark hmark hrest =>
    rw [List.append_assoc, List.append_assoc] at hform
    rw [nextLexeme_string hmark _ hform, ← length_marked mark s hrest]
    rfl
  | @name mark hmark hrest =>
    rw [List.append_assoc, List.append_assoc] at hform
    rw [nextLexeme_name hmark _ hform, ← length_marked mark s hrest]
    rfl
  | @escaped e body he hbody hrest =>
    obtain ⟨rfl, rfl⟩ := List.cons.inj hform
    have hlen := hbody.quotedLen_eq hrest
    show nextLexeme e ('\'' :: (body ++ ['\''] ++ rest)) = _
    rw [nextLexeme_escaped he, List.append_assoc]
    show (_, 2 + quotedLen '\'' true (body ++ '\'' :: rest)) = _
    rw [hlen, List.cons_append, List.cons_append, List.length_cons, List.length_cons,
      List.length_append, Nat.add_comm]
    rfl
  | @dollar name hname hfirst =>
    have hne : delimiter name ≠ [] := List.cons_ne_nil _ _
    have hoccurrence := occurrence?_append hne rest hfirst
    have hsplit : delimiter name ++ s ++ delimiter name ++ rest =
        '$' :: (name ++ '$' :: (s ++ delimiter name ++ rest)) := by
      simp [delimiter]
    obtain ⟨rfl, rfl⟩ := List.cons.inj (hsplit.symm.trans hform)
    rw [nextLexeme_dollar hname hoccurrence, List.length_append, List.length_append]
    congr 1
    omega

/-- **Quoted text delimits itself.** A quoted form of any text is one token of its
own category, and what follows has the tokens it has by itself. -/
theorem QuotedForm.tokenize_append {s rest form : List Char} {category : Category}
    (h : QuotedForm s rest category form) :
    tokenize (form ++ rest) =
      ⟨category, 0, form.length⟩ :: (tokenize rest).map (Token.shift form.length) := by
  obtain ⟨c, cs, rfl⟩ : ∃ c cs, form = c :: cs := by
    cases h with
    | string => exact List.exists_cons_of_ne_nil (by simp)
    | name => exact List.exists_cons_of_ne_nil (by simp)
    | escaped => exact ⟨_, _, rfl⟩
    | dollar => exact ⟨_, _, rfl⟩
  have hnext : nextLexeme c (cs ++ rest) = (category, (c :: cs).length) := h.nextLexeme_eq rfl
  rw [tokenize, List.cons_append, tokensFrom, hnext, Nat.zero_add, List.length_cons,
    Nat.add_sub_cancel, List.drop_left, tokensFrom_eq_map]

/-- A quote behind a backslash, the other twice, and two backslashes before a
character of several bytes; and a text that ends in what could begin its delimiter. -/
theorem QuotedForm.tokenize_append_escapedThenDollar :
    tokenize ("E'\\'it''s\\\\é'".toList ++ ("$a$x$$a$".toList ++ [';'])) =
      [⟨.string, 0, 13⟩, ⟨.string, 13, 8⟩, ⟨.operator, 21, 1⟩] := by
  have hescaped : QuotedForm "'it's\\é".toList ("$a$x$$a$".toList ++ [';']) .string
      "E'\\'it''s\\\\é'".toList :=
    @QuotedForm.escaped _ _ 'E' "\\'it''s\\\\é".toList (Or.inl rfl)
      (.behind <| .plain (by decide) (by decide) <| .plain (by decide) (by decide) <| .twice <|
        .plain (by decide) (by decide) <| .backslash <| .plain (by decide) (by decide) .nil)
      (by decide)
  have hdollar : QuotedForm ['x', '$'] [';'] .string "$a$x$$a$".toList :=
    @QuotedForm.dollar _ _ ['a'] (.cons (by decide) (List.forall_mem_nil _)) (by decide)
  have hrest : tokenize [';'] = [⟨.operator, 0, 1⟩] := by decide +kernel
  rw [hescaped.tokenize_append, hdollar.tokenize_append, hrest]
  rfl

end Sql

end EmbeddedSql
