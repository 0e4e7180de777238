import EmbeddedSql.Sql.Lexer

/-!
# The lexer tiles its input

Every rule of the lexer takes at least the character it looks at and no more
characters than there are. That is all the loop needs: its tokens follow one
another without a gap, none is empty, and the last one ends with the text
(`tiles_tokenize`).
-/

namespace EmbeddedSql

namespace Sql

/-! ## How far the parts of a token reach -/

theorem length_takeWhile_le {α : Type} (p : α → Bool) (l : List α) :
    (l.takeWhile p).length ≤ l.length := (List.takeWhile_sublist p).length_le

theorem blockCommentLen_le (depth : Nat) (cs : List Char) : blockCommentLen depth cs ≤ cs.length := by
  fun_induction blockCommentLen depth cs with
  | case1 => exact Nat.le_refl _
  | case2 => exact Nat.le_refl _
  | case3 _ _ _ _ _ ih => simp only [List.length_cons]; omega
  | case4 => simp only [List.length_cons]; omega
  | case5 _ _ _ _ _ _ _ ih => simp only [List.length_cons]; omega
  | case6 _ _ _ _ _ _ ih => simp only [List.length_cons] at *; omega

theorem quotedLen_le (quote : Char) (backslash : Bool) (cs : List Char) :
    quotedLen quote backslash cs ≤ cs.length := by
  fun_induction quotedLen quote backslash cs with
  | case1 => exact Nat.le_refl _
  | case2 => exact Nat.le_refl _
  | case3 _ _ _ _ ih => simp only [List.length_cons]; omega
  | case4 _ _ ih => simp only [List.length_cons]; omega
  | case5 => simp only [List.length_cons]; omega
  | case6 _ _ _ _ _ ih => simp only [List.length_cons] at *; omega

theorem occurrence?_le {sought cs : List Char} {n : Nat} (h : occurrence? sought cs = some n) :
    n + sought.length ≤ cs.length := by
  induction cs generalizing n with
  | nil =>
    unfold occurrence? at h
    split at h
    · next hempty =>
      cases h
      simp [List.isEmpty_iff.mp hempty]
    · simp at h
  | cons c cs ih =>
    unfold occurrence? at h
    split at h
    · next hfound =>
      cases h
      have := (List.isPrefixOf_iff_prefix.mp hfound).length_le
      omega
    · obtain ⟨m, hm, rfl⟩ := Option.map_eq_some_iff.mp h
      have := ih hm
      simp only [List.length_cons]
      omega

theorem dollarTag?_le {cs tag : List Char} (h : dollarTag? cs = some tag) : tag.length ≤ cs.length := by
  unfold dollarTag? at h
  split at h
  · simp at h
  · next c cs =>
    split at h
    · cases h
      simp
    · split at h
      · split at h
        · next hdollar =>
          cases h
          -- The second dollar sign stands behind the name.
          have hsplit := congrArg List.length (List.takeWhile_append_dropWhile (p := continuesName)
            (l := cs))
          have hrest : cs.dropWhile continuesName ≠ [] := by
            intro hnil
            rw [hnil] at hdollar
            simp at hdollar
          have := List.length_pos_iff.mpr hrest
          simp only [List.length_append, List.length_cons, List.length_nil] at hsplit ⊢
          omega
        · simp at h
      · simp at h

theorem radixLen?_le {letters : List Char} {digit : Char → Bool} {cs : List Char} {n : Nat}
    (h : radixLen? letters digit cs = some n) : n ≤ cs.length := by
  unfold radixLen? at h
  split at h
  · simp at h
  · next x cs =>
    have hrun := length_takeWhile_le (fun d => digit d || d == '_') cs
    grind

/-- The length of the sign of an exponent. -/
def signLen : List Char → Nat
  | s :: _ => if s = '+' ∨ s = '-' then 1 else 0
  | [] => 0

theorem exponentLen_cons (e : Char) (cs : List Char) :
    exponentLen (e :: cs) =
      if e = 'e' ∨ e = 'E' then
        if ((cs.drop (signLen cs)).takeWhile Char.isDigit).length = 0 then 0
        else 1 + signLen cs + ((cs.drop (signLen cs)).takeWhile Char.isDigit).length
      else 0 := by
  cases cs with
  | nil => rfl
  | cons s cs => rfl

theorem exponentLen_le (cs : List Char) : exponentLen cs ≤ cs.length := by
  unfold exponentLen
  split
  · exact Nat.le_refl _
  · next e cs =>
    split
    · cases cs with
      | nil => simp
      | cons s rest =>
        -- A sign is counted only if it stands at the head.
        have hsigned := length_takeWhile_le Char.isDigit ((s :: rest).drop 1)
        have hbare := length_takeWhile_le Char.isDigit ((s :: rest).drop 0)
        simp only [List.length_drop, List.length_cons] at hsigned hbare ⊢
        grind
    · exact Nat.zero_le _

theorem fractionLen_le (cs : List Char) : fractionLen cs ≤ cs.length := by
  unfold fractionLen
  split
  · exact Nat.le_refl _
  · next p cs =>
    have hdigits := length_takeWhile_le Char.isDigit cs
    simp only [List.length_cons]
    split <;> omega

theorem decimalLen_le (cs : List Char) : decimalLen cs ≤ cs.length := by
  unfold decimalLen
  have hwhole := length_takeWhile_le (fun d => d.isDigit || d == '_') cs
  generalize (cs.takeWhile fun d => d.isDigit || d == '_').length = whole at hwhole ⊢
  have hfraction := fractionLen_le (cs.drop whole)
  have hexponent := exponentLen_le (cs.drop (whole + fractionLen (cs.drop whole)))
  rw [List.length_drop] at hfraction hexponent
  show whole + fractionLen (cs.drop whole) +
    exponentLen (cs.drop (whole + fractionLen (cs.drop whole))) ≤ cs.length
  omega

theorem startsComment_cons (c : Char) (cs : List Char) :
    startsComment (c :: cs) ↔
      (c = '-' ∧ cs.head? = some '-') ∨ (c = '/' ∧ cs.head? = some '*') := by
  unfold startsComment
  split
  · next heq => cases heq; simp
  · next heq => cases heq; simp
  · next hline hblock =>
    refine iff_of_false Bool.false_ne_true ?_
    rintro (⟨rfl, hhead⟩ | ⟨rfl, hhead⟩)
    · obtain ⟨rest, rfl⟩ := List.head?_eq_some_iff.mp hhead
      exact hline rest rfl
    · obtain ⟨rest, rfl⟩ := List.head?_eq_some_iff.mp hhead
      exact hblock rest rfl

theorem operatorLen_le (cs : List Char) : operatorLen cs ≤ cs.length := by
  induction cs with
  | nil => exact Nat.le_refl _
  | cons c cs ih =>
    unfold operatorLen
    simp only [List.length_cons]
    split <;> omega

theorem numberLen?_bounds {c : Char} {cs : List Char} {n : Nat} (h : numberLen? c cs = some n) :
    1 ≤ n ∧ n ≤ 1 + cs.length := by
  have hradix : ∀ letters digit m, radixLen? letters digit cs = some m → m ≤ cs.length :=
    fun _ _ _ => radixLen?_le
  have hdecimal := decimalLen_le cs
  have hdigits := length_takeWhile_le Char.isDigit cs
  have hexponent := exponentLen_le (cs.drop (cs.takeWhile Char.isDigit).length)
  rw [List.length_drop] at hexponent
  unfold numberLen? at h
  grind

/-! ## The rules -/

/-- **A rule fits**: it takes the character it looks at, and no more than there
are. -/
def Fits (rule : Char → List Char → Option Lexeme) : Prop :=
  ∀ c cs lexeme, rule c cs = some lexeme → 1 ≤ lexeme.2 ∧ lexeme.2 ≤ 1 + cs.length

theorem fits_blank : Fits blank? := by
  intro c cs lexeme h
  have hrun := length_takeWhile_le isBlank cs
  unfold blank? at h
  grind

theorem fits_comment : Fits comment? := by
  intro c cs lexeme h
  unfold comment? at h
  split at h
  · have hrun := length_takeWhile_le (· != '\n') cs
    cases h
    exact ⟨by omega, by omega⟩
  · split at h
    · next hstar =>
      cases h
      have hle := blockCommentLen_le 0 (c :: cs)
      refine ⟨?_, by simpa [Nat.add_comm] using hle⟩
      -- The two characters that open the comment are counted.
      obtain ⟨rfl, hhead⟩ := hstar
      cases cs with
      | nil => simp at hhead
      | cons d rest =>
        obtain rfl : d = '*' := by simpa using hhead
        unfold blockCommentLen
        rw [if_pos ⟨rfl, rfl⟩]
        omega
    · simp at h

theorem fits_quoted : Fits quoted? := by
  intro c cs lexeme h
  have hsingle := quotedLen_le '\'' false cs
  have hdouble := quotedLen_le '"' false cs
  unfold quoted? at h
  grind

theorem fits_cast : Fits cast? := by
  intro c cs lexeme h
  unfold cast? at h
  split at h
  · next hcolon =>
    cases h
    cases cs with
    | nil => simp at hcolon
    | cons d rest =>
      show 1 ≤ 2 ∧ 2 ≤ 1 + (d :: rest).length
      simp only [List.length_cons]
      omega
  · simp at h

theorem fits_lettered : Fits lettered? := by
  intro c cs lexeme h
  have hquoted := quotedLen_le
  unfold lettered? at h
  grind

theorem fits_dollar : Fits dollar? := by
  intro c cs lexeme h
  unfold dollar? at h
  split at h
  · split at h
    · next tag htag =>
      have hle := dollarTag?_le htag
      simp only at h
      split at h
      · next n hn =>
        have hroom := occurrence?_le hn
        rw [List.length_cons, List.length_drop] at hroom
        cases h
        show 1 ≤ 2 * (1 + tag.length) + n ∧ 2 * (1 + tag.length) + n ≤ 1 + cs.length
        omega
      · cases h
        show 1 ≤ 1 + cs.length ∧ 1 + cs.length ≤ 1 + cs.length
        omega
    · have hdigits := length_takeWhile_le Char.isDigit cs
      grind
  · simp at h

theorem fits_parameter : Fits parameter? := by
  intro c cs lexeme h
  have hname := length_takeWhile_le continuesName cs
  unfold parameter? at h
  grind

theorem fits_number : Fits number? := by
  intro c cs lexeme h
  obtain ⟨n, hn, rfl⟩ := Option.map_eq_some_iff.mp h
  exact numberLen?_bounds hn

theorem fits_word : Fits word? := by
  intro c cs lexeme h
  have hname := length_takeWhile_le continuesWord cs
  unfold word? at h
  grind

theorem fits_operator : Fits operator? := by
  intro c cs lexeme h
  have hrun := operatorLen_le cs
  unfold operator? at h
  grind

theorem fits_punctuation : Fits punctuation? := by
  intro c cs lexeme h
  unfold punctuation? at h
  grind

theorem fits_of_mem_rules {rule : Char → List Char → Option Lexeme} (h : rule ∈ rules) : Fits rule := by
  simp only [rules, List.mem_cons, List.not_mem_nil, or_false] at h
  rcases h with rfl | rfl | rfl | rfl | rfl | rfl | rfl | rfl | rfl | rfl | rfl
  · exact fits_blank
  · exact fits_comment
  · exact fits_quoted
  · exact fits_cast
  · exact fits_lettered
  · exact fits_dollar
  · exact fits_parameter
  · exact fits_number
  · exact fits_word
  · exact fits_operator
  · exact fits_punctuation

theorem nextLexeme_bounds (c : Char) (cs : List Char) :
    1 ≤ (nextLexeme c cs).2 ∧ (nextLexeme c cs).2 ≤ 1 + cs.length := by
  unfold nextLexeme
  cases h : rules.findSome? fun rule => rule c cs with
  | none => exact ⟨Nat.le_refl _, Nat.le_add_right _ _⟩
  | some lexeme =>
    obtain ⟨rule, hrule, hsome⟩ := List.exists_of_findSome?_eq_some h
    exact fits_of_mem_rules hrule c cs lexeme hsome

/-! ## The loop -/

/-- **Tokens that tile**: each starts where the one before it stops, none is
empty, and the last one ends at `stop`. -/
def Tiles : Nat → Nat → List Token → Prop
  | pos, stop, [] => pos = stop
  | pos, stop, t :: rest => t.start = pos ∧ 0 < t.len ∧ Tiles t.stop stop rest

theorem tiles_tokensFrom (pos : Nat) (cs : List Char) :
    Tiles pos (pos + cs.length) (tokensFrom pos cs) := by
  fun_induction tokensFrom pos cs with
  | case1 pos => exact Nat.add_zero _
  | case2 pos c cs lexeme ih =>
    obtain ⟨hpos, hle⟩ := nextLexeme_bounds c cs
    refine ⟨rfl, hpos, ?_⟩
    have hstop : pos + lexeme.2 + (cs.drop (lexeme.2 - 1)).length = pos + (c :: cs).length := by
      rw [List.length_drop, List.length_cons]
      show pos + (nextLexeme c cs).2 + (cs.length - ((nextLexeme c cs).2 - 1)) = pos + (cs.length + 1)
      omega
    rw [hstop] at ih
    exact ih

/-- A token as it stands when `n` characters are put in front of its text. -/
def Token.shift (n : Nat) (t : Token) : Token := { t with start := t.start + n }

/-- The tokens of a text do not depend on where it begins, except for their places. -/
theorem tokensFrom_add (pos n : Nat) (cs : List Char) :
    tokensFrom (pos + n) cs = (tokensFrom pos cs).map (Token.shift n) := by
  fun_induction tokensFrom pos cs with
  | case1 pos => rw [tokensFrom, List.map_nil]
  | case2 pos c cs lexeme ih =>
    rw [tokensFrom, List.map_cons, ← ih, Nat.add_right_comm]
    rfl

theorem tokensFrom_eq_map (pos : Nat) (cs : List Char) :
    tokensFrom pos cs = (tokenize cs).map (Token.shift pos) := by
  rw [tokenize, ← tokensFrom_add, Nat.zero_add]

/-- **The tokens of a text tile it.** -/
theorem tiles_tokenize (text : List Char) : Tiles 0 text.length (tokenize text) := by
  have h := tiles_tokensFrom 0 text
  rwa [Nat.zero_add] at h

namespace Tiles

theorem le {pos stop : Nat} {tokens : List Token} (h : Tiles pos stop tokens) : pos ≤ stop := by
  induction tokens generalizing pos with
  | nil => exact Nat.le_of_eq h
  | cons t tokens ih =>
    obtain ⟨rfl, -, hrest⟩ := h
    exact Nat.le_trans (Nat.le_add_right _ _) (ih hrest)

theorem bounds {pos stop : Nat} {tokens : List Token} (h : Tiles pos stop tokens) {t : Token}
    (ht : t ∈ tokens) : pos ≤ t.start ∧ t.stop ≤ stop := by
  induction tokens generalizing pos with
  | nil => simp at ht
  | cons u tokens ih =>
    obtain ⟨rfl, -, hrest⟩ := h
    rcases List.mem_cons.mp ht with rfl | ht
    · exact ⟨Nat.le_refl _, hrest.le⟩
    · obtain ⟨hstart, hstop⟩ := ih hrest ht
      exact ⟨Nat.le_trans (Nat.le_add_right _ _) hstart, hstop⟩

theorem pairwise {pos stop : Nat} {tokens : List Token} (h : Tiles pos stop tokens) :
    tokens.Pairwise fun t u => t.stop ≤ u.start := by
  induction tokens generalizing pos with
  | nil => exact .nil
  | cons t tokens ih =>
    obtain ⟨-, -, hrest⟩ := h
    exact List.pairwise_cons.mpr ⟨fun u hu => (hrest.bounds hu).1, ih hrest⟩

end Tiles

end Sql

end EmbeddedSql
