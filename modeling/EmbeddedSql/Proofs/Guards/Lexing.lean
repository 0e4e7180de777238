import EmbeddedSql.Checked.Lexer
import EmbeddedSql.Proofs.ByteBoundaries
import EmbeddedSql.Proofs.Guards.Spans

/-!
# Splitting into tokens without failure

The lexer over bytes already answers where a character ends, and what it answers
stays inside the text. So a checked scan need not be followed through the
characters once more: as long as the answer of the scan it stands for stays
inside the text, it finds the same answer, and no index on the way leaves the
text either (`Keeps`).

The depth of a block comment is at least one from its second byte on, because
the first round of the scan meets the mark that opens the comment. The round
that would take the last one away is the one that ends the scan.
-/

namespace EmbeddedSql

namespace Checked

open Sql

theorem length_bytesOf (cs : List Char) : (bytesOf cs).length = utf8Length cs := by
  induction cs with
  | nil => rfl
  | cons c cs ih =>
    rw [bytesOf_cons, List.length_append, String.length_utf8EncodeChar, ih, utf8Length]

/-! ## Scans -/

section Scans

variable {bytes : List UInt8} (hlen : bytes.length + 1 < 2 ^ 64)

include hlen in
/-- The scan of a block comment that is open. -/
theorem blockComment_eq {depth i : Nat} (hdepth : 1 ≤ depth) (hle : depth ≤ i)
    (hi : i ≤ bytes.length) :
    blockComment bytes depth i = some (i + blockCommentBytes depth (bytes.drop i)) := by
  induction hn : bytes.length - i using Nat.strongRecOn generalizing depth i with
  | ind n ih =>
    rw [blockComment, add_eq (by omega), some_bind]
    match hrest : bytes.drop i with
    | [] =>
      rw [List.drop_eq_nil_iff] at hrest
      rw [if_neg (by omega), blockCommentBytes, Nat.le_antisymm hi hrest]
      rfl
    | [a] =>
      have hlast := congrArg List.length hrest
      rw [List.length_drop, List.length_singleton] at hlast
      rw [if_neg (by omega), blockCommentBytes, show bytes.length = i + 1 by omega]
      rfl
    | a :: b :: rest =>
      obtain ⟨hlt, ha, hrest'⟩ := drop_eq_cons hrest
      obtain ⟨hlt', hb, hrest''⟩ := drop_eq_cons hrest'
      rw [if_pos hlt', ha, some_bind, hb, some_bind, blockCommentBytes]
      split
      · rw [add_eq (by omega), some_bind, add_eq (by omega), some_bind,
          ih _ (by omega) (by omega) (by omega) (by omega) rfl, hrest'', Nat.add_assoc]
      · split
        · rw [sub_eq hdepth, some_bind, add_eq (by omega), some_bind]
          by_cases hlast : depth ≤ 1
          · rw [if_pos (by omega), if_pos hlast]
            rfl
          · rw [if_neg (by omega), if_neg hlast,
              ih _ (by omega) (by omega) (by omega) (by omega) rfl, hrest'', Nat.add_assoc]
        · rw [ih _ (by omega) hdepth (by omega) (by omega) rfl, hrest', Nat.add_assoc]

include hlen in
/-- The scan of a quoted text that ends inside the text. -/
theorem quoted_eq {quote : UInt8} {backslash : Bool} {i m : Nat}
    (h : quotedBytes? quote backslash (bytes.drop i) = some m) (hm : i + m ≤ bytes.length) :
    quoted bytes quote backslash i = some (i + m) := by
  induction hn : bytes.length - i using Nat.strongRecOn generalizing i m with
  | ind n ih =>
    cases hrest : bytes.drop i with
    | nil =>
      rw [hrest, quotedBytes?] at h
      cases h
      rw [List.drop_eq_nil_iff] at hrest
      rw [quoted, if_neg (by omega), Nat.le_antisymm hm hrest]
    | cons b rest =>
      obtain ⟨hlt, hb, rfl⟩ := drop_eq_cons hrest
      rw [hrest, quotedBytes?] at h
      rw [quoted, if_pos hlt, hb, some_bind, add_eq (by omega), some_bind]
      split at h
      · next hescape =>
        rw [if_pos hescape]
        cases hwidth : charBytes? (bytes.drop (i + 1)) with
        | none => simp [hwidth] at h
        | some width =>
          simp only [hwidth] at h
          obtain ⟨k, hk, rfl⟩ := Option.map_eq_some_iff.mp h
          rw [List.drop_drop] at hk
          rw [bytesFrom, cut_from hlt, some_bind, hwidth, some_bind]
          show (charBytes? (bytes.drop (i + 1)) >>= _) = _
          rw [hwidth, some_bind, add_eq (by omega), some_bind, ih _ (by omega) hk (by omega) rfl]
          congr 1
          omega
      · next hescape =>
        rw [if_neg hescape]
        split at h
        · next hquote =>
          rw [if_pos hquote, ← List.head?_drop]
          split at h
          · next hdouble =>
            obtain ⟨k, hk, rfl⟩ := Option.map_eq_some_iff.mp h
            rw [List.drop_drop] at hk
            rw [if_pos hdouble, add_eq (by omega), some_bind, ih _ (by omega) hk (by omega) rfl]
            congr 1
            omega
          · next hdouble =>
            cases h
            rw [if_neg hdouble]
            rfl
        · next hquote =>
          obtain ⟨k, hk, rfl⟩ := Option.map_eq_some_iff.mp h
          rw [if_neg hquote, ih _ (by omega) hk (by omega) rfl]
          congr 1
          omega

theorem charBytes?_operator {b : UInt8} (hb : isOperatorByte b = true) (rest : List UInt8) :
    charBytes? (b :: rest) = some 1 := by
  have hascii : b.toNat < 128 := by
    by_contra hforeign
    rw [isOperatorByte_foreign (Nat.le_of_not_lt hforeign)] at hb
    exact Bool.false_ne_true hb
  rw [charBytes?, if_pos (UInt8.lt_iff_toNat_lt.mpr hascii)]

theorem isPrefixOf_pair (a a' b : UInt8) (rest : List UInt8) :
    [a, a'].isPrefixOf (b :: rest) = true ↔ b = a ∧ rest.head? = some a' := by
  cases rest with
  | nil => simp
  | cons d rest => simp [eq_comm (a := a), eq_comm (a := a')]

include hlen in
/-- The scan of an operator behind its first byte. -/
theorem operatorRun_eq {i : Nat} (hi : 0 < i) (hle : i ≤ bytes.length) :
    operatorRun bytes i = some (i + operatorBytes (bytes.drop i)) := by
  induction hn : bytes.length - i using Nat.strongRecOn generalizing i with
  | ind n ih =>
    cases hrest : bytes.drop i with
    | nil =>
      rw [List.drop_eq_nil_iff] at hrest
      rw [operatorRun, if_neg (by omega)]
      rfl
    | cons b rest =>
      obtain ⟨hlt, hb, rfl⟩ := drop_eq_cons hrest
      rw [operatorRun, if_pos hlt, hb, some_bind, operatorBytes]
      by_cases hoperator : isOperatorByte b = true
      · rw [if_pos hoperator, commentAt, if_pos hi, bytesFrom, cut_from (Nat.le_of_lt hlt), hrest,
          some_bind, charBytes?_operator hoperator, some_bind]
        show (if (_ || _) = true then some i else _) = _
        simp only [Bool.or_eq_true, isPrefixOf_pair]
        split
        · next hcomment =>
          rw [if_neg fun h => hcomment.elim h.2.1 h.2.2]
          rfl
        · next hcomment =>
          rw [if_pos ⟨hoperator, not_or.mp hcomment⟩, add_eq (by omega), some_bind,
            ih _ (by omega) (by omega) (by omega) rfl, Nat.add_assoc]
      · rw [if_neg hoperator, if_neg fun h => hoperator h.1]
        rfl

end Scans

/-! ## The rules on bytes -/

/-- A checked rule gives the answer of a rule, as long as that answer stays
inside the text. -/
def Keeps (checked : List UInt8 → Option (Option Lexeme))
    (rule : UInt8 → List UInt8 → Option (Option Lexeme)) : Prop :=
  ∀ ⦃b rest answer⦄, (b :: rest).length + 1 < 2 ^ 64 → rule b rest = some answer →
    (∀ lexeme ∈ answer, lexeme.2 ≤ (b :: rest).length) → checked (b :: rest) = some answer

theorem getElem?_one (b : UInt8) (rest : List UInt8) : (b :: rest)[1]? = rest.head? := by
  rw [List.getElem?_cons_succ, List.head?_eq_getElem?]

theorem getElem?_two (b d : UInt8) (rest : List UInt8) : (b :: d :: rest)[2]? = rest.head? := by
  rw [List.getElem?_cons_succ, getElem?_one]

/-- The scan of a block comment from its opening mark on, which opens the first
level. -/
theorem blockComment_opening {rest : List UInt8}
    (hlen : ('/'.toUInt8 :: '*'.toUInt8 :: rest).length + 1 < 2 ^ 64) :
    blockComment ('/'.toUInt8 :: '*'.toUInt8 :: rest) 0 0
      = some (blockCommentBytes 0 ('/'.toUInt8 :: '*'.toUInt8 :: rest)) := by
  rw [blockComment, add_eq (by decide), some_bind, if_pos (by simp), List.getElem?_cons_zero,
    some_bind, getElem?_one, List.head?_cons, some_bind, if_pos ⟨rfl, rfl⟩, some_bind,
    add_eq (by decide), some_bind, blockComment_eq hlen (Nat.le_refl 1) (by decide) (by simp),
    blockCommentBytes, if_pos ⟨rfl, rfl⟩]
  rfl

theorem keeps_comment : Keeps comment commentBytes := by
  intro b rest answer hlen h _
  unfold commentBytes at h
  unfold comment
  rw [List.getElem?_cons_zero, some_bind, getElem?_one]
  split at h
  · next hline =>
    cases h
    rw [if_pos hline, hline.1, List.takeWhile_cons_of_pos (by decide), List.length_cons,
      Nat.add_comm]
    rfl
  · next hline =>
    split at h
    · next hblock =>
      cases h
      rw [if_neg hline, if_pos hblock]
      obtain ⟨rfl, hstar⟩ := hblock
      obtain ⟨rest, rfl⟩ := List.head?_eq_some_iff.mp hstar
      rw [blockComment_opening hlen]
      rfl
    · next hblock =>
      cases h
      rw [if_neg hline, if_neg hblock]
      rfl

theorem quotedFrom_eq {category : Category} {bytes rest : List UInt8} {opening : Nat} {quote : Char}
    {backslash : Bool} {answer : Option Lexeme} (hlen : bytes.length + 1 < 2 ^ 64)
    (hrest : bytes.drop (opening + 1) = rest)
    (h : quotedAfter category (opening + 1) quote backslash rest = some answer)
    (hle : ∀ lexeme ∈ answer, lexeme.2 ≤ bytes.length) :
    quotedFrom category bytes opening quote backslash = some answer := by
  obtain ⟨n, hn, rfl⟩ := Option.map_eq_some_iff.mp h
  have hroom : opening + 1 + n ≤ bytes.length := hle _ rfl
  rw [quotedFrom, add_eq (by omega), some_bind, quoted_eq hlen (hrest ▸ hn) hroom]
  rfl

theorem keeps_plainQuote : Keeps plainQuote plainQuoteBytes := by
  intro b rest answer hlen h hle
  unfold plainQuoteBytes at h
  unfold plainQuote
  rw [List.getElem?_cons_zero, some_bind]
  split at h
  · next hquote =>
    rw [if_pos hquote, quotedFrom_eq hlen rfl h hle]
  · next hquote =>
    rw [if_neg hquote]
    split at h
    · next hname => rw [if_pos hname, quotedFrom_eq hlen rfl h hle]
    · next hname =>
      rw [if_neg hname, ← h]
      rfl

theorem keeps_cast : Keeps cast castBytes := by
  intro b rest answer _ h _
  rw [← h]
  unfold cast castBytes
  rw [List.getElem?_cons_zero, some_bind, getElem?_one]
  split
  · rfl
  · rfl

theorem keeps_lettered : Keeps lettered letteredBytes := by
  intro b rest answer hlen h hle
  unfold lettered
  rw [List.getElem?_cons_zero, some_bind]
  cases rest with
  | nil =>
    rw [← h]
    simp [letteredBytes]
  | cons d rest =>
    unfold letteredBytes at h
    simp only [getElem?_one, getElem?_two, List.head?_cons, Option.some_inj]
    simp only at h
    split at h
    · next hunicode =>
      rw [if_pos hunicode]
      cases rest with
      | nil =>
        rw [← h]
        rfl
      | cons q body =>
        simp only [List.head?_cons, Option.some_inj]
        dsimp only at h
        split at h
        · next hquote => rw [if_pos hquote, quotedFrom_eq hlen rfl h hle]
        · next hquote =>
          rw [if_neg hquote]
          split at h
          · next hname => rw [if_pos hname, quotedFrom_eq hlen rfl h hle]
          · next hname =>
            rw [if_neg hname, ← h]
            rfl
    · next hunicode =>
      rw [if_neg hunicode]
      split at h
      · next hquote =>
        rw [if_pos hquote]
        split at h
        · next hescape => rw [if_pos hescape, quotedFrom_eq hlen rfl h hle]
        · next hescape =>
          rw [if_neg hescape]
          split at h
          · next hletter => rw [if_pos hletter, quotedFrom_eq hlen rfl h hle]
          · next hletter =>
            rw [if_neg hletter, ← h]
            rfl
      · next hquote =>
        rw [if_neg hquote, ← h]
        rfl

theorem keeps_operator : Keeps operator operatorRunBytes := by
  intro b rest answer hlen h _
  rw [← h]
  unfold operator operatorRunBytes
  rw [List.getElem?_cons_zero, some_bind]
  split
  · next hoperator =>
    -- Behind the first byte a comment may end the operator, at it none can.
    have hone : operatorRun (b :: rest) 0 = operatorRun (b :: rest) 1 := by
      conv_lhs => unfold operatorRun
      rw [if_pos (by simp), List.getElem?_cons_zero, some_bind, if_pos hoperator]
      rfl
    rw [hone, operatorRun_eq hlen Nat.one_pos (by simp)]
    rfl
  · rfl

theorem keeps_punctuation : Keeps punctuation punctuationBytes := by
  intro b rest answer _ h _
  rw [← h]
  unfold punctuation punctuationBytes
  rw [List.getElem?_cons_zero, some_bind]
  split
  · rfl
  · rfl

/-! ## The rules on characters -/

/-- **A checked rule on bytes answers as the rule on characters**, measured in
bytes. -/
theorem onText_eq {checked : List UInt8 → Option (Option Lexeme)}
    {byteRule : UInt8 → List UInt8 → Option (Option Lexeme)}
    {rule : Char → List Char → Option Lexeme} (hkeeps : Keeps checked byteRule)
    (hrule : onBytes byteRule = measured rule) {c : Char} {cs : List Char}
    (hlen : utf8Length (c :: cs) + 1 < 2 ^ 64) : onText checked c cs = measured rule c cs := by
  have hanswer := congrFun (congrFun hrule c) cs
  rw [← length_bytesOf] at hlen
  unfold onText
  unfold onBytes at hanswer
  cases hbytes : bytesOf (c :: cs) with
  | nil =>
    rw [bytesOf_cons, List.append_eq_nil_iff] at hbytes
    exact absurd hbytes.1 String.utf8EncodeChar_ne_nil
  | cons b rest =>
    rw [hbytes] at hanswer hlen
    refine hkeeps hlen hanswer fun lexeme hlexeme => ?_
    obtain ⟨found, -, rfl⟩ := Option.map_eq_some_iff.mp hlexeme
    rw [← hbytes, length_bytesOf]
    exact utf8Length_take_le _ _

theorem dollarTag?_prefix {cs tag : List Char} (h : dollarTag? cs = some tag) : tag <+: cs := by
  unfold dollarTag? at h
  split at h
  · simp at h
  · next c cs =>
    split at h
    · next hc =>
      cases h
      exact ⟨cs, by rw [hc, List.singleton_append]⟩
    · split at h
      · split at h
        · next hdollar =>
          cases h
          obtain ⟨rest, hrest⟩ := List.head?_eq_some_iff.mp hdollar
          refine ⟨rest, ?_⟩
          rw [List.append_assoc, List.singleton_append, ← hrest, List.cons_append,
            List.takeWhile_append_dropWhile]
        · simp at h
      · simp at h

theorem occurrence?_prefix {sought cs : List Char} {n : Nat} (h : occurrence? sought cs = some n) :
    sought <+: cs.drop n := by
  induction cs generalizing n with
  | nil =>
    unfold occurrence? at h
    split at h
    · next hempty =>
      rw [List.isEmpty_iff.mp hempty]
      exact List.nil_prefix
    · simp at h
  | cons c cs ih =>
    unfold occurrence? at h
    split at h
    · next hfound =>
      cases h
      exact List.isPrefixOf_iff_prefix.mp hfound
    · obtain ⟨m, hm, rfl⟩ := Option.map_eq_some_iff.mp h
      exact ih hm

/-- The text behind its first characters, cut off by their bytes. -/
theorem textFrom_eq (text : List Char) {n : Nat} (hn : n ≤ text.length) :
    textFrom text (utf8Length (text.take n)) = some (text.drop n) := by
  rw [textFrom, charsIn?_take text hn]
  rfl

theorem dollar_eq {c : Char} {cs : List Char} (hlen : utf8Length (c :: cs) < 2 ^ 64) :
    dollar c cs = measured dollar? c cs := by
  unfold dollar
  split
  · rfl
  · next tag htag =>
    obtain ⟨rfl, hcs⟩ : c = '$' ∧ dollarTag? cs = some tag := by simpa using htag
    obtain ⟨body, rfl⟩ := dollarTag?_prefix hcs
    have hbody : textFrom ('$' :: (tag ++ body)) (utf8Length ('$' :: tag)) = some body := by
      simpa using textFrom_eq ('$' :: (tag ++ body)) (n := tag.length + 1) (by simp)
    simp only [hbody, some_bind]
    unfold measured dollar?
    rw [if_pos rfl, hcs]
    simp only [List.drop_left]
    cases hn : occurrence? ('$' :: tag) body with
    | none =>
      simp only [Option.map_some]
      rw [List.take_of_length_le (by rw [List.length_cons]; omega)]
      rfl
    | some n =>
      -- The text is its delimiter, what stands up to the next one, that one, and the rest.
      obtain ⟨rest, hrest⟩ := occurrence?_prefix hn
      have hle := occurrence?_le hn
      have hsplit : '$' :: (tag ++ body) = ('$' :: tag ++ body.take n ++ '$' :: tag) ++ rest := by
        rw [List.append_assoc, hrest, List.append_assoc, List.take_append_drop, List.cons_append]
      have hlength :
          ('$' :: tag ++ body.take n ++ '$' :: tag).length = 2 * (1 + tag.length) + n := by
        simp only [List.length_append, List.length_cons, List.length_take] at hle ⊢
        omega
      rw [hsplit, utf8Length_append, utf8Length_append, utf8Length_append] at hlen
      simp only [Option.map_some]
      rw [hsplit, List.take_left' hlength, utf8Length_append, utf8Length_append, add_eq (by omega),
        some_bind, add_eq (by omega)]
      rfl

/-! ## The loop -/

/-- **The token at the head of a text** is found as the lexer over bytes does. -/
theorem nextLexeme_eq {c : Char} {cs : List Char} (hlen : utf8Length (c :: cs) + 1 < 2 ^ 64) :
    nextLexeme c cs = nextInBytes? c cs := by
  unfold nextLexeme nextInBytes? textRules
  rw [byteRules_eq]
  simp only [rules, List.map_cons, List.map_nil, List.findSomeM?,
    onText_eq keeps_comment onBytes_commentBytes hlen,
    onText_eq keeps_plainQuote onBytes_plainQuoteBytes hlen,
    onText_eq keeps_cast onBytes_castBytes hlen,
    onText_eq keeps_lettered onBytes_letteredBytes hlen,
    onText_eq keeps_operator onBytes_operatorRunBytes hlen,
    onText_eq keeps_punctuation onBytes_punctuationBytes hlen, dollar_eq (Nat.lt_of_succ_lt hlen)]

theorem utf8Length_drop (cs : List Char) (n : Nat) :
    utf8Length (cs.take n) + utf8Length (cs.drop n) = utf8Length cs := by
  rw [← utf8Length_append, List.take_append_drop]

theorem length_le_utf8Length (cs : List Char) : cs.length ≤ utf8Length cs := by
  induction cs with
  | nil => exact Nat.le_refl _
  | cons c cs ih =>
    have hpos := c.utf8Size_pos
    rw [List.length_cons, utf8Length]
    omega

theorem utf8Length_le (cs : List Char) : utf8Length cs ≤ 4 * cs.length := by
  induction cs with
  | nil => exact Nat.le_refl _
  | cons c cs ih =>
    have hsize := c.utf8Size_le_four
    rw [List.length_cons, utf8Length]
    omega

theorem tokens_eq_tokensFrom {text : List Char} (hlen : utf8Length text + 1 < 2 ^ 64) {k : Nat}
    (hk : k ≤ text.length) :
    tokens text (utf8Length (text.take k)) k = some (tokensFrom k (text.drop k)) := by
  induction hn : text.length - k using Nat.strongRecOn generalizing k with
  | ind n ih =>
    have hsplit := utf8Length_drop text k
    rw [tokens]
    cases hrest : text.drop k with
    | nil =>
      rw [hrest, utf8Length] at hsplit
      rw [if_neg (by omega), tokensFrom]
    | cons c cs =>
      rw [hrest] at hsplit
      have hwidth := length_le_utf8Length text
      have hcount := congrArg List.length hrest
      obtain ⟨hpos, hle⟩ := nextLexeme_bounds c cs
      have hsize := c.utf8Size_pos
      rw [List.length_drop, List.length_cons] at hcount
      rw [if_pos (by rw [utf8Length] at hsplit; omega), textFrom_eq text hk, hrest, some_bind]
      simp only
      rw [nextLexeme_eq (by omega), nextInBytes?_eq, some_bind, tokensFrom]
      generalize Sql.nextLexeme c cs = lexeme at hpos hle ⊢
      have hpast : utf8Length (text.take k) + utf8Length ((c :: cs).take lexeme.2)
          = utf8Length (text.take (k + lexeme.2)) := by
        rw [List.take_add, hrest, utf8Length_append]
      have hnext := utf8Length_drop text (k + lexeme.2)
      have htail : text.drop (k + lexeme.2) = cs.drop (lexeme.2 - 1) := by
        rw [← List.drop_drop, hrest, List.drop_cons hpos]
      have hlonger : 0 < utf8Length ((c :: cs).take lexeme.2) := by
        have hchars := length_le_utf8Length ((c :: cs).take lexeme.2)
        rw [List.length_take, List.length_cons] at hchars
        omega
      simp only
      rw [add_eq (by omega), some_bind, charsIn?_take _ (by rw [List.length_cons]; omega),
        some_bind, add_eq (by omega), some_bind, if_pos hlonger, hpast, ih _ (by omega) (by omega) rfl,
        htail]
      rfl

/-- **The tokens of a text, checked.** -/
theorem tokens_eq {text : List Char} (hlen : text.length < 2 ^ 62) :
    tokens text 0 0 = some (tokenize text) := by
  have hbytes := utf8Length_le text
  have hword : utf8Length text + 1 < 2 ^ 64 := by omega
  exact tokens_eq_tokensFrom hword (Nat.zero_le _)

end Checked

end EmbeddedSql
