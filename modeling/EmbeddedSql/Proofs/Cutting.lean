import EmbeddedSql.Proofs.CutScans

/-!
# Cutting a text at the end of a token

Many rules of the lexer look beyond the token they answer with. A quote may be
doubled, the letter behind a number may begin an exponent, a dollar sign may
open a delimiter, and an operator has to stop before a comment. So it is not
plain that a text that is cut where a token ends still has that token, and those
before it.

What a rule sees beyond its token only ever holds it back. A rule that does not
answer on the whole text does not answer on the cut text, and an answer that fits
into the cut text is given there too. Operators are the one exception: in `+--`
the operator is the plus sign, and if the second dash is cut off, it is `+-`. But
a cut at the end of a token does not go through the mark of a comment, since a
comment takes the whole mark. That is what it means for a cut to spare a token
(`Spares`), and no rule notices a cut that spares its token (`Settled`).
-/

namespace EmbeddedSql

namespace Sql

/-! ## Rules on a text that is cut -/

/-- **A cut spares a lexeme** if it is not made inside of it, nor inside of the
mark of a comment right behind it. Here `cs` is what follows the first character,
and `ds` is what is left of it. -/
structure Spares (ds cs : List Char) (lexeme : Lexeme) : Prop where
  /-- The cut is not made inside of the lexeme. -/
  fits : lexeme.2 ≤ 1 + ds.length
  /-- The cut is not made inside of the mark behind it. -/
  mark : startsComment (cs.drop (lexeme.2 - 1)) = true →
    ds.drop (lexeme.2 - 1) = [] ∨ startsComment (ds.drop (lexeme.2 - 1)) = true

/-- **A rule is settled** by the text it takes: a cut that spares its answer does
not change it, and no cut makes it answer. -/
def Settled (rule : Char → List Char → Option Lexeme) : Prop :=
  ∀ ⦃c cs ds⦄, ds <+: cs → (∀ lexeme ∈ rule c cs, Spares ds cs lexeme) → rule c ds = rule c cs

theorem settled_blank : Settled blank? := by
  intro c cs ds h hspares
  unfold blank? at hspares ⊢
  split
  · next hblank =>
    rw [if_pos hblank] at hspares
    rw [takeWhile_cut h (Nat.le_of_add_le_add_left (hspares _ rfl).fits)]
  · rfl

/-- A rule that takes at least two characters is settled if it is when the cut
leaves the second one. -/
theorem settled_of_two_le {rule : Char → List Char → Option Lexeme}
    (htwo : ∀ c cs, ∀ lexeme ∈ rule c cs, 2 ≤ lexeme.2) (hnil : ∀ c, rule c [] = none)
    (hcons : ∀ c d cs es, es <+: cs → (∀ lexeme ∈ rule c (d :: cs), Spares (d :: es) (d :: cs) lexeme) →
      rule c (d :: es) = rule c (d :: cs)) : Settled rule := by
  intro c cs ds h hspares
  cases cs with
  | nil => rw [List.prefix_nil.mp h]
  | cons d cs =>
    rcases List.prefix_cons_iff.mp h with rfl | ⟨es, rfl, hes⟩
    · rw [hnil, eq_comm, Option.eq_none_iff_forall_ne_some]
      intro lexeme hlexeme
      exact absurd (Nat.le_trans (htwo _ _ _ hlexeme) (hspares _ hlexeme).fits) (by decide)
    · exact hcons c d cs es hes hspares

theorem two_le_of_comment? {c : Char} {cs : List Char} {lexeme : Lexeme}
    (h : comment? c cs = some lexeme) : 2 ≤ lexeme.2 := by
  unfold comment? at h
  split at h
  · next hline =>
    obtain rfl := Option.some.inj h
    obtain ⟨rest, rfl⟩ := List.head?_eq_some_iff.mp hline.2
    rw [List.takeWhile_cons_of_pos (by decide), List.length_cons]
    omega
  · rw [Option.ite_none_right_eq_some] at h
    obtain ⟨⟨rfl, hhead⟩, h⟩ := h
    obtain rfl := Option.some.inj h
    obtain ⟨rest, rfl⟩ := List.head?_eq_some_iff.mp hhead
    rw [blockCommentLen, if_pos ⟨rfl, rfl⟩]
    exact Nat.le_add_right 2 _

theorem settled_comment : Settled comment? := by
  refine settled_of_two_le (fun c cs lexeme => two_le_of_comment?) (fun c => ?_)
    fun c d cs es hes hspares => ?_
  · simp [comment?]
  · have hcons : d :: es <+: d :: cs := List.cons_prefix_cons.mpr ⟨rfl, hes⟩
    unfold comment? at hspares ⊢
    rw [List.head?_cons] at hspares ⊢
    rw [List.head?_cons]
    split
    · next hline =>
      rw [if_pos hline] at hspares
      rw [takeWhile_cut hcons (Nat.le_of_add_le_add_left (hspares _ rfl).fits)]
    · next hline =>
      rw [if_neg hline] at hspares
      split
      · next hblock =>
        rw [if_pos hblock] at hspares
        have hfits := (hspares _ rfl).fits
        rw [blockCommentLen_cut (List.cons_prefix_cons.mpr ⟨rfl, hcons⟩)
          (by rwa [List.length_cons, Nat.add_comm])]
      · rfl

theorem settled_quoted : Settled quoted? := by
  intro c cs ds h hspares
  unfold quoted? at hspares ⊢
  split
  · next hquote =>
    rw [if_pos hquote] at hspares
    rw [quotedLen_cut h (Nat.le_of_add_le_add_left (hspares _ rfl).fits)]
  · next hquote =>
    rw [if_neg hquote] at hspares
    split
    · next hname =>
      rw [if_pos hname] at hspares
      rw [quotedLen_cut h (Nat.le_of_add_le_add_left (hspares _ rfl).fits)]
    · rfl

theorem settled_cast : Settled cast? := by
  refine settled_of_two_le (fun c cs lexeme hlexeme => ?_) (fun c => ?_) fun c d cs es _ _ => ?_
  · unfold cast? at hlexeme
    rw [Option.mem_ite_none_right] at hlexeme
    obtain rfl := Option.some.inj hlexeme.2
    exact Nat.le_refl 2
  · simp [cast?]
  · rfl

theorem settled_lettered : Settled lettered? := by
  refine settled_of_two_le (fun c cs lexeme hlexeme => ?_) (fun c => rfl) fun c d cs es hes hspares => ?_
  · unfold lettered? at hlexeme
    grind
  · unfold lettered? at hspares ⊢
    dsimp only at hspares ⊢
    split
    · next hunicode =>
      rw [if_pos hunicode] at hspares
      cases cs with
      | nil => rw [List.prefix_nil.mp hes]
      | cons q body =>
        dsimp only at hspares ⊢
        rcases List.prefix_cons_iff.mp hes with rfl | ⟨fs, rfl, hfs⟩
        · -- An opening of three characters does not fit into two.
          dsimp only
          rw [eq_comm, Option.eq_none_iff_forall_ne_some]
          intro lexeme hlexeme
          have hfits := (hspares lexeme hlexeme).fits
          rw [List.length_singleton] at hfits
          grind
        · have hquoted : ∀ quote, 3 + quotedLen quote false body ≤ 1 + (d :: q :: fs).length →
              quotedLen quote false fs = quotedLen quote false body := fun quote hle =>
            quotedLen_cut hfs (by rw [List.length_cons, List.length_cons] at hle; omega)
          dsimp only
          split
          · next hquote =>
            rw [if_pos hquote] at hspares
            rw [hquoted _ (hspares _ rfl).fits]
          · next hquote =>
            rw [if_neg hquote] at hspares
            split
            · next hname =>
              rw [if_pos hname] at hspares
              rw [hquoted _ (hspares _ rfl).fits]
            · rfl
    · next hunicode =>
      have hquoted : ∀ backslash, 2 + quotedLen '\'' backslash cs ≤ 1 + (d :: es).length →
          quotedLen '\'' backslash es = quotedLen '\'' backslash cs := fun backslash hle =>
        quotedLen_cut hes (by rw [List.length_cons] at hle; omega)
      rw [if_neg hunicode] at hspares
      split
      · next hquote =>
        rw [if_pos hquote] at hspares
        split
        · next hescape =>
          rw [if_pos hescape] at hspares
          rw [hquoted _ (hspares _ rfl).fits]
        · next hescape =>
          rw [if_neg hescape] at hspares
          split
          · next hletter =>
            rw [if_pos hletter] at hspares
            rw [hquoted _ (hspares _ rfl).fits]
          · rfl
      · rfl

theorem settled_dollar : Settled dollar? := by
  intro c cs ds h hspares
  unfold dollar? at hspares ⊢
  split
  · next hdollar =>
    rw [if_pos hdollar] at hspares
    cases htag : dollarTag? cs with
    | some tag =>
      rw [htag] at hspares
      dsimp only at hspares ⊢
      cases hn : occurrence? ('$' :: tag) (cs.drop tag.length) with
      | some n =>
        rw [hn] at hspares
        have hfits : 2 * (1 + tag.length) + n ≤ 1 + ds.length := (hspares _ rfl).fits
        rw [dollarTag?_cut h htag (by omega)]
        dsimp only
        rw [occurrence?_cut (h.drop _) hn (by rw [List.length_drop, List.length_cons]; omega)]
      | none =>
        -- The text runs to the end, so there was no cut.
        rw [hn] at hspares
        obtain rfl := h.eq_of_length_le (Nat.le_of_add_le_add_left (hspares _ rfl).fits)
        rw [htag]
        dsimp only
        rw [hn]
    | none =>
      have hnone : dollarTag? ds = none := by
        rw [Option.eq_none_iff_forall_ne_some]
        intro tag hds
        exact absurd (htag.symm.trans (dollarTag?_mono h hds)) (Option.some_ne_none tag).symm
      rw [htag] at hspares
      rw [hnone]
      dsimp only at hspares ⊢
      have hdigits : ds.takeWhile Char.isDigit = cs.takeWhile Char.isDigit := by
        refine takeWhile_cut h ?_
        split at hspares
        · omega
        · have := (hspares _ rfl).fits
          dsimp only at this
          omega
      rw [hdigits]
  · rfl

theorem settled_parameter : Settled parameter? := by
  refine settled_of_two_le (fun c cs lexeme hlexeme => ?_) (fun c => ?_) fun c d cs es hes hspares => ?_
  · unfold parameter? at hlexeme
    rw [Option.mem_ite_none_right] at hlexeme
    obtain ⟨⟨-, hhead⟩, hlexeme⟩ := hlexeme
    obtain rfl := Option.some.inj hlexeme
    cases cs with
    | nil => simp at hhead
    | cons d cs =>
      -- What starts a name continues one.
      rw [List.head?_cons, Option.any_some, startsWord, Bool.or_eq_true] at hhead
      have hname : continuesName d = true := by
        rw [continuesName, Bool.or_eq_true, Bool.or_eq_true]
        exact hhead.imp_left Or.inl
      rw [List.takeWhile_cons_of_pos hname, List.length_cons]
      omega
  · simp [parameter?]
  · unfold parameter? at hspares ⊢
    rw [List.head?_cons] at hspares ⊢
    rw [List.head?_cons]
    split
    · next hname =>
      rw [if_pos hname] at hspares
      rw [takeWhile_cut (List.cons_prefix_cons.mpr ⟨rfl, hes⟩)
        (Nat.le_of_add_le_add_left (hspares _ rfl).fits)]
    · rfl

theorem settled_number : Settled number? := by
  intro c cs ds h hspares
  unfold number? at hspares ⊢
  refine congrArg (Option.map _) (numberLen?_cut h fun n hn => ?_)
  exact (hspares (.number, n) (Option.map_eq_some_iff.mpr ⟨n, hn, rfl⟩)).fits

theorem settled_word : Settled word? := by
  intro c cs ds h hspares
  unfold word? at hspares ⊢
  split
  · next hword =>
    rw [if_pos hword] at hspares
    rw [takeWhile_cut h (Nat.le_of_add_le_add_left (hspares _ rfl).fits)]
  · rfl

theorem settled_operator : Settled operator? := by
  intro c cs ds h hspares
  unfold operator? at hspares ⊢
  split
  · next hoperator =>
    rw [if_pos hoperator] at hspares
    obtain ⟨hfits, hmark⟩ := hspares _ rfl
    dsimp only at hfits hmark
    rw [Nat.add_sub_cancel_left] at hmark
    rw [operatorLen_cut h (Nat.le_of_add_le_add_left hfits) hmark]
  · rfl

theorem settled_punctuation : Settled punctuation? := by
  intro c cs ds _ _
  rfl

theorem settled_of_mem_rules {rule : Char → List Char → Option Lexeme} (h : rule ∈ rules) :
    Settled rule := by
  simp only [rules, List.mem_cons, List.not_mem_nil, or_false] at h
  rcases h with rfl | rfl | rfl | rfl | rfl | rfl | rfl | rfl | rfl | rfl | rfl
  · exact settled_blank
  · exact settled_comment
  · exact settled_quoted
  · exact settled_cast
  · exact settled_lettered
  · exact settled_dollar
  · exact settled_parameter
  · exact settled_number
  · exact settled_word
  · exact settled_operator
  · exact settled_punctuation

/-! ## The token at the head -/

theorem findSome?_cut {rs : List (Char → List Char → Option Lexeme)} (hrs : ∀ rule ∈ rs, Settled rule)
    {c : Char} {cs ds : List Char} (h : ds <+: cs)
    (hspares : ∀ lexeme ∈ rs.findSome? (fun rule => rule c cs), Spares ds cs lexeme) :
    (rs.findSome? fun rule => rule c ds) = rs.findSome? fun rule => rule c cs := by
  induction rs with
  | nil => rfl
  | cons rule rs ih =>
    obtain ⟨hrule, hrs⟩ := List.forall_mem_cons.mp hrs
    rw [List.findSome?_cons] at hspares
    rw [List.findSome?_cons, List.findSome?_cons]
    cases hanswer : rule c cs with
    | some lexeme =>
      rw [hanswer] at hspares
      have hsame : rule c ds = rule c cs := hrule h (by rwa [hanswer])
      rw [hsame, hanswer]
    | none =>
      rw [hanswer] at hspares
      have hsame : rule c ds = rule c cs := hrule h fun lexeme hlexeme => by
        rw [hanswer] at hlexeme
        exact absurd hlexeme (Option.not_mem_none lexeme)
      rw [hsame, hanswer]
      exact ih hrs hspares

/-- **The token at the head of a text stays** when a cut spares it. -/
theorem nextLexeme_cut {c : Char} {cs ds : List Char} (h : ds <+: cs)
    (hspares : Spares ds cs (nextLexeme c cs)) : nextLexeme c ds = nextLexeme c cs := by
  refine congrArg (Option.getD · (.none, 1)) (findSome?_cut (fun _ => settled_of_mem_rules) h ?_)
  intro lexeme hlexeme
  have hnext : nextLexeme c cs = lexeme := by rw [nextLexeme, hlexeme, Option.getD_some]
  exact hnext ▸ hspares

/-- A comment takes its whole mark. -/
theorem two_le_nextLexeme {c : Char} {cs : List Char} (h : startsComment (c :: cs) = true) :
    2 ≤ (nextLexeme c cs).2 := by
  rw [startsComment_cons] at h
  have hblank : blank? c cs = none := by
    rcases h with ⟨rfl, -⟩ | ⟨rfl, -⟩
    · exact if_neg (by decide)
    · exact if_neg (by decide)
  obtain ⟨lexeme, hlexeme⟩ : ∃ lexeme, comment? c cs = some lexeme := by
    rcases h with hline | ⟨rfl, hhead⟩
    · exact ⟨_, if_pos hline⟩
    · rw [comment?, if_neg (fun hline => absurd hline.1 (by decide)), if_pos ⟨rfl, hhead⟩]
      exact ⟨_, rfl⟩
  have hnext : nextLexeme c cs = lexeme := by
    rw [nextLexeme, rules, List.findSome?_cons, hblank, List.findSome?_cons, hlexeme]
    rfl
  rw [hnext]
  exact two_le_of_comment? hlexeme

/-! ## The loop -/

theorem add_two_le_of_startsComment {pos : Nat} {cs : List Char} (h : startsComment cs = true)
    {t : Token} (ht : t ∈ tokensFrom pos cs) : pos + 2 ≤ t.stop := by
  cases cs with
  | nil => exact absurd h Bool.false_ne_true
  | cons c cs =>
    have htiles := tiles_tokensFrom pos (c :: cs)
    have hlen := two_le_nextLexeme h
    rw [tokensFrom] at htiles ht
    rcases List.mem_cons.mp ht with rfl | ht
    · exact Nat.add_le_add_left hlen pos
    · have hstart := (htiles.2.2.bounds ht).1
      have hstop : t.start ≤ t.stop := Nat.le_add_right _ _
      exact Nat.le_trans (Nat.add_le_add_left hlen pos) (Nat.le_trans hstart hstop)

theorem startsComment_take_add_two (cs : List Char) (n : Nat) :
    startsComment (cs.take (n + 2)) = startsComment cs := by
  match cs with
  | [] => rfl
  | [_] => rfl
  | a :: b :: cs => rw [List.take_succ_cons, List.take_succ_cons, Bool.eq_iff_iff, startsComment_cons,
      startsComment_cons, List.head?_cons, List.head?_cons]

/-- **Cutting a text where a token stops** leaves the tokens up to that one. -/
theorem tokensFrom_take (pos : Nat) (cs : List Char) : ∀ (k : Nat) (t : Token),
    (tokensFrom pos cs)[k]? = some t →
      tokensFrom pos (cs.take (t.stop - pos)) = (tokensFrom pos cs).take (k + 1) := by
  fun_induction tokensFrom pos cs with
  | case1 => simp
  | case2 pos c cs lexeme ih =>
    intro k t ht
    obtain ⟨hpos, hle⟩ : 1 ≤ lexeme.2 ∧ lexeme.2 ≤ 1 + cs.length := nextLexeme_bounds c cs
    have hbounds := (tiles_tokensFrom (pos + lexeme.2) (cs.drop (lexeme.2 - 1))).bounds (t := t)
    rw [List.length_drop] at hbounds
    -- The cut is made behind the first token, and not too close behind it.
    obtain ⟨hnear, hfar, hmark⟩ : pos + lexeme.2 ≤ t.stop ∧ t.stop ≤ pos + 1 + cs.length ∧
        (startsComment (cs.drop (lexeme.2 - 1)) = true →
          t.stop = pos + lexeme.2 ∨ pos + lexeme.2 + 2 ≤ t.stop) := by
      cases k with
      | zero =>
        obtain rfl := Option.some.inj ht
        refine ⟨Nat.le_refl _, ?_, fun _ => Or.inl rfl⟩
        show pos + lexeme.2 ≤ pos + 1 + cs.length
        omega
      | succ k =>
        rw [List.getElem?_cons_succ] at ht
        have hmem := List.mem_of_getElem? ht
        obtain ⟨hstart, hstop⟩ := hbounds hmem
        have : t.start ≤ t.stop := Nat.le_add_right _ _
        exact ⟨by omega, by omega, fun hcomment =>
          Or.inr (add_two_le_of_startsComment hcomment hmem)⟩
    obtain ⟨n, hn⟩ : ∃ n, t.stop - pos = n + 1 := ⟨t.stop - pos - 1, by omega⟩
    have hrest : (cs.take n).drop (lexeme.2 - 1) =
        (cs.drop (lexeme.2 - 1)).take (t.stop - (pos + lexeme.2)) := by
      rw [List.drop_take]
      congr 1
      omega
    have hspares : Spares (cs.take n) cs lexeme := by
      refine ⟨by rw [List.length_take]; omega, fun hcomment => ?_⟩
      rw [hrest]
      rcases hmark hcomment with heq | hle
      · rw [heq, Nat.sub_self, List.take_zero]
        exact Or.inl rfl
      · obtain ⟨m, hm⟩ : ∃ m, t.stop - (pos + lexeme.2) = m + 2 :=
          ⟨_, (Nat.sub_add_cancel (by omega)).symm⟩
        rw [hm, startsComment_take_add_two]
        exact Or.inr hcomment
    rw [hn, List.take_succ_cons, tokensFrom, nextLexeme_cut ( List.take_prefix n cs) hspares]
    show ⟨lexeme.1, pos, lexeme.2⟩ ::
      tokensFrom (pos + lexeme.2) ((cs.take n).drop (lexeme.2 - 1)) = _
    rw [hrest, List.take_succ_cons]
    cases k with
    | zero =>
      obtain rfl := Option.some.inj ht
      show _ :: tokensFrom _ (List.take (pos + lexeme.2 - (pos + lexeme.2)) _) = _
      rw [Nat.sub_self, List.take_zero, List.take_zero, tokensFrom]
    | succ k => rw [ih k t ht]

/-- The tokens of a text from one of them on are the tokens of what begins there. -/
theorem tokensFrom_drop (pos : Nat) (cs : List Char) : ∀ (k : Nat) (t : Token),
    (tokensFrom pos cs)[k]? = some t →
      tokensFrom t.start (cs.drop (t.start - pos)) = (tokensFrom pos cs).drop k := by
  fun_induction tokensFrom pos cs with
  | case1 => simp
  | case2 pos c cs lexeme ih =>
    intro k t ht
    cases k with
    | zero =>
      obtain rfl := Option.some.inj ht
      rw [Nat.sub_self, List.drop_zero, List.drop_zero, tokensFrom]
    | succ k =>
      rw [List.getElem?_cons_succ] at ht
      have hpos : 1 ≤ lexeme.2 := (nextLexeme_bounds c cs).1
      have hstart := ((tiles_tokensFrom _ _).bounds (List.mem_of_getElem? ht)).1
      rw [List.drop_succ_cons, ← ih k t ht, List.drop_drop]
      obtain ⟨n, hn⟩ : ∃ n, t.start - pos = n + 1 := ⟨t.start - pos - 1, by omega⟩
      rw [hn, List.drop_succ_cons]
      congr 2
      omega

/-- **Lexing does not depend on what follows a token.** The text up to the end of
its `k`-th token has the tokens up to that one, and the text of a token on its own
is this one token. -/
theorem tokenize_take_stop {text : List Char} {k : Nat} {t : Token}
    (ht : (tokenize text)[k]? = some t) :
    tokenize (text.take t.stop) = (tokenize text).take (k + 1) ∧
      tokenize ((text.drop t.start).take t.len) = [⟨t.category, 0, t.len⟩] := by
  refine ⟨tokensFrom_take 0 text k t ht, ?_⟩
  have hrest : tokensFrom t.start (text.drop t.start) = (tokenize text).drop k :=
    tokensFrom_drop 0 text k t ht
  have hhead : (tokensFrom t.start (text.drop t.start))[0]? = some t := by
    rw [hrest, List.getElem?_drop, Nat.add_zero, ht]
  have halone := tokensFrom_take _ _ 0 t hhead
  rw [Token.stop, Nat.add_sub_cancel_left, Nat.zero_add, List.take_one, List.head?_eq_getElem?, hhead,
    Option.toList_some, tokensFrom_eq_map, List.map_eq_singleton_iff] at halone
  -- On its own the token begins where its text does.
  obtain ⟨u, hu, hshift⟩ := halone
  rw [hu]
  have htiles := tiles_tokenize ((text.drop t.start).take t.len)
  rw [hu] at htiles
  have hstart : u.start = 0 := htiles.1
  rw [← hshift]
  show [u] = [⟨u.category, 0, u.len⟩]
  rw [← hstart]

/-- A plus sign in front of a comment: a cut through the mark of the comment would
make a longer operator, and a cut where the sign ends does not. -/
theorem tokenize_take_stop_beforeComment :
    ∃ (text : List Char) (t : Token), text = "a+--x\n1e+/**/$q$$q".toList ∧ t = ⟨.operator, 1, 1⟩ ∧
      (tokenize text)[1]? = some t ∧
      tokenize (text.take t.stop) = (tokenize text).take 2 ∧
      tokenize ((text.drop t.start).take t.len) = [⟨.operator, 0, 1⟩] ∧
      tokenize (text.take (t.stop + 1)) ≠ (tokenize text).take 3 := by
  have ht : (tokenize "a+--x\n1e+/**/$q$$q".toList)[1]? = some ⟨.operator, 1, 1⟩ := by decide +kernel
  obtain ⟨hfirst, halone⟩ := tokenize_take_stop ht
  exact ⟨_, _, rfl, rfl, ht, hfirst, halone, by decide +kernel⟩

end Sql

end EmbeddedSql
