import EmbeddedSql.Proofs.Tiling
import Mathlib.Data.List.Infix
import Mathlib.Data.List.TakeWhile

/-!
# Scans of a text that is cut

A token ends where a scan of the text stops: at the end of a run, at a quote, at
the end mark of a comment, at a second delimiter. Most of these scans look at the
character behind the place where they stop, so a text that ends there gives them
less to look at.

It is always enough. If a scan stops inside of what is kept, it stops at the same
place there, and this also holds of a scan that takes nothing because a digit or a
letter is missing: what is missing in the whole text is missing in its beginning.
Each lemma says so of one scan. The scan of an operator alone has to be told that
the mark of a comment behind it is not cut through (`operatorLen_cut`).
-/

namespace EmbeddedSql

namespace Sql

variable {cs ds : List Char}

/-! ## Runs of characters -/

theorem exists_cons_cut {c : Char} (h : ds <+: c :: cs) (hpos : 1 ≤ ds.length) :
    ∃ es, ds = c :: es ∧ es <+: cs := by
  rcases List.prefix_cons_iff.mp h with rfl | hcons
  · exact absurd hpos (by decide)
  · exact hcons

theorem exists_cons_cons_cut {c d : Char} (h : ds <+: c :: d :: cs) (hle : 2 ≤ ds.length) :
    ∃ es, ds = c :: d :: es ∧ es <+: cs := by
  obtain ⟨es, rfl, hes⟩ := exists_cons_cut h (by omega)
  obtain ⟨fs, rfl, hfs⟩ := exists_cons_cut hes (Nat.le_of_succ_le_succ hle)
  exact ⟨fs, rfl, hfs⟩

theorem takeWhile_cut {p : Char → Bool} (h : ds <+: cs)
    (hle : (cs.takeWhile p).length ≤ ds.length) : ds.takeWhile p = cs.takeWhile p := by
  obtain ⟨rest, rfl⟩ := h
  rw [List.takeWhile_append] at hle ⊢
  split
  · next hall =>
    -- The run goes on to the end of what is kept, and no further.
    rw [if_pos hall, List.length_append] at hle
    rw [List.eq_nil_of_length_eq_zero (by omega : (rest.takeWhile p).length = 0), List.append_nil]
    exact (List.takeWhile_prefix p).eq_of_length hall
  · rfl

/-! ## Comments and quoted text -/

theorem blockCommentLen_cut {depth : Nat} (h : ds <+: cs)
    (hle : blockCommentLen depth cs ≤ ds.length) :
    blockCommentLen depth ds = blockCommentLen depth cs := by
  fun_induction blockCommentLen depth cs generalizing ds with
  | case1 => rw [List.prefix_nil.mp h, blockCommentLen]
  | case2 =>
    rw [h.eq_of_length_le hle, blockCommentLen]
  | case3 depth a b rest hopen ih =>
    obtain ⟨es, rfl, hes⟩ := exists_cons_cons_cut h (by omega)
    rw [List.length_cons, List.length_cons] at hle
    rw [blockCommentLen, if_pos hopen, ih hes (by omega)]
  | case4 depth a b rest hopen hclose hdepth =>
    obtain ⟨es, rfl, -⟩ := exists_cons_cons_cut h hle
    rw [blockCommentLen, if_neg hopen, if_pos hclose, if_pos hdepth]
  | case5 depth a b rest hopen hclose hdepth ih =>
    obtain ⟨es, rfl, hes⟩ := exists_cons_cons_cut h (by omega)
    rw [List.length_cons, List.length_cons] at hle
    rw [blockCommentLen, if_neg hopen, if_pos hclose, if_neg hdepth, ih hes (by omega)]
  | case6 depth a b rest hopen hclose ih =>
    obtain ⟨es, rfl, hes⟩ := exists_cons_cut h (by omega)
    rw [List.length_cons] at hle
    rw [← ih hes (by omega)]
    rcases List.prefix_cons_iff.mp hes with rfl | ⟨es, rfl, -⟩
    · rfl
    · rw [blockCommentLen, if_neg hopen, if_neg hclose]

theorem quotedLen_cut {quote : Char} {backslash : Bool} (h : ds <+: cs)
    (hle : quotedLen quote backslash cs ≤ ds.length) :
    quotedLen quote backslash ds = quotedLen quote backslash cs := by
  fun_induction quotedLen quote backslash cs generalizing ds with
  | case1 => rw [List.prefix_nil.mp h, quotedLen]
  | case2 => rw [h.eq_of_length_le hle, quotedLen]
  | case3 c d rest hescape ih =>
    obtain ⟨es, rfl, hes⟩ := exists_cons_cons_cut h (by omega)
    rw [List.length_cons, List.length_cons] at hle
    rw [quotedLen, if_pos hescape, ih hes (by omega)]
  | case4 rest hescape ih =>
    obtain ⟨es, rfl, hes⟩ := exists_cons_cons_cut h (by omega)
    rw [List.length_cons, List.length_cons] at hle
    rw [quotedLen, if_neg hescape, if_pos rfl, if_pos rfl, ih hes (by omega)]
  | case5 d rest hdouble hescape =>
    obtain ⟨es, rfl, hes⟩ := exists_cons_cut h hle
    rcases List.prefix_cons_iff.mp hes with rfl | ⟨es, rfl, -⟩
    · rfl
    · rw [quotedLen, if_neg hescape, if_pos rfl, if_neg hdouble]
  | case6 c d rest hescape hclose ih =>
    obtain ⟨es, rfl, hes⟩ := exists_cons_cut h (by omega)
    rw [List.length_cons] at hle
    rw [← ih hes (by omega)]
    rcases List.prefix_cons_iff.mp hes with rfl | ⟨es, rfl, -⟩
    · rfl
    · rw [quotedLen, if_neg hescape, if_neg hclose]

theorem occurrence?_cut {sought : List Char} {n : Nat} (h : ds <+: cs)
    (hn : occurrence? sought cs = some n) (hle : n + sought.length ≤ ds.length) :
    occurrence? sought ds = some n := by
  induction cs generalizing ds n with
  | nil => rwa [List.prefix_nil.mp h]
  | cons c cs ih =>
    rw [occurrence?] at hn
    split at hn
    · next hfound =>
      cases hn
      have hfound' : sought <+: ds :=
        List.prefix_of_prefix_length_le (List.isPrefixOf_iff_prefix.mp hfound) h (by omega)
      cases ds with
      | nil => rw [List.prefix_nil.mp hfound']; rfl
      | cons d ds => rw [occurrence?, if_pos (List.isPrefixOf_iff_prefix.mpr hfound')]
    · next hfound =>
      obtain ⟨m, hm, rfl⟩ := Option.map_eq_some_iff.mp hn
      obtain ⟨es, rfl, hes⟩ := exists_cons_cut h (by omega)
      rw [List.length_cons] at hle
      have hfound' : ¬ sought.isPrefixOf (c :: es) = true := fun hes' =>
        hfound (List.isPrefixOf_iff_prefix.mpr ((List.isPrefixOf_iff_prefix.mp hes').trans h))
      rw [occurrence?, if_neg hfound', ih hes hm (by omega), Option.map_some]

/-! ## Delimiters -/

/-- **The name of a delimiter**, between its two dollar signs: nothing, or a
letter or underscore and what continues a name. -/
inductive IsTagName : List Char → Prop
  | nil : IsTagName []
  | cons {c : Char} {name : List Char} : startsWord c = true →
      (∀ d ∈ name, continuesName d = true) → IsTagName (c :: name)

theorem dollarTag?_eq_some {tag : List Char} :
    dollarTag? cs = some tag ↔
      ∃ name rest, IsTagName name ∧ tag = name ++ ['$'] ∧ cs = name ++ '$' :: rest := by
  have hdollar : startsWord '$' = false ∧ continuesName '$' = false := by decide
  constructor
  · intro h
    unfold dollarTag? at h
    split at h
    · simp at h
    · next c cs =>
      split at h
      · next hc =>
        obtain rfl := Option.some.inj h
        exact ⟨[], cs, .nil, rfl, by rw [hc]; rfl⟩
      · split at h
        · next hword =>
          rw [Option.ite_none_right_eq_some] at h
          obtain ⟨hhead, htag⟩ := h
          obtain rfl := Option.some.inj htag
          obtain ⟨rest, hrest⟩ := List.head?_eq_some_iff.mp hhead
          refine ⟨c :: cs.takeWhile continuesName, rest, .cons hword fun d hd => ?_, rfl, ?_⟩
          · exact List.mem_takeWhile_imp hd
          · rw [List.cons_append, ← hrest, List.takeWhile_append_dropWhile]
        · simp at h
  · rintro ⟨name, rest, hname, rfl, rfl⟩
    cases hname with
    | nil => rfl
    | @cons c name hc hname =>
      have hstop : ∀ p : Char → Bool, p '$' = false → (∀ d ∈ name, p d = true) →
          (name ++ '$' :: rest).takeWhile p = name ∧
            (name ++ '$' :: rest).dropWhile p = '$' :: rest := by
        intro p hp hall
        have hneg : ¬ p '$' = true := by rw [hp]; exact Bool.false_ne_true
        rw [List.takeWhile_append_of_pos hall, List.dropWhile_append_of_pos hall,
          List.takeWhile_cons_of_neg hneg, List.dropWhile_cons_of_neg hneg, List.append_nil]
        exact ⟨rfl, rfl⟩
      obtain ⟨htake, hdrop⟩ := hstop _ hdollar.2 hname
      have hne : c ≠ '$' := by
        rintro rfl
        exact Bool.false_ne_true (hdollar.1.symm.trans hc)
      rw [List.cons_append, dollarTag?, if_neg hne, if_pos hc, htake, hdrop, if_pos List.head?_cons]

theorem dollarTag?_mono {tag : List Char} (h : ds <+: cs) (htag : dollarTag? ds = some tag) :
    dollarTag? cs = some tag := by
  obtain ⟨more, rfl⟩ := h
  obtain ⟨name, rest, hname, rfl, rfl⟩ := dollarTag?_eq_some.mp htag
  refine dollarTag?_eq_some.mpr ⟨name, rest ++ more, hname, rfl, ?_⟩
  rw [List.append_assoc, List.cons_append]

theorem dollarTag?_cut {tag : List Char} (h : ds <+: cs) (htag : dollarTag? cs = some tag)
    (hle : tag.length ≤ ds.length) : dollarTag? ds = some tag := by
  obtain ⟨name, rest, hname, rfl, rfl⟩ := dollarTag?_eq_some.mp htag
  have hkept : name ++ ['$'] <+: ds := by
    refine List.prefix_of_prefix_length_le ⟨rest, ?_⟩ h hle
    rw [List.append_assoc, List.singleton_append]
  obtain ⟨more, rfl⟩ := hkept
  exact dollarTag?_eq_some.mpr ⟨name, more, hname, rfl, by rw [List.append_assoc]; rfl⟩

/-! ## Numbers -/

theorem signLen_cut (h : ds <+: cs) (hpos : 1 ≤ ds.length) : signLen ds = signLen cs := by
  cases cs with
  | nil => rw [List.prefix_nil.mp h]
  | cons s cs =>
    obtain ⟨es, rfl, -⟩ := exists_cons_cut h hpos
    rfl

theorem exponentLen_cut (h : ds <+: cs) (hle : exponentLen cs ≤ ds.length) :
    exponentLen ds = exponentLen cs := by
  cases cs with
  | nil => rw [List.prefix_nil.mp h]
  | cons e cs =>
    rcases List.prefix_cons_iff.mp h with rfl | ⟨es, rfl, hes⟩
    · exact (Nat.eq_zero_of_le_zero hle).symm
    · rw [exponentLen_cons, List.length_cons] at hle
      rw [exponentLen_cons, exponentLen_cons]
      split
      · next hletter =>
        rw [if_pos hletter] at hle
        rcases Nat.eq_zero_or_pos es.length with hnone | hpos
        · rw [List.eq_nil_of_length_eq_zero hnone] at hle ⊢
          rw [List.length_nil] at hle
          split at hle
          · next hzero => rw [if_pos hzero]; rfl
          · next hdigits => omega
        · rw [signLen_cut hes hpos]
          have hdigits : (es.drop (signLen cs)).takeWhile Char.isDigit =
              (cs.drop (signLen cs)).takeWhile Char.isDigit := by
            refine takeWhile_cut (hes.drop _) ?_
            rw [List.length_drop]
            split at hle
            · omega
            · omega
          rw [hdigits]
      · rfl
theorem fractionLen_cut (h : ds <+: cs) (hle : fractionLen cs ≤ ds.length) :
    fractionLen ds = fractionLen cs := by
  cases cs with
  | nil => rw [List.prefix_nil.mp h]
  | cons p cs =>
    rcases List.prefix_cons_iff.mp h with rfl | ⟨es, rfl, hes⟩
    · exact (Nat.eq_zero_of_le_zero hle).symm
    · rw [fractionLen] at hle
      rw [fractionLen, fractionLen]
      split
      · next hpoint =>
        rw [if_pos hpoint, List.length_cons] at hle
        rw [takeWhile_cut hes (by omega)]
      · rfl

theorem decimalLen_cut (h : ds <+: cs) (hle : decimalLen cs ≤ ds.length) :
    decimalLen ds = decimalLen cs := by
  unfold decimalLen at hle ⊢
  simp only at hle ⊢
  rw [takeWhile_cut h (by omega)]
  generalize (cs.takeWhile fun d => d.isDigit || d == '_').length = whole at hle ⊢
  rw [fractionLen_cut (h.drop whole) (by rw [List.length_drop]; omega)]
  generalize whole + fractionLen (cs.drop whole) = reach at hle ⊢
  rw [exponentLen_cut (h.drop reach) (by rw [List.length_drop]; omega)]

theorem radixLen?_cut {letters : List Char} {digit : Char → Bool} (h : ds <+: cs)
    (hle : ∀ n ∈ radixLen? letters digit cs, n ≤ ds.length) :
    radixLen? letters digit ds = radixLen? letters digit cs := by
  cases cs with
  | nil => rw [List.prefix_nil.mp h]
  | cons x cs =>
    rw [radixLen?] at hle
    rcases List.prefix_cons_iff.mp h with rfl | ⟨es, rfl, hes⟩
    · -- The letter of the base and a digit do not fit into nothing.
      rw [radixLen?, radixLen?]
      split
      · next hletter =>
        rw [if_pos hletter] at hle
        dsimp only at hle ⊢
        split
        · rfl
        · next hrun =>
          rw [if_neg hrun] at hle
          exact absurd (hle _ rfl) (by rw [List.length_nil]; omega)
      · rfl
    · rw [radixLen?, radixLen?]
      split
      · next hletter =>
        rw [if_pos hletter] at hle
        have hrun : es.takeWhile (fun d => digit d || d == '_') =
            cs.takeWhile fun d => digit d || d == '_' := by
          refine takeWhile_cut hes ?_
          dsimp only at hle
          split at hle
          · omega
          · have := hle _ rfl
            rw [List.length_cons] at this
            omega
        rw [hrun]
      · rfl

theorem numberLen?_cut {c : Char} (h : ds <+: cs)
    (hle : ∀ n ∈ numberLen? c cs, n ≤ 1 + ds.length) : numberLen? c ds = numberLen? c cs := by
  have hradix : ∀ letters digit, (∀ n ∈ radixLen? letters digit cs, 1 + n ≤ 1 + ds.length) →
      radixLen? letters digit ds = radixLen? letters digit cs := fun _ _ hle =>
    radixLen?_cut h fun n hn => Nat.le_of_add_le_add_left (hle n hn)
  have hdecimal : 1 + decimalLen cs ≤ 1 + ds.length → decimalLen ds = decimalLen cs := fun hle =>
    decimalLen_cut h (Nat.le_of_add_le_add_left hle)
  unfold numberLen? at hle ⊢
  split
  · next hzero =>
    rw [if_pos hzero] at hle
    cases hx : radixLen? ['x', 'X'] isHexDigit cs with
    | some n =>
      rw [hx] at hle
      rw [hradix _ _ (by rw [hx]; simpa using hle), hx]
    | none =>
      rw [hx] at hle
      rw [hradix _ _ (by rw [hx]; simp), hx]
      dsimp only at hle ⊢
      cases ho : radixLen? ['o', 'O'] (fun d => decide ('0' ≤ d ∧ d ≤ '7')) cs with
      | some n =>
        rw [ho] at hle
        rw [hradix _ _ (by rw [ho]; simpa using hle), ho]
      | none =>
        rw [ho] at hle
        rw [hradix _ _ (by rw [ho]; simp), ho]
        dsimp only at hle ⊢
        cases hb : radixLen? ['b', 'B'] (fun d => d == '0' || d == '1') cs with
        | some n =>
          rw [hb] at hle
          rw [hradix _ _ (by rw [hb]; simpa using hle), hb]
        | none =>
          rw [hb] at hle
          rw [hradix _ _ (by rw [hb]; simp), hb]
          dsimp only at hle ⊢
          rw [hdecimal (hle _ rfl)]
  · next hzero =>
    rw [if_neg hzero] at hle
    split
    · next hdigit =>
      rw [if_pos hdigit] at hle
      rw [hdecimal (hle _ rfl)]
    · next hdigit =>
      rw [if_neg hdigit] at hle
      split
      · next hpoint =>
        rw [if_pos hpoint] at hle
        dsimp only at hle ⊢
        have hdigits : ds.takeWhile Char.isDigit = cs.takeWhile Char.isDigit := by
          refine takeWhile_cut h ?_
          split at hle
          · omega
          · have := hle _ rfl
            omega
        rw [hdigits]
        split
        · rfl
        · next hsome =>
          rw [if_neg hsome] at hle
          have := hle _ rfl
          rw [exponentLen_cut (h.drop _) (by rw [List.length_drop]; omega)]
      · rfl

/-! ## Operators -/

theorem startsComment_mono (h : ds <+: cs) (hds : startsComment ds = true) :
    startsComment cs = true := by
  obtain ⟨more, rfl⟩ := h
  cases ds with
  | nil => exact absurd hds Bool.false_ne_true
  | cons c es =>
    rw [startsComment_cons] at hds
    rw [List.cons_append, startsComment_cons, List.head?_append]
    rcases hds with ⟨hc, hhead⟩ | ⟨hc, hhead⟩
    · exact Or.inl ⟨hc, by rw [hhead]; rfl⟩
    · exact Or.inr ⟨hc, by rw [hhead]; rfl⟩

/-- An operator is the same as long as the mark of the comment that ends it, if
one does, is not cut through. -/
theorem operatorLen_cut (h : ds <+: cs) (hle : operatorLen cs ≤ ds.length)
    (hmark : startsComment (cs.drop (operatorLen cs)) = true →
      ds.drop (operatorLen cs) = [] ∨ startsComment (ds.drop (operatorLen cs)) = true) :
    operatorLen ds = operatorLen cs := by
  induction cs generalizing ds with
  | nil => rw [List.prefix_nil.mp h]
  | cons c cs ih =>
    by_cases hgo : (isOperatorChar c && !startsComment (c :: cs)) = true
    · have hlen : operatorLen (c :: cs) = 1 + operatorLen cs := by rw [operatorLen, if_pos hgo]
      rw [hlen] at hle hmark
      obtain ⟨es, rfl, hes⟩ := exists_cons_cut h (by omega)
      rw [Nat.add_comm 1, List.drop_succ_cons, List.drop_succ_cons] at hmark
      rw [List.length_cons] at hle
      have hgo' : (isOperatorChar c && !startsComment (c :: es)) = true := by
        rw [Bool.and_eq_true, Bool.not_eq_true', ← Bool.not_eq_true] at hgo ⊢
        exact ⟨hgo.1, mt (startsComment_mono h) hgo.2⟩
      rw [hlen, operatorLen, if_pos hgo', ih hes (by omega) hmark]
    · have hlen : operatorLen (c :: cs) = 0 := by rw [operatorLen, if_neg hgo]
      rw [hlen, List.drop_zero, List.drop_zero] at hmark
      rw [hlen]
      rcases List.prefix_cons_iff.mp h with rfl | ⟨es, rfl, -⟩
      · rfl
      · refine if_neg fun hgo' => ?_
        rw [Bool.and_eq_true, Bool.not_eq_true'] at hgo hgo'
        -- What goes on behind the cut and not before it stops at a comment.
        have hcomment : startsComment (c :: cs) = true := by
          by_contra hnone
          exact hgo ⟨hgo'.1, Bool.not_eq_true _ ▸ hnone⟩
        rcases hmark hcomment with hnil | hcut
        · exact List.cons_ne_nil _ _ hnil
        · exact Bool.false_ne_true (hgo'.2.symm.trans hcut)

end Sql

end EmbeddedSql
