import EmbeddedSql.Proofs.DirectiveText
import EmbeddedSql.Proofs.LetterCase

/-!
# Which comments are directives

The text of a directive is a marker, perhaps a dash and an argument, and then
nothing, or blanks, two dashes and a remark (`Directive.Says`). A comment puts such a
text between its marks, with slashes or stars to spare and blanks around it
(`CommentBody`). This is all that is recognized, and all of it is.

No marker begins with another, and no argument with another. So however the lists
are searched, what is found is the only one that fits.

A block comment can be read in two ways if it is closed: its end mark may also be
taken as part of a text that is not closed. But neither a star nor a slash can stand
in a directive before its remark. So whatever the second way of reading says is said
by the first (`Directive.ofText?_of_append`).
-/

namespace EmbeddedSql

/-! ## Searches with one answer -/

section Searches

variable {α β : Type} {l : List α}

theorem findSome?_eq_some_iff_of_unique {f : α → Option β}
    (h : ∀ a ∈ l, ∀ b ∈ l, (f a).isSome = true → (f b).isSome = true → a = b) {r : β} :
    l.findSome? f = some r ↔ ∃ a ∈ l, f a = some r := by
  refine ⟨List.exists_of_findSome?_eq_some, ?_⟩
  rintro ⟨a, ha, hr⟩
  cases hfound : l.findSome? f with
  | none => rw [List.findSome?_eq_none_iff.mp hfound a ha] at hr; cases hr
  | some r' =>
    obtain ⟨b, hb, hr'⟩ := List.exists_of_findSome?_eq_some hfound
    obtain rfl := h a ha b hb (by rw [hr]; rfl) (by rw [hr']; rfl)
    rw [← hr', hr]

theorem find?_eq_some_iff_of_unique {p : α → Bool}
    (h : ∀ a ∈ l, ∀ b ∈ l, p a = true → p b = true → a = b) {a : α} :
    l.find? p = some a ↔ a ∈ l ∧ p a = true := by
  refine ⟨fun hfound => ⟨List.mem_of_find?_eq_some hfound, List.find?_some hfound⟩, ?_⟩
  rintro ⟨ha, hpa⟩
  cases hfound : l.find? p with
  | none => exact absurd hpa (List.find?_eq_none.mp hfound a ha)
  | some b =>
    rw [h a ha b (List.mem_of_find?_eq_some hfound) hpa (List.find?_some hfound)]

end Searches

namespace Directive

open Sql (capital toLower_eq_self_or_eq_capital ignoresCase_toLower)

/-! ## The grammar -/

/-- The characters that simple case folding does not tell from a letter: its two
cases, and a character beyond ASCII for two of the letters. -/
def spellings (letter : Char) : List Char :=
  [letter.toLower, letter.toUpper] ++
    if letter.toLower = 's' then ['\u017F'] else if letter.toLower = 'k' then ['\u212A'] else []

/-- Whether a text is a word up to simple case folding. -/
def Spells (text word : List Char) : Prop :=
  List.Forall₂ (fun c letter => c ∈ spellings letter) text word

/-- The names of the marker. -/
def markerNames : List String := ["strpsql", "PostgreSqlInAString"]

/-- The arguments, and what they ask for. -/
inductive Argument : String → Directive → Prop
  | on : Argument "on" enableRegion
  | enable : Argument "enable" enableRegion
  | off : Argument "off" disableRegion
  | disable : Argument "disable" disableRegion
  | ignore : Argument "ignore" inlineDisable

/-- What may follow in a directive: nothing, or blanks, two dashes and any text. -/
inductive Ends : List Char → Prop
  | nothing : Ends []
  | remark {blanks : List Char} (text : List Char) : blanks ≠ [] →
      (∀ c ∈ blanks, isBlank c = true) → Ends (blanks ++ '-' :: '-' :: text)

/-- **The texts that are directives**, and what they ask for. -/
inductive Says : List Char → Directive → Prop
  | bare {name : String} {marker rest : List Char} : name ∈ markerNames →
      Spells marker name.toList → Ends rest → Says (marker ++ rest) inlineEnable
  | withArgument {name word : String} {marker argument rest : List Char} {d : Directive} :
      name ∈ markerNames → Spells marker name.toList → Argument word d →
      argument.map Char.toLower = word.toList → Ends rest →
      Says (marker ++ '-' :: (argument ++ rest)) d

/-! ## Words up to folding -/

theorem afterFolded?_eq_some {word cs rest : List Char} :
    afterFolded? word cs = some rest ↔ ∃ front, cs = front ++ rest ∧ front.map fold = word := by
  induction word generalizing cs with
  | nil =>
    constructor
    · intro h
      exact ⟨[], Option.some.inj h, rfl⟩
    · rintro ⟨front, rfl, hfront⟩
      rw [List.map_eq_nil_iff.mp hfront]
      rfl
  | cons w word ih =>
    constructor
    · intro h
      cases cs with
      | nil => cases h
      | cons c cs =>
        obtain ⟨hc, h⟩ := Option.ite_none_right_eq_some.mp h
        obtain ⟨front, rfl, hfront⟩ := ih.mp h
        exact ⟨c :: front, rfl, by rw [List.map_cons, hc, hfront]⟩
    · rintro ⟨front, rfl, hfront⟩
      obtain ⟨c, front, rfl, hc, hfront⟩ := List.map_eq_cons_iff.mp hfront
      exact (if_pos hc).trans (ih.mpr ⟨front, rfl, hfront⟩)

/-- If no word of a table begins with another, a text begins with one of them at most. -/
theorem afterFolded?_unique {α : Type} {table : List α} {word : α → List Char}
    (htable : ∀ a ∈ table, ∀ b ∈ table, word a <+: word b → a = b) (cs : List Char) :
    ∀ a ∈ table, ∀ b ∈ table, (afterFolded? (word a) cs).isSome = true →
      (afterFolded? (word b) cs).isSome = true → a = b := by
  have hbegins : ∀ {v : List Char}, (afterFolded? v cs).isSome = true → v <+: cs.map fold := by
    intro v hv
    obtain ⟨rest, hrest⟩ := Option.isSome_iff_exists.mp hv
    obtain ⟨front, rfl, rfl⟩ := afterFolded?_eq_some.mp hrest
    rw [List.map_append]
    exact List.prefix_append _ _
  intro a ha b hb hfits hfits'
  rcases List.prefix_or_prefix_of_prefix (hbegins hfits) (hbegins hfits') with h | h
  · exact htable a ha b hb h
  · exact (htable b hb a ha h).symm

/-- A letter is the small letter or the capital at some place in the alphabet. -/
theorem eq_of_isAlpha {c : Char} (h : c.isAlpha = true) :
    ∃ n, c = capital n ∨ c = (capital n).toLower := by
  have hsmall : ∀ n : Fin 26, Char.ofNat ('a'.toNat + n) = (capital n).toLower := by decide
  rcases Bool.or_eq_true_iff.mp h with hupper | hlower
  · have hrange : 65 ≤ c.val ∧ c.val ≤ 90 := of_decide_eq_true hupper
    have hlo : 65 ≤ c.toNat := UInt32.le_iff_toNat_le.mp hrange.1
    have hhi : c.toNat ≤ 90 := UInt32.le_iff_toNat_le.mp hrange.2
    have hplace : 'A'.toNat + (c.toNat - 65) = c.toNat := Nat.add_sub_cancel' hlo
    refine ⟨⟨c.toNat - 65, by omega⟩, Or.inl ?_⟩
    rw [capital, hplace, Char.ofNat_toNat]
  · obtain ⟨hlo, hhi⟩ := Bool.and_eq_true_iff.mp hlower
    have hlo : 97 ≤ c.toNat := UInt32.le_iff_toNat_le.mp (of_decide_eq_true hlo)
    have hhi : c.toNat ≤ 122 := UInt32.le_iff_toNat_le.mp (of_decide_eq_true hhi)
    have hplace : 'a'.toNat + (c.toNat - 97) = c.toNat := Nat.add_sub_cancel' hlo
    refine ⟨⟨c.toNat - 97, by omega⟩, Or.inr ?_⟩
    rw [← hsmall, hplace, Char.ofNat_toNat]

theorem toUpper_capital : ∀ n, (capital n).toUpper = capital n := by decide

/-- The two cases of a letter are made into one another. -/
theorem toUpper_toLower_capital : ∀ n, (capital n).toLower.toUpper = capital n := by decide

/-- A letter has the spellings of its capital. -/
theorem spellings_eq_of_isAlpha {letter : Char} (h : letter.isAlpha = true) :
    ∃ n, letter.toLower = (capital n).toLower ∧ spellings letter = spellings (capital n) := by
  obtain ⟨n, rfl | rfl⟩ := eq_of_isAlpha h
  · exact ⟨n, rfl, rfl⟩
  · have hlower := ignoresCase_toLower (capital n)
    refine ⟨n, hlower, ?_⟩
    rw [spellings, spellings, hlower, toUpper_capital, toUpper_toLower_capital]

/-- **A character folds to a letter** if it is one of the letter's spellings. -/
theorem fold_eq_toLower_iff {letter : Char} (hletter : letter.isAlpha = true) {c : Char} :
    fold c = letter.toLower ↔ c ∈ spellings letter := by
  have hcapital : ∀ n, ('s' = (capital n).toLower ↔ '\u017F' ∈ spellings (capital n)) ∧
      ('k' = (capital n).toLower ↔ '\u212A' ∈ spellings (capital n)) := by decide
  obtain ⟨n, hlower, hspellings⟩ := spellings_eq_of_isAlpha hletter
  rw [hlower, hspellings]
  unfold fold
  split
  · next hc => rw [hc]; exact (hcapital n).1
  · next hs =>
    split
    · next hc => rw [hc]; exact (hcapital n).2
    · next hk =>
      have hothers : c ∈ spellings (capital n) ↔ c = (capital n).toLower ∨ c = capital n := by
        unfold spellings
        split
        · simp [hs, toUpper_capital]
        · split <;> simp [hk, toUpper_capital]
      rw [hothers]
      constructor
      · intro hc
        rcases toLower_eq_self_or_eq_capital c with hsame | ⟨m, rfl⟩
        · exact Or.inl (hsame.symm.trans hc)
        · exact Or.inr (by rw [← toUpper_toLower_capital, hc, toUpper_toLower_capital])
      · rintro (rfl | rfl)
        · exact ignoresCase_toLower (capital n)
        · rfl

theorem map_fold_eq_iff {word : List Char} (hword : ∀ w ∈ word, w.isAlpha = true) {text : List Char} :
    text.map fold = word.map Char.toLower ↔ Spells text word := by
  induction word generalizing text with
  | nil =>
    constructor
    · intro h
      rw [List.map_eq_nil_iff.mp h]
      exact .nil
    · rintro ⟨⟩
      rfl
  | cons w word ih =>
    obtain ⟨hw, hword⟩ := List.forall_mem_cons.mp hword
    cases text with
    | nil => exact iff_of_false (List.cons_ne_nil _ _).symm (by rintro ⟨⟩)
    | cons c text =>
      rw [Spells, List.forall₂_cons, List.map_cons, List.map_cons, List.cons.injEq,
        fold_eq_toLower_iff hw, ih hword, Spells]

/-- Small letters of ASCII are made small by folding in the same way. -/
theorem fold_eq_of_isLower_toLower {c : Char} (h : c.toLower.isLower = true) : fold c = c.toLower := by
  unfold fold
  split
  · next hc => exact absurd h (by rw [hc]; decide)
  · split
    · next hc => exact absurd h (by rw [hc]; decide)
    · rfl

/-! ## The text of a directive -/

theorem ends_iff {cs : List Char} : endsHere cs = true ↔ Ends cs := by
  rw [endsHere_iff]
  constructor
  · rintro (rfl | ⟨blanks, remark, hne, hblanks, rfl⟩)
    · exact .nothing
    · exact .remark remark hne hblanks
  · rintro (_ | ⟨remark, hne, hblanks⟩)
    · exact Or.inl rfl
    · exact Or.inr ⟨_, remark, hne, hblanks, rfl⟩

/-- No dash follows where a directive may end. -/
theorem Ends.head_ne_dash {cs : List Char} (h : Ends cs) : cs.head? ≠ some '-' := by
  cases h with
  | nothing => simp
  | @remark blanks text hne hblanks =>
    obtain ⟨c, blanks, rfl⟩ := List.exists_cons_of_ne_nil hne
    rintro hdash
    have hblank := hblanks c List.mem_cons_self
    rw [Option.some.inj hdash] at hblank
    exact absurd hblank (by decide)

theorem mem_arguments_iff {word : String} {d : Directive} :
    (word, d) ∈ arguments ↔ Argument word d := by
  constructor
  · intro h
    simp only [arguments, List.mem_cons, Prod.mk.injEq, List.not_mem_nil, or_false] at h
    rcases h with ⟨rfl, rfl⟩ | ⟨rfl, rfl⟩ | ⟨rfl, rfl⟩ | ⟨rfl, rfl⟩ | ⟨rfl, rfl⟩ <;> constructor
  · rintro (_ | _ | _ | _ | _) <;> decide

/-- **What an argument and what follows it asks for.** -/
theorem ofArgument?_eq_some_iff {cs : List Char} {d : Directive} :
    ofArgument? cs = some d ↔ ∃ word argument rest, Argument word d ∧
      argument.map Char.toLower = word.toList ∧ Ends rest ∧ cs = argument ++ rest := by
  have htable : ∀ a ∈ arguments, ∀ b ∈ arguments, a.1.toList <+: b.1.toList → a = b := by decide
  rw [ofArgument?_eq_some]
  simp only [find?_eq_some_iff_of_unique (afterFolded?_unique htable cs), mem_arguments_iff, ends_iff]
  constructor
  · rintro ⟨word, rest, ⟨hword, -⟩, hrest, hends, hcase⟩
    obtain ⟨argument, rfl, hargument⟩ := afterFolded?_eq_some.mp hrest
    have hlen : word.length = argument.length := by
      rw [← String.length_toList, ← hargument, List.length_map]
    rw [hlen, List.take_left] at hcase
    exact ⟨word, argument, rest, hword, hcase, hends, rfl⟩
  · rintro ⟨word, argument, rest, hword, hcase, hends, rfl⟩
    have hletters : ∀ a ∈ arguments, a.1.toList.all Char.isLower = true := by decide
    have hfold : argument.map fold = word.toList := by
      rw [← hcase]
      refine List.map_congr_left fun c hc => fold_eq_of_isLower_toLower ?_
      have hword := List.all_eq_true.mp (hletters _ (mem_arguments_iff.mpr hword))
      exact hword _ (hcase ▸ List.mem_map_of_mem hc)
    have hrest : afterFolded? word.toList (argument ++ rest) = some rest :=
      afterFolded?_eq_some.mpr ⟨argument, rfl, hfold⟩
    have hlen : word.length = argument.length := by
      rw [← String.length_toList, ← hcase, List.length_map]
    refine ⟨word, rest, ⟨hword, by rw [hrest]; rfl⟩, hrest, hends, ?_⟩
    rw [hlen, List.take_left, hcase]

/-- **What stands behind a marker** at the start of a text. -/
theorem marker_eq_some_iff {cs rest : List Char} :
    (markers.findSome? fun m => afterFolded? m.toList cs) = some rest ↔
      ∃ name ∈ markerNames, ∃ marker, Spells marker name.toList ∧ cs = marker ++ rest := by
  have hnames : markers.map String.toList =
      markerNames.map fun name => name.toList.map Char.toLower := by decide
  have hletters : ∀ name ∈ markerNames, ∀ w ∈ name.toList, w.isAlpha = true := by
    have hall : ∀ name ∈ markerNames, name.toList.all Char.isAlpha = true := by decide
    exact fun name hname => List.all_eq_true.mp (hall name hname)
  have htable : ∀ m ∈ markers, ∀ m' ∈ markers, m.toList <+: m'.toList → m = m' := by decide
  rw [findSome?_eq_some_iff_of_unique (afterFolded?_unique htable cs)]
  constructor
  · rintro ⟨m, hm, hrest⟩
    have hm' : m.toList ∈ markers.map String.toList := List.mem_map_of_mem hm
    rw [hnames] at hm'
    obtain ⟨name, hname, hcase⟩ := List.mem_map.mp hm'
    obtain ⟨marker, rfl, hmarker⟩ := afterFolded?_eq_some.mp hrest
    have hspells := (map_fold_eq_iff (hletters name hname)).mp (hmarker.trans hcase.symm)
    exact ⟨name, hname, marker, hspells, rfl⟩
  · rintro ⟨name, hname, marker, hmarker, rfl⟩
    have hname' : name.toList.map Char.toLower ∈ markers.map String.toList := by
      rw [hnames]
      exact List.mem_map_of_mem hname
    obtain ⟨m, hm, hcase⟩ := List.mem_map.mp hname'
    have hfold := (map_fold_eq_iff (hletters name hname)).mpr hmarker
    exact ⟨m, hm, afterFolded?_eq_some.mpr ⟨marker, rfl, hfold.trans hcase.symm⟩⟩

/-- **A text is a directive** exactly if, without the blanks around it, it says so. -/
theorem ofText?_eq_some_iff {text : List Char} {d : Directive} :
    ofText? text = some d ↔ Says (trimBlank text) d := by
  simp only [ofText?, Option.bind_eq_bind, Option.bind_eq_some_iff, marker_eq_some_iff]
  constructor
  · rintro ⟨rest, ⟨name, hname, marker, hmarker, htext⟩, h⟩
    rw [htext]
    split at h
    · obtain ⟨word, argument, rest, hword, hcase, hends, rfl⟩ := ofArgument?_eq_some_iff.mp h
      exact .withArgument hname hmarker hword hcase hends
    · obtain ⟨hends, hd⟩ := Option.ite_none_right_eq_some.mp h
      rw [← Option.some.inj hd]
      exact .bare hname hmarker (ends_iff.mp hends)
  · generalize trimBlank text = text
    rintro (⟨hname, hmarker, hends⟩ | ⟨hname, hmarker, hword, hcase, hends⟩)
    · refine ⟨_, ⟨_, hname, _, hmarker, rfl⟩, ?_⟩
      split
      · exact absurd rfl hends.head_ne_dash
      · exact if_pos (ends_iff.mpr hends)
    · refine ⟨_, ⟨_, hname, _, hmarker, rfl⟩, ?_⟩
      exact ofArgument?_eq_some_iff.mpr ⟨_, _, _, hword, hcase, hends, rfl⟩

end Directive

/-! ## Comments -/

open Utf16 (ascii)

/-- **The body of a comment.** Behind the two units that begin a comment there may be
more slashes in a line comment, or stars in a block comment; and so may stars at the
end of a block comment, whether it is closed or not. -/
inductive CommentBody : List CodeUnit → List CodeUnit → Prop
  | line (n : Nat) {body : List CodeUnit} : body ≠ [] → body.head? ≠ some (ascii '/') →
      CommentBody (ascii '/' :: ascii '/' :: (List.replicate n (ascii '/') ++ body)) body
  | closed (m n : Nat) {body : List CodeUnit} : body ≠ [] → body.head? ≠ some (ascii '*') →
      body.getLast? ≠ some (ascii '*') →
      CommentBody (ascii '/' :: ascii '*' :: (List.replicate m (ascii '*') ++ body ++
        List.replicate n (ascii '*') ++ [ascii '*', ascii '/'])) body
  | unclosed (m n : Nat) {body : List CodeUnit} : body ≠ [] → body.head? ≠ some (ascii '*') →
      body.getLast? ≠ some (ascii '*') →
      CommentBody (ascii '/' :: ascii '*' :: (List.replicate m (ascii '*') ++ body ++
        List.replicate n (ascii '*'))) body

section Stripping

variable {α : Type} [BEq α] [LawfulBEq α] {u : α} {xs ys : List α}

theorem dropWhile_beq_eq_iff :
    xs.dropWhile (· == u) = ys ↔ ys.head? ≠ some u ∧ ∃ n, xs = List.replicate n u ++ ys := by
  constructor
  · rintro rfl
    refine ⟨fun hhead => ?_, (xs.takeWhile (· == u)).length, ?_⟩
    · have hnot := List.head?_dropWhile_not (· == u) xs
      rw [hhead] at hnot
      simp at hnot
    · have hall : xs.takeWhile (· == u) = List.replicate (xs.takeWhile (· == u)).length u :=
        List.eq_replicate_of_mem fun x hx => by
          have hx := List.mem_takeWhile_imp hx
          exact eq_of_beq hx
      rw [← hall, List.takeWhile_append_dropWhile]
  · rintro ⟨hhead, n, rfl⟩
    rw [List.dropWhile_append_of_pos fun x hx => beq_iff_eq.mpr (List.eq_of_mem_replicate hx)]
    exact List.dropWhile_beq_eq_self_of_head?_ne hhead

theorem rdropWhile_beq_eq_iff :
    xs.rdropWhile (· == u) = ys ↔ ys.getLast? ≠ some u ∧ ∃ n, xs = ys ++ List.replicate n u := by
  rw [List.rdropWhile, List.reverse_eq_iff, dropWhile_beq_eq_iff, List.head?_reverse]
  refine and_congr_right fun _ => exists_congr fun n => ?_
  rw [List.reverse_eq_iff, List.reverse_append, List.reverse_reverse, List.reverse_replicate]

/-- What is left of a list without one thing at both ends. -/
theorem strip_eq_iff (hne : ys ≠ []) :
    (xs.dropWhile (· == u)).rdropWhile (· == u) = ys ↔ ys.head? ≠ some u ∧ ys.getLast? ≠ some u ∧
      ∃ m n, xs = List.replicate m u ++ ys ++ List.replicate n u := by
  obtain ⟨y, ys, rfl⟩ := List.exists_cons_of_ne_nil hne
  simp only [rdropWhile_beq_eq_iff, dropWhile_beq_eq_iff]
  constructor
  · rintro ⟨hlast, n, hhead, m, rfl⟩
    exact ⟨hhead, hlast, m, n, (List.append_assoc _ _ _).symm⟩
  · rintro ⟨hhead, hlast, m, n, rfl⟩
    exact ⟨hlast, n, hhead, m, List.append_assoc _ _ _⟩

end Stripping

theorem drop_length_takeWhile {α : Type} (p : α → Bool) (xs : List α) :
    xs.drop (xs.takeWhile p).length = xs.dropWhile p := by
  have h := @List.drop_left _ (xs.takeWhile p) (xs.dropWhile p)
  rwa [List.takeWhile_append_dropWhile] at h

/-- What is left of a block comment that is closed. -/
theorem blockContent_closed (xs : List CodeUnit) :
    blockContent (xs ++ [ascii '*', ascii '/']) =
      (xs.dropWhile (· == ascii '*')).rdropWhile (· == ascii '*') := by
  have hend : [ascii '*', ascii '/'].isSuffixOf (xs ++ [ascii '*', ascii '/']) = true :=
    List.isSuffixOf_iff_suffix.mpr (List.suffix_append _ _)
  have hlead : xs.drop ((xs ++ [ascii '*', ascii '/']).takeWhile (· == ascii '*')).length =
      xs.dropWhile (· == ascii '*') := by
    rw [List.takeWhile_append]
    split
    · -- Nothing but stars: those of the end mark are counted too.
      next hall =>
      rw [← drop_length_takeWhile, hall, List.drop_length, List.length_append, List.drop_eq_nil_iff]
      exact Nat.le_add_right _ _
    · exact drop_length_takeWhile _ xs
  simp only [blockContent, hend, if_true, List.length_append, List.length_cons, List.length_nil,
    Nat.add_sub_cancel, List.take_left, hlead]

/-- What is left of a block comment that is not closed. -/
theorem blockContent_unclosed {xs : List CodeUnit} (h : ¬ [ascii '*', ascii '/'] <:+ xs) :
    blockContent xs = (xs.dropWhile (· == ascii '*')).rdropWhile (· == ascii '*') := by
  rw [← List.isSuffixOf_iff_suffix] at h
  rw [blockContent, if_neg h, List.take_length, drop_length_takeWhile]

namespace Directive

theorem ofComment?_line (xs : List CodeUnit) :
    ofComment? (ascii '/' :: ascii '/' :: xs) =
      ofText? (Utf16.decode (xs.dropWhile (· == ascii '/'))) := by
  have hline : (ascii '/' == ascii '/' && ascii '/' == ascii '/') = true := by decide
  rw [← drop_length_takeWhile]
  unfold ofComment? commentContent?
  simp only [hline, if_true]
  generalize (xs.takeWhile (· == ascii '/')).length = lead
  split
  · have hunits : ((ascii '/' :: ascii '/' :: xs).drop (2 + lead)).take (xs.length - lead) =
        xs.drop lead := by
      rw [Nat.add_comm, ← List.length_drop]
      exact List.take_length
    show ofText? (Utf16.decode (((ascii '/' :: ascii '/' :: xs).drop (2 + lead)).take _)) = _
    rw [hunits]
  · next hall =>
    rw [List.drop_eq_nil_of_le (Nat.le_of_not_lt hall)]
    rfl

/-- If a comment that is read as not closed ends in an end mark, its body does, at
least in the last unit of it. -/
theorem body_of_endMark {m n : Nat} {body xs : List CodeUnit} (hne : body ≠ [])
    (h : xs ++ [ascii '*', ascii '/'] =
      List.replicate m (ascii '*') ++ body ++ List.replicate n (ascii '*')) :
    body = [ascii '/'] ∨
      ∃ text, body = text ++ [ascii '*', ascii '/'] ∧ xs = List.replicate m (ascii '*') ++ text := by
  have hslash : ascii '/' ≠ ascii '*' := by decide
  cases n with
  | succ n =>
    rw [List.append_cons, List.replicate_succ', ← List.append_assoc] at h
    exact absurd (List.append_singleton_inj.mp h).2 hslash
  | zero =>
    obtain ⟨front, u, rfl⟩ := (List.eq_nil_or_concat' body).resolve_left hne
    rw [List.replicate_zero, List.append_nil, List.append_cons, ← List.append_assoc] at h
    obtain ⟨hfront, rfl⟩ := List.append_singleton_inj.mp h
    rcases List.eq_nil_or_concat' front with rfl | ⟨text, v, rfl⟩
    · exact Or.inl rfl
    · rw [← List.append_assoc] at hfront
      obtain ⟨hxs, rfl⟩ := List.append_singleton_inj.mp hfront
      exact Or.inr ⟨text, (List.append_cons _ _ _).symm, hxs⟩

/-- **An end mark that is taken as text** changes nothing: what the text says is said
before the end mark. -/
theorem ofComment?_unclosed (m n : Nat) {body : List CodeUnit} {d : Directive}
    (hne : body ≠ []) (hhead : body.head? ≠ some (ascii '*')) (hlast : body.getLast? ≠ some (ascii '*'))
    (h : ofText? (Utf16.decode body) = some d) :
    ofComment? (ascii '/' :: ascii '*' :: (List.replicate m (ascii '*') ++ body ++
        List.replicate n (ascii '*'))) = some d := by
  rw [ofComment?_block]
  by_cases hclosed : [ascii '*', ascii '/'] <:+ List.replicate m (ascii '*') ++ body ++
      List.replicate n (ascii '*')
  · obtain ⟨xs, hxs⟩ := hclosed
    rw [← hxs, blockContent_closed]
    rcases body_of_endMark hne hxs with rfl | ⟨text, rfl, rfl⟩
    · have hnone : ofText? (Utf16.decode [ascii '/']) = none := by decide
      rw [hnone] at h
      cases h
    · have htext : text.head? ≠ some (ascii '*') := by
        cases text with
        | nil => simp
        | cons u text => exact hhead
      rw [dropWhile_beq_eq_iff.mpr ⟨htext, m, rfl⟩]
      -- The stars before the end mark come off with it.
      obtain ⟨-, k, hk⟩ := rdropWhile_beq_eq_iff.mp (Eq.refl (text.rdropWhile (· == ascii '*')))
      generalize text.rdropWhile (· == ascii '*') = kept at hk ⊢
      have hbody : text ++ [ascii '*', ascii '/'] =
          kept ++ ascii '*' :: (List.replicate k (ascii '*') ++ [ascii '/']) := by
        rw [hk, List.append_cons, List.append_assoc kept, ← List.replicate_succ', List.append_assoc]
        rfl
      rw [hbody] at h
      exact ofText?_decode_of_append (Or.inl rfl) h
  · rw [blockContent_unclosed hclosed, (strip_eq_iff hne).mpr ⟨hhead, hlast, m, n, rfl⟩, h]

/-- A comment that has a directive has a body that is one. -/
theorem exists_commentBody {units : List CodeUnit} {d : Directive} (h : ofComment? units = some d) :
    ∃ body, CommentBody units body ∧ ofText? (Utf16.decode body) = some d := by
  have hsome : ∀ {body}, ofText? (Utf16.decode body) = some d → body ≠ [] := by
    have hempty : ofText? (Utf16.decode []) = none := by decide
    rintro body hbody rfl
    rw [hempty] at hbody
    cases hbody
  match units with
  | [] => cases h
  | [_] => cases h
  | a :: b :: xs =>
    by_cases hline : (a == ascii '/' && b == ascii '/') = true
    · obtain ⟨rfl, rfl⟩ : a = ascii '/' ∧ b = ascii '/' := by simpa using hline
      rw [ofComment?_line] at h
      generalize hbody : xs.dropWhile (· == ascii '/') = body at h
      obtain ⟨hhead, n, rfl⟩ := dropWhile_beq_eq_iff.mp hbody
      exact ⟨body, .line n (hsome h) hhead, h⟩
    · by_cases hblock : (a == ascii '/' && b == ascii '*') = true
      · obtain ⟨rfl, rfl⟩ : a = ascii '/' ∧ b = ascii '*' := by simpa using hblock
        rw [ofComment?_block] at h
        by_cases hclosed : [ascii '*', ascii '/'] <:+ xs
        · obtain ⟨xs, rfl⟩ := hclosed
          rw [blockContent_closed] at h
          generalize hbody : (xs.dropWhile (· == ascii '*')).rdropWhile (· == ascii '*') = body at h
          obtain ⟨hhead, hlast, m, n, rfl⟩ := (strip_eq_iff (hsome h)).mp hbody
          exact ⟨body, .closed m n (hsome h) hhead hlast, h⟩
        · rw [blockContent_unclosed hclosed] at h
          generalize hbody : (xs.dropWhile (· == ascii '*')).rdropWhile (· == ascii '*') = body at h
          obtain ⟨hhead, hlast, m, n, rfl⟩ := (strip_eq_iff (hsome h)).mp hbody
          exact ⟨body, .unclosed m n (hsome h) hhead hlast, h⟩
      · simp [ofComment?, commentContent?, hline, hblock] at h

/-- A comment whose body is a directive has that directive. -/
theorem ofComment?_eq_of_commentBody {units body : List CodeUnit} {d : Directive}
    (hbody : CommentBody units body) (h : ofText? (Utf16.decode body) = some d) :
    ofComment? units = some d := by
  rcases hbody with ⟨n, hne, hhead⟩ | ⟨m, n, hne, hhead, hlast⟩ | ⟨m, n, hne, hhead, hlast⟩
  · rw [ofComment?_line, dropWhile_beq_eq_iff.mpr ⟨hhead, n, rfl⟩, h]
  · rw [ofComment?_block, blockContent_closed, (strip_eq_iff hne).mpr ⟨hhead, hlast, m, n, rfl⟩, h]
  · exact ofComment?_unclosed m n hne hhead hlast h

end Directive

/-- **Directive comments are recognized exactly.** A comment has a directive if and only
if it has a body that says it, without the blanks around it. -/
theorem directiveAt?_eq_some_iff {b : Buffer} {s : Span} {d : Directive} :
    directiveAt? b s = some d ↔
      ∃ body, CommentBody (b.slice s) body ∧ Directive.Says (trimBlank (Utf16.decode body)) d := by
  simp only [directiveAt?_eq, ← Directive.ofText?_eq_some_iff]
  constructor
  · exact Directive.exists_commentBody
  · rintro ⟨body, hbody, h⟩
    exact Directive.ofComment?_eq_of_commentBody hbody h

example : Directive.ofComment? (Utf16.encode "/** PO\u017FTGRESqlInAString-Off\t--why ***/".toList) =
    some .disableRegion := by decide +kernel

end EmbeddedSql
