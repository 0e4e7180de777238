import EmbeddedSql.Directive
import EmbeddedSql.Proofs.Moves
import Mathlib.Data.List.DropRight

/-!
# Where the text of a directive ends

A directive is a marker, perhaps an argument, and then nothing, or blanks and a
remark. All of it is letters, dashes and blanks. So if something else comes into
the text, say the end mark of a comment, the directive is complete before it or
there is none: what stands before it says the same on its own
(`Directive.ofText?_of_append`). The converse is false, since a text that ends
right behind its argument is a directive only because it ends there.

For a block comment this settles what happens when it is read together with text
behind it. The end mark, or its last unit, then becomes part of the content, so what
is read says nothing that the comment does not say (`Directive.ofComment?_of_append`).
-/

namespace EmbeddedSql

/-- Nothing before a character that stays is taken off the end of a list. -/
theorem rdropWhile_append_cons {α : Type} {p : α → Bool} {c : α} (hc : p c = false) (xs ys : List α) :
    (xs ++ c :: ys).rdropWhile p = xs ++ c :: ys.rdropWhile p := by
  have hstays : ([c] ++ xs.reverse).dropWhile p = [c] ++ xs.reverse :=
    List.dropWhile_cons_of_neg (by rw [hc]; exact Bool.false_ne_true)
  unfold List.rdropWhile
  rw [List.reverse_append, List.reverse_cons, List.append_assoc, List.dropWhile_append, hstays]
  split
  · next hnone =>
    rw [List.isEmpty_iff.mp hnone]
    simp
  · simp

/-- Searches that agree up to a map on each element find the same. -/
theorem findSome?_eq_map {α β γ : Type} {f : α → Option β} {f' : α → Option γ} {g : β → γ} {l : List α}
    (h : ∀ a ∈ l, f' a = (f a).map g) : l.findSome? f' = (l.findSome? f).map g := by
  induction l with
  | nil => rfl
  | cons a l ih =>
    obtain ⟨ha, hl⟩ := List.forall_mem_cons.mp h
    rw [List.findSome?_cons, List.findSome?_cons, ha, ih hl]
    cases f a with
    | none => rfl
    | some b => rfl

namespace Directive

/-! ## Letters, blanks and other characters -/

theorem bounds_of_isLower_toLower {c : Char} (h : c.toLower.isLower = true) :
    65 ≤ c.toNat ∧ c.toNat ≤ 122 := by
  have hA : 'A'.val.toNat = 65 := rfl
  have hZ : 'Z'.val.toNat = 90 := rfl
  have ha : 'a'.val.toNat = 97 := rfl
  have hz : 'z'.val.toNat = 122 := rfl
  unfold Char.toLower at h
  split at h
  · next hupper =>
    simp only [ge_iff_le, UInt32.le_iff_toNat_le] at hupper
    simp only [Char.toNat]
    omega
  · obtain ⟨hlo, hhi⟩ := Bool.and_eq_true_iff.mp h
    rw [decide_eq_true_eq, ge_iff_le, UInt32.le_iff_toNat_le] at hlo
    rw [decide_eq_true_eq, UInt32.le_iff_toNat_le] at hhi
    simp only [Char.toNat]
    omega

/-- Only letters fold to letters, and no letter is blank. -/
theorem isBlank_of_isLower_fold {c : Char} (h : (fold c).isLower = true) : isBlank c = false := by
  unfold fold at h
  split at h
  · next heq => rw [heq]; decide
  · split at h
    · next heq => rw [heq]; decide
    · have hbounds := bounds_of_isLower_toLower h
      rw [← Bool.not_eq_true]
      intro hblank
      simp only [isBlank, Bool.or_eq_true, decide_eq_true_eq, beq_iff_eq] at hblank
      omega

/-- Whether a character occurs in no directive before its remark: it is neither a
letter, nor a dash, nor blank. -/
def isForeign (c : Char) : Bool := !isBlank c && c != '-' && !(fold c).isLower

section

variable {c : Char} {word : List Char} (hc : isForeign c = true)

include hc

theorem isBlank_of_isForeign : isBlank c = false := by
  simp only [isForeign, Bool.and_eq_true, Bool.not_eq_true'] at hc
  exact hc.1.1

theorem ne_dash_of_isForeign : c ≠ '-' := by
  simp only [isForeign, Bool.and_eq_true, bne_iff_ne] at hc
  exact hc.1.2

/-! ## Words at the start of a text -/

/-- A word that is found is found before a foreign character. -/
theorem afterFolded?_append (hword : ∀ w ∈ word, w.isLower = true) (cs rest : List Char) :
    afterFolded? word (cs ++ c :: rest) = (afterFolded? word cs).map (· ++ c :: rest) := by
  induction word generalizing cs with
  | nil => rfl
  | cons w word ih =>
    obtain ⟨hw, hword⟩ := List.forall_mem_cons.mp hword
    cases cs with
    | nil =>
      refine if_neg fun heq => ?_
      simp only [isForeign, Bool.and_eq_true, Bool.not_eq_true', heq, hw] at hc
      exact absurd hc.2.symm Bool.false_ne_true
    | cons d cs =>
      rw [List.cons_append, afterFolded?, afterFolded?]
      split
      · exact ih hword cs
      · rfl

end

/-- Blanks at the end of a text do not matter to the word at its start. -/
theorem afterFolded?_rdropWhile {word : List Char} (hword : ∀ w ∈ word, w.isLower = true)
    (cs : List Char) :
    afterFolded? word (cs.rdropWhile isBlank) = (afterFolded? word cs).map (List.rdropWhile isBlank) := by
  induction word generalizing cs with
  | nil => rfl
  | cons w word ih =>
    obtain ⟨hw, hword⟩ := List.forall_mem_cons.mp hword
    cases cs with
    | nil => rfl
    | cons d cs =>
      by_cases heq : fold d = w
      · have hstays : (d :: cs).rdropWhile isBlank = d :: cs.rdropWhile isBlank :=
          rdropWhile_append_cons (isBlank_of_isLower_fold (heq ▸ hw)) [] cs
        rw [hstays, afterFolded?, afterFolded?, if_pos heq, if_pos heq]
        exact ih hword cs
      · rw [afterFolded?, if_neg heq, Option.map_none]
        -- Either the first character is left, or nothing is.
        have hkept := List.rdropWhile_prefix isBlank (d :: cs)
        rcases List.prefix_cons_iff.mp hkept with hnil | ⟨tail, hcons, -⟩
        · rw [hnil]
          rfl
        · rw [hcons, afterFolded?, if_neg heq]

/-- A word that is found takes up as many characters as it has. -/
theorem length_le_of_afterFolded? {word cs rest : List Char} (h : afterFolded? word cs = some rest) :
    word.length ≤ cs.length := by
  induction word generalizing cs with
  | nil => exact Nat.zero_le _
  | cons w word ih =>
    cases cs with
    | nil => simp [afterFolded?] at h
    | cons d cs =>
      rw [afterFolded?] at h
      split at h
      · exact Nat.succ_le_succ (ih h)
      · simp at h

/-! ## Directives -/

/-- A directive ends at the end of its text, or before blanks and two dashes. -/
theorem endsHere_iff {cs : List Char} :
    endsHere cs = true ↔ cs = [] ∨ ∃ blanks remark, blanks ≠ [] ∧ (∀ d ∈ blanks, isBlank d = true) ∧
      cs = blanks ++ '-' :: '-' :: remark := by
  rw [endsHere, Bool.or_eq_true, List.isEmpty_iff, Bool.and_eq_true, List.isPrefixOf_iff_prefix]
  refine or_congr_right ⟨fun ⟨hhead, remark, hremark⟩ => ?_, ?_⟩
  · refine ⟨cs.takeWhile isBlank, remark, ?_, fun d hd => ?_, ?_⟩
    · intro hnone
      cases cs with
      | nil => simp at hhead
      | cons d cs =>
        simp only [List.head?_cons, Option.any_some] at hhead
        rw [List.takeWhile_cons_of_pos hhead] at hnone
        exact List.cons_ne_nil _ _ hnone
    · exact List.mem_takeWhile_imp hd
    · have hsplit := List.takeWhile_append_dropWhile (p := isBlank) (l := cs)
      rw [← hremark] at hsplit
      exact hsplit.symm
  · rintro ⟨blanks, remark, hne, hblanks, rfl⟩
    obtain ⟨d, blanks, rfl⟩ := List.exists_cons_of_ne_nil hne
    refine ⟨?_, remark, ?_⟩
    · exact hblanks d List.mem_cons_self
    · rw [List.dropWhile_append_of_pos hblanks]
      rfl

/-- What an argument asks for: it is found up to folding, the directive ends behind
it, and it is the same with only the case of its letters ignored. -/
theorem ofArgument?_eq_some {cs : List Char} {d : Directive} :
    ofArgument? cs = some d ↔ ∃ word rest,
      (arguments.find? fun a => (afterFolded? a.1.toList cs).isSome) = some (word, d) ∧
        afterFolded? word.toList cs = some rest ∧ endsHere rest = true ∧
        (cs.take word.length).map Char.toLower = word.toList := by
  simp only [ofArgument?, Option.bind_eq_bind, Option.bind_eq_some_iff, Prod.exists, guard,
    Option.ite_none_right_eq_some, pure, Option.some.injEq, failure]
  constructor
  · rintro ⟨word, d', hfind, rest, hrest, -, ⟨hends, -⟩, -, ⟨hcase, -⟩, rfl⟩
    exact ⟨word, rest, hfind, hrest, hends, hcase⟩
  · rintro ⟨word, rest, hfind, hrest, hends, hcase⟩
    exact ⟨word, d, hfind, rest, hrest, (), ⟨hends, trivial⟩, (), ⟨hcase, trivial⟩, rfl⟩

section

variable {c : Char} (hc : isForeign c = true)

include hc

/-- Before a foreign character only a remark ends a directive. -/
theorem endsHere_of_append {cs rest : List Char} (h : endsHere (cs ++ c :: rest) = true) :
    endsHere (cs.rdropWhile isBlank) = true := by
  rcases endsHere_iff.mp h with hnil | ⟨blanks, remark, hne, hblanks, heq⟩
  · exact absurd hnil (List.append_ne_nil_of_right_ne_nil _ (List.cons_ne_nil _ _))
  · have hforeign : c ∉ blanks ++ ['-', '-'] := by
      simp only [List.mem_append, List.mem_cons, List.not_mem_nil, or_false, or_self, not_or]
      refine ⟨fun hmem => ?_, ne_dash_of_isForeign hc⟩
      exact Bool.false_ne_true ((isBlank_of_isForeign hc).symm.trans (hblanks c hmem))
    have hsplit : cs ++ c :: rest = (blanks ++ ['-', '-']) ++ remark := by
      rw [heq, List.append_assoc]
      rfl
    -- So the blanks and the dashes are all in what comes before it.
    obtain ⟨more, rfl⟩ : ∃ more, cs = (blanks ++ ['-', '-']) ++ more := by
      rcases List.append_eq_append_iff.mp hsplit with ⟨more, hmore, hrest⟩ | ⟨more, hmore, -⟩
      · cases more with
        | nil => exact ⟨[], by rw [hmore, List.append_nil, List.append_nil]⟩
        | cons d more =>
          rw [List.cons_append, List.cons.injEq] at hrest
          exact absurd (hmore ▸ hrest.1 ▸ List.mem_append_right cs List.mem_cons_self) hforeign
      · exact ⟨more, hmore⟩
    have hkept : ((blanks ++ ['-', '-']) ++ more).rdropWhile isBlank =
        blanks ++ '-' :: '-' :: more.rdropWhile isBlank := by
      have hdash : isBlank '-' = false := by decide
      simpa using rdropWhile_append_cons hdash (blanks ++ ['-']) more
    exact endsHere_iff.mpr (Or.inr ⟨blanks, _, hne, hblanks, hkept⟩)

/-- Before a foreign character an argument says what it says on its own. -/
theorem ofArgument?_of_append {cs rest : List Char} {d : Directive}
    (h : ofArgument? (cs ++ c :: rest) = some d) : ofArgument? (cs.rdropWhile isBlank) = some d := by
  have hletters : ∀ a ∈ arguments, ∀ w ∈ a.1.toList, w.isLower = true := by
    have hall : (arguments.all fun a => a.1.toList.all Char.isLower) = true := by decide
    simpa only [List.all_eq_true] using hall
  have hfound : ∀ a ∈ arguments, (afterFolded? a.1.toList (cs ++ c :: rest)).isSome =
      (afterFolded? a.1.toList (cs.rdropWhile isBlank)).isSome := fun a ha => by
    rw [afterFolded?_append hc (hletters a ha), afterFolded?_rdropWhile (hletters a ha),
      Option.isSome_map, Option.isSome_map]
  have hfind : (arguments.find? fun a => (afterFolded? a.1.toList (cs ++ c :: rest)).isSome) =
      arguments.find? fun a => (afterFolded? a.1.toList (cs.rdropWhile isBlank)).isSome := by
    rw [← List.head?_filter, List.filter_congr hfound, List.head?_filter]
  obtain ⟨word, behind, hword, hbehind, hends, hcase⟩ := ofArgument?_eq_some.mp h
  have hword' := hletters _ (List.mem_of_find?_eq_some hword)
  rw [afterFolded?_append hc hword', Option.map_eq_some_iff] at hbehind
  obtain ⟨before, hbefore, rfl⟩ := hbehind
  have htrimmed : afterFolded? word.toList (cs.rdropWhile isBlank) = some (before.rdropWhile isBlank) := by
    rw [afterFolded?_rdropWhile hword', hbefore, Option.map_some]
  refine ofArgument?_eq_some.mpr ⟨word, _, hfind ▸ hword, htrimmed, endsHere_of_append hc hends, ?_⟩
  -- The letters of the argument are the same in both texts.
  have hlen := length_le_of_afterFolded? hbefore
  have hlen' := length_le_of_afterFolded? htrimmed
  rw [String.length_toList] at hlen hlen'
  rw [List.take_append_of_le_length hlen] at hcase
  obtain ⟨tail, htail⟩ := List.rdropWhile_prefix isBlank cs
  rw [← hcase]
  conv_rhs => rw [← htail]
  rw [List.take_append_of_le_length hlen']

/-- **What stands before a foreign character says the same on its own.** -/
theorem ofText?_of_append {cs rest : List Char} {d : Directive}
    (h : ofText? (cs ++ c :: rest) = some d) : ofText? cs = some d := by
  have hblank := isBlank_of_isForeign hc
  have hletters : ∀ m ∈ markers, ∀ w ∈ m.toList, w.isLower = true := by
    have hall : (markers.all fun m => m.toList.all Char.isLower) = true := by decide
    simpa only [List.all_eq_true] using hall
  have htrim : trimBlank (cs ++ c :: rest) = cs.dropWhile isBlank ++ c :: rest.rdropWhile isBlank := by
    rw [← rdropWhile_append_cons hblank, trimBlank, List.dropWhile_append,
      List.dropWhile_cons_of_neg (by rw [hblank]; exact Bool.false_ne_true)]
    split
    · next hnone => rw [List.isEmpty_iff.mp hnone]; rfl
    · rfl
  have hmarker : (markers.findSome? fun m => afterFolded? m.toList (trimBlank (cs ++ c :: rest))) =
      (markers.findSome? fun m => afterFolded? m.toList (cs.dropWhile isBlank)).map
        (· ++ c :: rest.rdropWhile isBlank) :=
    findSome?_eq_map fun m hm => by rw [htrim, afterFolded?_append hc (hletters m hm)]
  have hmarker' : (markers.findSome? fun m => afterFolded? m.toList (trimBlank cs)) =
      (markers.findSome? fun m => afterFolded? m.toList (cs.dropWhile isBlank)).map
        (List.rdropWhile isBlank) :=
    findSome?_eq_map fun m hm => afterFolded?_rdropWhile (hletters m hm) _
  rw [ofText?, hmarker] at h
  rw [ofText?, hmarker']
  cases hbehind : markers.findSome? fun m => afterFolded? m.toList (cs.dropWhile isBlank) with
  | none => simp [hbehind] at h
  | some behind =>
    simp only [hbehind, Option.map_some, Option.bind_eq_bind, Option.bind_some] at h ⊢
    split at h
    · next argument hargument =>
      -- The dash of the argument comes before the foreign character.
      obtain ⟨xs, rfl, rfl⟩ : ∃ xs, behind = '-' :: xs ∧ argument = xs ++ c :: rest.rdropWhile isBlank := by
        cases behind with
        | nil => exact absurd (List.cons.inj hargument).1 (ne_dash_of_isForeign hc)
        | cons x xs =>
          obtain ⟨rfl, hxs⟩ := List.cons.inj hargument
          exact ⟨xs, rfl, hxs.symm⟩
      have hdash : isBlank '-' = false := by decide
      rw [show ('-' :: xs).rdropWhile isBlank = '-' :: xs.rdropWhile isBlank from
        rdropWhile_append_cons hdash [] xs]
      exact ofArgument?_of_append hc h
    · next hnone =>
      rw [Option.ite_none_right_eq_some] at h
      split
      · next argument hargument =>
        obtain ⟨tail, htail⟩ := List.rdropWhile_prefix isBlank behind
        rw [hargument] at htail
        exact absurd (by rw [← htail]; rfl) (hnone (argument ++ tail ++ c :: rest.rdropWhile isBlank))
      · rw [if_pos (endsHere_of_append hc h.1)]
        exact h.2

end

end Directive

/-! ## The text of a comment -/

namespace Utf16

/-- A unit that is no surrogate is read on its own. -/
theorem decode_cons {u : CodeUnit} (hu : isHigh u = false) (us : List CodeUnit) :
    decode (u :: us) = single u :: decode us := by
  cases us with
  | nil => rfl
  | cons v us => rw [decode, hu, Bool.false_and, if_neg Bool.false_ne_true]

/-- Reading stops at a unit that is no second half, and goes on there. -/
theorem decode_append {v : CodeUnit} (hv : isLow v = false) (us vs : List CodeUnit) :
    decode (us ++ v :: vs) = decode us ++ decode (v :: vs) := by
  fun_induction decode us with
  | case1 => rfl
  | case2 u =>
    show decode (u :: v :: vs) = single u :: decode (v :: vs)
    rw [decode, hv, Bool.and_false, if_neg Bool.false_ne_true]
  | case3 u w rest hpair ih =>
    show decode (u :: w :: (rest ++ v :: vs)) = _
    rw [decode, if_pos hpair, ih]
    rfl
  | case4 u w rest hpair ih =>
    show decode (u :: w :: (rest ++ v :: vs)) = _
    rw [decode, if_neg hpair]
    exact congrArg (single u :: ·) ih

end Utf16

open Utf16 (ascii)

/-- The content of a comment is inside it. -/
theorem stop_le_of_commentContent? {units : List CodeUnit} {content : Span}
    (h : commentContent? units = some content) : content.stop ≤ units.length := by
  unfold commentContent? at h
  split at h
  · next a b body =>
    split at h
    · simp only at h
      split at h
      · cases h
        simp only [Span.stop, List.length_cons]
        omega
      · simp at h
    · split at h
      · simp only at h
        generalize (if [ascii '*', ascii '/'].isSuffixOf body then body.length - 2
          else body.length) = stop at h
        generalize (body.takeWhile (· == ascii '*')).length = lead at h
        -- However many stars come off, what is left is no longer than what follows the first ones.
        have hlen := (List.dropWhile_sublist (l := ((body.take stop).drop lead).reverse)
          (· == ascii '*')).length_le
        generalize ((body.take stop).drop lead).reverse.dropWhile (· == ascii '*') = kept
          at h hlen
        rw [List.length_reverse, List.length_drop, List.length_take] at hlen
        cases kept with
        | nil => simp at h
        | cons k kept =>
          cases h
          simp only [Span.stop, List.length_cons] at *
          omega
      · simp at h
  · simp at h

/-- The directive of a comment, from its units alone. -/
def Directive.ofComment? (units : List CodeUnit) : Option Directive := do
  let content ← commentContent? units
  ofText? (Utf16.decode ((units.drop content.start).take content.len))

/-- The directive of a comment depends on its own units only. -/
theorem directiveAt?_eq (b : Buffer) (s : Span) :
    directiveAt? b s = Directive.ofComment? (b.slice s) := by
  unfold directiveAt? Directive.ofComment?
  cases hcontent : commentContent? (b.slice s) with
  | none => rfl
  | some content =>
    have hstop := stop_le_of_commentContent? hcontent
    have hlen := b.length_slice_le s
    have hinside : b.slice (content.shift s.start) =
        ((b.slice s).drop content.start).take content.len := by
      have hmin : min content.len (s.len - content.start) = content.len := by
        rw [Span.stop] at hstop
        omega
      rw [b.slice_eq, b.slice_eq, List.drop_take, List.take_take, hmin, List.drop_drop]
      exact congrArg (fun start => (b.units.toList.drop start).take content.len) (Nat.add_comm _ _)
    show Directive.ofText? (Utf16.decode (b.slice (content.shift s.start))) = _
    rw [hinside]
    rfl

/-- The units of a block comment behind its two opening units, without the end
mark, if there is one, and without the stars at both ends. -/
def blockContent (body : List CodeUnit) : List CodeUnit :=
  let lead := (body.takeWhile (· == ascii '*')).length
  let stop := if [ascii '*', ascii '/'].isSuffixOf body then body.length - 2 else body.length
  ((body.take stop).drop lead).rdropWhile (· == ascii '*')

theorem Directive.ofComment?_block (body : List CodeUnit) :
    ofComment? (ascii '/' :: ascii '*' :: body) = ofText? (Utf16.decode (blockContent body)) := by
  have hline : (ascii '/' == ascii '/' && ascii '*' == ascii '/') = false := by decide
  have hblock : (ascii '/' == ascii '/' && ascii '*' == ascii '*') = true := by decide
  unfold ofComment? commentContent? blockContent
  simp only [hline, hblock, Bool.false_eq_true, if_false, if_true]
  generalize (if [ascii '*', ascii '/'].isSuffixOf body then body.length - 2 else body.length) = stop
  generalize (body.takeWhile (· == ascii '*')).length = lead
  have hprefix : ((body.take stop).drop lead).rdropWhile (· == ascii '*') <+: body.drop lead := by
    refine List.IsPrefix.trans ( List.rdropWhile_prefix _ _) ?_
    rw [List.drop_take]
    exact List.take_prefix _ _
  generalize hkept : ((body.take stop).drop lead).rdropWhile (· == ascii '*') = kept at hprefix ⊢
  rw [List.rdropWhile, List.reverse_eq_iff] at hkept
  rw [hkept, List.isEmpty_reverse, List.length_reverse]
  cases kept with
  | nil => rfl
  | cons u kept =>
    have htext : ((ascii '/' :: ascii '*' :: body).drop (2 + lead)).take (u :: kept).length = u :: kept := by
      rw [Nat.add_comm]
      exact (List.prefix_iff_eq_take.mp hprefix).symm
    show ofText? (Utf16.decode (((ascii '/' :: ascii '*' :: body).drop (2 + lead)).take _)) = _
    rw [htext]

/-- The leading stars of a block comment do not depend on what comes behind its end
mark. They may reach into it, if there is nothing else. -/
theorem exists_lead (body : List CodeUnit) :
    ∃ lead, (lead = body.length + 1 ∨ lead ≤ body.length) ∧ ∀ rest,
      ((body ++ ascii '*' :: ascii '/' :: rest).takeWhile (· == ascii '*')).length = lead := by
  have hmark : ∀ rest, (ascii '*' :: ascii '/' :: rest).takeWhile (· == ascii '*') = [ascii '*'] :=
    fun rest => rfl
  by_cases hall : (body.takeWhile (· == ascii '*')).length = body.length
  · refine ⟨_, Or.inl rfl, fun rest => ?_⟩
    rw [List.takeWhile_append, if_pos hall, hmark, List.length_append]
    rfl
  · refine ⟨_, Or.inr (List.takeWhile_sublist (· == ascii '*')).length_le, fun rest => ?_⟩
    rw [List.takeWhile_append, if_neg hall]

/-- **What comes behind the end mark of a block comment** becomes part of its
content only together with the end mark, or with the last unit of it. -/
theorem blockContent_append (body : List CodeUnit) {rest : List CodeUnit} (hrest : 2 ≤ rest.length) :
    ∃ c more, (c = '*' ∨ c = '/') ∧ blockContent (body ++ ascii '*' :: ascii '/' :: rest) =
      blockContent (body ++ [ascii '*', ascii '/']) ++ ascii c :: more := by
  have hslash : ∀ xs ys, (xs ++ ascii '/' :: ys).rdropWhile (· == ascii '*') =
      xs ++ ascii '/' :: ys.rdropWhile (· == ascii '*') :=
    rdropWhile_append_cons (p := (· == ascii '*')) (by decide)
  obtain ⟨lead, hbounds, hlead⟩ := exists_lead body
  have hshort : blockContent (body ++ [ascii '*', ascii '/']) =
      (body.drop lead).rdropWhile (· == ascii '*') := by
    have hend : [ascii '*', ascii '/'].isSuffixOf (body ++ [ascii '*', ascii '/']) = true :=
      List.isSuffixOf_iff_suffix.mpr (List.suffix_append _ _)
    simp only [blockContent, hlead [], hend, if_true, List.length_append, List.length_cons,
      List.length_nil, Nat.add_sub_cancel, List.take_left]
  obtain ⟨more, hlong⟩ : ∃ more, blockContent (body ++ ascii '*' :: ascii '/' :: rest) =
      ((body ++ ascii '*' :: ascii '/' :: more).drop lead).rdropWhile (· == ascii '*') := by
    have hlen : (body ++ ascii '*' :: ascii '/' :: rest).length = body.length + (rest.length + 2) :=
      List.length_append
    unfold blockContent
    simp only [hlead rest, hlen]
    split
    · refine ⟨rest.take (rest.length - 2), ?_⟩
      have hstop : body.length + (rest.length + 2) - 2 = body.length + (rest.length - 2 + 2) := by omega
      rw [hstop, List.take_length_add_append]
      rfl
    · refine ⟨rest, ?_⟩
      rw [← hlen, List.take_length]
  rw [hshort, hlong]
  rcases hbounds with rfl | hle
  · -- Only stars: the content begins with the last unit of the end mark.
    refine ⟨'/', more.rdropWhile (· == ascii '*'), Or.inr rfl, ?_⟩
    rw [List.drop_length_add_append, List.drop_eq_nil_of_le (Nat.le_succ _)]
    exact hslash [] more
  · -- The stars that were taken off at the end are now inside the content.
    have hstars : ∃ tail, (body.drop lead).rtakeWhile (· == ascii '*') ++ [ascii '*'] =
        ascii '*' :: tail := by
      cases hstars : (body.drop lead).rtakeWhile (· == ascii '*') with
      | nil => exact ⟨[], rfl⟩
      | cons u stars =>
        have hu := List.mem_rtakeWhile_imp (hstars ▸ List.mem_cons_self)
        rw [beq_iff_eq.mp hu]
        exact ⟨stars ++ [ascii '*'], rfl⟩
    obtain ⟨tail, htail⟩ := hstars
    refine ⟨'*', tail ++ ascii '/' :: more.rdropWhile (· == ascii '*'), Or.inl rfl, ?_⟩
    have hsplit : body.drop lead ++ [ascii '*'] =
        (body.drop lead).rdropWhile (· == ascii '*') ++ ascii '*' :: tail := by
      rw [← htail, ← List.append_assoc, List.rdropWhile_append_rtakeWhile]
    calc ((body ++ ascii '*' :: ascii '/' :: more).drop lead).rdropWhile (· == ascii '*')
      _ = ((body.drop lead ++ [ascii '*']) ++ ascii '/' :: more).rdropWhile (· == ascii '*') := by
        rw [List.drop_append_of_le_length hle, List.append_assoc]
        rfl
      _ = (body.drop lead ++ [ascii '*']) ++ ascii '/' :: more.rdropWhile (· == ascii '*') := hslash _ more
      _ = _ := by
        rw [hsplit, List.append_assoc]
        rfl

/-- What stands before a star or a slash says the same on its own. -/
theorem Directive.ofText?_decode_of_append {units more : List CodeUnit} {c : Char}
    (hc : c = '*' ∨ c = '/') {d : Directive}
    (h : ofText? (Utf16.decode (units ++ ascii c :: more)) = some d) :
    ofText? (Utf16.decode units) = some d := by
  have hunit : isForeign (Utf16.single (ascii c)) = true ∧ Utf16.isHigh (ascii c) = false ∧
      Utf16.isLow (ascii c) = false := by
    rcases hc with rfl | rfl <;> decide
  obtain ⟨hforeign, hhigh, hlow⟩ := hunit
  rw [Utf16.decode_append hlow, Utf16.decode_cons hhigh] at h
  exact ofText?_of_append hforeign h

/-- **A block comment keeps its directive when what follows is read with it.** Put
the other way, text that is read on past an end mark, for at least two units, says
nothing that the comment up to that mark does not say. -/
theorem Directive.ofComment?_of_append {body rest : List CodeUnit} (hrest : 2 ≤ rest.length)
    {d : Directive}
    (h : ofComment? (ascii '/' :: ascii '*' :: (body ++ ascii '*' :: ascii '/' :: rest)) = some d) :
    ofComment? (ascii '/' :: ascii '*' :: (body ++ [ascii '*', ascii '/'])) = some d := by
  obtain ⟨c, more, hc, happend⟩ := blockContent_append body hrest
  rw [ofComment?_block, happend] at h
  rw [ofComment?_block]
  exact ofText?_decode_of_append hc h

end EmbeddedSql
