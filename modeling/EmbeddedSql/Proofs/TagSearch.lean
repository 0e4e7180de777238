import EmbeddedSql.Config.ProjectFile
import Mathlib.Data.List.TakeWhile

/-!
# Searching a text for tags

A project file is not parsed. It is searched, character by character, for the first
place where an opening tag of a name begins, and from there for the first closing
tag. Nothing in the search knows of tags of other names, of texts between tags, or of
where one tag ends and the next begins.

Where the names of tags are words of letters and the texts hold no `<`, the search
sees the tags all the same: a tag is found only where one was written, and it is of
that very name (`content?_render`, `closing?_render`). So searching what was written
for a stretch of *marks*, texts and tags, is going through the marks one by one
(`element?_flatMap`, `elements_flatMap`, `enabled?_flatMap`).

One thing the search does not see. A tag such as `<a/>` opens an element and closes
it, but what it is found as is an opening tag, in which anything may stand before the
`>`. The element it opens has no closing tag of its own and is given the next one
there is (`Mark.opens`).
-/

namespace EmbeddedSql

namespace ProjectFile

/-! ## Where a name ends -/

theorem after?_eq_some_iff {ws cs rest : List Char} :
    after? ws cs = some rest ↔ cs = ws ++ rest := by
  fun_induction after? ws cs with
  | case1 cs => simp
  | case2 => simp
  | case3 ws c cs ih => simpa using ih
  | case4 w ws c cs hne =>
    have hother : c ≠ w := fun heq => hne heq.symm
    simp [hother]

theorem toNat_of_isAlpha {c : Char} (h : c.isAlpha = true) : 65 ≤ c.toNat ∧ c.toNat ≤ 122 := by
  rcases Bool.or_eq_true_iff.mp h with hupper | hlower
  · have hrange : 65 ≤ c.val ∧ c.val ≤ 90 := of_decide_eq_true hupper
    have hlo : 65 ≤ c.toNat := UInt32.le_iff_toNat_le.mp hrange.1
    have hhi : c.toNat ≤ 90 := UInt32.le_iff_toNat_le.mp hrange.2
    omega
  · obtain ⟨hlo, hhi⟩ := Bool.and_eq_true_iff.mp hlower
    have hlo : 97 ≤ c.toNat := UInt32.le_iff_toNat_le.mp (of_decide_eq_true hlo)
    have hhi : c.toNat ≤ 122 := UInt32.le_iff_toNat_le.mp (of_decide_eq_true hhi)
    omega

theorem isWordChar_of_isAlpha {c : Char} (h : c.isAlpha = true) : isWordChar c = true := by
  have hascii : c.toNat < 0x80 := by have := toNat_of_isAlpha h; omega
  have halphabetic : isAlphabetic c = true := by rw [isAlphabetic, if_pos hascii, h]
  rw [isWordChar, halphabetic]
  rfl

theorem not_isAlpha_of_isBlank {c : Char} (h : isBlank c = true) : c.isAlpha = false := by
  rw [Bool.eq_false_iff]
  intro halpha
  have hletter := toNat_of_isAlpha halpha
  simp only [isBlank, Bool.or_eq_true, decide_eq_true_eq, beq_iff_eq] at h
  omega

/-- **Here a name is over**: what follows, if anything, starts with no letter. -/
def EndsName (cs : List Char) : Prop := ∀ c, cs.head? = some c → c.isAlpha = false

theorem endsName_cons {c : Char} {cs : List Char} (h : c.isAlpha = false) : EndsName (c :: cs) :=
  fun _ hc => Option.some.inj hc ▸ h

theorem takeWhile_isAlpha {n x : List Char} (hn : ∀ c ∈ n, c.isAlpha = true) (hx : EndsName x) :
    (n ++ x).takeWhile Char.isAlpha = n := by
  rw [List.takeWhile_append_of_pos hn]
  cases x with
  | nil => exact List.append_nil n
  | cons c x =>
    rw [List.takeWhile_cons_of_neg (Bool.eq_false_iff.mp (hx c rfl)), List.append_nil]

/-- **The name of an element**: a word of letters. -/
structure TagName where
  text : String
  letters : text.toList.all Char.isAlpha = true := by decide +kernel
  nonempty : text.toList ≠ [] := by decide +kernel
deriving DecidableEq

namespace TagName

/-- The outermost of the elements that the setting is in. -/
def extensions : TagName where text := "ProjectExtensions"

/-- The element of the settings. -/
def settings : TagName where text := "PostgreSqlInAString"

/-- The element of the setting itself. -/
def enabled : TagName where text := "Enabled"

theorem isAlpha_of_mem {n : TagName} {c : Char} (h : c ∈ n.text.toList) : c.isAlpha = true :=
  List.all_eq_true.mp n.letters c h

/-- Two names are the same where the text behind each of them starts with no letter. -/
theorem eq_of_append_eq {n m : TagName} {x y : List Char} (hx : EndsName x) (hy : EndsName y)
    (h : n.text.toList ++ x = m.text.toList ++ y) : n = m ∧ x = y := by
  have hlist : n.text.toList = m.text.toList := by
    rw [← takeWhile_isAlpha (fun _ => isAlpha_of_mem) hx, h,
      takeWhile_isAlpha (fun _ => isAlpha_of_mem) hy]
  have htext : n.text = m.text := String.toList_inj.mp hlist
  refine ⟨?_, List.append_cancel_left (hlist ▸ h)⟩
  cases n; cases m; cases htext; rfl

theorem not_mem_toList {n : TagName} {c : Char} (hc : c.isAlpha = false) : c ∉ n.text.toList :=
  fun hmem => by simp [isAlpha_of_mem hmem] at hc

theorem exists_letter (n : TagName) : ∃ d ds, n.text.toList = d :: ds ∧ d.isAlpha = true := by
  obtain ⟨d, ds, hn⟩ := List.exists_cons_of_ne_nil n.nonempty
  exact ⟨d, ds, hn, isAlpha_of_mem (hn ▸ List.mem_cons_self)⟩

/-- A name stands before what it is followed by, and no other name does. -/
theorem after?_append {n m : TagName} {x rest : List Char} (hx : EndsName x)
    (hrest : EndsName rest) : after? n.text.toList (m.text.toList ++ x) = some rest ↔
      m = n ∧ x = rest := by
  rw [after?_eq_some_iff]
  constructor
  · exact eq_of_append_eq hx hrest
  · rintro ⟨rfl, rfl⟩
    rfl

end TagName

/-! ## Tags and texts -/

/-- **A text between tags**, in which no tag begins. -/
structure MarkupText where
  chars : List Char
  clean : '<' ∉ chars := by decide +kernel
deriving DecidableEq

/-- What the markup of elements without attributes is made of. -/
inductive Mark
  | text (t : MarkupText)
  | opening (name : TagName)
  | closing (name : TagName)
  | single (name : TagName)
deriving DecidableEq

namespace Mark

/-- A mark as it is written. -/
def render : Mark → List Char
  | text t => t.chars
  | opening n => '<' :: (n.text.toList ++ ['>'])
  | closing n => '<' :: '/' :: (n.text.toList ++ ['>'])
  | single n => '<' :: (n.text.toList ++ ['/', '>'])

/-- Whether a mark is found as an opening tag of the name. A tag that opens an element and
closes it is. -/
def opens (name : TagName) : Mark → Bool
  | opening n | single n => n == name
  | text _ | closing _ => false

/-- Whether a mark is found as a closing tag of the name. -/
def closes (name : TagName) : Mark → Bool
  | closing n => n == name
  | text _ | opening _ | single _ => false

end Mark

section Found

variable {name n : TagName} {m : Mark} {cs rest : List Char} {c : Char}

theorem afterOpeningTag?_of_ne (h : c ≠ '<') : afterOpeningTag? name.text (c :: cs) = none := by
  have hafter : after? ('<' :: name.text.toList) (c :: cs) = none := if_neg h.symm
  rw [afterOpeningTag?, hafter]
  rfl

theorem afterClosingTag?_of_ne (h : c ≠ '<') : afterClosingTag? name.text (c :: cs) = none := by
  have hafter : after? ('<' :: '/' :: name.text.toList) (c :: cs) = none := if_neg h.symm
  rw [afterClosingTag?, hafter]
  rfl

/-- Behind the `<` of an opening tag stands the name, and what follows the name is looked
through for a `>`. -/
theorem afterOpeningTag?_name (hrest : rest.head?.any isWordChar = false) :
    afterOpeningTag? name.text ('<' :: (n.text.toList ++ rest)) =
      if n = name then (rest.dropWhile (· != '>')).tail? else none := by
  have hends : ∀ {r : List Char}, r.head?.any isWordChar = false → EndsName r := by
    intro r hr c hc
    rw [hc, Option.any_some] at hr
    exact Bool.eq_false_iff.mpr fun halpha =>
      Bool.false_ne_true (hr.symm.trans (isWordChar_of_isAlpha halpha))
  have hafter : after? ('<' :: name.text.toList) ('<' :: (n.text.toList ++ rest)) =
      after? name.text.toList (n.text.toList ++ rest) := if_pos rfl
  rw [afterOpeningTag?, hafter]
  by_cases hname : n = name
  · subst hname
    have hfound : after? n.text.toList (n.text.toList ++ rest) = some rest :=
      after?_eq_some_iff.mpr rfl
    rw [hfound, if_pos rfl, Option.bind_eq_bind, Option.bind_some, hrest]
    cases rest.dropWhile (· != '>') <;> rfl
  · rw [if_neg hname]
    cases hfound : after? name.text.toList (n.text.toList ++ rest) with
    | none => rfl
    | some r =>
      have hword : r.head?.any isWordChar = true := by
        by_contra hr
        exact hname ((TagName.after?_append (hends hrest)
          (hends (Bool.eq_false_iff.mpr hr))).mp hfound).1
      rw [Option.bind_eq_bind, Option.bind_some, if_pos hword]

/-- No opening tag has anything before its name. -/
theorem afterOpeningTag?_of_not_isAlpha (hc : c.isAlpha = false) :
    afterOpeningTag? name.text ('<' :: c :: cs) = none := by
  have hafter : after? ('<' :: name.text.toList) ('<' :: c :: cs) = none := by
    obtain ⟨d, ds, hname, hd⟩ := name.exists_letter
    have hne : d ≠ c := fun heq => by simp [heq, hc] at hd
    rw [hname, after?, if_pos rfl, after?, if_neg hne]
  rw [afterOpeningTag?, hafter]
  rfl

/-- No closing tag has its name right behind the `<`. -/
theorem afterClosingTag?_name :
    afterClosingTag? name.text ('<' :: (n.text.toList ++ rest)) = none := by
  have hafter : after? ('<' :: '/' :: name.text.toList)
      ('<' :: (n.text.toList ++ rest)) = none := by
    obtain ⟨d, ds, hn, hd⟩ := n.exists_letter
    have hne : '/' ≠ d := by rintro rfl; exact absurd hd (by decide)
    rw [hn, after?, if_pos rfl, List.cons_append, after?, if_neg hne]
  rw [afterClosingTag?, hafter]
  rfl

theorem afterClosingTag?_closing :
    afterClosingTag? name.text ('<' :: '/' :: (n.text.toList ++ '>' :: rest)) =
      if n = name then some rest else none := by
  have hafter : after? ('<' :: '/' :: name.text.toList)
      ('<' :: '/' :: (n.text.toList ++ '>' :: rest)) =
        after? name.text.toList (n.text.toList ++ '>' :: rest) := by
    rw [after?, if_pos rfl, after?, if_pos rfl]
  rw [afterClosingTag?, hafter]
  have hend : EndsName ('>' :: rest) := endsName_cons (by decide)
  by_cases hname : n = name
  · subst hname
    have hfound : after? n.text.toList (n.text.toList ++ '>' :: rest) = some ('>' :: rest) :=
      after?_eq_some_iff.mpr rfl
    rw [hfound, if_pos rfl, Option.bind_eq_bind, Option.bind_some,
      List.dropWhile_cons_of_neg (by decide)]
    rfl
  · rw [if_neg hname]
    cases hfound : after? name.text.toList (n.text.toList ++ '>' :: rest) with
    | none => rfl
    | some r =>
      rw [Option.bind_eq_bind, Option.bind_some]
      split
      · next tail hblank =>
        -- behind the name there is a blank or the `>`, and the name ends there
        refine absurd ((TagName.after?_append hend fun c hc => ?_).mp hfound).1 hname
        cases r with
        | nil => simp at hc
        | cons e r =>
          cases Option.some.inj hc
          by_cases he : isBlank c = true
          · exact not_isAlpha_of_isBlank he
          · rw [List.dropWhile_cons_of_neg he] at hblank
            rw [(List.cons.inj hblank).1]
            decide
      · rfl

/-! ## Going over a mark -/

theorem content?_of_not_mem (h : '<' ∉ cs) :
    content? name.text (cs ++ rest) = content? name.text rest := by
  induction cs with
  | nil => rfl
  | cons c cs ih =>
    obtain ⟨hc, hcs⟩ := not_or.mp (List.mem_cons.not.mp h)
    rw [List.cons_append, content?, afterOpeningTag?_of_ne (Ne.symm hc), ih hcs]

theorem closing?_of_not_mem (h : '<' ∉ cs) : closing? name.text (cs ++ rest) =
    (closing? name.text rest).map fun (body, tail) => (cs ++ body, tail) := by
  induction cs with
  | nil => simp
  | cons c cs ih =>
    obtain ⟨hc, hcs⟩ := not_or.mp (List.mem_cons.not.mp h)
    rw [List.cons_append, closing?, afterClosingTag?_of_ne (Ne.symm hc), ih hcs, Option.map_map]
    rfl

/-- A tag that opens no element of the name is gone over as a whole. -/
theorem content?_tag (hopen : afterOpeningTag? name.text ('<' :: (cs ++ rest)) = none)
    (hcs : '<' ∉ cs) : content? name.text ('<' :: (cs ++ rest)) = content? name.text rest := by
  rw [content?, hopen, content?_of_not_mem hcs]

/-- A tag that closes no element of the name is gone over as a whole. -/
theorem closing?_tag (hclose : afterClosingTag? name.text ('<' :: (cs ++ rest)) = none)
    (hcs : '<' ∉ cs) : closing? name.text ('<' :: (cs ++ rest)) =
      (closing? name.text rest).map fun (body, tail) => ('<' :: cs ++ body, tail) := by
  rw [closing?, hclose, closing?_of_not_mem hcs, Option.map_map]
  rfl

theorem not_mem_tag (h : '<' ∉ cs) : '<' ∉ n.text.toList ++ cs := fun hmem =>
  (List.mem_append.mp hmem).elim (TagName.not_mem_toList (by decide)) h

theorem not_mem_closing : '<' ∉ '/' :: (n.text.toList ++ ['>']) := fun hmem =>
  (List.mem_cons.mp hmem).elim (by decide) (not_mem_tag (by decide))

/-- What ends a tag that has its name right behind the `<`. -/
theorem tagEnd_spec (rest : List Char) (h : cs = ['>'] ∨ cs = ['/', '>']) :
    (cs ++ rest).head?.any isWordChar = false ∧
      ((cs ++ rest).dropWhile (· != '>')).tail? = some rest ∧ '<' ∉ cs := by
  have hclose : isWordChar '>' = false := by decide +kernel
  have hslash : isWordChar '/' = false := by decide +kernel
  rcases h with rfl | rfl
  · exact ⟨hclose, rfl, by decide⟩
  · exact ⟨hslash, rfl, by decide⟩

theorem content?_name (h : cs = ['>'] ∨ cs = ['/', '>']) :
    content? name.text ('<' :: (n.text.toList ++ cs) ++ rest) =
      if n == name then some rest else content? name.text rest := by
  obtain ⟨hword, hbody, hclean⟩ := tagEnd_spec rest h
  have hopen : afterOpeningTag? name.text ('<' :: (n.text.toList ++ cs ++ rest)) =
      if n = name then some rest else none := by
    rw [List.append_assoc, afterOpeningTag?_name hword, hbody]
  by_cases hname : n = name
  · rw [if_pos hname] at hopen
    rw [if_pos (beq_iff_eq.mpr hname), List.cons_append, content?, hopen]
  · rw [if_neg hname] at hopen
    rw [if_neg fun heq => hname (beq_iff_eq.mp heq)]
    exact content?_tag hopen (not_mem_tag hclean)

theorem closing?_name (h : cs = ['>'] ∨ cs = ['/', '>']) :
    closing? name.text ('<' :: (n.text.toList ++ cs) ++ rest) =
      (closing? name.text rest).map
        fun (body, tail) => ('<' :: (n.text.toList ++ cs) ++ body, tail) := by
  have hclose : afterClosingTag? name.text ('<' :: (n.text.toList ++ cs ++ rest)) = none := by
    rw [List.append_assoc, afterClosingTag?_name]
  exact closing?_tag hclose (not_mem_tag (tagEnd_spec rest h).2.2)

theorem closing?_closing :
    closing? name.text ('<' :: '/' :: (n.text.toList ++ ['>']) ++ rest) =
      if n == name then some ([], rest)
      else (closing? name.text rest).map
        fun (body, tail) => ('<' :: '/' :: (n.text.toList ++ ['>']) ++ body, tail) := by
  have hclose : afterClosingTag? name.text ('<' :: ('/' :: (n.text.toList ++ ['>']) ++ rest)) =
      if n = name then some rest else none := by
    rw [← afterClosingTag?_closing, List.cons_append, List.append_assoc, List.singleton_append]
  by_cases hname : n = name
  · rw [if_pos hname] at hclose
    rw [if_pos (beq_iff_eq.mpr hname), List.cons_append, closing?, hclose]
  · rw [if_neg hname] at hclose
    rw [if_neg fun heq => hname (beq_iff_eq.mp heq)]
    exact closing?_tag hclose not_mem_closing

/-- **The search for an opening tag**, at a mark: it ends where the mark opens an element of
the name, and goes on behind the mark otherwise. -/
theorem content?_render : content? name.text (m.render ++ rest) =
    if m.opens name then some rest else content? name.text rest := by
  cases m with
  | text t => exact content?_of_not_mem t.clean
  | opening n => exact content?_name (.inl rfl)
  | closing n =>
    have hopen : afterOpeningTag? name.text
        ('<' :: ('/' :: (n.text.toList ++ ['>']) ++ rest)) = none :=
      afterOpeningTag?_of_not_isAlpha (by decide)
    exact content?_tag hopen not_mem_closing
  | single n => exact content?_name (.inr rfl)

/-- **The search for a closing tag**, at a mark: it ends before the mark if that closes an
element of the name, and takes the mark in otherwise. -/
theorem closing?_render : closing? name.text (m.render ++ rest) =
    if m.closes name then some ([], rest)
    else (closing? name.text rest).map fun (body, tail) => (m.render ++ body, tail) := by
  cases m with
  | text t => exact closing?_of_not_mem t.clean
  | opening n => exact closing?_name (.inl rfl)
  | closing n => exact closing?_closing
  | single n => exact closing?_name (.inr rfl)

end Found

/-! ## Going through the marks -/

/-- What stands behind the first mark that opens an element of the name. -/
def behindOpening? (name : TagName) : List Mark → Option (List Mark)
  | [] => none
  | m :: ms => if m.opens name then some ms else behindOpening? name ms

/-- What stands before the first mark that closes an element of the name, and what stands
behind that mark. -/
def upToClosing? (name : TagName) : List Mark → Option (List Mark × List Mark)
  | [] => none
  | m :: ms =>
    if m.closes name then some ([], ms)
    else (upToClosing? name ms).map fun (body, back) => (m :: body, back)

/-- The marks that are taken for the inside of the first element of the name, and what
stands behind it. -/
def enclosed? (name : TagName) (ms : List Mark) : Option (List Mark × List Mark) :=
  (behindOpening? name ms).bind (upToClosing? name)

section Marks

variable {name : TagName} {m : Mark} {ms body back : List Mark}

theorem behindOpening?_lt (h : behindOpening? name ms = some back) : back.length < ms.length := by
  induction ms with
  | nil => simp [behindOpening?] at h
  | cons m ms ih =>
    rw [behindOpening?] at h
    split at h
    · cases h; exact Nat.lt_succ_self _
    · exact Nat.lt_succ_of_lt (ih h)

theorem upToClosing?_le (h : upToClosing? name ms = some (body, back)) :
    back.length ≤ ms.length := by
  induction ms generalizing body with
  | nil => simp [upToClosing?] at h
  | cons m ms ih =>
    rw [upToClosing?] at h
    split at h
    · cases h; exact Nat.le_succ _
    · obtain ⟨⟨b, r⟩, hrest, heq⟩ := Option.map_eq_some_iff.mp h
      cases heq
      exact Nat.le_succ_of_le (ih hrest)

theorem enclosed?_lt (h : enclosed? name ms = some (body, back)) : back.length < ms.length := by
  obtain ⟨behind, hopen, hclose⟩ := Option.bind_eq_some_iff.mp h
  exact Nat.lt_of_le_of_lt (upToClosing?_le hclose) (behindOpening?_lt hopen)

end Marks

/-- The insides of all elements of the name, from left to right. -/
def allEnclosed (name : TagName) (ms : List Mark) : List (List Mark) :=
  match h : enclosed? name ms with
  | none => []
  | some (body, back) =>
    have := enclosed?_lt h
    body :: allEnclosed name back
termination_by ms.length

theorem allEnclosed_of_none {name : TagName} {ms : List Mark} (h : enclosed? name ms = none) :
    allEnclosed name ms = [] := by
  rw [allEnclosed]
  split
  · rfl
  · simp_all

theorem allEnclosed_of_some {name : TagName} {ms body back : List Mark}
    (h : enclosed? name ms = some (body, back)) :
    allEnclosed name ms = body :: allEnclosed name back := by
  rw [allEnclosed]
  split
  · simp_all
  · next hsome => rw [h] at hsome; cases hsome; rfl

/-- Whether what stands between two tags reads `true`, blanks around it and the case of its
letters apart. -/
def readsTrue (cs : List Char) : Bool := (trimBlank cs).map Char.toLower == "true".toList

/-- **The setting as the search finds it**, in terms of marks. -/
def settingOfMarks? (ms : List Mark) : Option Bool := do
  let (extensions, _) ← enclosed? .extensions ms
  let (settings, _) ← enclosed? .settings extensions
  let value ← (allEnclosed .enabled settings).getLast?
  return readsTrue (value.flatMap Mark.render)

section Written

theorem elements_of_none {name : String} {cs : List Char} (h : element? name cs = none) :
    elements name cs = [] := by
  rw [elements]
  split
  · rfl
  · simp_all

theorem elements_of_some {name : String} {cs body rest : List Char}
    (h : element? name cs = some (body, rest)) :
    elements name cs = body :: elements name rest := by
  rw [elements]
  split
  · simp_all
  · next hsome => rw [h] at hsome; cases hsome; rfl

variable (name : TagName) (ms : List Mark)

theorem content?_flatMap : content? name.text (ms.flatMap Mark.render) =
    (behindOpening? name ms).map (·.flatMap Mark.render) := by
  induction ms with
  | nil => rfl
  | cons m ms ih =>
    rw [List.flatMap_cons, content?_render, behindOpening?]
    split
    · rfl
    · exact ih

theorem closing?_flatMap : closing? name.text (ms.flatMap Mark.render) =
    (upToClosing? name ms).map
      fun (body, back) => (body.flatMap Mark.render, back.flatMap Mark.render) := by
  induction ms with
  | nil => rfl
  | cons m ms ih =>
    rw [List.flatMap_cons, closing?_render, upToClosing?]
    split
    · rfl
    · rw [ih, Option.map_map, Option.map_map]
      rfl

theorem element?_flatMap : element? name.text (ms.flatMap Mark.render) =
    (enclosed? name ms).map
      fun (body, back) => (body.flatMap Mark.render, back.flatMap Mark.render) := by
  rw [element?, content?_flatMap, enclosed?]
  cases behindOpening? name ms with
  | none => rfl
  | some behind => exact closing?_flatMap name behind

theorem elements_flatMap : elements name.text (ms.flatMap Mark.render) =
    (allEnclosed name ms).map (·.flatMap Mark.render) := by
  induction ms using allEnclosed.induct name with
  | case1 ms hnone =>
    have hchars : element? name.text (ms.flatMap Mark.render) = none := by
      rw [element?_flatMap, hnone]; rfl
    rw [elements_of_none hchars, allEnclosed_of_none hnone]
    rfl
  | case2 ms body back hsome _ ih =>
    have hchars : element? name.text (ms.flatMap Mark.render) =
        some (body.flatMap Mark.render, back.flatMap Mark.render) := by
      rw [element?_flatMap, hsome]; rfl
    rw [elements_of_some hchars, allEnclosed_of_some hsome, ih]
    rfl

/-- **What a project file is read as**, where it is made of marks. -/
theorem enabled?_flatMap : enabled? (ms.flatMap Mark.render) = settingOfMarks? ms := by
  have hextensions := element?_flatMap .extensions ms
  rw [enabled?, settingOfMarks?]
  change element? "ProjectExtensions" _ = _ at hextensions
  rw [hextensions]
  cases enclosed? .extensions ms with
  | none => rfl
  | some inner =>
    obtain ⟨extensions, behind⟩ := inner
    have hsettings := element?_flatMap .settings extensions
    change element? "PostgreSqlInAString" _ = _ at hsettings
    simp only [Option.map_some, Option.bind_eq_bind, Option.bind_some]
    rw [hsettings]
    cases enclosed? .settings extensions with
    | none => rfl
    | some inner =>
      obtain ⟨settings, behind⟩ := inner
      have henabled := elements_flatMap .enabled settings
      change elements "Enabled" _ = _ at henabled
      simp only [Option.map_some, Option.bind_some]
      rw [henabled, List.getLast?_map]
      cases (allEnclosed .enabled settings).getLast? <;> rfl

end Written

end ProjectFile

end EmbeddedSql
