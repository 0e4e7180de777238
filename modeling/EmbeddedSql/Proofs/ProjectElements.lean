import EmbeddedSql.Config.Settings
import EmbeddedSql.Proofs.TagSearch

/-!
# The elements of a project file

What the search through a project file is meant to find is told by the elements of the
file: of the first `ProjectExtensions` element, the first `PostgreSqlInAString` inside
it, and there the text of the last `Enabled` (`Markup.setting?`).

An element is `Markup` between an opening and a closing tag of its name, or it is empty
and written as the one tag `<name/>`. As long as no element looked for is nested in
another of its name, and an `Enabled` holds text alone, an opening tag and the first
closing tag of its name behind it belong to one element: the search finds the insides
of the elements and nothing else (`Markup.enclosed?_marks`, `Markup.allEnclosed_marks`).

That does not hold of elements written as one tag. Such an element has no closing tag,
and the one the search finds for it is that of a later element of the name
(`Markup.misread`). So what the search finds is what the elements say as long as no
self-closed element that the rule asks about stands before one it could borrow from
(`Markup.ofProject_render`).
-/

namespace EmbeddedSql

namespace ProjectFile

/-- **What stands inside an element**: texts and elements, each with what stands behind it. -/
inductive Markup
  | nil
  | text (t : MarkupText) (behind : Markup)
  | single (name : TagName) (behind : Markup)
  | element (name : TagName) (inside behind : Markup)

/-- **An element**: what stands inside, and whether it is written as one tag, inside which
nothing stands. -/
structure Element where
  inside : Markup
  single : Bool
  empty : single = true → inside = .nil

namespace Markup

variable {name n : TagName} {doc inside behind : Markup} {e : Element} {es : List Element}
  {m : Mark} {back : List Mark}

/-! ## Markup and its elements -/

/-- Markup as it is written. -/
def render : Markup → List Char
  | nil => []
  | text t behind => t.chars ++ behind.render
  | single n behind => '<' :: (n.text.toList ++ ['/', '>']) ++ behind.render
  | element n inside behind =>
    '<' :: (n.text.toList ++ ['>']) ++ inside.render ++
      '<' :: '/' :: (n.text.toList ++ ['>']) ++ behind.render

/-- The text of markup. -/
def chars : Markup → List Char
  | nil => []
  | text t behind => t.chars ++ behind.chars
  | single _ behind => behind.chars
  | element _ inside behind => inside.chars ++ behind.chars

/-- Whether there is nothing but text. -/
def isText : Markup → Bool
  | nil => true
  | text _ behind => behind.isText
  | single _ _ | element _ _ _ => false

/-- The elements of a name, in the order in which they open. -/
def named (name : TagName) : Markup → List Element
  | nil => []
  | text _ behind => behind.named name
  | single n behind => (if n = name then [⟨nil, true, fun _ => rfl⟩] else []) ++ behind.named name
  | element n inside behind =>
    (if n = name then [⟨inside, false, nofun⟩] else []) ++ inside.named name ++
      behind.named name

/-- **The setting that the elements tell**, if there is one. -/
def setting? (doc : Markup) : Option Bool := do
  let extensions ← (doc.named .extensions).head?
  let settings ← (extensions.inside.named .settings).head?
  let value ← (settings.inside.named .enabled).getLast?
  return readsTrue value.inside.chars

/-- **Markup that can be searched by tags**: the elements looked for are in no others of
their name, and an `Enabled` holds text alone. -/
structure Searchable (doc : Markup) : Prop where
  extensions : ∀ e ∈ doc.named .extensions, e.inside.named .extensions = []
  settings : ∀ e ∈ doc.named .settings, e.inside.named .settings = []
  enabled : ∀ e ∈ doc.named .enabled, e.inside.isText = true

/-- Whether the first of the elements is a single tag and can be given the closing tag of
another. -/
def borrows : List Element → Bool
  | [] => false
  | e :: es => e.single && es.any (!·.single)

/-- **Where the search goes wrong**: the first `ProjectExtensions`, or the first
`PostgreSqlInAString` inside it, is a single tag and there is a closing tag behind it, or
an `Enabled` that counts is a single tag. -/
def misread (doc : Markup) : Bool :=
  borrows (doc.named .extensions) ||
    (doc.named .extensions).head?.any fun extensions =>
      borrows (extensions.inside.named .settings) ||
        (extensions.inside.named .settings).head?.any fun settings =>
          (settings.inside.named .enabled).any (·.single)

/-! ## The marks of markup -/

/-- The marks that markup is written with. -/
def marks : Markup → List Mark
  | nil => []
  | text t behind => .text t :: behind.marks
  | single n behind => .single n :: behind.marks
  | element n inside behind => .opening n :: inside.marks ++ .closing n :: behind.marks

theorem flatMap_marks : doc.marks.flatMap Mark.render = doc.render := by
  induction doc with
  | nil => rfl
  | text t behind ih => simp [marks, render, Mark.render, ih]
  | single n behind ih => simp [marks, render, Mark.render, ih]
  | element n inside behind ihinside ihbehind =>
    simp [marks, render, Mark.render, ihinside, ihbehind]

/-- Where no element has the name, no mark opens one. -/
theorem not_opens_of_named (h : doc.named name = []) : ∀ m ∈ doc.marks, m.opens name = false := by
  induction doc with
  | nil => simp [marks]
  | text t behind ih => simpa [marks, Mark.opens] using ih h
  | single n behind ih =>
    obtain ⟨hother, hbehind⟩ := List.append_eq_nil_iff.mp h
    have hn : n ≠ name := by simpa using hother
    simpa [marks, Mark.opens, hn] using ih hbehind
  | element n inside behind ihinside ihbehind =>
    obtain ⟨hhere, hbehind⟩ := List.append_eq_nil_iff.mp h
    obtain ⟨hother, hinside⟩ := List.append_eq_nil_iff.mp hhere
    have hn : n ≠ name := by simpa using hother
    simp only [marks, List.cons_append, List.mem_cons, List.mem_append]
    rintro m (rfl | hm | rfl | hm)
    · simp [Mark.opens, hn]
    · exact ihinside hinside m hm
    · rfl
    · exact ihbehind hbehind m hm

/-- Only an element that is not a single tag has a closing tag. -/
theorem not_closes_of_single (h : ∀ e ∈ doc.named name, e.single = true) :
    ∀ m ∈ doc.marks, m.closes name = false := by
  induction doc with
  | nil => simp [marks]
  | text t behind ih => simpa [marks, Mark.closes] using ih h
  | single n behind ih =>
    have hbehind := ih fun e he => h e (List.mem_append_right _ he)
    simpa [marks, Mark.closes] using hbehind
  | element n inside behind ihinside ihbehind =>
    have hn : n ≠ name := by
      rintro rfl
      exact absurd (h ⟨inside, false, nofun⟩ (by simp [named])) (by simp)
    have hinside := ihinside fun e he => h e (by simp [named, he])
    have hbehind := ihbehind fun e he => h e (by simp [named, he])
    simp only [marks, List.cons_append, List.mem_cons, List.mem_append]
    rintro m (rfl | hm | rfl | hm)
    · rfl
    · exact hinside m hm
    · simp [Mark.closes, hn]
    · exact hbehind m hm

theorem not_closes_of_named (h : doc.named name = []) : ∀ m ∈ doc.marks, m.closes name = false :=
  not_closes_of_single fun e he => by simp [h] at he

/-! ## The search among the marks -/

theorem enclosed?_cons_of_not_opens (h : m.opens name = false) :
    enclosed? name (m :: back) = enclosed? name back := by
  rw [enclosed?, behindOpening?, h, if_neg Bool.false_ne_true, enclosed?]

theorem enclosed?_append_of_not_opens {ms : List Mark} (back : List Mark)
    (h : ∀ m ∈ ms, m.opens name = false) :
    enclosed? name (ms ++ back) = enclosed? name back := by
  induction ms with
  | nil => rfl
  | cons m ms ih =>
    rw [List.cons_append, enclosed?_cons_of_not_opens (h m List.mem_cons_self),
      ih fun m' hm' => h m' (List.mem_cons_of_mem _ hm')]

theorem upToClosing?_append_of_not_closes {ms : List Mark} (back : List Mark)
    (h : ∀ m ∈ ms, m.closes name = false) : upToClosing? name (ms ++ back) =
      (upToClosing? name back).map fun (body, rest) => (ms ++ body, rest) := by
  induction ms with
  | nil => simp
  | cons m ms ih =>
    have hm : ¬m.closes name = true := by simp [h m List.mem_cons_self]
    rw [List.cons_append, upToClosing?, if_neg hm,
      ih fun m' hm' => h m' (List.mem_cons_of_mem _ hm'), Option.map_map]
    rfl

theorem allEnclosed_congr {ms ms' : List Mark} (h : enclosed? name ms = enclosed? name ms') :
    allEnclosed name ms = allEnclosed name ms' := by
  cases hms : enclosed? name ms with
  | none => rw [allEnclosed_of_none hms, allEnclosed_of_none (h ▸ hms)]
  | some inner =>
    have hms' : enclosed? name ms' = some (inner.1, inner.2) := h ▸ hms
    rw [allEnclosed_of_some hms, allEnclosed_of_some hms']

/-- Where nothing closes an element of the name, none is found. -/
theorem enclosed?_eq_none {ms : List Mark} (h : ∀ m ∈ ms, m.closes name = false) :
    enclosed? name ms = none := by
  have hclose : ∀ {ms : List Mark}, (∀ m ∈ ms, m.closes name = false) →
      upToClosing? name ms = none := fun {ms} hms => by
    simpa [upToClosing?] using upToClosing?_append_of_not_closes [] hms
  induction ms with
  | nil => rfl
  | cons m ms ih =>
    have hms : ∀ m' ∈ ms, m'.closes name = false := fun m' hm' => h m' (List.mem_cons_of_mem _ hm')
    rw [enclosed?, behindOpening?]
    split
    · exact hclose hms
    · exact ih hms

/-- An element with no other of its name inside is found at its own tags. -/
theorem enclosed?_element (back : List Mark) (h : inside.named name = []) :
    enclosed? name (.opening name :: inside.marks ++ .closing name :: back) =
      some (inside.marks, back) := by
  have hopens : Mark.opens name (.opening name) = true := beq_self_eq_true name
  have hcloses : Mark.closes name (.closing name) = true := beq_self_eq_true name
  rw [List.cons_append, enclosed?, behindOpening?, if_pos hopens, Option.bind_some,
    upToClosing?_append_of_not_closes _ (not_closes_of_named h), upToClosing?, if_pos hcloses]
  simp

/-- **The first element is found**, if it is not a single tag and has no other of its name
inside. -/
theorem enclosed?_marks (back : List Mark) (h : (doc.named name).head? = some e)
    (hfull : e.single = false)
    (hinner : e.inside.named name = []) :
    ∃ rest, enclosed? name (doc.marks ++ back) = some (e.inside.marks, rest) := by
  induction doc generalizing back with
  | nil => simp [named] at h
  | text t behind ih =>
    obtain ⟨rest, hrest⟩ := ih back h
    exact ⟨rest, (enclosed?_cons_of_not_opens rfl).trans hrest⟩
  | single n behind ih =>
    by_cases hn : n = name
    · rw [named, if_pos hn] at h
      cases Option.some.inj h
      simp at hfull
    · rw [named, if_neg hn] at h
      obtain ⟨rest, hrest⟩ := ih back h
      exact ⟨rest, (enclosed?_cons_of_not_opens (by simpa [Mark.opens] using hn)).trans hrest⟩
  | element n inside behind ihinside ihbehind =>
    by_cases hn : n = name
    · subst hn
      rw [named, if_pos rfl] at h
      cases Option.some.inj h
      refine ⟨behind.marks ++ back, ?_⟩
      simpa [marks] using enclosed?_element (behind.marks ++ back) hinner
    · rw [named, if_neg hn, List.nil_append] at h
      have hopens : Mark.opens name (.opening n) = false := by simpa [Mark.opens] using hn
      have hmarks : enclosed? name ((element n inside behind).marks ++ back) =
          enclosed? name (inside.marks ++ .closing n :: (behind.marks ++ back)) := by
        simpa [marks] using enclosed?_cons_of_not_opens hopens
      rw [hmarks]
      cases hfirst : inside.named name with
      | nil =>
        rw [hfirst, List.nil_append] at h
        rw [enclosed?_append_of_not_opens _ (not_opens_of_named hfirst),
          enclosed?_cons_of_not_opens rfl]
        exact ihbehind back h
      | cons e' es =>
        rw [hfirst] at h
        exact ihinside _ (by rw [hfirst]; exact h)

/-- **All elements are found**, if none is a single tag or has another of its name inside. -/
theorem allEnclosed_marks (back : List Mark) (hfull : ∀ e ∈ doc.named name, e.single = false)
    (hinner : ∀ e ∈ doc.named name, e.inside.named name = []) :
    allEnclosed name (doc.marks ++ back) =
      (doc.named name).map (·.inside.marks) ++ allEnclosed name back := by
  induction doc generalizing back with
  | nil => rfl
  | text t behind ih =>
    exact (allEnclosed_congr (enclosed?_cons_of_not_opens rfl)).trans (ih back hfull hinner)
  | single n behind ih =>
    have hn : n ≠ name := by
      rintro rfl
      exact absurd (hfull ⟨nil, true, fun _ => rfl⟩ (by simp [named])) (by simp)
    rw [named, if_neg hn, List.nil_append] at hfull hinner ⊢
    rw [← ih back hfull hinner]
    exact allEnclosed_congr (enclosed?_cons_of_not_opens (by simpa [Mark.opens] using hn))
  | element n inside behind ihinside ihbehind =>
    have hbehind := ihbehind back (fun e he => hfull e (by simp [named, he]))
      fun e he => hinner e (by simp [named, he])
    by_cases hn : n = name
    · subst hn
      have hnone : inside.named n = [] := hinner ⟨inside, false, nofun⟩ (by simp [named])
      have hfound : enclosed? n ((element n inside behind).marks ++ back) =
          some (inside.marks, behind.marks ++ back) := by
        simpa [marks] using enclosed?_element (behind.marks ++ back) hnone
      rw [allEnclosed_of_some hfound, hbehind, named, if_pos rfl, hnone]
      rfl
    · have hopens : Mark.opens name (.opening n) = false := by simpa [Mark.opens] using hn
      have hmarks : allEnclosed name ((element n inside behind).marks ++ back) =
          allEnclosed name (inside.marks ++ .closing n :: (behind.marks ++ back)) := by
        simpa [marks] using allEnclosed_congr (enclosed?_cons_of_not_opens hopens)
      have hclosing : allEnclosed name (.closing n :: (behind.marks ++ back)) =
          allEnclosed name (behind.marks ++ back) :=
        allEnclosed_congr (enclosed?_cons_of_not_opens rfl)
      rw [hmarks, ihinside _ (fun e he => hfull e (by simp [named, he]))
        fun e he => hinner e (by simp [named, he]), hclosing, hbehind, named, if_neg hn]
      simp

/-! ## The setting -/

/-- What is inside an element is inside the markup that the element is in. -/
theorem mem_named_of_mem_inside {name' : TagName} {e' : Element} (he : e ∈ doc.named name)
    (he' : e' ∈ e.inside.named name') : e' ∈ doc.named name' := by
  induction doc with
  | nil => simp [named] at he
  | text t behind ih => exact ih he
  | single n behind ih =>
    rcases List.mem_append.mp he with hhere | hbehind
    · have heq : e = ⟨nil, true, fun _ => rfl⟩ := by
        by_cases hn : n = name <;> simp_all
      subst heq
      simp [named] at he'
    · exact List.mem_append_right _ (ih hbehind)
  | element n inside behind ihinside ihbehind =>
    simp only [named, List.append_assoc, List.mem_append] at he ⊢
    rcases he with hhere | hinside | hbehind
    · have heq : e = ⟨inside, false, nofun⟩ := by
        by_cases hn : n = name <;> simp_all
      subst heq
      exact .inr (.inl he')
    · exact .inr (.inl (ihinside hinside))
    · exact .inr (.inr (ihbehind hbehind))

theorem render_of_isText (h : doc.isText = true) : doc.render = doc.chars := by
  induction doc with
  | nil => rfl
  | text t behind ih => rw [render, chars, ih h]
  | single n behind ih => simp [isText] at h
  | element n inside behind ihinside ihbehind => simp [isText] at h

theorem named_of_isText (h : doc.isText = true) : doc.named name = [] := by
  induction doc with
  | nil => rfl
  | text t behind ih => exact ih h
  | single n behind ih => simp [isText] at h
  | element n inside behind ihinside ihbehind => simp [isText] at h

/-- The search finds the first element, or it finds none and the first one, if there is
one, is empty. -/
theorem enclosed?_first (hborrow : borrows (doc.named name) = false)
    (hinner : ∀ e ∈ doc.named name, e.inside.named name = []) :
    (∃ e rest, (doc.named name).head? = some e ∧
        enclosed? name doc.marks = some (e.inside.marks, rest)) ∨
      enclosed? name doc.marks = none ∧ ∀ e, (doc.named name).head? = some e → e.inside = nil := by
  cases hnamed : doc.named name with
  | nil => exact .inr ⟨enclosed?_eq_none (not_closes_of_named hnamed), by simp⟩
  | cons e es =>
    cases hsingle : e.single with
    | false =>
      have hhead : (doc.named name).head? = some e := by rw [hnamed]; rfl
      obtain ⟨rest, hrest⟩ := enclosed?_marks [] hhead hsingle
        (hinner e (hnamed ▸ List.mem_cons_self))
      exact .inl ⟨e, rest, rfl, by rwa [List.append_nil] at hrest⟩
    | true =>
      have hall : ∀ e' ∈ doc.named name, e'.single = true := by
        rw [hnamed, borrows, hsingle] at hborrow
        rw [hnamed]
        simpa [hsingle] using hborrow
      refine .inr ⟨enclosed?_eq_none (not_closes_of_single hall), fun e' he' => ?_⟩
      exact e'.empty (hall e' (hnamed ▸ List.mem_of_head? he'))

/-- The settings that are found are those of the last `Enabled`. -/
theorem getLast?_allEnclosed (hfull : ∀ e ∈ doc.named .enabled, e.single = false)
    (htext : ∀ e ∈ doc.named .enabled, e.inside.isText = true) :
    (allEnclosed .enabled doc.marks).getLast?.map (fun v => readsTrue (v.flatMap Mark.render)) =
      (doc.named .enabled).getLast?.map fun e => readsTrue e.inside.chars := by
  have hall := allEnclosed_marks [] hfull fun e he => named_of_isText (htext e he)
  have hnil : allEnclosed .enabled [] = [] := allEnclosed_of_none rfl
  rw [List.append_nil, hnil, List.append_nil] at hall
  rw [hall, List.getLast?_map, Option.map_map]
  refine Option.map_congr fun e he => ?_
  have hrender := render_of_isText (htext e (List.mem_of_getLast? he))
  rw [Function.comp_apply, flatMap_marks, hrender]

/-- **What the search finds, where no tag misleads it.** -/
theorem settingOfMarks?_marks (h : doc.Searchable) (hread : doc.misread = false) :
    settingOfMarks? doc.marks = doc.setting? := by
  obtain ⟨hborrow, hwithin⟩ := Bool.or_eq_false_iff.mp hread
  simp only [settingOfMarks?, setting?, Option.bind_eq_bind, Option.pure_def]
  rcases enclosed?_first hborrow h.extensions with ⟨extensions, _, hhead, hfound⟩ | ⟨hnone, hnil⟩
  · rw [hhead, Option.any_some] at hwithin
    obtain ⟨hborrow, hwithin⟩ := Bool.or_eq_false_iff.mp hwithin
    have hmem : extensions ∈ doc.named .extensions := List.mem_of_head? hhead
    simp only [hfound, hhead, Option.bind_some]
    rcases enclosed?_first hborrow fun p hp => h.settings p (mem_named_of_mem_inside hmem hp) with
      ⟨settings, _, hhead, hfound⟩ | ⟨hnone, hnil⟩
    · rw [hhead, Option.any_some, List.any_eq_false] at hwithin
      have hmem : settings ∈ doc.named .settings :=
        mem_named_of_mem_inside hmem (List.mem_of_head? hhead)
      have hlast := getLast?_allEnclosed (fun e he => Bool.eq_false_iff.mpr (hwithin e he))
        fun e he => h.enabled e (mem_named_of_mem_inside hmem he)
      simpa only [hfound, hhead, Option.bind_some, Option.map_eq_bind,
        Function.comp_def] using hlast
    · rw [hnone]
      cases hhead : (extensions.inside.named .settings).head? with
      | none => rfl
      | some settings => simp [hnil settings hhead, named]
  · rw [hnone]
    cases hhead : (doc.named .extensions).head? with
    | none => rfl
    | some extensions => simp [hnil extensions hhead, named]

/-- **The setting of a project file is the one its elements tell, unless a tag misleads the
search.** Whatever markup a file is written from, what is read are its marks, one by one.
Where the elements looked for are in no others of their name and an `Enabled` holds text
alone, the marks tell what the elements do, as long as no single tag that the rule asks
about is given the closing tag of another element. -/
theorem ofProject_render (doc : Markup) :
    Settings.ofProject doc.render = (settingOfMarks? doc.marks).getD Settings.fallback ∧
      (doc.Searchable → doc.misread = false →
        Settings.ofProject doc.render = doc.setting?.getD Settings.fallback) := by
  have hmarks : Settings.ofProject doc.render =
      (settingOfMarks? doc.marks).getD Settings.fallback := by
    rw [Settings.ofProject, ← flatMap_marks, enabled?_flatMap]
  exact ⟨hmarks, fun h hread => by rw [hmarks, settingOfMarks?_marks h hread]⟩

/-- A project whose second `Enabled` counts, between single tags that mislead nothing. -/
def switchedOff : Markup :=
  .element { text := "Project" }
    (.single { text := "Import" }
      (.element .extensions
        (.element .settings
          (.single { text := "Note" }
            (.element .enabled (.text { chars := "true".toList } .nil)
              (.element .enabled (.text { chars := " False ".toList } .nil) .nil)))
          .nil)
        .nil))
    .nil

theorem ofProject_render_switchedOff :
    switchedOff.Searchable ∧ switchedOff.misread = false ∧
      switchedOff.render = ("<Project><Import/><ProjectExtensions><PostgreSqlInAString><Note/>" ++
        "<Enabled>true</Enabled><Enabled> False </Enabled></PostgreSqlInAString>" ++
        "</ProjectExtensions></Project>").toList ∧
      Settings.ofProject switchedOff.render = false := by
  have hsearchable : switchedOff.Searchable :=
    ⟨by decide +kernel, by decide +kernel, by decide +kernel⟩
  have hread : switchedOff.misread = false := by decide +kernel
  refine ⟨hsearchable, hread, by decide +kernel, ?_⟩
  rw [(ofProject_render switchedOff).2 hsearchable hread]
  decide +kernel

/-- A project with an empty `PostgreSqlInAString`, written as one tag, before another. -/
def emptySettings : Markup :=
  .element .extensions
    (.single .settings
      (.element .settings (.element .enabled (.text { chars := "false".toList } .nil) .nil) .nil))
    .nil

/-- **An element written as one tag misleads the search**: its settings are none, and are read
from the element behind it. -/
theorem ofProject_render_emptySettings :
    emptySettings.Searchable ∧
      emptySettings.render = ("<ProjectExtensions><PostgreSqlInAString/><PostgreSqlInAString>" ++
        "<Enabled>false</Enabled></PostgreSqlInAString></ProjectExtensions>").toList ∧
      emptySettings.setting?.getD Settings.fallback = true ∧
      Settings.ofProject emptySettings.render = false :=
  ⟨⟨by decide +kernel, by decide +kernel, by decide +kernel⟩, by decide +kernel,
    by decide +kernel, by decide +kernel⟩

end Markup

end ProjectFile

end EmbeddedSql
