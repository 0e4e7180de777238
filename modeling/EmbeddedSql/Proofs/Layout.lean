import EmbeddedSql.Proofs.Gathering
import EmbeddedSql.Proofs.Moves
import EmbeddedSql.Proofs.Scanning

/-!
# The layout of scanned tags

A run of the scanner leaves its tags in order, each behind the one before, and
inside the buffer. So no two of them share a position: a brace that is
punctuation is never string text as well, nor is a comment.

Of punctuation one more thing is said, that it is one unit long, and of string
text that it does not end too close to the start of the buffer for a hole to
follow it. With the order this makes the walks of the stitcher complete on
scanned buffers (`spacious_classify`).
-/

namespace EmbeddedSql

namespace Host

variable {b : Buffer}

/-! ## Tags in order -/

/-- **Tags in order** between two bounds: each starts where the one before it
stops, or later. -/
def Laid : Nat → Nat → List HostTag → Prop
  | lo, hi, [] => lo ≤ hi
  | lo, hi, t :: rest => lo ≤ t.span.start ∧ Laid t.span.stop hi rest

namespace Laid

theorem le {lo hi : Nat} {tags : List HostTag} (h : Laid lo hi tags) : lo ≤ hi := by
  induction tags generalizing lo with
  | nil => exact h
  | cons t tags ih =>
    have := ih h.2
    have := h.1
    have := t.span.start_le_stop
    omega

theorem from_le {lo lo' hi : Nat} {tags : List HostTag} (h : Laid lo hi tags) (hle : lo' ≤ lo) :
    Laid lo' hi tags := by
  cases tags with
  | nil => exact Nat.le_trans hle h
  | cons t tags => exact ⟨Nat.le_trans hle h.1, h.2⟩

theorem to_le {lo hi hi' : Nat} {tags : List HostTag} (h : Laid lo hi tags) (hle : hi ≤ hi') :
    Laid lo hi' tags := by
  induction tags generalizing lo with
  | nil => exact Nat.le_trans h hle
  | cons t tags ih => exact ⟨h.1, ih h.2⟩

theorem append {lo mid hi : Nat} {ts us : List HostTag} (h : Laid lo mid ts) (h' : Laid mid hi us) :
    Laid lo hi (ts ++ us) := by
  induction ts generalizing lo with
  | nil => exact h'.from_le h
  | cons t ts ih => exact ⟨h.1, ih h.2⟩

theorem split {lo hi : Nat} {ts us : List HostTag} (h : Laid lo hi (ts ++ us)) :
    ∃ mid, Laid lo mid ts ∧ Laid mid hi us := by
  induction ts generalizing lo with
  | nil => exact ⟨lo, Nat.le_refl _, h⟩
  | cons t ts ih =>
    obtain ⟨mid, hts, hus⟩ := ih h.2
    exact ⟨mid, ⟨h.1, hts⟩, hus⟩

theorem bounds {lo hi : Nat} {tags : List HostTag} (h : Laid lo hi tags) {t : HostTag} (ht : t ∈ tags) :
    lo ≤ t.span.start ∧ t.span.stop ≤ hi := by
  induction tags generalizing lo with
  | nil => simp at ht
  | cons u tags ih =>
    rcases List.mem_cons.mp ht with rfl | ht
    · exact ⟨h.1, h.2.le⟩
    · have := ih h.2 ht
      have := h.1
      have := u.span.start_le_stop
      omega

theorem pairwise {lo hi : Nat} {tags : List HostTag} (h : Laid lo hi tags) :
    tags.Pairwise fun t u => t.span.stop ≤ u.span.start := by
  induction tags generalizing lo with
  | nil => exact .nil
  | cons t tags ih => exact List.pairwise_cons.mpr ⟨fun u hu => (h.2.bounds hu).1, ih h.2⟩

/-- Tags in order that share a position are the same tag. -/
theorem eq_of_mem {lo hi : Nat} {tags : List HostTag} (h : Laid lo hi tags) {t u : HostTag}
    (ht : t ∈ tags) (hu : u ∈ tags) {p : Nat} (hpt : p ∈ t.span) (hpu : p ∈ u.span) : t = u := by
  induction tags generalizing lo with
  | nil => simp at ht
  | cons v tags ih =>
    rw [Span.mem_def] at hpt hpu
    rcases List.mem_cons.mp ht with rfl | ht' <;> rcases List.mem_cons.mp hu with rfl | hu'
    · rfl
    · have := h.2.bounds hu'
      omega
    · have := h.2.bounds ht'
      omega
    · exact ih h.2 ht' hu'

end Laid

theorem laid_markTags (pos n : Nat) : Laid pos (pos + n) (markTags pos n) := by
  induction n generalizing pos with
  | zero => exact Nat.le_refl _
  | succ n ih =>
    rw [markTags, List.range'_succ, List.map_cons]
    refine ⟨Nat.le_refl _, ?_⟩
    have hstop : (markTag pos).span.stop = pos + 1 := by
      rw [markTag, Span.stop_between]
      omega
    rw [hstop, show pos + (n + 1) = pos + 1 + n by omega]
    exact ih (pos + 1)

/-! ## The tags of a run -/

/-- Where a part begins to yield tags. -/
def Part.start : Part → Nat
  | .code _ _ pos => pos
  | .content _ start _ _ _ _ => start

/-- Where the scan of a part stands. -/
def Part.pos : Part → Nat
  | .code _ _ pos => pos
  | .content _ _ pos _ _ _ => pos

/-- A part that a scan can be at: it is inside the buffer, and the content of
a literal comes behind a quote, and behind a marker too if it has holes. -/
def Part.Sound (b : Buffer) : Part → Prop
  | .code _ _ pos => pos ≤ b.size
  | .content o start pos _ _ _ => start ≤ pos ∧ pos ≤ b.size ∧ 1 ≤ pos ∧ (0 < o.dollars → 2 ≤ pos)

namespace Part.Sound

/-- A literal is sound where it is entered, -/
theorem literal {o : LiteralOpening} {pos : Nat} (h : o.Placed b pos) (fragments : List Span)
    (closers : List Nat) (ending : Ending) :
    (Part.content o o.start o.body fragments closers ending).Sound b := by
  obtain ⟨hstart, hbody, hsize⟩ := h
  exact ⟨by omega, hsize, by omega, fun _ => by omega⟩

/-- it stays so as text is passed over, -/
theorem text {o : LiteralOpening} {start pos next : Nat} {fragments : List Span} {closers : List Nat}
    {ending : Ending} (h : (Part.content o start pos fragments closers ending).Sound b)
    (hm : contentMove b o pos = .past next) :
    (Part.content o start next fragments closers ending).Sound b := by
  obtain ⟨hstart, hpos, hone, htwo⟩ := h
  have hlt := (lt_of_contentMove_past hm).2
  exact ⟨by omega, le_size_of_contentMove_past hm, by omega, fun hd => by have := htwo hd; omega⟩

/-- and behind a hole. -/
theorem behind {o : LiteralOpening} {pos first code mid : Nat} (hin : Entered b o pos first code)
    (hone : 1 ≤ pos) (hle : code ≤ mid) (hclose : b.isAt mid '\x7d' = true) (fragments : List Span)
    (closers : List Nat) (ending : Ending) :
    (Part.content o (mid + closingBraces b o mid) (mid + closingBraces b o mid) fragments closers
      ending).Sound b := by
  obtain ⟨-, hclosed, -⟩ := closingBraces_spec hin.dollars hclose
  have hlt := hin.le_size.1
  have hfirst := hin.le
  exact ⟨Nat.le_refl _, hclosed, by omega, fun _ => by omega⟩

end Part.Sound

/-- What holds of each tag on its own. -/
structure Tagged (b : Buffer) (t : HostTag) : Prop where
  /-- Punctuation is one unit. -/
  one : t.kind = .punctuation → t.span.len = 1
  /-- A hole that follows string text has two positions before it. -/
  room : t.kind = .string → 2 ≤ t.span.stop ∨ b.isAt t.span.stop '\x7b' = false
  /-- A comment is what one move in code passes. -/
  comment : t.kind = .comment → ∃ pos next, codeMove b pos = .past (some .comment) next ∧
    pos < next ∧ t.span = Span.between pos next

/-- **What a run does to the layout.** -/
structure Layout (b : Buffer) (part : Part) (stop : Nat) (tags : List HostTag) : Prop where
  /-- The scan goes forward. -/
  le : part.pos ≤ stop
  /-- It stays in the buffer. -/
  le_size : stop ≤ b.size
  /-- The tags are in order, up to where it stops. -/
  laid : Laid part.start stop tags
  /-- Each of them is as it should be. -/
  tagged : ∀ t ∈ tags, Tagged b t

theorem tagged_markTag (b : Buffer) (pos : Nat) : Tagged b (markTag pos) :=
  ⟨fun _ => Nat.add_sub_cancel_left .., fun h => by simp [markTag] at h, fun h => by simp [markTag] at h⟩

theorem tagged_markTags (b : Buffer) (pos n : Nat) : ∀ t ∈ markTags pos n, Tagged b t := by
  intro t ht
  obtain ⟨p, -, rfl⟩ := List.mem_map.mp ht
  exact tagged_markTag b p

/-- Code that stops inside the buffer stops at a brace. -/
theorem Scans.isAt_stop {part : Part} {stop : Nat} {tags : List HostTag}
    {literals : List ScannedLiteral} (h : Scans b part stop tags literals) {inHole : Bool}
    {depth pos : Nat} (hpart : part = .code inHole depth pos) (hstop : stop < b.size) :
    b.isAt stop '\x7d' = true := by
  induction h generalizing inHole depth pos with
  | done hend => cases hpart; omega
  | past _ _ _ ih => exact ih rfl hstop
  | literal _ _ _ _ _ ih => exact ih rfl hstop
  | opens _ _ _ ih => exact ih rfl hstop
  | leave _ hm => exact isAt_of_codeMove_closes hm
  | closes _ _ _ _ ih => exact ih rfl hstop
  | text => cases hpart
  | finish => cases hpart
  | hole => cases hpart
  | lost => cases hpart

theorem laid_markTag {pos hi : Nat} {tags : List HostTag} (h : Laid (pos + 1) hi tags) :
    Laid pos hi (markTag pos :: tags) := (laid_markTags pos 1).append h

theorem laid_stringTag {start stop hi : Nat} (hle : start ≤ stop) {tags : List HostTag}
    (h : Laid stop hi tags) : Laid start hi (stringTag start stop :: tags) := by
  refine ⟨Nat.le_refl _, ?_⟩
  rw [stringTag, Span.stop_between, Nat.max_eq_right hle]
  exact h

/-- The text before a hole. It ends behind a quote and a marker. -/
theorem tagged_stringTag {start stop : Nat} (hle : start ≤ stop)
    (h : 2 ≤ stop ∨ b.isAt stop '\x7b' = false) : Tagged b (stringTag start stop) := by
  refine ⟨fun hkind => by simp [stringTag] at hkind, fun _ => ?_,
    fun hkind => by simp [stringTag] at hkind⟩
  rwa [stringTag, Span.stop_between, Nat.max_eq_right hle]

/-- What is passed over in code is one tag at most. -/
theorem layout_past {pos next : Nat} {kind : Option HostKind} (h : CodePast b pos kind next)
    (hm : codeMove b pos = .past kind next) :
    Laid pos next (kind.toList.map (HostTag.mk (Span.between pos next))) ∧
      ∀ t ∈ kind.toList.map (HostTag.mk (Span.between pos next)), Tagged b t := by
  have hle := Nat.le_of_lt h.lt
  cases kind with
  | none => exact ⟨hle, by simp⟩
  | some kind =>
    refine ⟨⟨Nat.le_refl _, ?_⟩,
      List.forall_mem_singleton.mpr ⟨fun hkind => ?_, fun hkind => ?_, fun hkind => ?_⟩⟩
    · exact Nat.le_of_eq ((Span.stop_between _ _).trans (Nat.max_eq_right hle))
    · rw [h.one (congrArg some hkind)]
      exact Nat.add_sub_cancel_left ..
    · exact absurd (congrArg some hkind) h.not_string
    · obtain rfl : kind = .comment := hkind
      exact ⟨pos, next, hm, h.lt, rfl⟩

/-- A hole up to where its code stops: the text before it, its braces, and the
code. -/
theorem Layout.enter {o : LiteralOpening} {start pos first code mid : Nat} {fragments : List Span}
    {closers : List Nat} {ending : Ending} {inner : List HostTag}
    (hpart : (Part.content o start pos fragments closers ending).Sound b)
    (hin : Entered b o pos first code) (hcode : Layout b (.code true 0 code) mid inner) :
    Layout b (.content o start pos fragments closers ending) mid
      (stringTag start first :: markTags first (code - first) ++ inner) := by
  obtain ⟨hstart, -, -, htwo⟩ := hpart
  have htwo := htwo hin.dollars
  have hfirst := hin.le
  have hlt := hin.le_size.1
  have hmid : code ≤ mid := hcode.le
  have hfragment : start ≤ first := Nat.le_trans hstart hfirst
  have hopening := laid_markTags first (code - first)
  rw [show first + (code - first) = code by omega] at hopening
  refine ⟨show pos ≤ mid by omega, hcode.le_size, ?_, ?_⟩
  · exact laid_stringTag hfragment (hopening.append hcode.laid)
  · refine List.forall_mem_append.mpr ⟨List.forall_mem_cons.mpr ⟨?_, ?_⟩, hcode.tagged⟩
    · exact tagged_stringTag hfragment (Or.inl (Nat.le_trans htwo hfirst))
    · exact tagged_markTags b _ _

/-- **Scanned tags are laid out in order.** -/
theorem Scans.layout {part : Part} {stop : Nat} {tags : List HostTag} {literals : List ScannedLiteral}
    (h : Scans b part stop tags literals) (hpart : part.Sound b) : Layout b part stop tags := by
  induction h with
  | done hend => exact ⟨Nat.le_refl _, hpart, Nat.le_refl _, by simp⟩
  | past hpos hm _ ih =>
    have hmove := codePast_of_codeMove hpos hm
    obtain ⟨hfirst, htag⟩ := layout_past hmove hm
    obtain ⟨hle, hsize, hlaid, htagged⟩ := ih hmove.le_size
    exact ⟨Nat.le_trans (Nat.le_of_lt hmove.lt) hle, hsize, hfirst.append hlaid,
      List.forall_mem_append.mpr ⟨htag, htagged⟩⟩
  | @literal _ _ pos mid _ o _ _ _ _ _ _ _ hpos hm _ _ ihcontent ihcode =>
    have hplaced := placed_of_codeMove hm
    obtain ⟨hle₁, hsize₁, hlaid₁, htagged₁⟩ := ihcontent (.literal hplaced _ _ _)
    obtain ⟨hle₂, hsize₂, hlaid₂, htagged₂⟩ := ihcode hsize₁
    simp only [Part.pos] at hle₁ hle₂
    have hle : pos ≤ o.start := Nat.le_of_eq hplaced.start.symm
    have hbody := hplaced.body
    exact ⟨by simp only [Part.pos]; omega, hsize₂, (hlaid₁.append hlaid₂).from_le hle,
      List.forall_mem_append.mpr ⟨htagged₁, htagged₂⟩⟩
  | opens hpos hm _ ih =>
    obtain ⟨hle, hsize, hlaid, htagged⟩ := ih hpos
    exact ⟨Nat.le_of_succ_le hle, hsize, laid_markTag hlaid,
      List.forall_mem_cons.mpr ⟨tagged_markTag b _, htagged⟩⟩
  | leave hpos hm => exact ⟨Nat.le_refl _, hpart, Nat.le_refl _, by simp⟩
  | closes hpos hm _ _ ih =>
    obtain ⟨hle, hsize, hlaid, htagged⟩ := ih hpos
    exact ⟨Nat.le_of_succ_le hle, hsize, laid_markTag hlaid,
      List.forall_mem_cons.mpr ⟨tagged_markTag b _, htagged⟩⟩
  | text hm _ ih =>
    have hlt := (lt_of_contentMove_past hm).2
    obtain ⟨hle, hsize, hlaid, htagged⟩ := ih (hpart.text hm)
    exact ⟨Nat.le_trans (Nat.le_of_lt hlt) hle, hsize, hlaid, htagged⟩
  | @finish o start pos stop _ hm =>
    obtain ⟨hstart, hpos, hone, htwo⟩ := hpart
    obtain ⟨hle, hsize, hroom⟩ := stop_of_contentMove_finish hpos hm
    have hfragment : start ≤ stop := Nat.le_trans hstart hle
    refine ⟨hle, hsize, laid_stringTag hfragment (Nat.le_refl _), ?_⟩
    rw [List.forall_mem_singleton]
    exact tagged_stringTag hfragment (hroom.imp_left fun h => by omega)
  | @hole o start pos first code mid _ _ _ _ _ _ _ _ hm hcode hmid _ ihcode ihrest =>
    have hin := entered_of_contentMove hm
    have hinner := ihcode hin.le_size.2
    obtain ⟨hle, -, hlaid, htagged⟩ := Layout.enter hpart hin hinner
    obtain ⟨hle', hsize, hlaid', htagged'⟩ :=
      ihrest (.behind hin hpart.2.2.1 hinner.le (hcode.isAt_stop rfl hmid) _ _ _)
    refine ⟨?_, hsize, (hlaid.append (laid_markTags mid _)).append hlaid', ?_⟩
    · exact Nat.le_trans hle (Nat.le_trans (Nat.le_add_right _ _) hle')
    · exact List.forall_mem_append.mpr
        ⟨List.forall_mem_append.mpr ⟨htagged, tagged_markTags b _ _⟩, htagged'⟩
  | lost hm _ _ ihcode =>
    have hin := entered_of_contentMove hm
    exact Layout.enter hpart hin (ihcode hin.le_size.2)

/-! ## Scanned buffers -/

open Stitch

theorem layout_scan (b : Buffer) :
    Laid 0 b.size (scan b).tags.toList ∧ ∀ t ∈ (scan b).tags.toList, Tagged b t := by
  obtain ⟨stop, hrun⟩ := scans_scan b
  obtain ⟨-, hsize, hlaid, htagged⟩ := hrun.layout (Nat.zero_le _)
  exact ⟨hlaid.to_le hsize, htagged⟩

theorem isKindAt_classify {p : Nat} {kind : HostKind} :
    (classify b).isKindAt p kind = true ↔
      ∃ t ∈ (scan b).tags.toList, t.kind = kind ∧ p ∈ t.span := by
  rw [TagIndex.isKindAt_iff]
  constructor
  · rintro ⟨t, ht, hrest⟩
    exact ⟨t, (TagIndex.mem_toList_ofTags.mp ht).1, hrest⟩
  · rintro ⟨t, ht, hkind, hp⟩
    refine ⟨t, TagIndex.mem_toList_ofTags.mpr ⟨ht, ?_⟩, hkind, hp⟩
    rw [Span.mem_def, Span.stop] at hp
    omega

/-- **A position has one kind at most.** -/
theorem kind_unique {p : Nat} {kind kind' : HostKind} (h : (classify b).isKindAt p kind = true)
    (h' : (classify b).isKindAt p kind' = true) : kind = kind' := by
  obtain ⟨t, ht, rfl, hpt⟩ := isKindAt_classify.mp h
  obtain ⟨u, hu, rfl, hpu⟩ := isKindAt_classify.mp h'
  rw [(layout_scan b).1.eq_of_mem ht hu hpt hpu]

/-- No comment stands on string text. -/
theorem not_comment_of_isString {p : Nat} (h : IsString (classify b) p) :
    (classify b).isKindAt p .comment = false := by
  refine Bool.eq_false_iff.mpr fun hcomment => ?_
  exact absurd (kind_unique h hcomment) (by decide)

/-- Punctuation is no string text, so a brace that is punctuation counts. -/
theorem isHoleBrace_classify (b : Buffer) (p : Nat) (c : Char) :
    isHoleBrace b (classify b) p c = (b.isAt p c && (classify b).isKindAt p .punctuation) := by
  by_cases hpunct : (classify b).isKindAt p .punctuation = true
  · have hstring : (classify b).isKindAt p .string = false := by
      rw [← Bool.not_eq_true]
      exact fun hstring => absurd (kind_unique hpunct hstring) (by decide)
    simp only [isHoleBrace, hpunct, hstring, Bool.and_true, Bool.not_false]
  · simp [isHoleBrace, hpunct]

theorem stringsInside_classify (b : Buffer) : StringsInside b (classify b) := by
  intro p hp
  obtain ⟨t, ht, -, hpt⟩ := isKindAt_classify.mp hp
  exact Nat.lt_of_lt_of_le hpt.2 ((layout_scan b).1.bounds ht).2

theorem roomy_classify (b : Buffer) : Roomy b (classify b) := by
  intro x y hlink
  have hpos := hlink.left.pos
  have hmem := Span.pred_stop_mem hpos
  obtain ⟨t, ht, hkind, hpt⟩ := isKindAt_classify.mp (hlink.left.string _ hmem)
  -- The tag cannot reach over the brace behind the run.
  have hstop : t.span.stop = x.stop := by
    rw [Span.mem_def] at hpt hmem
    refine Nat.le_antisymm (Nat.le_of_not_lt fun hlt => hlink.left.stop ?_) (by omega)
    exact isKindAt_classify.mpr ⟨t, ht, hkind, by omega, hlt⟩
  rcases ((layout_scan b).2 t ht).room hkind with htwo | hbrace
  · exact hstop ▸ htwo
  · rw [hstop, isAt_of_isHoleBrace hlink.holes.opens] at hbrace
    exact absurd hbrace.symm Bool.false_ne_true

/-- **On a scanned buffer the walks are complete**, unless it ends in string
text. -/
theorem spacious_classify (hend : ∀ p, p + 1 = b.size → (classify b).isKindAt p .string = false) :
    Spacious b (classify b) := by
  refine ⟨stringsInside_classify b, roomy_classify b, fun p hp => ?_⟩
  rw [IsString, hend p hp]
  exact Bool.false_ne_true

end Host

end EmbeddedSql
