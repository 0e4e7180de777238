import EmbeddedSql.Proofs.Closing
import EmbeddedSql.Proofs.Soundness
import EmbeddedSql.Proofs.Spelling

/-!
# Tags keep surrogate pairs whole

A tag is a span of code units, and a character above `U+FFFF` takes two of
them. Nothing in the definition of a tag keeps its bounds from falling between
the two. That they do not has a reason at every level, and each time it is the
same one: a bound has a unit beside it that is no surrogate.

Where the scanner ends or resumes a fragment there is a delimiter, a brace or
the end of a line (`keepsPairs_of_mem_scan`). Where a delimiter is taken off there
is a quote. Between two pieces of the content either an escape sequence ends,
with a letter or a digit, or two units meet that are no pair
(`Reads.not_splitsAt`). What is left is the request: tags are cut to it, and it
may fall anywhere (`eq_bound_of_splitsPair`).
-/

namespace EmbeddedSql

namespace Utf16

/-! ## Positions inside a pair -/

/-- Whether a position falls between the two units of a surrogate pair. -/
def splitsAt (units : List CodeUnit) (pos : Nat) : Bool :=
  decide (0 < pos) && (units[pos - 1]?).any isHigh && (units[pos]?).any isLow

variable {units : List CodeUnit} {pos : Nat}

theorem not_splitsAt_zero (units : List CodeUnit) : splitsAt units 0 = false := rfl

theorem not_splitsAt_of_not_isHigh (h : (units[pos - 1]?).any isHigh = false) :
    splitsAt units pos = false := by
  rw [splitsAt, h, Bool.and_false, Bool.false_and]

theorem not_splitsAt_of_not_isLow (h : (units[pos]?).any isLow = false) :
    splitsAt units pos = false := by
  rw [splitsAt, h, Bool.and_false]

theorem not_splitsAt_of_length_le (h : units.length ≤ pos) : splitsAt units pos = false := by
  refine not_splitsAt_of_not_isLow ?_
  rw [List.getElem?_eq_none h, Option.any_none]

/-- What comes before the first of two positions has no say. -/
theorem splitsAt_drop (units : List CodeUnit) (k : Nat) (hpos : 0 < pos) :
    splitsAt (units.drop k) pos = splitsAt units (k + pos) := by
  have hadd : 0 < k + pos := Nat.add_pos_right k hpos
  have hpred : k + (pos - 1) = k + pos - 1 := (Nat.add_sub_assoc hpos k).symm
  simp only [splitsAt, List.getElem?_drop, hpred, hpos, hadd, decide_true]

/-- Nor has what comes behind. -/
theorem splitsAt_take (units : List CodeUnit) {k : Nat} (hlt : pos < k) :
    splitsAt (units.take k) pos = splitsAt units pos := by
  have hpred : pos - 1 < k := Nat.lt_of_le_of_lt (Nat.sub_le _ _) hlt
  simp only [splitsAt, List.getElem?_take_of_lt hlt, List.getElem?_take_of_lt hpred]

theorem not_isHigh_of_isLow {u : CodeUnit} (h : isLow u = true) : isHigh u = false := by
  simp only [isLow, isHigh, Bool.and_eq_true, decide_eq_true_eq, Bool.and_eq_false_iff,
    decide_eq_false_iff_not] at h ⊢
  omega

theorem not_isLow_of_isHigh {u : CodeUnit} (h : isHigh u = true) : isLow u = false :=
  Bool.eq_false_iff.mpr fun hlow => by simp [not_isHigh_of_isLow hlow] at h

end Utf16

open Utf16

/-! ## Between two pieces -/

theorem not_isHigh_of_hexDigit? {u : CodeUnit} (h : (hexDigit? u).isSome = true) :
    isHigh u = false := by
  simp only [hexDigit?] at h
  simp only [isHigh, Bool.and_eq_false_iff, decide_eq_false_iff_not]
  grind

/-- A number is spelled by digits only. -/
theorem isSome_hexDigit?_of_foldlM {units : List CodeUnit} {acc n : Nat}
    (h : units.foldlM (fun acc u => (hexDigit? u).map (acc * 16 + ·)) acc = some n) :
    ∀ u ∈ units, (hexDigit? u).isSome = true := by
  induction units generalizing acc with
  | nil => simp
  | cons u rest ih =>
    rw [List.foldlM_cons] at h
    obtain ⟨acc', hacc', hrest⟩ := Option.bind_eq_some_iff.mp h
    obtain ⟨d, hd, -⟩ := Option.map_eq_some_iff.mp hacc'
    exact List.forall_mem_cons.mpr ⟨Option.isSome_of_eq_some hd, ih hrest⟩

theorem not_isHigh_of_simpleEscape? {u : CodeUnit} {c : Char} (h : simpleEscape? u = some c) :
    isHigh u = false := by
  by_contra hhigh
  rw [Bool.not_eq_false] at hhigh
  -- A surrogate is none of the letters.
  simp (disch := decide) [simpleEscape?, List.findSome?_cons, ne_ascii_of_isHigh hhigh] at h

/-- The units of an escape are letters, digits and signs. -/
theorem EscapeBody.not_isHigh {units : List CodeUnit} {v : EscapeValue} {n : Nat}
    (h : EscapeBody units v n) : ∀ u ∈ units.take n, isHigh u = false := by
  cases h with
  | letter hu =>
    rw [List.take_succ_cons, List.take_zero, List.forall_mem_singleton]
    exact not_isHigh_of_simpleEscape? hu
  | unit hhex =>
    have hdigits := isSome_hexDigit?_of_foldlM (fixedHex?_eq_some.mp hhex).2
    rw [List.take_succ_cons, List.forall_mem_cons]
    exact ⟨by decide, fun u hu => not_isHigh_of_hexDigit? (hdigits u hu)⟩
  | scalar hhex _ =>
    have hdigits := isSome_hexDigit?_of_foldlM (fixedHex?_eq_some.mp hhex).2
    rw [List.take_succ_cons, List.forall_mem_cons]
    exact ⟨by decide, fun u hu => not_isHigh_of_hexDigit? (hdigits u hu)⟩
  | @run body _ _ hvalue =>
    have hdigits := isSome_hexDigit?_of_foldlM hvalue
    have htake : hexRun body = body.take (hexRun body).length :=
      List.prefix_iff_eq_take.mp ((List.takeWhile_prefix _).trans (List.take_prefix 4 body))
    rw [List.take_succ_cons, List.forall_mem_cons, ← htake]
    exact ⟨by decide, fun u hu => not_isHigh_of_hexDigit? (hdigits u hu)⟩

theorem not_isHigh_of_lowEscape? {units : List CodeUnit} {low : CodeUnit} {m : Nat}
    (h : lowEscape? units = some (low, m)) : ∀ u ∈ units.take m, isHigh u = false := by
  obtain ⟨rest, n, rfl, hbody, -, rfl⟩ := lowEscape?_eq_some.mp h
  rw [List.take_succ_cons, List.forall_mem_cons]
  exact ⟨by decide, hbody.not_isHigh⟩

theorem not_isHigh_of_escapePiece? {rest : List CodeUnit} {p : Piece}
    (h : escapePiece? rest = some p) : ∀ u ∈ rest.take (p.width - 1), isHigh u = false := by
  rcases escapePiece?_eq_some.mp h with
    ⟨c, n, hbody, rfl⟩ | ⟨u, n, low, m, hbody, -, hlow, rfl⟩ | ⟨u, n, hbody, -, rfl⟩
  · exact hbody.not_isHigh
  · rw [show n + 1 + m - 1 = n + m by omega, List.take_add]
    exact List.forall_mem_append.mpr ⟨hbody.not_isHigh, not_isHigh_of_lowEscape? hlow⟩
  · exact hbody.not_isHigh

/-- The units of an escape are no surrogates. -/
theorem not_isHigh_of_escape {kind : LiteralKind} {u : CodeUnit} {rest : List CodeUnit} {p : Piece}
    (h : nextPiece? kind u rest = some p) (hescape : p.escape = true) :
    ∀ w ∈ (u :: rest).take p.width, isHigh w = false := by
  rcases nextPiece?_cases h with ⟨hdoubles, hhead, rfl⟩ | ⟨-, rfl, hpiece⟩ | ⟨v, tail, -, -, rfl⟩ |
    ⟨-, rfl⟩
  · obtain ⟨tail, rfl⟩ := List.head?_eq_some_iff.mp hhead
    have hu : isHigh u = false := Bool.eq_false_iff.mpr fun hhigh => by
      simp [doubles_of_isHigh hhigh] at hdoubles
    simp [hu]
  · have hwidth := (escapePiece?_bounds hpiece).2.1
    rw [show p.width = p.width - 1 + 1 by omega, List.take_succ_cons, List.forall_mem_cons]
    exact ⟨by decide, not_isHigh_of_escapePiece? hpiece⟩
  · cases hescape
  · cases hescape

/-- **A piece does not end inside a surrogate pair.** -/
theorem not_splitsAt_width {kind : LiteralKind} {u : CodeUnit} {rest : List CodeUnit} {p : Piece}
    (h : nextPiece? kind u rest = some p) : splitsAt (u :: rest) p.width = false := by
  cases hescape : p.escape with
  | true =>
    refine not_splitsAt_of_not_isHigh ?_
    cases hlast : (u :: rest)[p.width - 1]? with
    | none => rfl
    | some w =>
      have hpos : p.width - 1 < p.width := Nat.sub_lt (nextPiece?_bounds h).1 Nat.one_pos
      have hmem : ((u :: rest).take p.width)[p.width - 1]? = some w := by
        rw [List.getElem?_take_of_lt hpos, hlast]
      exact not_isHigh_of_escape h hescape w (List.mem_of_getElem? hmem)
  | false =>
    rcases nextPiece?_cases h with ⟨-, -, rfl⟩ | ⟨-, -, hpiece⟩ | ⟨v, tail, rfl, hpair, rfl⟩ |
      ⟨hunpaired, rfl⟩
    · cases hescape
    · rw [(escapePiece?_bounds hpiece).1] at hescape
      cases hescape
    · exact not_splitsAt_of_not_isHigh (not_isHigh_of_isLow (Bool.and_eq_true_iff.mp hpair).2)
    · cases rest with
      | nil => exact not_splitsAt_of_length_le (Nat.le_refl 1)
      | cons v tail => exact hunpaired v rfl

/-- **Pieces keep surrogate pairs whole.** -/
theorem Reads.not_splitsAt {kind : LiteralKind} {units : List CodeUnit} {pieces : List Piece}
    (h : Reads kind units pieces) (i : Nat) :
    splitsAt units (totalWidth (pieces.take i)) = false := by
  induction h generalizing i with
  | nil => exact not_splitsAt_of_length_le (Nat.zero_le _)
  | @cons u rest p pieces hnext _ ih =>
    cases i with
    | zero => exact not_splitsAt_zero _
    | succ i =>
      rw [List.take_succ_cons, totalWidth_cons]
      rcases Nat.eq_zero_or_pos (totalWidth (pieces.take i)) with hzero | hpos
      · rw [hzero]
        exact not_splitsAt_width hnext
      · obtain ⟨k, hk⟩ := Nat.exists_eq_succ_of_ne_zero (Nat.ne_of_gt (nextPiece?_bounds hnext).1)
        have hrest := ih i
        rw [← List.drop_succ_cons, splitsAt_drop _ _ hpos] at hrest
        rwa [hk] at hrest ⊢

/-! ## Where fragments begin and end -/

/-- Whether a position of a buffer falls between the two units of a pair. -/
def Buffer.splitsPair (b : Buffer) (pos : Nat) : Bool := splitsAt b.units.toList pos

/-- **A span that keeps pairs whole**: neither of its bounds falls inside one. -/
structure KeepsPairs (b : Buffer) (s : Span) : Prop where
  /-- It does not start inside a pair. -/
  start : b.splitsPair s.start = false
  /-- It does not stop inside a pair. -/
  stop : b.splitsPair s.stop = false

namespace Buffer

variable {b : Buffer} {pos : Nat} {c : Char}

theorem getElem?_of_isAt (h : b.isAt pos c = true) : b.units.toList[pos]? = some (ascii c) := by
  rw [Array.getElem?_toList]
  exact eq_of_beq h

theorem not_splitsPair_of_isAt (h : b.isAt pos c = true) (hc : isLow (ascii c) = false) :
    b.splitsPair pos = false := by
  refine not_splitsAt_of_not_isLow ?_
  rwa [getElem?_of_isAt h, Option.any_some]

theorem not_splitsPair_succ_of_isAt (h : b.isAt pos c = true) (hc : isHigh (ascii c) = false) :
    b.splitsPair (pos + 1) = false := by
  refine not_splitsAt_of_not_isHigh ?_
  rwa [Nat.add_sub_cancel, getElem?_of_isAt h, Option.any_some]

theorem not_splitsPair_of_size_le (h : b.size ≤ pos) : b.splitsPair pos = false :=
  not_splitsAt_of_length_le h

theorem unit?_of_getElem?_slice {s : Span} {i : Nat} {u : CodeUnit} (h : (b.slice s)[i]? = some u) :
    b.unit? (s.start + i) = some u := by
  rw [slice_eq, List.getElem?_take] at h
  split at h
  · rwa [List.getElem?_drop, Array.getElem?_toList] at h
  · cases h

/-- Inside a slice, pairs are split where they are split in the buffer. -/
theorem splitsAt_slice (b : Buffer) (s : Span) (hpos : 0 < pos) (hlt : pos < s.len) :
    splitsAt (b.slice s) pos = b.splitsPair (s.start + pos) := by
  rw [slice_eq, splitsAt_take _ hlt, splitsAt_drop _ _ hpos, splitsPair]

end Buffer

theorem Markers.head_eq {k : Nat} {v : Bool} {u : CodeUnit} {m : List CodeUnit}
    (h : Markers k v (u :: m)) : u = ascii '$' ∨ u = ascii '@' := by
  cases h with
  | dollar => exact Or.inl rfl
  | verbatim => exact Or.inr rfl

namespace Host

open Buffer

variable {b : Buffer} {o : LiteralOpening}

/-- A literal opens with a marker or a quote. -/
theorem not_splitsPair_of_opening? {pos : Nat} (h : opening? b pos = some o) :
    b.splitsPair o.start = false := by
  have hopens := opens_of_opening? h
  rcases Nat.lt_or_eq_of_le hopens.le with hlt | heq
  · have hsize : o.start < b.units.size := Nat.lt_trans hlt (lt_size_of_isAt hopens.quote)
    have hmarkers := hopens.markers
    rw [slice_cons b hsize hlt] at hmarkers
    have hfirst : b.units.toList[o.start]? = some b.units[o.start] := by
      rw [Array.getElem?_toList, Array.getElem?_eq_getElem hsize]
    refine not_splitsAt_of_not_isLow ?_
    rw [hfirst, Option.any_some]
    rcases hmarkers.head_eq with hu | hu <;> rw [hu] <;> decide
  · rw [heq]
    exact not_splitsPair_of_isAt hopens.quote (by decide)

theorem not_splitsPair_of_isLineBreakAt {pos : Nat} (h : isLineBreakAt b pos = true) :
    b.splitsPair pos = false := by
  obtain ⟨u, hu, hbreak⟩ := (Option.any_eq_true _ _).mp h
  refine not_splitsAt_of_not_isLow ?_
  rw [Array.getElem?_toList, show b.units[pos]? = some u from hu, Option.any_some]
  rcases Bool.or_eq_true_iff.mp hbreak with hbreak | hbreak <;> rw [eq_of_beq hbreak] <;> decide

/-- A literal ends behind a quote, before a line break, or with the buffer. -/
theorem not_splitsPair_of_contentMove_finish {pos stop : Nat} {ending : Ending}
    (h : contentMove b o pos = .finish ending stop) : b.splitsPair stop = false := by
  by_cases hending : ending = .closed
  · subst hending
    obtain ⟨hle, hquotes⟩ := quotes_of_contentMove h
    have hlt : pos < stop := Nat.lt_of_lt_of_le (Nat.lt_add_of_pos_right o.closing_pos) hle
    have hlast := not_splitsPair_succ_of_isAt (hquotes (stop - 1) (by omega) (by omega)) (by decide)
    rwa [Nat.sub_add_cancel (Nat.one_le_of_lt hlt)] at hlast
  · obtain rfl := stop_eq_of_not_closed h hending
    have hend : b.size ≤ stop → b.splitsPair stop = false := not_splitsPair_of_size_le
    have hbreak : isLineBreakAt b stop = true → b.splitsPair stop = false :=
      not_splitsPair_of_isLineBreakAt
    unfold contentMove rawMove quotedMove at h
    grind

/-- What comes before a hole ends at a brace. -/
theorem Entered.not_splitsPair {pos first code : Nat} (h : Entered b o pos first code) :
    b.splitsPair first = false :=
  not_splitsPair_of_isAt (h.braces first (Nat.le_refl _) h.le_size.1) (by decide)

/-- What comes behind a hole begins behind a brace. -/
theorem not_splitsPair_behind {mid : Nat} (hdollars : 0 < o.dollars)
    (h : b.isAt mid '\x7d' = true) : b.splitsPair (mid + closingBraces b o mid) = false := by
  obtain ⟨hpos, -, hbraces⟩ := closingBraces_spec hdollars h
  obtain ⟨k, hk⟩ := Nat.exists_eq_succ_of_ne_zero (Nat.ne_of_gt hpos)
  rw [hk]
  exact not_splitsPair_succ_of_isAt (hbraces (mid + k) (Nat.le_add_right _ _) (by omega)) (by decide)

theorem keepsPairs_stringTag {start stop : Nat} (hle : start ≤ stop)
    (hstart : b.splitsPair start = false) (hstop : b.splitsPair stop = false) :
    KeepsPairs b (stringTag start stop).span := by
  refine ⟨hstart, ?_⟩
  rwa [stringTag, Span.stop_between, Nat.max_eq_right hle]

/-- A part that a scan enters outside of pairs. Only in the content of a literal
is something already waiting to be tagged. -/
def Part.StartsWhole (b : Buffer) : Part → Prop
  | .code .. => True
  | .content _ start _ _ _ _ => b.splitsPair start = false

/-- **Fragments keep surrogate pairs whole.** -/
theorem Scans.keepsPairs {part : Part} {stop : Nat} {tags : List HostTag}
    {literals : List ScannedLiteral} (h : Scans b part stop tags literals) (hpart : part.Sound b)
    (hwhole : part.StartsWhole b) : ∀ t ∈ tags, t.kind = .string → KeepsPairs b t.span := by
  have hmarks : ∀ pos n, ∀ t ∈ markTags pos n, t.kind = .string → KeepsPairs b t.span := by
    intro pos n t ht hkind
    obtain ⟨i, -, rfl⟩ := List.mem_map.mp ht
    cases hkind
  induction h with
  | done => simp
  | @past _ _ _ _ _ kind _ _ hpos hm _ ih =>
    have hmove := codePast_of_codeMove hpos hm
    refine List.forall_mem_append.mpr ⟨fun t ht hkind => ?_, ih hmove.le_size trivial⟩
    obtain ⟨k, hk, rfl⟩ := List.mem_map.mp ht
    exact absurd ((Option.mem_toList.mp hk).trans (congrArg some hkind)) hmove.not_string
  | literal _ hm hcontent _ ihcontent ihcode =>
    have hplaced := placed_of_codeMove hm
    have hsound := Part.Sound.literal hplaced
    have hstart := not_splitsPair_of_opening? (opening?_of_codeMove hm)
    exact List.forall_mem_append.mpr ⟨ihcontent (hsound _ _ _) hstart,
      ihcode (hcontent.layout (hsound _ _ _)).le_size trivial⟩
  | opens hpos _ _ ih => exact List.forall_mem_cons.mpr ⟨nofun, ih hpos trivial⟩
  | leave => simp
  | closes hpos _ _ _ ih => exact List.forall_mem_cons.mpr ⟨nofun, ih hpos trivial⟩
  | text hm _ ih => exact ih (hpart.text hm) hwhole
  | finish hm =>
    have hle := Nat.le_trans hpart.1 (le_of_contentMove_finish hm)
    exact List.forall_mem_singleton.mpr fun _ =>
      keepsPairs_stringTag hle hwhole (not_splitsPair_of_contentMove_finish hm)
  | @hole _ _ _ _ _ mid _ _ _ _ _ _ _ _ hm hcode hmid _ ihcode ihrest =>
    have hin := entered_of_contentMove hm
    have hclose := hcode.isAt_stop rfl hmid
    have hbehind := Part.Sound.behind hin hpart.2.2.1 (hcode.layout hin.le_size.2).le hclose
    have hfirst := keepsPairs_stringTag (Nat.le_trans hpart.1 hin.le) hwhole hin.not_splitsPair
    simp only [List.forall_mem_append, List.forall_mem_cons]
    exact ⟨⟨⟨⟨fun _ => hfirst, hmarks _ _⟩, ihcode hin.le_size.2 trivial⟩, hmarks _ _⟩,
      ihrest (hbehind _ _ _) (not_splitsPair_behind hin.dollars hclose)⟩
  | lost hm _ _ ihcode =>
    have hin := entered_of_contentMove hm
    have hfirst := keepsPairs_stringTag (Nat.le_trans hpart.1 hin.le) hwhole hin.not_splitsPair
    simp only [List.forall_mem_append, List.forall_mem_cons]
    exact ⟨⟨fun _ => hfirst, hmarks _ _⟩, ihcode hin.le_size.2 trivial⟩

theorem keepsPairs_of_mem_scan {t : HostTag} (ht : t ∈ (scan b).tags.toList)
    (hkind : t.kind = .string) : KeepsPairs b t.span := by
  obtain ⟨stop, hrun⟩ := scans_scan b
  exact hrun.keepsPairs (Nat.zero_le _) trivial t ht hkind

open Stitch

/-- A run of string text begins and ends where a fragment does. -/
theorem keepsPairs_of_isRun {s : Span} (h : IsRun (classify b) s) : KeepsPairs b s := by
  constructor
  · obtain ⟨t, ht, hkind, hmem⟩ := isKindAt_classify.mp (h.string _ (Span.start_mem h.pos))
    have heq : s.start = t.span.start := by
      refine Nat.le_antisymm (Nat.le_of_not_lt fun hlt => ?_) hmem.1
      refine h.start (s.start - 1) (by omega) (isKindAt_classify.mpr ⟨t, ht, hkind, ?_⟩)
      exact ⟨by omega, by have := hmem.2; omega⟩
    rw [heq]
    exact (keepsPairs_of_mem_scan ht hkind).start
  · obtain ⟨t, ht, hkind, hmem⟩ := isKindAt_classify.mp (h.string _ (Span.pred_stop_mem h.pos))
    have hlt : s.start < s.stop := Nat.lt_add_of_pos_right h.pos
    have heq : s.stop = t.span.stop := by
      refine Nat.le_antisymm (by have := hmem.2; omega) (Nat.le_of_not_lt fun hlt => ?_)
      exact h.stop (isKindAt_classify.mpr ⟨t, ht, hkind, by have := hmem.1; omega, hlt⟩)
    rw [heq]
    exact (keepsPairs_of_mem_scan ht hkind).stop

end Host

/-! ## Literals and their content -/

namespace Stitch

variable {b : Buffer} {index : TagIndex}

/-- A stitched literal holds the string text that touches it. -/
theorem mem_stitch_of_touching (hin : StringsInside b index) {seed : Span} (hseed : IsSeed index seed)
    {p q : Nat} (hp : p ∈ (stitch b index seed).fragments) (hq : IsString index q)
    (htouch : p + 1 = q ∨ q + 1 = p) : q ∈ (stitch b index seed).fragments := by
  obtain ⟨y, hy, hpy⟩ := (mem_stitch hin hseed).mp hp
  have hrun := hy.isRun (isRun_complete hin hseed.pos hseed.string).1
  refine (mem_stitch hin hseed).mpr ⟨y, hy, hrun.mem_of_isString hpy fun r hlo hhi => ?_⟩
  obtain rfl | rfl : r = p ∨ r = q := by omega
  · exact hrun.string _ hpy
  · exact hq

/-- **The fragments of a literal are runs of string text.** -/
theorem isRun_of_mem_literalsIn (hin : StringsInside b index) {request : Span} {l : StitchedLiteral}
    (h : l ∈ literalsIn b index request) {f : Span} (hf : f ∈ l.fragments.toList) : IsRun index f := by
  obtain ⟨seed, -, hseed, rfl⟩ := exists_seed_of_mem_literalsIn h
  have hpos := (stitch b index seed).fragments.normal.nonempty f hf
  have hmem : ∀ p ∈ f, p ∈ (stitch b index seed).fragments := fun p hp => ⟨f, hf, hp⟩
  refine ⟨hpos, fun p hp => isString_of_mem_stitch hseed (hmem p hp), fun hstop => ?_,
    fun p hp hstring => ?_⟩
  · have hlt : f.start < f.stop := Nat.lt_add_of_pos_right hpos
    have hnext := mem_stitch_of_touching hin hseed (hmem _ (Span.pred_stop_mem hpos)) hstop
      (Or.inl (by omega))
    exact Nat.lt_irrefl _ ((SpanSet.mem_iff_of_mem_toList hf ⟨by omega, by omega⟩).mp hnext).2
  · have hlt : f.start < f.stop := Nat.lt_add_of_pos_right hpos
    have hprev := mem_stitch_of_touching hin hseed (hmem _ (Span.start_mem hpos)) hstring (Or.inr hp)
    have := ((SpanSet.mem_iff_of_mem_toList hf ⟨by omega, by omega⟩).mp hprev).1
    omega

end Stitch

namespace LiteralStyle

variable {style : LiteralStyle}

/-- What is read as markers comes before the rest. -/
theorem readMarkers_eq_ok {seen : List CodeUnit} {kind : LiteralKind} {units : List CodeUnit}
    {o : Opening} (h : style.readMarkers seen kind units = .ok o) :
    ∃ markers, units = markers ++ o.rest ∧ o.seen.length = markers.length + seen.length := by
  induction units generalizing seen kind with
  | nil =>
    cases h
    exact ⟨[], rfl, (Nat.zero_add _).symm⟩
  | cons u rest ih =>
    rw [readMarkers] at h
    split at h
    · cases h
      exact ⟨[], rfl, (Nat.zero_add _).symm⟩
    · split at h
      · cases h
      · split at h
        · cases h
        · obtain ⟨markers, hunits, hlen⟩ := ih h
          refine ⟨u :: markers, congrArg (u :: ·) hunits, ?_⟩
          rw [hlen, List.length_cons, List.length_cons]
          omega

/-- **An opening ends with a quote**, and something closes what it opens. -/
theorem quote_of_readHead {units : List CodeUnit} {head : LiteralHead}
    (h : style.readHead units = .ok head) :
    0 < head.openingLen ∧ units[head.openingLen - 1]? = some (ascii '"') ∧ 0 < head.closingLen := by
  unfold readHead at h
  cases hread : style.readMarkers [] .plain units with
  | error e =>
    rw [hread] at h
    cases h
  | ok o =>
    obtain ⟨markers, rfl, hlen⟩ := readMarkers_eq_ok hread
    have hquote : ∀ i < (o.rest.takeWhile (· == ascii '"')).length,
        (markers ++ o.rest)[markers.length + i]? = some (ascii '"') := by
      intro i hi
      have hrest := List.prefix_iff_getElem?.mp (List.takeWhile_prefix _) i hi
      rw [List.getElem?_append_right (Nat.le_add_right _ _), Nat.add_sub_cancel_left, hrest]
      have hmem := List.mem_takeWhile_imp (List.getElem_mem hi)
      exact congrArg some (eq_of_beq hmem)
    rw [hread] at h
    simp only [bind, Except.bind] at h
    generalize (o.rest.takeWhile (· == ascii '"')).length = quotes at h hquote
    rw [List.length_nil, Nat.add_zero] at hlen
    split at h
    · cases h
    · next hne =>
      -- A raw literal counts all the quotes, any other the first.
      split at h
      · cases h
        refine ⟨by simp only; omega, ?_, Nat.pos_of_ne_zero hne⟩
        rw [hlen, Nat.add_sub_assoc (Nat.pos_of_ne_zero hne)]
        exact hquote (quotes - 1) (by omega)
      · split at h
        · cases h
          refine ⟨Nat.succ_pos _, ?_, Nat.one_pos⟩
          rw [hlen]
          exact hquote 0 (Nat.pos_of_ne_zero hne)
        · cases h

end LiteralStyle

/-- The opening of a literal that is taken off ends with a quote. -/
theorem quote_of_headOf {style : LiteralStyle} {b : Buffer} {l : StitchedLiteral} {head : LiteralHead}
    (h : headOf style b l = .ok head) : 0 < head.closingLen ∧
      ∀ first, l.fragments.first? = some first →
        b.splitsPair (first.start + head.openingLen) = false := by
  unfold headOf at h
  split at h
  · cases h
  · next first hfirst =>
    obtain ⟨hpos, hquote, hclosing⟩ := LiteralStyle.quote_of_readHead h
    refine ⟨hclosing, fun f hf => ?_⟩
    obtain rfl := Option.some.inj (hfirst.symm.trans hf)
    have hat : b.isAt (first.start + (head.openingLen - 1)) '"' = true :=
      beq_iff_eq.mpr (Buffer.unit?_of_getElem?_slice hquote)
    have hbehind := Buffer.not_splitsPair_succ_of_isAt hat (by decide)
    rwa [Nat.add_assoc, Nat.sub_add_cancel hpos] at hbehind

/-- A delimiter is taken off where it stands, and a quote is no half of a pair. -/
theorem keepsPairs_of_trimFragment? {b : Buffer} {head : LiteralHead} {isFirst isLast : Bool}
    {s t : Span} (h : trimFragment? b head isFirst isLast s = some t) (hs : KeepsPairs b s)
    (hsize : s.stop ≤ b.size) (hclosing : 0 < head.closingLen)
    (hopening : isFirst = true → b.splitsPair (s.start + head.openingLen) = false) :
    KeepsPairs b t := by
  have hstart : b.splitsPair (if isFirst then s.start + head.openingLen else s.start) = false := by
    split
    · next hfirst => exact hopening hfirst
    · exact hs.start
  have hstop : b.splitsPair (if isLast && endsWithClosing b head s then s.stop - head.closingLen
      else s.stop) = false := by
    split
    · next hlast =>
      obtain ⟨hle, hquotes⟩ := (endsWithClosing_iff hsize).mp (Bool.and_eq_true_iff.mp hlast).2
      refine Buffer.not_splitsPair_of_isAt (hquotes _ (Nat.le_refl _) ?_) (by decide)
      rw [Span.stop] at hsize ⊢
      omega
    · exact hs.stop
  unfold trimFragment? at h
  simp only at h
  generalize (if isFirst then s.start + head.openingLen else s.start) = start at h hstart
  generalize (if isLast && endsWithClosing b head s then s.stop - head.closingLen else s.stop) = stop
    at h hstop
  split at h
  · next hlt =>
    cases h
    refine ⟨hstart, ?_⟩
    rwa [Span.stop_between, Nat.max_eq_right (Nat.le_of_lt hlt)]
  · cases h

/-- **The content of a literal keeps surrogate pairs whole.** -/
theorem keepsPairs_of_contentOf {style : LiteralStyle} {b : Buffer} {l : StitchedLiteral}
    {head : LiteralHead} {content : List Span} (hhead : headOf style b l = .ok head)
    (hcontent : contentOf b head l.fragments.toList = .ok content)
    (hfragments : ∀ f ∈ l.fragments.toList, KeepsPairs b f ∧ f.stop ≤ b.size) :
    ∀ t ∈ content, KeepsPairs b t := by
  intro t ht
  obtain ⟨hclosing, hopening⟩ := quote_of_headOf hhead
  unfold contentOf at hcontent
  simp only at hcontent
  split at hcontent
  · cases hcontent
  · cases hcontent
    obtain ⟨⟨s, i⟩, hs, htrim⟩ := List.mem_filterMap.mp ht
    have hget := List.mem_zipIdx_iff_getElem?.mp hs
    obtain ⟨hkeeps, hsize⟩ := hfragments s (List.mem_of_getElem? hget)
    refine keepsPairs_of_trimFragment? htrim hkeeps hsize hclosing fun hi => hopening s ?_
    rwa [eq_of_beq hi, SpanSet.toList, Array.getElem?_toList] at hget

/-! ## The tags of a report -/

/-- A tag begins and ends where pieces meet. -/
theorem Decoded.aligned_of_mem_tagTokens {kind : LiteralKind} {units : List CodeUnit}
    {pieces : List Piece} (hread : Reads kind units pieces) {base : Nat} {t : SqlTag}
    (ht : t ∈ (ofPieces pieces).tagTokens base (Sql.tokenize (ofPieces pieces).chars)) {x : Nat}
    (hx : x = t.span.start ∨ x = t.span.stop) : ∃ i, x = base + totalWidth (pieces.take i) := by
  have hlen : (ofPieces pieces).chars.length = pieces.length := List.length_map _
  have htiles := Sql.tiles_tokenize (ofPieces pieces).chars
  rw [hlen] at htiles
  have hinside : ∀ token ∈ Sql.tokenize (ofPieces pieces).chars, token.stop ≤ pieces.length :=
    fun _ htoken => (htiles.bounds htoken).2
  rw [tagTokens_eq_flatMap hread.one_le_width base (.of_stop_le_start htiles.pairwise hinside)] at ht
  obtain ⟨token, htoken, hcut⟩ := List.mem_flatMap.mp ht
  have hstop := hinside token (List.mem_filter.mp htoken).1
  have htags := tokenTags_cut hread.one_le_width hread.two_le_width base hstop
  obtain ⟨⟨i, hi, hstart⟩, j, hj, hend⟩ := htags.aligned t hcut
  rw [hlen] at hi hj
  rw [sourceOffset_ofPieces hread.one_le_width hi] at hstart
  rw [sourceOffset_ofPieces hread.one_le_width hj] at hend
  rcases hx with rfl | rfl
  · exact ⟨i, hstart⟩
  · exact ⟨j, hend⟩

/-- A tag of a fragment splits a pair only where the fragment does. -/
theorem eq_bound_of_mem_fragmentTags {kind : LiteralKind} {b : Buffer} {s : Span} {t : SqlTag}
    (h : t ∈ fragmentTags kind b s) {x : Nat} (hx : x = t.span.start ∨ x = t.span.stop)
    (hsplit : b.splitsPair x = true) : x = s.start ∨ x = s.stop := by
  unfold fragmentTags at h
  split at h
  · next d hd =>
    obtain ⟨pieces, hread, rfl⟩ := Decoded.ofUnits_eq_ok.mp hd
    obtain ⟨i, rfl⟩ := Decoded.aligned_of_mem_tagTokens hread h hx
    have hwhole := hread.not_splitsAt i
    have hle : totalWidth (pieces.take i) ≤ s.len := by
      have hwidth := hread.totalWidth_eq
      rw [← List.take_append_drop i pieces, totalWidth_append] at hwidth
      have hslice := b.length_slice_le s
      omega
    -- Strictly inside the fragment, its pieces and the buffer tell the same.
    rcases Nat.eq_zero_or_pos (totalWidth (pieces.take i)) with hzero | hpos
    · exact Or.inl (by rw [hzero, Nat.add_zero])
    · rcases Nat.lt_or_eq_of_le hle with hlt | heq
      · rw [b.splitsAt_slice s hpos hlt, hsplit] at hwhole
        cases hwhole
      · exact Or.inr (by rw [heq, Span.stop])
  · cases h

/-- **The tags of a literal keep surrogate pairs whole.** -/
theorem keepsPairs_of_tagLiteral {style : LiteralStyle} {b : Buffer} {request : Span}
    {l : StitchedLiteral} (hl : l ∈ literalsIn b (Host.classify b) request) {tags : List SqlTag}
    (h : tagLiteral style b l = .ok tags) : ∀ t ∈ tags, KeepsPairs b t.span := by
  intro t ht
  obtain ⟨head, content, hhead, hcontent, rfl⟩ := tagLiteral_eq_ok h
  have hin := Host.stringsInside_classify b
  have hfragments : ∀ f ∈ l.fragments.toList, KeepsPairs b f ∧ f.stop ≤ b.size := by
    intro f hf
    have hrun := Stitch.isRun_of_mem_literalsIn hin hl hf
    have hlast := hin _ (hrun.string _ (Span.pred_stop_mem hrun.pos))
    exact ⟨Host.keepsPairs_of_isRun hrun, by omega⟩
  obtain ⟨s, hs, hts⟩ := List.mem_flatMap.mp ht
  have hkeeps := keepsPairs_of_contentOf hhead hcontent hfragments s hs
  have hwhole : ∀ x, x = t.span.start ∨ x = t.span.stop → b.splitsPair x = false := by
    intro x hx
    refine Bool.eq_false_iff.mpr fun hsplit => ?_
    rcases eq_bound_of_mem_fragmentTags hts hx hsplit with rfl | rfl
    · simp [hkeeps.start] at hsplit
    · simp [hkeeps.stop] at hsplit
  exact ⟨hwhole _ (Or.inl rfl), hwhole _ (Or.inr rfl)⟩

/-- **Only the request can split a pair.** A bound of a tag that falls inside a
surrogate pair is a bound of the request. -/
theorem Highlighter.eq_bound_of_splitsPair {h : Highlighter} {b : Buffer} {request : Span} {t : SqlTag}
    (ht : t ∈ (h.report b (Host.classify b) request).tags) {x : Nat}
    (hx : x = t.span.start ∨ x = t.span.stop) (hsplit : b.splitsPair x = true) :
    x = request.start ∨ x = request.stop := by
  obtain ⟨clipped, l, tags, u, hclip, hl, htags, hu, hcut⟩ := exists_tagLiteral_of_mem_report ht
  obtain ⟨hstart, hstop⟩ := keepsPairs_of_tagLiteral hl htags u hu
  obtain ⟨hcstart, hcstop, -⟩ := Span.inter?_eq_some hclip
  obtain ⟨htstart, htstop, -⟩ := Span.inter?_eq_some (SqlTag.clip?_eq_some hcut)
  have hne : ∀ y, b.splitsPair y = false → x ≠ y := by
    rintro y hy rfl
    simp [hy] at hsplit
  have hxstart := hne _ hstart
  have hxstop := hne _ hstop
  have hzero := hne 0 (not_splitsAt_zero _)
  have hsize := hne b.size (Buffer.not_splitsPair_of_size_le (Nat.le_refl _))
  have hfull : b.full.start = 0 ∧ b.full.stop = b.size := ⟨rfl, Nat.zero_add _⟩
  omega

end EmbeddedSql
