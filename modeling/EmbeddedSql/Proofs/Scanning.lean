import EmbeddedSql.Host.Scanner
import EmbeddedSql.Proofs.Positions

/-!
# Runs of the scanner

The scanner threads what it has found through calls that nest. Here a run is
described by what it adds instead (`Scans`): a stretch of code, or what is left
of a literal, yields tags and literals, and what one move yields is put in
front of what the rest yields. Every call of the scanner is such a run
(`runs`), so a fact about scans is proved by induction on the runs,
with one case for each move.

The first such facts are about layout: the tags come in order, without overlap
and inside the buffer.
-/

namespace EmbeddedSql

namespace Host

variable {b : Buffer}

/-! ## Runs -/

/-- A tag over string text. -/
def stringTag (start stop : Nat) : HostTag := ⟨Span.between start stop, .string⟩

/-- A tag over one bracket or separator. -/
def markTag (pos : Nat) : HostTag := ⟨Span.between pos (pos + 1), .punctuation⟩

/-- Tags over punctuation units in a row. -/
def markTags (pos n : Nat) : List HostTag := (List.range' pos n).map markTag

/-- A part of a buffer to be scanned: code, or what is left of a literal. The
second comes with what the rest of the literal will turn out to be: its
fragments, the first of which begins at `start`, the braces that close its
holes, and how it ends. -/
inductive Part where
  /-- Code from a position on. -/
  | code (inHole : Bool) (depth pos : Nat)
  /-- The content of a literal from a position on. -/
  | content (o : LiteralOpening) (start pos : Nat) (fragments : List Span) (closers : List Nat)
      (ending : Ending)

/-- **A run of the scanner**: a part, where its scan stops, and the tags and
the literals it yields. -/
inductive Scans (b : Buffer) : Part → Nat → List HostTag → List ScannedLiteral → Prop
  /-- Code ends with the buffer. -/
  | done {inHole : Bool} {depth pos : Nat} : b.size ≤ pos → Scans b (.code inHole depth pos) pos [] []
  /-- Something is passed over. -/
  | past {inHole : Bool} {depth pos next stop : Nat} {kind : Option HostKind} {tags : List HostTag}
      {literals : List ScannedLiteral} : pos < b.size → codeMove b pos = .past kind next →
      Scans b (.code inHole depth next) stop tags literals →
      Scans b (.code inHole depth pos) stop
        (kind.toList.map (HostTag.mk (Span.between pos next)) ++ tags) literals
  /-- A literal is scanned, and then the code behind it. -/
  | literal {inHole : Bool} {depth pos mid stop : Nat} {o : LiteralOpening} {fragments : List Span}
      {closers : List Nat} {ending : Ending} {inner tags : List HostTag}
      {nested literals : List ScannedLiteral} : pos < b.size → codeMove b pos = .literal o →
      Scans b (.content o o.start o.body fragments closers ending) mid inner nested →
      Scans b (.code inHole depth mid) stop tags literals →
      Scans b (.code inHole depth pos) stop (inner ++ tags)
        (nested ++ ⟨o, fragments.toArray, closers.toArray, ending, mid⟩ :: literals)
  /-- A brace opens. -/
  | opens {inHole : Bool} {depth pos stop : Nat} {tags : List HostTag}
      {literals : List ScannedLiteral} : pos < b.size → codeMove b pos = .opens →
      Scans b (.code inHole (depth + 1) (pos + 1)) stop tags literals →
      Scans b (.code inHole depth pos) stop (markTag pos :: tags) literals
  /-- A brace ends the hole. -/
  | leave {pos : Nat} : pos < b.size → codeMove b pos = .closes → Scans b (.code true 0 pos) pos [] []
  /-- A brace closes another, or none. -/
  | closes {inHole : Bool} {depth pos stop : Nat} {tags : List HostTag}
      {literals : List ScannedLiteral} : pos < b.size → codeMove b pos = .closes →
      (inHole = true → 0 < depth) → Scans b (.code inHole (depth - 1) (pos + 1)) stop tags literals →
      Scans b (.code inHole depth pos) stop (markTag pos :: tags) literals
  /-- Text is passed over. -/
  | text {o : LiteralOpening} {start pos next stop : Nat} {fragments : List Span}
      {closers : List Nat} {ending : Ending} {tags : List HostTag} {literals : List ScannedLiteral} :
      contentMove b o pos = .past next →
      Scans b (.content o start next fragments closers ending) stop tags literals →
      Scans b (.content o start pos fragments closers ending) stop tags literals
  /-- The literal ends. -/
  | finish {o : LiteralOpening} {start pos stop : Nat} {ending : Ending} :
      contentMove b o pos = .finish ending stop →
      Scans b (.content o start pos [Span.between start stop] [] ending) stop [stringTag start stop] []
  /-- A hole is scanned, and then the content behind it. -/
  | hole {o : LiteralOpening} {start pos first code mid stop : Nat} {fragments : List Span}
      {closers : List Nat} {ending : Ending} {inner tags : List HostTag}
      {nested literals : List ScannedLiteral} : contentMove b o pos = .hole first code →
      Scans b (.code true 0 code) mid inner nested → mid < b.size →
      Scans b (.content o (mid + closingBraces b o mid) (mid + closingBraces b o mid) fragments
        closers ending) stop tags literals →
      Scans b (.content o start pos (Span.between start first :: fragments)
          (closingBraces b o mid :: closers) ending) stop
        (stringTag start first :: markTags first (code - first) ++ inner ++
          markTags mid (closingBraces b o mid) ++ tags) (nested ++ literals)
  /-- A hole is not closed. -/
  | lost {o : LiteralOpening} {start pos first code mid : Nat} {inner : List HostTag}
      {nested : List ScannedLiteral} : contentMove b o pos = .hole first code →
      Scans b (.code true 0 code) mid inner nested → b.size ≤ mid →
      Scans b (.content o start pos [Span.between start first] [] .openHole) mid
        (stringTag start first :: markTags first (code - first) ++ inner) nested

/-- **Every literal of a run was entered from code**, and what it records is what
the run over its content came to. -/
theorem Scans.exists_content {part : Part} {stop : Nat} {tags : List HostTag}
    {literals : List ScannedLiteral} (h : Scans b part stop tags literals) {l : ScannedLiteral}
    (hl : l ∈ literals) :
    ∃ pos inner nested, codeMove b pos = .literal l.opening ∧
      Scans b (.content l.opening l.opening.start l.opening.body l.fragments.toList
        l.closers.toList l.ending) l.stop inner nested := by
  induction h with
  | done => simp at hl
  | past _ _ _ ih => exact ih hl
  | literal _ hm hcontent _ ihcontent ihcode =>
    rcases List.mem_append.mp hl with hl | hl
    · exact ihcontent hl
    · rcases List.mem_cons.mp hl with rfl | hl
      · exact ⟨_, _, _, hm, hcontent⟩
      · exact ihcode hl
  | opens _ _ _ ih => exact ih hl
  | leave => simp at hl
  | closes _ _ _ _ ih => exact ih hl
  | text _ _ ih => exact ih hl
  | finish => simp at hl
  | hole _ _ _ _ ihcode ihrest => exact (List.mem_append.mp hl).elim ihcode ihrest
  | lost _ _ _ ih => exact ih hl

namespace Found

/-- What was found, with more behind it. -/
def extend (f : Found) (tags : List HostTag) (literals : List ScannedLiteral) : Found :=
  ⟨f.tags ++ tags.toArray, f.literals ++ literals.toArray⟩

@[simp] theorem extend_nil (f : Found) : f.extend [] [] = f := by simp [extend]

@[simp] theorem extend_extend (f : Found) (ts us : List HostTag) (ls ms : List ScannedLiteral) :
    (f.extend ts ls).extend us ms = f.extend (ts ++ us) (ls ++ ms) := by
  simp [extend, Array.append_assoc]

theorem tag_eq (f : Found) (kind : HostKind) (start stop : Nat) :
    f.tag kind start stop = f.extend [⟨Span.between start stop, kind⟩] [] := by
  simp [tag, extend]

theorem tag?_eq (f : Found) (kind : Option HostKind) (start stop : Nat) :
    f.tag? kind start stop = f.extend (kind.toList.map (HostTag.mk (Span.between start stop))) [] := by
  cases kind with
  | none => simp [tag?]
  | some kind => simp [tag?, tag_eq]

theorem punctuation_eq (f : Found) (pos : Nat) : f.punctuation pos = f.extend [markTag pos] [] :=
  tag_eq ..

theorem braces_eq (f : Found) (pos n : Nat) : f.braces pos n = f.extend (markTags pos n) [] := by
  unfold braces markTags
  induction n generalizing f pos with
  | zero => simp
  | succ n ih =>
    rw [List.range'_succ, List.foldl_cons, ih, punctuation_eq, extend_extend, List.map_cons]
    rfl

theorem literal_eq (f : Found) (l : ScannedLiteral) : f.literal l = f.extend [] [l] := by
  simp [literal, extend]

end Found

/-! ## Every scan is a run -/

/-- The scan of code, without the bounds it carries. -/
theorem val_scanCode (b : Buffer) (inHole : Bool) (depth : Nat) (found : Found) (pos : Nat) :
    (scanCode b inHole depth found pos).1 =
      if pos < b.size then
        match codeMove b pos with
        | .past kind next => (scanCode b inHole depth (found.tag? kind pos next) next).1
        | .literal o =>
          (scanCode b inHole depth (scanContent b (.begin o) found o.body).1.found
            (scanContent b (.begin o) found o.body).1.stop).1
        | .opens => (scanCode b inHole (depth + 1) (found.punctuation pos) (pos + 1)).1
        | .closes =>
          if inHole && depth == 0 then ⟨found, pos⟩
          else (scanCode b inHole (depth - 1) (found.punctuation pos) (pos + 1)).1
      else ⟨found, pos⟩ := by
  rw [scanCode]
  by_cases hpos : pos < b.size
  · rw [dif_pos hpos, if_pos hpos]
    split <;> simp only [*]
    split <;> rfl
  · rw [dif_neg hpos, if_neg hpos]

/-- The scan of content, without the bounds it carries. -/
theorem val_scanContent (b : Buffer) (p : Partial) (found : Found) (pos : Nat) :
    (scanContent b p found pos).1 =
      match contentMove b p.opening pos with
      | .past next => (scanContent b p found next).1
      | .finish ending stop => p.finish found ending stop
      | .hole first code =>
        let hole := (scanCode b true 0
          ((found.tag .string p.fragmentStart first).braces first (code - first)) code).1
        if hole.stop < b.size then
          (scanContent b ((p.cut first).resume b hole.stop)
            (hole.found.braces hole.stop (closingBraces b p.opening hole.stop))
            (hole.stop + closingBraces b p.opening hole.stop)).1
        else (p.cut first).abandon hole.found hole.stop := by
  rw [scanContent]
  split <;> simp only [*]
  split <;> rfl

/-- What a scan of code must come to: a run, added to what was found. -/
def CodeRuns (b : Buffer) (inHole : Bool) (depth : Nat) (found : Found) (pos : Nat) : Prop :=
  ∃ tags literals,
    Scans b (.code inHole depth pos) (scanCode b inHole depth found pos).1.stop tags literals ∧
      (scanCode b inHole depth found pos).1.found = found.extend tags literals

/-- What a scan of content must come to: a run, added to what was found
together with the literal it completes. -/
def ContentRuns (b : Buffer) (p : Partial) (found : Found) (pos : Nat) : Prop :=
  ∃ tags literals fragments closers ending,
    Scans b (.content p.opening p.fragmentStart pos fragments closers ending)
        (scanContent b p found pos).1.stop tags literals ∧
      (scanContent b p found pos).1.found = found.extend tags
        (literals ++ [⟨p.opening, p.fragments ++ fragments.toArray, p.closers ++ closers.toArray,
          ending, (scanContent b p found pos).1.stop⟩])

theorem runs (b : Buffer) :
    (∀ inHole depth found pos, CodeRuns b inHole depth found pos) ∧
      ∀ p found pos, ContentRuns b p found pos := by
  refine scanCode.mutual_induct b (CodeRuns b) (ContentRuns b) ?_ ?_ ?_ ?_ ?_ ?_ ?_ ?_ ?_ ?_
  case _ =>
    rintro inHole depth found pos hpos kind next hm - r hr - ⟨tags, literals, hrun, hfound⟩
    rw [CodeRuns, val_scanCode, if_pos hpos, hm]
    refine ⟨_, _, .past hpos hm hrun, ?_⟩
    rw [hfound, Found.tag?_eq, Found.extend_extend, List.nil_append]
  case _ =>
    rintro inHole depth found pos hpos o hm - l hl hscan r hr -
      ⟨inner, nested, fragments, closers, ending, hcontent, hl'⟩ ⟨tags, literals, hrun, hfound⟩
    obtain rfl := congrArg Subtype.val hscan
    rw [CodeRuns, val_scanCode, if_pos hpos, hm]
    refine ⟨_, _, .literal hpos hm hcontent hrun, ?_⟩
    rw [hfound, hl', Found.extend_extend]
    simp [Partial.begin]
  case _ =>
    rintro inHole depth found pos hpos hm r hr - ⟨tags, literals, hrun, hfound⟩
    rw [CodeRuns, val_scanCode, if_pos hpos, hm]
    refine ⟨_, _, .opens hpos hm hrun, ?_⟩
    rw [hfound, Found.punctuation_eq, Found.extend_extend, List.nil_append, List.singleton_append]
  case _ =>
    rintro inHole depth found pos hpos hm hleave
    rw [CodeRuns, val_scanCode, if_pos hpos, hm]
    simp only [hleave, if_true]
    simp only [Bool.and_eq_true, beq_iff_eq] at hleave
    obtain ⟨rfl, rfl⟩ := hleave
    exact ⟨[], [], .leave hpos hm, by rw [Found.extend_nil]⟩
  case _ =>
    rintro inHole depth found pos hpos hm hstay r hr - ⟨tags, literals, hrun, hfound⟩
    rw [CodeRuns, val_scanCode, if_pos hpos, hm]
    simp only [hstay, Bool.false_eq_true, if_false]
    simp only [Bool.and_eq_true, beq_iff_eq, not_and] at hstay
    refine ⟨_, _, .closes hpos hm (fun h => Nat.pos_of_ne_zero (hstay h)) hrun, ?_⟩
    rw [hfound, Found.punctuation_eq, Found.extend_extend, List.nil_append, List.singleton_append]
  case _ =>
    rintro inHole depth found pos hpos
    rw [CodeRuns, val_scanCode, if_neg hpos]
    exact ⟨[], [], .done (Nat.le_of_not_lt hpos), by rw [Found.extend_nil]⟩
  case _ =>
    rintro p found pos next hm - r hr - ⟨tags, literals, fragments, closers, ending, hrun, hfound⟩
    rw [ContentRuns, val_scanContent, hm]
    exact ⟨_, _, _, _, _, .text hm hrun, hfound⟩
  case _ =>
    rintro p found pos ending stop hm
    rw [ContentRuns, val_scanContent, hm]
    refine ⟨_, _, _, _, _, .finish hm, ?_⟩
    simp only [Partial.finish, Found.tag_eq, Found.literal_eq, Found.extend_extend]
    simp [Partial.cut, Partial.literal, stringTag]
  case _ =>
    rintro p found pos first code hm - hole hhole hscan hsize r hr -
      ⟨inner, nested, hcode, hinner⟩ ⟨tags, literals, fragments, closers, ending, hrun, hfound⟩
    have hval := congrArg Subtype.val hscan
    rw [ContentRuns, val_scanContent, hm]
    simp only
    generalize (scanCode b true 0
      ((found.tag .string p.fragmentStart first).braces first (code - first)) code).1 = halt
      at hval hcode hinner ⊢
    subst hval
    simp only [if_pos hsize]
    refine ⟨_, _, _, _, _, .hole hm hcode hsize hrun, ?_⟩
    rw [hfound, hinner]
    simp only [Found.braces_eq, Found.tag_eq, Found.extend_extend]
    simp [Partial.cut, Partial.resume, stringTag]
  case _ =>
    rintro p found pos first code hm - hole hhole hscan hsize ⟨inner, nested, hcode, hinner⟩
    have hval := congrArg Subtype.val hscan
    rw [ContentRuns, val_scanContent, hm]
    simp only
    generalize (scanCode b true 0
      ((found.tag .string p.fragmentStart first).braces first (code - first)) code).1 = halt
      at hval hcode hinner ⊢
    subst hval
    simp only [if_neg hsize]
    refine ⟨_, _, _, _, _, .lost hm hcode (Nat.le_of_not_lt hsize), ?_⟩
    simp only [Partial.abandon, hinner, Found.braces_eq, Found.tag_eq, Found.literal_eq,
      Found.extend_extend]
    simp [Partial.cut, Partial.literal, stringTag]

/-- **The scan of a buffer is a run.** -/
theorem scans_scan (b : Buffer) :
    ∃ stop, Scans b (.code false 0 0) stop (scan b).tags.toList (scan b).literals.toList := by
  obtain ⟨tags, literals, hrun, hfound⟩ := (runs b).1 false 0 {} 0
  refine ⟨(scanCode b false 0 {} 0).1.stop, ?_⟩
  rw [scan, hfound]
  simpa [Found.extend] using hrun

end Host

end EmbeddedSql
