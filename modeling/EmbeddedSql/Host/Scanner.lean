import EmbeddedSql.Buffer
import EmbeddedSql.Host.Index

/-!
# Scanning C# source

Where no editor supplies a classification, this scanner does. It reports
comments (documentation comments with exactly three slashes excepted), string
literals, and brackets and separators. An interpolated literal is reported as
its *fragments*, the parts between its holes; the braces of a hole are
punctuation, and the code inside it is scanned like any other code, so
literals inside holes are found as well. Character literals are passed over.

What the scan does at one position is a *move*: in code it passes over
something, enters a literal or meets a brace; in the content of a literal it
passes over text, enters a hole or ends the literal. Quoted and raw literals
differ in their moves only. The scan itself follows the moves. Code and
literals call one another, and each call says where it stopped, with the proof
that this is no earlier than where it began: that is what makes the recursion
well-founded.

Besides the tags, the scan records for every literal how it opened, which
fragments it has, how many braces closed each of its holes and how it ended.
-/

namespace EmbeddedSql

namespace Host

/-! ## Moving through a buffer -/

/-- The first position, from `pos` on, whose unit fails `p`. -/
def skipWhile (b : Buffer) (p : CodeUnit → Bool) (pos : Nat) : Nat :=
  if h : pos < b.units.size then
    if p b.units[pos] then skipWhile b p (pos + 1) else pos
  else pos
termination_by b.units.size - pos

theorem le_skipWhile (b : Buffer) (p : CodeUnit → Bool) (pos : Nat) :
    pos ≤ skipWhile b p pos := by
  fun_induction skipWhile b p pos with
  | case1 => omega
  | case2 => omega
  | case3 => omega

/-- Whether a unit ends a line. -/
def isLineBreak (u : CodeUnit) : Bool := u == Utf16.ascii '\n' || u == Utf16.ascii '\r'

/-- Whether a line ends at a position. -/
def isLineBreakAt (b : Buffer) (pos : Nat) : Bool := (b.unit? pos).any isLineBreak

/-- Where a run of one character ends that starts at or before `pos`. -/
def runEnd (b : Buffer) (c : Char) (pos : Nat) : Nat := skipWhile b (· == Utf16.ascii c) pos

/-- Where a line ends. -/
def lineEnd (b : Buffer) (pos : Nat) : Nat := skipWhile b (fun u => !isLineBreak u) pos

/-- Where a block comment ends whose body starts at `pos`: after the first
`*/`, or at the end of the buffer. -/
def blockEnd (b : Buffer) (pos : Nat) : Nat :=
  if pos + 1 < b.size then
    if b.isAt pos '*' && b.isAt (pos + 1) '/' then pos + 2 else blockEnd b (pos + 1)
  else max pos b.size
termination_by b.size - pos

theorem le_blockEnd (b : Buffer) (pos : Nat) : pos ≤ blockEnd b pos := by
  fun_induction blockEnd b pos with
  | case1 => omega
  | case2 => omega
  | case3 => omega

/-- Where a character literal ends, looking from inside it: after its quote,
or before the end of the line. -/
def charEnd (b : Buffer) (pos : Nat) : Nat :=
  if pos < b.size then
    if b.isAt pos '\\' then charEnd b (pos + 2)
    else if b.isAt pos '\'' then pos + 1
    else if isLineBreakAt b pos then pos
    else charEnd b (pos + 1)
  else b.size
termination_by b.size - pos

theorem min_le_charEnd (b : Buffer) (pos : Nat) : min pos b.size ≤ charEnd b pos := by
  fun_induction charEnd b pos with
  | case1 => omega
  | case2 => omega
  | case3 => omega
  | case4 => omega
  | case5 => omega

/-! ## Openings -/

/-- How a literal opens: its markers and its quotes. -/
structure LiteralOpening where
  /-- The first unit of the literal. -/
  start : Nat
  /-- The number of `$` markers. -/
  dollars : Nat
  /-- Whether there is an `@` marker. -/
  verbatim : Bool
  /-- The first quote. -/
  quoteAt : Nat
  /-- The number of quotes in a row. -/
  quotes : Nat
deriving DecidableEq, Repr

namespace LiteralOpening

/-- Whether every character of the literal stands for itself. -/
def isRaw (o : LiteralOpening) : Bool := decide (3 ≤ o.quotes) && !o.verbatim

/-- Where the content starts: after all the quotes of a raw literal, and after
the first quote of any other. -/
def body (o : LiteralOpening) : Nat := if o.isRaw then o.quoteAt + o.quotes else o.quoteAt + 1

end LiteralOpening

/-- The markers from a position on, added to those before it: any number of
`$` and at most one `@`. The last component is where they end. -/
def markersFrom (b : Buffer) (dollars : Nat) (verbatim : Bool) (pos : Nat) : Nat × Bool × Nat :=
  if pos < b.size then
    if b.isAt pos '$' then markersFrom b (dollars + 1) verbatim (pos + 1)
    else if b.isAt pos '@' && !verbatim then markersFrom b dollars true (pos + 1)
    else (dollars, verbatim, pos)
  else (dollars, verbatim, pos)
termination_by b.size - pos

theorem le_markersFrom (b : Buffer) (dollars : Nat) (verbatim : Bool) (pos : Nat) :
    pos ≤ (markersFrom b dollars verbatim pos).2.2 := by
  fun_induction markersFrom b dollars verbatim pos with
  | case1 => omega
  | case2 => omega
  | case3 => simp
  | case4 => simp

/-- The opening of a literal at a position, if one starts there. -/
def opening? (b : Buffer) (start : Nat) : Option LiteralOpening :=
  match markersFrom b 0 false start with
  | (dollars, verbatim, quoteAt) =>
    if b.isAt quoteAt '"' then
      some ⟨start, dollars, verbatim, quoteAt, runEnd b '"' (quoteAt + 1) - quoteAt⟩
    else none

theorem lt_body_of_opening? {b : Buffer} {start : Nat} {o : LiteralOpening}
    (h : opening? b start = some o) : start < o.body := by
  have hm := le_markersFrom b 0 false start
  unfold opening? at h
  split at h
  next heq =>
    rw [heq] at hm
    split at h
    · cases h
      unfold LiteralOpening.body
      simp only at hm ⊢
      split
      · next hraw => simp only [LiteralOpening.isRaw, Bool.and_eq_true, decide_eq_true_eq] at hraw; omega
      · omega
    · simp at h

/-! ## Moves -/

/-- How a literal came to its end. -/
inductive Ending where
  /-- At its closing delimiter. -/
  | closed
  /-- At the end of the line, which a quoted literal does not cross. -/
  | lineBreak
  /-- In a hole that is not closed. -/
  | openHole
  /-- At the end of the buffer. -/
  | endOfText
deriving DecidableEq, Repr

/-- What a scan does at a position of a literal's content. -/
inductive ContentMove where
  /-- It passes over text, up to `next`. -/
  | past (next : Nat)
  /-- It enters a hole. The braces of the hole start at `first` and its code
  starts behind them. -/
  | hole (first code : Nat)
  /-- It ends the literal. -/
  | finish (ending : Ending) (stop : Nat)
deriving DecidableEq, Repr

/-- The move in a quoted literal. Only a verbatim literal crosses the end of a
line. -/
def quotedMove (b : Buffer) (o : LiteralOpening) (pos : Nat) : ContentMove :=
  if pos < b.size then
    if !o.verbatim && isLineBreakAt b pos then .finish .lineBreak pos
    else if !o.verbatim && b.isAt pos '\\' then .past (min (pos + 2) b.size)
    else if b.isAt pos '"' then
      if o.verbatim && b.isAt (pos + 1) '"' then .past (pos + 2) else .finish .closed (pos + 1)
    else if 0 < o.dollars && b.isAt pos '\x7b' then
      if b.isAt (pos + 1) '\x7b' then .past (pos + 2) else .hole pos (pos + 1)
    else if 0 < o.dollars && b.isAt pos '\x7d' && b.isAt (pos + 1) '\x7d' then .past (pos + 2)
    else .past (pos + 1)
  else .finish .endOfText pos

/-- The move in a raw literal. It ends at a run of at least as many quotes as
opened it. A run of at least as many braces as there are `$` opens a hole with
the last of them. -/
def rawMove (b : Buffer) (o : LiteralOpening) (pos : Nat) : ContentMove :=
  if pos < b.size then
    if b.isAt pos '"' then
      let stop := runEnd b '"' (pos + 1)
      if o.quotes ≤ stop - pos then .finish .closed stop else .past stop
    else if 0 < o.dollars && b.isAt pos '\x7b' then
      let stop := runEnd b '\x7b' (pos + 1)
      if stop - pos < o.dollars then .past stop else .hole (stop - o.dollars) stop
    else .past (pos + 1)
  else .finish .endOfText pos

/-- The move in a literal. -/
def contentMove (b : Buffer) (o : LiteralOpening) (pos : Nat) : ContentMove :=
  if o.isRaw then rawMove b o pos else quotedMove b o pos

/-- How many braces close a hole that ends at a position: in a raw literal as
many as opened it, if there are that many. -/
def closingBraces (b : Buffer) (o : LiteralOpening) (stop : Nat) : Nat :=
  if o.isRaw then min (runEnd b '\x7d' stop - stop) o.dollars else 1

/-- What a scan does at a position of code. -/
inductive CodeMove where
  /-- It passes over something, up to `next`, and tags it. -/
  | past (kind : Option HostKind) (next : Nat)
  /-- It enters a literal. -/
  | literal (o : LiteralOpening)
  /-- It meets an opening brace. -/
  | opens
  /-- It meets a closing brace. -/
  | closes
deriving DecidableEq, Repr

/-- Whether a unit is a bracket or separator. -/
def isPunctuation (u : CodeUnit) : Bool :=
  ['\x7b', '\x7d', '(', ')', '[', ']', ';', ',', '.', ':'].any fun c => u == Utf16.ascii c

/-- The move in code. Documentation comments and character literals are not
tagged. -/
def codeMove (b : Buffer) (pos : Nat) : CodeMove :=
  if b.isAt pos '/' && b.isAt (pos + 1) '/' then
    let isDoc := b.isAt (pos + 2) '/' && !b.isAt (pos + 3) '/'
    .past (if isDoc then none else some .comment) (lineEnd b (pos + 2))
  else if b.isAt pos '/' && b.isAt (pos + 1) '*' then .past (some .comment) (blockEnd b (pos + 2))
  else if b.isAt pos '\'' then .past none (charEnd b (pos + 1))
  else
    match opening? b pos with
    | some o => .literal o
    | none =>
      if b.isAt pos '\x7b' then .opens
      else if b.isAt pos '\x7d' then .closes
      else .past (if (b.unit? pos).any isPunctuation then some .punctuation else none) (pos + 1)

theorem lt_of_contentMove_past {b : Buffer} {o : LiteralOpening} {pos next : Nat}
    (h : contentMove b o pos = .past next) : pos < b.size ∧ pos < next := by
  have hquote := le_skipWhile b (· == Utf16.ascii '"') (pos + 1)
  have hbrace := le_skipWhile b (· == Utf16.ascii '\x7b') (pos + 1)
  unfold contentMove rawMove quotedMove runEnd at h
  grind

theorem lt_of_contentMove_hole {b : Buffer} {o : LiteralOpening} {pos first code : Nat}
    (h : contentMove b o pos = .hole first code) :
    pos < b.size ∧ pos ≤ first ∧ first < code := by
  have hbrace := le_skipWhile b (· == Utf16.ascii '\x7b') (pos + 1)
  unfold contentMove rawMove quotedMove runEnd at h
  grind

theorem le_of_contentMove_finish {b : Buffer} {o : LiteralOpening} {pos stop : Nat} {ending : Ending}
    (h : contentMove b o pos = .finish ending stop) : pos ≤ stop := by
  have hquote := le_skipWhile b (· == Utf16.ascii '"') (pos + 1)
  unfold contentMove rawMove quotedMove runEnd at h
  grind

theorem lt_of_codeMove_past {b : Buffer} {pos next : Nat} {kind : Option HostKind}
    (hpos : pos < b.size) (h : codeMove b pos = .past kind next) : pos < next := by
  have hline := le_skipWhile b (fun u => !isLineBreak u) (pos + 2)
  have hblock := le_blockEnd b (pos + 2)
  have hchar := min_le_charEnd b (pos + 1)
  unfold codeMove lineEnd at h
  grind

theorem lt_body_of_codeMove_literal {b : Buffer} {pos : Nat} {o : LiteralOpening}
    (h : codeMove b pos = .literal o) : pos < o.body := by
  have hbody : opening? b pos = some o → pos < o.body := lt_body_of_opening?
  unfold codeMove at h
  grind

/-! ## What a scan finds -/

/-- A literal as it was scanned. -/
structure ScannedLiteral where
  /-- How it opens. -/
  opening : LiteralOpening
  /-- Its parts between holes, empty ones included. -/
  fragments : Array Span
  /-- For each of its holes that is closed, how many braces close it. -/
  closers : Array Nat
  /-- How it ends. -/
  ending : Ending
  /-- The position past its last unit. -/
  stop : Nat
deriving DecidableEq, Repr

/-- What a scan has found so far. -/
structure Found where
  /-- The tags, each with its kind. -/
  tags : Array HostTag := #[]
  /-- The literals, inner ones before the ones that hold them. -/
  literals : Array ScannedLiteral := #[]

namespace Found

/-- Adds a tag. -/
def tag (f : Found) (kind : HostKind) (start stop : Nat) : Found :=
  { f with tags := f.tags.push ⟨Span.between start stop, kind⟩ }

/-- Adds a tag if there is a kind for it. -/
def tag? (f : Found) (kind : Option HostKind) (start stop : Nat) : Found :=
  match kind with
  | none => f
  | some kind => f.tag kind start stop

/-- Adds a punctuation tag of one unit. -/
def punctuation (f : Found) (pos : Nat) : Found := f.tag .punctuation pos (pos + 1)

/-- Adds a punctuation tag for each of `n` units in a row. -/
def braces (f : Found) (pos n : Nat) : Found := (List.range' pos n).foldl punctuation f

/-- Adds a literal. -/
def literal (f : Found) (l : ScannedLiteral) : Found := { f with literals := f.literals.push l }

end Found

/-- What was found, and where the scan stopped. -/
structure Halt where
  /-- What was found. -/
  found : Found
  /-- Where the scan stopped. -/
  stop : Nat

/-- A literal in the making: its opening, the fragments that are complete, the
holes that are closed, and where the current fragment starts. -/
structure Partial where
  /-- How the literal opens. -/
  opening : LiteralOpening
  /-- The complete fragments. -/
  fragments : Array Span
  /-- For each hole that is closed, how many braces close it. -/
  closers : Array Nat
  /-- The start of the current fragment. -/
  fragmentStart : Nat

namespace Partial

/-- A literal at its very start. -/
def begin (o : LiteralOpening) : Partial := ⟨o, #[], #[], o.start⟩

/-- Closes the current fragment. -/
def cut (p : Partial) (stop : Nat) : Partial :=
  { p with fragments := p.fragments.push (Span.between p.fragmentStart stop) }

/-- Goes on behind a hole that ends at `stop`. -/
def resume (p : Partial) (b : Buffer) (stop : Nat) : Partial :=
  { p with
    closers := p.closers.push (closingBraces b p.opening stop)
    fragmentStart := stop + closingBraces b p.opening stop }

/-- Ends the literal, with the fragments that are complete. -/
def literal (p : Partial) (ending : Ending) (stop : Nat) : ScannedLiteral :=
  ⟨p.opening, p.fragments, p.closers, ending, stop⟩

/-- Closes the current fragment, and with it the literal. -/
def finish (p : Partial) (found : Found) (ending : Ending) (stop : Nat) : Halt :=
  ⟨(found.tag .string p.fragmentStart stop).literal ((p.cut stop).literal ending stop), stop⟩

/-- Ends a literal inside a hole: there is no fragment to close. -/
def abandon (p : Partial) (found : Found) (stop : Nat) : Halt :=
  ⟨found.literal (p.literal .openHole stop), stop⟩

end Partial

/-! ## The scan -/

mutual

/-- **Scans code** from a position on. Inside a hole it stops at the brace
that closes the hole, and otherwise at the end of the buffer; `depth` is the
number of braces that are open. -/
def scanCode (b : Buffer) (inHole : Bool) (depth : Nat) (found : Found) (pos : Nat) :
    { r : Halt // pos ≤ r.stop } :=
  if hpos : pos < b.size then
    match hm : codeMove b pos with
    | .past kind next =>
      have hnext : pos < next := lt_of_codeMove_past hpos hm
      match scanCode b inHole depth (found.tag? kind pos next) next with
      | ⟨r, hr⟩ => ⟨r, by omega⟩
    | .literal o =>
      have hbody : pos < o.body := lt_body_of_codeMove_literal hm
      match scanContent b (.begin o) found o.body with
      | ⟨literal, hliteral⟩ =>
        match scanCode b inHole depth literal.found literal.stop with
        | ⟨r, hr⟩ => ⟨r, by omega⟩
    | .opens =>
      match scanCode b inHole (depth + 1) (found.punctuation pos) (pos + 1) with
      | ⟨r, hr⟩ => ⟨r, by omega⟩
    | .closes =>
      if inHole && depth == 0 then ⟨⟨found, pos⟩, Nat.le_refl _⟩
      else
        match scanCode b inHole (depth - 1) (found.punctuation pos) (pos + 1) with
        | ⟨r, hr⟩ => ⟨r, by omega⟩
  else ⟨⟨found, pos⟩, Nat.le_refl _⟩
termination_by b.size - pos

/-- **Scans a literal** from a position of its content on. The fragment before
a hole is complete when the hole opens, and the next one starts behind the
braces that close it. -/
def scanContent (b : Buffer) (p : Partial) (found : Found) (pos : Nat) :
    { r : Halt // pos ≤ r.stop } :=
  match hm : contentMove b p.opening pos with
  | .past next =>
    have hnext := lt_of_contentMove_past hm
    match scanContent b p found next with
    | ⟨r, hr⟩ => ⟨r, by omega⟩
  | .finish ending stop => ⟨p.finish found ending stop, le_of_contentMove_finish hm⟩
  | .hole first code =>
    have hcode := lt_of_contentMove_hole hm
    match scanCode b true 0
      ((found.tag .string p.fragmentStart first).braces first (code - first)) code with
    | ⟨hole, hhole⟩ =>
      if hole.stop < b.size then
        match scanContent b ((p.cut first).resume b hole.stop)
          (hole.found.braces hole.stop (closingBraces b p.opening hole.stop))
          (hole.stop + closingBraces b p.opening hole.stop) with
        | ⟨r, hr⟩ => ⟨r, by omega⟩
      else ⟨(p.cut first).abandon hole.found hole.stop, by
        show pos ≤ hole.stop
        omega⟩
termination_by b.size - pos

end

/-- Everything found in a buffer. -/
def scan (b : Buffer) : Found := (scanCode b false 0 {} 0).1.found

/-- **The host tags of a buffer of C# source.** -/
def classify (b : Buffer) : TagIndex := TagIndex.ofTags (scan b).tags.toList

end Host

end EmbeddedSql
