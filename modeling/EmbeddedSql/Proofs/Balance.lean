import EmbeddedSql.Proofs.Layout
import Mathlib.Data.List.Chain

/-!
# Braces between fragments

The scanner finds the end of a hole by recursive descent, the stitcher by
counting braces. They can agree only if the braces that the scanner tags
inside a hole balance. They do, as long as every hole of a raw literal is
closed by as many braces as opened it (`Matched`): a run over code that leaves
a hole comes down by exactly the braces it had open (`Scans.balanced`), and a
run over a literal comes out where it went in.

So between two neighbouring fragments of a literal the tags are those of one
hole, an opening brace, balanced tags, and the closing brace that belongs to
it (`Parted`).
-/

namespace EmbeddedSql

namespace Host

variable {b : Buffer}

/-! ## Tags as brackets -/

/-- What the unit at a position adds to the nesting of holes, if it counts. -/
def unitTurn (b : Buffer) (pos : Nat) : Int :=
  if b.isAt pos '\x7b' then 1 else if b.isAt pos '\x7d' then -1 else 0

/-- What a tag adds to the nesting of holes. -/
def turn (b : Buffer) (t : HostTag) : Int :=
  if t.kind = .punctuation then unitTurn b t.span.start else 0

theorem turn_of_not_punctuation {t : HostTag} (h : t.kind ≠ .punctuation) : turn b t = 0 := if_neg h

theorem turn_markTag_open {pos : Nat} (h : b.isAt pos '\x7b' = true) : turn b (markTag pos) = 1 :=
  (if_pos rfl).trans (if_pos h)

theorem turn_markTag_close {pos : Nat} (h : b.isAt pos '\x7d' = true) : turn b (markTag pos) = -1 := by
  have hopen : ¬ b.isAt pos '\x7b' = true := fun hopen =>
    absurd (Stitch.isAt_unique h hopen) (by decide)
  exact (if_pos rfl).trans ((if_neg hopen).trans (if_pos h))

/-- **Balanced tags**, seen from a nesting of `h`: reading them never goes
below zero, and it ends at `k`. -/
def Climbs (b : Buffer) : Int → Int → List HostTag → Prop
  | h, k, [] => 0 ≤ h ∧ h = k
  | h, k, t :: rest => 0 ≤ h ∧ Climbs b (h + turn b t) k rest

namespace Climbs

theorem nonneg {h k : Int} {tags : List HostTag} (hc : Climbs b h k tags) : 0 ≤ h := by
  cases tags with
  | nil => exact hc.1
  | cons t tags => exact hc.1

theorem append {h m k : Int} {ts us : List HostTag} (hts : Climbs b h m ts) (hus : Climbs b m k us) :
    Climbs b h k (ts ++ us) := by
  induction ts generalizing h with
  | nil => exact hts.2 ▸ hus
  | cons t ts ih => exact ⟨hts.1, ih hts.2⟩

/-- Tags that balance do so at any height. -/
theorem lift {h k : Int} {tags : List HostTag} (hc : Climbs b h k tags) {n : Int} (hn : 0 ≤ n) :
    Climbs b (h + n) (k + n) tags := by
  induction tags generalizing h with
  | nil =>
    obtain ⟨hpos, rfl⟩ := hc
    exact ⟨by omega, rfl⟩
  | cons t tags ih =>
    have hnext := ih hc.2
    rw [Int.add_right_comm] at hnext
    exact ⟨by have := hc.1; omega, hnext⟩

/-- A tag that is no brace changes nothing. -/
theorem cons_of_turn_eq_zero {h k : Int} {tags : List HostTag} {t : HostTag} (ht : turn b t = 0)
    (hc : Climbs b h k tags) : Climbs b h k (t :: tags) := by
  refine ⟨hc.nonneg, ?_⟩
  rwa [ht, Int.add_zero]

end Climbs

theorem climbs_markTags_open {pos n : Nat} {h : Int} (hh : 0 ≤ h)
    (hopen : ∀ i, pos ≤ i → i < pos + n → b.isAt i '\x7b' = true) :
    Climbs b h (h + n) (markTags pos n) := by
  induction n generalizing pos h with
  | zero => exact ⟨hh, by omega⟩
  | succ n ih =>
    rw [markTags, List.range'_succ, List.map_cons]
    refine ⟨hh, ?_⟩
    rw [turn_markTag_open (hopen pos (Nat.le_refl _) (by omega)),
      show h + ((n + 1 : Nat) : Int) = h + 1 + n by omega]
    exact ih (by omega) fun i hlo hhi => hopen i (by omega) (by omega)

theorem climbs_markTags_close {pos n : Nat} {h : Int} (hh : 0 ≤ h)
    (hclose : ∀ i, pos ≤ i → i < pos + n → b.isAt i '\x7d' = true) :
    Climbs b (h + n) h (markTags pos n) := by
  induction n generalizing pos with
  | zero => exact ⟨by omega, by omega⟩
  | succ n ih =>
    rw [markTags, List.range'_succ, List.map_cons]
    refine ⟨by omega, ?_⟩
    rw [turn_markTag_close (hclose pos (Nat.le_refl _) (by omega)),
      show h + ((n + 1 : Nat) : Int) + -1 = h + n by omega]
    exact ih fun i hlo hhi => hclose i (by omega) (by omega)

/-! ## Balance along a run -/

/-- The holes of a raw literal are closed by as many braces as opened them. -/
def Matched (o : LiteralOpening) (closers : List Nat) : Prop :=
  o.isRaw = true → ∀ n ∈ closers, n = o.dollars

/-- What balance means for a part: code in a hole comes down by the braces it
has open, and a literal comes out where it went in. -/
def Part.Balanced (b : Buffer) (tags : List HostTag) : Part → Prop
  | .code inHole depth _ => inHole = true → Climbs b depth 0 tags
  | .content o _ _ _ closers _ => Matched o closers → Climbs b 0 0 tags

/-- A hole that is matched has as many braces on both sides. -/
theorem closingBraces_eq {o : LiteralOpening} {pos first code mid : Nat} {closers : List Nat}
    (hin : Entered b o pos first code) (hmatched : Matched o (closingBraces b o mid :: closers)) :
    closingBraces b o mid = code - first := by
  have hcount := hin.count
  by_cases hraw : o.isRaw = true
  · have := hmatched hraw _ List.mem_cons_self
    rw [if_pos hraw] at hcount
    omega
  · rw [if_neg hraw] at hcount
    rw [closingBraces, if_neg hraw]
    omega

/-- The braces of a hole around balanced tags balance. -/
theorem climbs_hole {first mid n : Nat} {inner : List HostTag}
    (hopen : ∀ i, first ≤ i → i < first + n → b.isAt i '\x7b' = true)
    (hclose : ∀ i, mid ≤ i → i < mid + n → b.isAt i '\x7d' = true) (hinner : Climbs b 0 0 inner) :
    Climbs b 0 0 (markTags first n ++ inner ++ markTags mid n) := by
  have hup : Climbs b 0 n (markTags first n) := by
    simpa using climbs_markTags_open (Int.le_refl 0) hopen
  have hmid : Climbs b n n inner := by
    simpa using hinner.lift (Int.natCast_nonneg n)
  have hdown : Climbs b n 0 (markTags mid n) := by
    simpa using climbs_markTags_close (Int.le_refl 0) hclose
  exact (hup.append hmid).append hdown

/-- **A run that stops inside the buffer balances.** -/
theorem Scans.balanced {part : Part} {stop : Nat} {tags : List HostTag}
    {literals : List ScannedLiteral} (h : Scans b part stop tags literals) (hpart : part.Sound b)
    (hliterals : ∀ l ∈ literals, Matched l.opening l.closers.toList) (hstop : stop < b.size) :
    part.Balanced b tags := by
  induction h with
  | done hend => omega
  | @past inHole depth pos next _ kind _ _ hpos hm _ ih =>
    have hmove := codePast_of_codeMove hpos hm
    intro hhole
    have hrest := ih hmove.le_size hliterals hstop hhole
    cases kind with
    | none => exact hrest
    | some kind =>
      refine hrest.cons_of_turn_eq_zero ?_
      by_cases hkind : kind = .punctuation
      · rw [turn, if_pos hkind, unitTurn, Span.start_between, hmove.not_open (hkind ▸ rfl),
          hmove.not_close (hkind ▸ rfl)]
        rfl
      · exact turn_of_not_punctuation hkind
  | @literal inHole depth pos mid stop o fragments closers ending _ _ _ _ hpos hm hcontent hcode
      ihcontent ihcode =>
    have hsound := Part.Sound.literal (placed_of_codeMove hm) fragments closers ending
    have hmid := (hcontent.layout hsound).le_size
    have hle := (hcode.layout hmid).le
    simp only [Part.pos] at hle
    simp only [List.mem_append, List.mem_cons] at hliterals
    intro hhole
    have hlit := ihcontent hsound (fun l hl => hliterals l (Or.inl hl)) (by omega)
      (by simpa using hliterals _ (Or.inr (Or.inl rfl)))
    have hrest := ihcode hmid (fun l hl => hliterals l (Or.inr (Or.inr hl))) hstop hhole
    have hlifted := hlit.lift hrest.nonneg
    rw [Int.zero_add] at hlifted
    exact hlifted.append hrest
  | opens hpos hm _ ih =>
    intro hhole
    refine ⟨by omega, ?_⟩
    rw [turn_markTag_open (isAt_of_codeMove_opens hm)]
    exact ih hpos hliterals hstop hhole
  | leave hpos hm => exact fun _ => ⟨Int.le_refl 0, rfl⟩
  | @closes inHole depth pos _ _ _ hpos hm hdepth _ ih =>
    intro hhole
    refine ⟨by omega, ?_⟩
    have hrest := ih hpos hliterals hstop hhole
    have hone := hdepth hhole
    rw [turn_markTag_close (isAt_of_codeMove_closes hm),
      show (depth : Int) + -1 = ((depth - 1 : Nat) : Int) by omega]
    exact hrest
  | text hm _ ih => exact ih (hpart.text hm) hliterals hstop
  | finish hm =>
    exact fun _ => Climbs.cons_of_turn_eq_zero (turn_of_not_punctuation (by simp [stringTag]))
      ⟨Int.le_refl 0, rfl⟩
  | @hole o start pos first code mid stop _ _ _ _ _ _ _ hm hcode hmid hrest ihcode ihrest =>
    obtain ⟨hstart, hpos, hone, htwo⟩ := hpart
    have hin := entered_of_contentMove hm
    obtain ⟨hlt, hcodesize⟩ := hin.le_size
    have hbrace := hcode.isAt_stop rfl hmid
    obtain ⟨-, -, hbraces⟩ := closingBraces_spec hin.dollars hbrace
    have hle := (hcode.layout hcodesize).le
    simp only [Part.pos] at hle
    simp only [List.mem_append] at hliterals
    intro hmatched
    have hinner := ihcode hcodesize (fun l hl => hliterals l (Or.inl hl)) hmid rfl
    have htags := ihrest (.behind hin hone hle hbrace _ _ _)
      (fun l hl => hliterals l (Or.inr hl)) hstop
      (fun hraw n hn => hmatched hraw n (List.mem_cons_of_mem _ hn))
    rw [closingBraces_eq hin hmatched] at hbraces ⊢
    simp only [List.cons_append]
    refine Climbs.cons_of_turn_eq_zero (turn_of_not_punctuation (by simp [stringTag])) ?_
    refine Climbs.append (climbs_hole (fun i hlo hhi => ?_) hbraces hinner) htags
    exact hin.braces i hlo (by omega)
  | lost hm hcode hmid => omega

/-! ## From fragment to fragment -/

/-- **Two fragments with one hole between them**: behind the tag of the first
come an opening brace, balanced tags, a closing brace, and the tag of the
second. -/
def Parted (b : Buffer) (tags : List HostTag) (f g : Span) : Prop :=
  ∃ inner last, g.start = last + 1 ∧ b.isAt f.stop '\x7b' = true ∧ b.isAt last '\x7d' = true ∧
    Climbs b 0 0 inner ∧
    (⟨f, .string⟩ :: markTag f.stop :: inner ++ [markTag last, ⟨g, .string⟩]) <:+: tags

/-- Fragments that follow one another across holes, each with its tag. -/
structure Threaded (b : Buffer) (tags : List HostTag) (fragments : List Span) : Prop where
  /-- Neighbours are parted by a hole. -/
  chain : fragments.IsChain (Parted b tags)
  /-- Every fragment is tagged. -/
  tagged : ∀ f ∈ fragments, ⟨f, .string⟩ ∈ tags

theorem Threaded.mono {tags tags' : List HostTag} {fragments : List Span}
    (h : Threaded b tags fragments) (hsub : tags <:+: tags') : Threaded b tags' fragments := by
  refine ⟨h.chain.imp fun f g hfg => ?_, fun f hf => hsub.subset (h.tagged f hf)⟩
  obtain ⟨inner, last, hstart, hopen, hclose, hinner, hinfix⟩ := hfg
  exact ⟨inner, last, hstart, hopen, hclose, hinner, hinfix.trans hsub⟩

theorem markTags_succ (pos n : Nat) : markTags pos (n + 1) = markTag pos :: markTags (pos + 1) n := by
  rw [markTags, List.range'_succ, List.map_cons]
  rfl

theorem markTags_succ_last (pos n : Nat) :
    markTags pos (n + 1) = markTags pos n ++ [markTag (pos + n)] := by
  rw [markTags, List.range'_1_concat, List.map_append]
  rfl

/-- The outermost braces of a hole part the fragments on its two sides. -/
theorem parted_of_hole {start first mid n : Nat} {inner more : List HostTag} {g : Span}
    (hn : 0 < n) (hle : start ≤ first)
    (hopen : ∀ i, first ≤ i → i < first + n → b.isAt i '\x7b' = true)
    (hclose : ∀ i, mid ≤ i → i < mid + n → b.isAt i '\x7d' = true) (hinner : Climbs b 0 0 inner)
    (hg : g.start = mid + n) :
    Parted b (stringTag start first :: markTags first n ++ inner ++ markTags mid n ++
      ⟨g, .string⟩ :: more) (Span.between start first) g := by
  obtain ⟨m, rfl⟩ : ∃ m, n = m + 1 := ⟨n - 1, by omega⟩
  have hstop : (Span.between start first).stop = first := by
    rw [Span.stop_between]
    omega
  refine ⟨markTags (first + 1) m ++ inner ++ markTags mid m, mid + m, by omega, ?_, ?_, ?_, ?_⟩
  · rw [hstop]
    exact hopen first (Nat.le_refl _) (by omega)
  · exact hclose (mid + m) (by omega) (by omega)
  · exact climbs_hole (fun i hlo hhi => hopen i (by omega) (by omega))
      (fun i hlo hhi => hclose i hlo (by omega)) hinner
  · rw [hstop, markTags_succ first, markTags_succ_last mid]
    exact ⟨[], more, by simp [stringTag]⟩

/-- The rest of a literal begins with the rest of the current fragment. -/
theorem Scans.exists_first {part : Part} {stop : Nat} {tags : List HostTag}
    {literals : List ScannedLiteral} (h : Scans b part stop tags literals) {o : LiteralOpening}
    {start pos : Nat} {fragments : List Span} {closers : List Nat} {ending : Ending}
    (hpart : part = .content o start pos fragments closers ending) :
    ∃ f rest more, fragments = f :: rest ∧ tags = ⟨f, .string⟩ :: more ∧ f.start = start ∧
      pos ≤ f.stop := by
  induction h generalizing o start pos fragments closers ending with
  | done => cases hpart
  | past => cases hpart
  | literal => cases hpart
  | opens => cases hpart
  | leave => cases hpart
  | closes => cases hpart
  | text hm _ ih =>
    cases hpart
    obtain ⟨f, rest, more, hfragments, htags, hstart, hle⟩ := ih rfl
    have hlt := (lt_of_contentMove_past hm).2
    exact ⟨f, rest, more, hfragments, htags, hstart, by omega⟩
  | finish hm =>
    cases hpart
    have hle := le_of_contentMove_finish hm
    exact ⟨_, _, _, rfl, rfl, rfl, by rw [Span.stop_between]; omega⟩
  | hole hm =>
    cases hpart
    have hle := (entered_of_contentMove hm).le
    exact ⟨_, _, _, rfl, rfl, rfl, by rw [Span.stop_between]; omega⟩
  | lost hm =>
    cases hpart
    have hle := (entered_of_contentMove hm).le
    exact ⟨_, _, _, rfl, rfl, rfl, by rw [Span.stop_between]; omega⟩

/-- The first fragment of a literal holds its opening. -/
theorem Scans.first_pos {part : Part} {stop : Nat} {tags : List HostTag}
    {literals : List ScannedLiteral} (h : Scans b part stop tags literals) {l : ScannedLiteral}
    (hl : l ∈ literals) : ∃ f rest, l.fragments.toList = f :: rest ∧ 0 < f.len := by
  obtain ⟨pos, inner, nested, hm, hcontent⟩ := h.exists_content hl
  obtain ⟨f, rest, -, heq, -, hstart, hle⟩ := hcontent.exists_first rfl
  have hplaced := placed_of_codeMove hm
  have hfirst := hplaced.start
  have hbody := hplaced.body
  refine ⟨f, rest, heq, ?_⟩
  rw [Span.stop] at hle
  omega

/-- What threading means for a part: in the rest of a literal the fragments
follow one another. -/
def Part.Threads (b : Buffer) (tags : List HostTag) : Part → Prop
  | .code _ _ _ => True
  | .content o _ _ fragments closers _ => Matched o closers → Threaded b tags fragments

/-- **The fragments of every scanned literal follow one another across holes**,
if all holes are matched. -/
theorem Scans.threaded {part : Part} {stop : Nat} {tags : List HostTag}
    {literals : List ScannedLiteral} (h : Scans b part stop tags literals) (hpart : part.Sound b)
    (hliterals : ∀ l ∈ literals, Matched l.opening l.closers.toList) :
    (∀ l ∈ literals, Threaded b tags l.fragments.toList) ∧ part.Threads b tags := by
  induction h with
  | done => exact ⟨by simp, trivial⟩
  | past hpos hm _ ih =>
    obtain ⟨hthreads, -⟩ := ih (codePast_of_codeMove hpos hm).le_size hliterals
    exact ⟨fun l hl => (hthreads l hl).mono (List.suffix_append ..).isInfix, trivial⟩
  | @literal _ _ _ mid _ o fragments closers ending _ _ _ _ hpos hm hcontent _ ihcontent ihcode =>
    have hsound := Part.Sound.literal (placed_of_codeMove hm) fragments closers ending
    simp only [List.mem_append, List.mem_cons] at hliterals
    obtain ⟨hnested, hone⟩ := ihcontent hsound fun l hl => hliterals l (Or.inl hl)
    obtain ⟨hthreads, -⟩ := ihcode (hcontent.layout hsound).le_size
      fun l hl => hliterals l (Or.inr (Or.inr hl))
    refine ⟨fun l hl => ?_, trivial⟩
    rcases List.mem_append.mp hl with hl | hl
    · exact (hnested l hl).mono (List.prefix_append ..).isInfix
    · rcases List.mem_cons.mp hl with rfl | hl
      · exact (hone (hliterals _ (Or.inr (Or.inl rfl)))).mono (List.prefix_append ..).isInfix
      · exact (hthreads l hl).mono (List.suffix_append ..).isInfix
  | opens hpos hm _ ih =>
    obtain ⟨hthreads, -⟩ := ih hpos hliterals
    exact ⟨fun l hl => (hthreads l hl).mono (List.suffix_cons ..).isInfix, trivial⟩
  | leave => exact ⟨by simp, trivial⟩
  | closes hpos hm _ _ ih =>
    obtain ⟨hthreads, -⟩ := ih hpos hliterals
    exact ⟨fun l hl => (hthreads l hl).mono (List.suffix_cons ..).isInfix, trivial⟩
  | text hm _ ih => exact ih (hpart.text hm) hliterals
  | finish =>
    refine ⟨by simp, fun _ => ⟨.singleton _, fun f hf => ?_⟩⟩
    rw [List.mem_singleton.mp hf]
    exact List.mem_cons_self
  | @hole o start pos first code mid stop fragments closers ending inner tags _ _ hm hcode hmid hrest
      ihcode ihrest =>
    obtain ⟨hstart, hpos, hone, htwo⟩ := hpart
    have hin := entered_of_contentMove hm
    obtain ⟨hlt, hcodesize⟩ := hin.le_size
    have hfirst := hin.le
    have hbrace := hcode.isAt_stop rfl hmid
    obtain ⟨hclosing, -, hbraces⟩ := closingBraces_spec hin.dollars hbrace
    have hle := (hcode.layout hcodesize).le
    simp only [List.mem_append] at hliterals
    obtain ⟨hnested, -⟩ := ihcode hcodesize fun l hl => hliterals l (Or.inl hl)
    obtain ⟨hthreads, htail⟩ := ihrest (.behind hin hone hle hbrace _ _ _)
      fun l hl => hliterals l (Or.inr hl)
    refine ⟨fun l hl => ?_, fun hmatched => ?_⟩
    · rcases List.mem_append.mp hl with hl | hl
      · refine (hnested l hl).mono ⟨stringTag start first :: markTags first (code - first), ?_⟩
        exact ⟨markTags mid (closingBraces b o mid) ++ tags, by simp⟩
      · exact (hthreads l hl).mono (List.suffix_append ..).isInfix
    · have hlater := (htail fun hraw n hn => hmatched hraw n (List.mem_cons_of_mem _ hn)).mono
        (List.suffix_append (stringTag start first :: markTags first (code - first) ++ inner ++
          markTags mid (closingBraces b o mid)) tags).isInfix
      have hinner := hcode.balanced hcodesize (fun l hl => hliterals l (Or.inl hl)) hmid rfl
      obtain ⟨g, rest, more, rfl, rfl, hg, -⟩ := hrest.exists_first rfl
      rw [closingBraces_eq hin hmatched] at hclosing hbraces hg hlater ⊢
      refine ⟨List.isChain_cons_cons.mpr ⟨?_, hlater.chain⟩, ?_⟩
      · refine parted_of_hole hclosing (by omega) (fun i hlo hhi => hin.braces i hlo ?_) hbraces hinner hg
        omega
      · exact List.forall_mem_cons.mpr ⟨List.mem_cons_self, hlater.tagged⟩
  | @lost o start pos first code mid inner _ hm hcode hmid ihcode =>
    obtain ⟨hlt, hcodesize⟩ := (entered_of_contentMove hm).le_size
    obtain ⟨hnested, -⟩ := ihcode hcodesize hliterals
    refine ⟨fun l hl => (hnested l hl).mono (List.suffix_append ..).isInfix, fun _ => ?_⟩
    refine ⟨.singleton _, fun f hf => ?_⟩
    rw [List.mem_singleton.mp hf]
    exact List.mem_cons_self

end Host

end EmbeddedSql
