import EmbeddedSql.Proofs.Guards.Lexing

/-!
# Nested comments by their grammar

Comments nest, and the lexer finds the end of one by counting marks. The two marks
are made of the same two bytes, so what a byte stands for depends on where the scan
comes from: `/*/` opens a comment and does not close it again, and in `/**/` the
second star belongs to the mark that closes.

The grammar does not count. A comment is an opening mark, a closing mark, and between
them comments and single bytes at which no mark starts (`BlockComment`, `CommentText`).
Whether a mark starts at a byte can be read off the comment alone, since at least the
closing mark stands behind it.

The scan passes what stands between the marks at every depth and goes on behind it as if
it had not been there, so it ends where a comment ends, and no two comments begin the
same text. Conversely, what a scan has passed when it ends closes the comments
that were open, one after the other (`Closes`), and with one of them open that is what
the grammar asks for.
-/

namespace EmbeddedSql

namespace Sql

/-! ## The grammar -/

/-- The mark that opens a comment. -/
def openingMark : List UInt8 := ['/'.toUInt8, '*'.toUInt8]

/-- The mark that closes a comment. -/
def closingMark : List UInt8 := ['*'.toUInt8, '/'.toUInt8]

theorem length_openingMark : openingMark.length = 2 := rfl

theorem length_closingMark : closingMark.length = 2 := rfl

/-- One of the marks starts here. -/
def StartsMark (bytes : List UInt8) : Prop := openingMark <+: bytes ∨ closingMark <+: bytes

mutual

/-- **A block comment**: two marks, and a text between them. -/
inductive BlockComment : List UInt8 → Prop
  | marked {text : List UInt8} : CommentText text →
      BlockComment (openingMark ++ text ++ closingMark)

/-- **What stands between the marks of a comment**: comments, and single bytes at
which no mark starts, the closing mark behind them being part of what is looked at. -/
inductive CommentText : List UInt8 → Prop
  | nil : CommentText []
  | comment {c text : List UInt8} : BlockComment c → CommentText text → CommentText (c ++ text)
  | byte {b : UInt8} {text : List UInt8} : ¬ StartsMark (b :: (text ++ closingMark)) →
      CommentText text → CommentText (b :: text)

end

/-! ## Marks -/

theorem startsMark_cons_iff {b : UInt8} {rest : List UInt8} :
    StartsMark (b :: rest) ↔
      (b = '/'.toUInt8 ∧ rest.head? = some '*'.toUInt8) ∨
        (b = '*'.toUInt8 ∧ rest.head? = some '/'.toUInt8) :=
  or_congr (List.isPrefixOf_iff_prefix.symm.trans (Checked.isPrefixOf_pair ..))
    (List.isPrefixOf_iff_prefix.symm.trans (Checked.isPrefixOf_pair ..))

theorem StartsMark.mono {bytes more : List UInt8} (h : StartsMark bytes) (hle : bytes <+: more) :
    StartsMark more :=
  h.imp (fun hopen => hopen.trans hle) fun hclose => hclose.trans hle

/-- Two bytes make a mark, so it makes no difference what follows them. -/
theorem StartsMark.of_append {b : UInt8} {bytes rest : List UInt8} (hne : bytes ≠ [])
    (h : StartsMark (b :: (bytes ++ rest))) : StartsMark (b :: bytes) := by
  rwa [startsMark_cons_iff, List.head?_append_of_ne_nil _ hne, ← startsMark_cons_iff] at h

/-! ## What the scan does at each of them -/

section Scan

variable {depth : Nat} {rest : List UInt8}

theorem blockCommentBytes_byte {b : UInt8} (h : ¬ StartsMark (b :: rest)) :
    blockCommentBytes depth (b :: rest) = 1 + blockCommentBytes depth rest := by
  rw [startsMark_cons_iff, not_or] at h
  exact blockCommentBytes_pass h.1 h.2

theorem blockCommentBytes_openingMark :
    blockCommentBytes depth (openingMark ++ rest) = 2 + blockCommentBytes (depth + 1) rest := by
  rw [openingMark, List.cons_append, List.cons_append, List.nil_append, blockCommentBytes,
    if_pos ⟨rfl, rfl⟩]

theorem blockCommentBytes_closingMark :
    blockCommentBytes (depth + 2) (closingMark ++ rest)
      = 2 + blockCommentBytes (depth + 1) rest := by
  rw [closingMark, List.cons_append, List.cons_append, List.nil_append, blockCommentBytes,
    if_neg (by decide), if_pos ⟨rfl, rfl⟩, if_neg (by omega)]
  rfl

/-- The mark that closes the last open comment ends the scan. -/
theorem blockCommentBytes_lastMark : blockCommentBytes 1 (closingMark ++ rest) = 2 := by
  rw [closingMark, List.cons_append, List.cons_append, List.nil_append, blockCommentBytes,
    if_neg (by decide), if_pos ⟨rfl, rfl⟩, if_pos (Nat.le_refl 1)]

end Scan

/-! ## A comment is passed -/

mutual

/-- Inside of a comment, the scan passes another one. -/
theorem BlockComment.blockCommentBytes_append {c : List UInt8} (h : BlockComment c) (depth : Nat)
    (rest : List UInt8) :
    blockCommentBytes (depth + 1) (c ++ rest) = c.length + blockCommentBytes (depth + 1) rest := by
  match h with
  | .marked htext =>
    rw [List.append_assoc, List.append_assoc, blockCommentBytes_openingMark,
      htext.blockCommentBytes_append, blockCommentBytes_closingMark]
    rw [List.length_append, List.length_append, length_openingMark, length_closingMark]
    omega

/-- The scan passes what stands in front of a closing mark. -/
theorem CommentText.blockCommentBytes_append {text : List UInt8} (h : CommentText text)
    (depth : Nat) (rest : List UInt8) :
    blockCommentBytes (depth + 1) (text ++ (closingMark ++ rest))
      = text.length + blockCommentBytes (depth + 1) (closingMark ++ rest) := by
  match h with
  | .nil => exact (Nat.zero_add _).symm
  | .comment hc htext =>
    rw [List.append_assoc, hc.blockCommentBytes_append, htext.blockCommentBytes_append,
      List.length_append, Nat.add_assoc]
  | @CommentText.byte b text hb htext =>
    have hmark : ¬ StartsMark (b :: (text ++ (closingMark ++ rest))) := by
      rw [← List.append_assoc]
      exact mt (StartsMark.of_append (by simp [closingMark])) hb
    rw [List.cons_append, blockCommentBytes_byte hmark, htext.blockCommentBytes_append,
      List.length_cons]
    omega

end

/-- **A scan from the start of a comment ends where the comment ends.** -/
theorem BlockComment.blockCommentBytes_eq {c : List UInt8} (h : BlockComment c)
    (rest : List UInt8) : blockCommentBytes 0 (c ++ rest) = c.length := by
  cases h with
  | marked htext =>
    rw [List.append_assoc, List.append_assoc, blockCommentBytes_openingMark,
      htext.blockCommentBytes_append, blockCommentBytes_lastMark]
    rw [List.length_append, List.length_append, length_openingMark, length_closingMark]
    omega

/-- A comment that begins a text is what the scan passes of it. -/
theorem BlockComment.length_eq {c bytes : List UInt8} (h : BlockComment c) (hbegins : c <+: bytes) :
    blockCommentBytes 0 bytes = c.length := by
  obtain ⟨rest, rfl⟩ := hbegins
  exact h.blockCommentBytes_eq rest

/-- **No two comments begin the same text.** -/
theorem BlockComment.eq_of_prefix {c d bytes : List UInt8} (hc : BlockComment c)
    (hd : BlockComment d) (hcb : c <+: bytes) (hdb : d <+: bytes) : c = d := by
  have hlength : c.length = d.length := (hc.length_eq hcb).symm.trans (hd.length_eq hdb)
  exact (List.prefix_of_prefix_length_le hcb hdb (Nat.le_of_eq hlength)).eq_of_length hlength

/-! ## What is passed is a comment -/

/-- **A text that closes some open comments** and ends with the last of their closing
marks. In front of each mark stands what the comment that it closes still lacks. -/
inductive Closes : Nat → List UInt8 → Prop
  | none : Closes 0 []
  | next {depth : Nat} {text back : List UInt8} : CommentText text → Closes depth back →
      Closes (depth + 1) (text ++ closingMark ++ back)

namespace Closes

variable {depth : Nat} {back : List UInt8}

theorem closingMark_append (h : Closes depth back) : Closes (depth + 1) (closingMark ++ back) :=
  .next .nil h

/-- A mark that opens one more comment makes of the text that closed it a part of the
text around it. -/
theorem openingMark_append (h : Closes (depth + 2) back) :
    Closes (depth + 1) (openingMark ++ back) := by
  cases h with
  | next htext h =>
    cases h with
    | next haround h =>
      have hnext := Closes.next (.comment (.marked htext) haround) h
      simpa only [List.append_assoc] using hnext

theorem byte_cons {b : UInt8} (hb : ¬ StartsMark (b :: back)) (h : Closes (depth + 1) back) :
    Closes (depth + 1) (b :: back) := by
  cases h with
  | next htext h =>
    refine .next (.byte (fun hmark => hb (hmark.mono ?_)) htext) h
    exact List.cons_prefix_cons.mpr ⟨rfl, List.prefix_append _ _⟩

end Closes

/-- **What a scan has passed when it ends closes all open comments**, unless it ran to
the end of the text. -/
theorem closes_take_or_eq_length {depth : Nat} (hdepth : 1 ≤ depth) (bytes : List UInt8) :
    Closes depth (bytes.take (blockCommentBytes depth bytes)) ∨
      blockCommentBytes depth bytes = bytes.length := by
  fun_induction blockCommentBytes depth bytes with
  | case1 depth => exact Or.inr rfl
  | case2 depth b => exact Or.inr rfl
  | case3 depth a b rest hopen ih =>
    obtain ⟨rfl, rfl⟩ := hopen
    obtain ⟨depth, rfl⟩ := Nat.exists_eq_add_of_le' hdepth
    rw [Nat.add_comm 2]
    exact (ih (by omega)).imp Closes.openingMark_append (congrArg (· + 2))
  | case4 depth a b rest _ hclose hlast =>
    obtain ⟨rfl, rfl⟩ := hclose
    obtain rfl : depth = 1 := by omega
    exact Or.inl (Closes.none.closingMark_append)
  | case5 depth a b rest _ hclose hlast ih =>
    obtain ⟨rfl, rfl⟩ := hclose
    obtain ⟨depth, rfl⟩ := Nat.exists_eq_add_of_le' hdepth
    rw [Nat.add_comm 2]
    exact (ih (by omega)).imp Closes.closingMark_append (congrArg (· + 2))
  | case6 depth a b rest hopen hclose ih =>
    obtain ⟨depth, rfl⟩ := Nat.exists_eq_add_of_le' hdepth
    rw [Nat.add_comm 1]
    refine (ih hdepth).imp (Closes.byte_cons fun hmark => ?_) (congrArg (· + 1))
    have hmore := hmark.mono (List.cons_prefix_cons.mpr ⟨rfl, List.take_prefix _ _⟩)
    rw [startsMark_cons_iff, List.head?_cons, Option.some_inj, Option.some_inj] at hmore
    exact hmore.elim hopen hclose

/-- A text that closes one comment is its text and the mark. -/
theorem Closes.blockComment {back : List UInt8} (h : Closes 1 back) :
    BlockComment (openingMark ++ back) := by
  cases h with
  | next htext h =>
    cases h
    rw [List.append_nil, ← List.append_assoc]
    exact .marked htext

/-! ## Both together -/

/-- A scan ends with a comment or runs to the end of the text. -/
theorem blockComment_take_or_eq_length {bytes : List UInt8} (hmark : openingMark <+: bytes) :
    BlockComment (bytes.take (blockCommentBytes 0 bytes)) ∨
      blockCommentBytes 0 bytes = bytes.length := by
  obtain ⟨rest, rfl⟩ := hmark
  rw [blockCommentBytes_openingMark, Nat.add_comm 2]
  exact (closes_take_or_eq_length (Nat.le_refl 1) rest).imp Closes.blockComment (congrArg (· + 2))

/-- **A block comment reaches as far as the grammar says.** If the scan of a text that
opens a comment ends before the text does, what it has passed is a comment. If a
comment begins the text, it is the only one, and the scan ends with it; if none does,
the scan runs to the end. The lexer takes the characters that lie in the bytes passed,
and the scan that a machine makes, by index and with a depth that it counts down,
passes the same bytes and does not fail. -/
theorem blockCommentBytes_grammar {bytes : List UInt8} (hmark : openingMark <+: bytes) :
    (blockCommentBytes 0 bytes < bytes.length →
        BlockComment (bytes.take (blockCommentBytes 0 bytes))) ∧
      (∀ c, c <+: bytes → BlockComment c →
        blockCommentBytes 0 bytes = c.length ∧ ∀ d, d <+: bytes → BlockComment d → d = c) ∧
      ((∀ c, c <+: bytes → ¬ BlockComment c) → blockCommentBytes 0 bytes = bytes.length) ∧
      (∀ text : List Char, bytesOf text = bytes →
        utf8Length (text.take (blockCommentLen 0 text)) = blockCommentBytes 0 bytes) ∧
      (bytes.length + 1 < 2 ^ 64 →
        Checked.blockComment bytes 0 0 = some (blockCommentBytes 0 bytes)) := by
  have hends := blockComment_take_or_eq_length hmark
  refine ⟨fun hlt => hends.resolve_right (Nat.ne_of_lt hlt), fun c hbegins hc => ?_,
    fun hnone => hends.resolve_left (hnone _ (List.take_prefix _ _)), ?_, fun hlen => ?_⟩
  · exact ⟨hc.length_eq hbegins, fun d hd hcomment => hcomment.eq_of_prefix hc hd hbegins⟩
  · rintro text rfl
    exact (blockCommentBytes_bytesOf 0 text).symm
  · obtain ⟨rest, rfl⟩ := hmark
    exact Checked.blockComment_opening hlen

/-- A slash behind the first mark opens nothing, nor does the second of three stars
close anything. -/
theorem blockCommentBytes_grammar_overlapping :
    ∃ bytes, bytes = "/*/ /***/ */x".toList.map Char.toUInt8 ∧ openingMark <+: bytes ∧
      blockCommentBytes 0 bytes = 12 ∧ BlockComment (bytes.take 12) ∧
      ∀ d, d <+: bytes → BlockComment d → d = bytes.take 12 := by
  have hmark : openingMark <+: "/*/ /***/ */x".toList.map Char.toUInt8 := by decide
  have hends : blockCommentBytes 0 ("/*/ /***/ */x".toList.map Char.toUInt8) = 12 := by decide
  obtain ⟨hcomment, honly, -⟩ := blockCommentBytes_grammar hmark
  rw [hends] at hcomment
  have hcomment := hcomment (by decide)
  exact ⟨_, rfl, hmark, hends, hcomment, (honly _ (List.take_prefix _ _) hcomment).2⟩

end Sql

end EmbeddedSql
