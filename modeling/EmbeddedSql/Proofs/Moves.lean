import EmbeddedSql.Host.Scanner

/-!
# Where moves lead

Each move of the scanner goes forward, stays inside the buffer, and is made
because of the units it passes. What can be said about a move on its own is
collected here, one statement for each kind of move, so that facts about whole
scans need not look into the moves.
-/

namespace EmbeddedSql

/-! ## Slices of a buffer -/

namespace Buffer

theorem slice_eq (b : Buffer) (s : Span) : b.slice s = (b.units.toList.drop s.start).take s.len := by
  rw [slice, Array.toList_extract, List.extract_eq_take_drop, Span.stop, Nat.add_sub_cancel_left]

/-- A slice begins with its first unit. -/
theorem slice_cons (b : Buffer) {pos stop : Nat} (hpos : pos < b.units.size) (hlt : pos < stop) :
    b.slice (.between pos stop) = b.units[pos] :: b.slice (.between (pos + 1) stop) := by
  rw [slice_eq, slice_eq, List.drop_eq_getElem_cons (by simpa using hpos)]
  show List.take (stop - pos) _ = _ :: List.take (stop - (pos + 1)) _
  rw [show stop - pos = stop - (pos + 1) + 1 by omega, List.take_succ_cons, Array.getElem_toList]
  rfl

theorem slice_of_le (b : Buffer) {start stop : Nat} (h : stop ≤ start) :
    b.slice (.between start stop) = [] := by
  rw [slice_eq]
  show List.take (stop - start) _ = []
  rw [Nat.sub_eq_zero_of_le h, List.take_zero]

/-- A slice consists of the slices of its two parts. -/
theorem slice_append (b : Buffer) {start mid stop : Nat} (h : start ≤ mid) (h' : mid ≤ stop) :
    b.slice (.between start mid) ++ b.slice (.between mid stop) = b.slice (.between start stop) := by
  simp only [slice_eq, Span.between]
  rw [show stop - start = (mid - start) + (stop - mid) by omega, List.take_add, List.drop_drop,
    Nat.add_sub_cancel' h]

theorem length_slice_le (b : Buffer) (s : Span) : (b.slice s).length ≤ s.len := by
  rw [slice_eq]
  exact List.length_take_le _ _

theorem length_slice (b : Buffer) {start stop : Nat} (h : stop ≤ b.size) :
    (b.slice (.between start stop)).length = stop - start := by
  rw [slice_eq, List.length_take, List.length_drop, Array.length_toList]
  show min (stop - start) (b.size - start) = stop - start
  omega

end Buffer

namespace Host

variable {b : Buffer}

/-! ## Units and runs of units -/

theorem lt_size_of_isAt {pos : Nat} {c : Char} (h : b.isAt pos c = true) : pos < b.size := by
  rw [Buffer.isAt, beq_iff_eq, Buffer.unit?] at h
  exact (Array.getElem?_eq_some_iff.mp h).1

theorem slice_of_isAt {pos stop : Nat} {c : Char} (h : b.isAt pos c = true) (hlt : pos < stop) :
    b.slice (.between pos stop) = Utf16.ascii c :: b.slice (.between (pos + 1) stop) := by
  rw [Buffer.isAt, beq_iff_eq, Buffer.unit?] at h
  obtain ⟨hpos, hunit⟩ := Array.getElem?_eq_some_iff.mp h
  rw [b.slice_cons hpos hlt, hunit]

theorem skipWhile_le (b : Buffer) (p : CodeUnit → Bool) (pos : Nat) :
    skipWhile b p pos ≤ max pos b.size := by
  fun_induction skipWhile b p pos with
  | case1 pos hpos _ ih => simp only [Buffer.size] at *; omega
  | case2 => omega
  | case3 => omega

/-- What a slice begins with is what the scan skips, as far as the slice goes. -/
theorem length_takeWhile_slice (b : Buffer) (p : CodeUnit → Bool) (pos stop : Nat) :
    ((b.slice (.between pos stop)).takeWhile p).length = min (skipWhile b p pos) stop - pos := by
  by_cases hlt : pos < stop
  · fun_induction skipWhile b p pos with
    | case1 pos hpos hunit ih =>
      rw [b.slice_cons hpos hlt, List.takeWhile_cons_of_pos hunit, List.length_cons]
      have hle := le_skipWhile b p (pos + 1)
      rcases Nat.lt_or_eq_of_le hlt with hnext | rfl
      · rw [ih hnext]
        omega
      · rw [b.slice_of_le (Nat.le_refl _), List.takeWhile_nil, List.length_nil]
        omega
    | case2 pos hpos hunit =>
      rw [b.slice_cons hpos hlt, List.takeWhile_cons_of_neg hunit, List.length_nil]
      omega
    | case3 pos hpos =>
      rw [b.slice_eq, List.drop_eq_nil_of_le (by simpa using hpos), List.take_nil, List.takeWhile_nil,
        List.length_nil]
      omega
  · rw [b.slice_of_le (Nat.le_of_not_lt hlt), List.takeWhile_nil, List.length_nil]
    omega

/-- Everything in a run is the one character. -/
theorem isAt_of_lt_runEnd {c : Char} {pos i : Nat} (hlo : pos ≤ i) (hhi : i < runEnd b c pos) :
    b.isAt i c = true := by
  unfold runEnd at hhi
  fun_induction skipWhile b (· == Utf16.ascii c) pos with
  | case1 pos hpos hunit ih =>
    rcases Nat.lt_or_eq_of_le hlo with hlt | rfl
    · exact ih hlt hhi
    · rw [beq_iff_eq] at hunit
      rw [Buffer.isAt, beq_iff_eq, Buffer.unit?, Array.getElem?_eq_getElem hpos, hunit]
  | case2 => omega
  | case3 => omega

/-- A run goes on over the character. -/
theorem lt_runEnd_of_isAt {c : Char} {pos : Nat} (h : b.isAt pos c = true) : pos < runEnd b c pos := by
  rw [Buffer.isAt, beq_iff_eq, Buffer.unit?] at h
  obtain ⟨hpos, hunit⟩ := Array.getElem?_eq_some_iff.mp h
  rw [runEnd, skipWhile, dif_pos hpos, if_pos (by rw [hunit, beq_self_eq_true])]
  exact le_skipWhile _ _ _

theorem runEnd_le (b : Buffer) (c : Char) (pos : Nat) : runEnd b c pos ≤ max pos b.size :=
  skipWhile_le _ _ _

theorem blockEnd_le (b : Buffer) (pos : Nat) : blockEnd b pos ≤ max pos b.size := by
  fun_induction blockEnd b pos with
  | case1 => omega
  | case2 => omega
  | case3 => omega

/-- A line that does not end with the buffer ends at a line break. -/
theorem isLineBreakAt_lineEnd {pos : Nat} (h : lineEnd b pos < b.size) :
    isLineBreakAt b (lineEnd b pos) = true := by
  unfold lineEnd at *
  fun_induction skipWhile b (fun u => !isLineBreak u) pos with
  | case1 pos hpos hunit ih => exact ih h
  | case2 pos hpos hunit =>
    rw [isLineBreakAt, Buffer.unit?, Array.getElem?_eq_getElem hpos, Option.any_some]
    simpa using hunit
  | case3 pos hpos => exact absurd h hpos

/-- A block comment that does not end with the buffer ends at its end mark. -/
theorem isAt_of_blockEnd_lt {pos : Nat} (h : blockEnd b pos < b.size) :
    ∃ mark, pos ≤ mark ∧ blockEnd b pos = mark + 2 ∧ b.isAt mark '*' = true ∧
      b.isAt (mark + 1) '/' = true := by
  fun_induction blockEnd b pos with
  | case1 pos hpos hmark =>
    obtain ⟨hstar, hslash⟩ := Bool.and_eq_true_iff.mp hmark
    exact ⟨pos, Nat.le_refl _, rfl, hstar, hslash⟩
  | case2 pos hpos hmark ih =>
    obtain ⟨mark, hle, hrest⟩ := ih h
    exact ⟨mark, Nat.le_of_succ_le hle, hrest⟩
  | case3 pos hpos => omega

theorem charEnd_le (b : Buffer) (pos : Nat) : charEnd b pos ≤ b.size := by
  fun_induction charEnd b pos with
  | case1 => assumption
  | case2 => omega
  | case3 => omega
  | case4 => assumption
  | case5 => omega

/-! ## Openings -/

/-- The markers counted are at least passed. -/
theorem markersFrom_spec (b : Buffer) (dollars : Nat) (verbatim : Bool) (pos : Nat) :
    pos + (markersFrom b dollars verbatim pos).1 ≤ dollars + (markersFrom b dollars verbatim pos).2.2 := by
  fun_induction markersFrom b dollars verbatim pos with
  | case1 => omega
  | case2 => omega
  | case3 => simp only; omega
  | case4 => simp only; omega

/-- Where the parts of an opening lie. -/
structure LiteralOpening.Placed (b : Buffer) (o : LiteralOpening) (pos : Nat) : Prop where
  /-- The literal starts where it was entered. -/
  start : o.start = pos
  /-- The content comes behind the markers and a quote. -/
  body : pos + o.dollars < o.body
  /-- It begins inside the buffer, or at its end. -/
  le_size : o.body ≤ b.size

theorem placed_of_opening? {pos : Nat} {o : LiteralOpening} (h : opening? b pos = some o) :
    o.Placed b pos := by
  have hmarks := markersFrom_spec b 0 false pos
  unfold opening? at h
  split at h
  next dollars verbatim quoteAt heq =>
    rw [heq] at hmarks
    split at h
    · next hquote =>
      cases h
      have hlt := lt_size_of_isAt hquote
      have hrun := runEnd_le b '"' (quoteAt + 1)
      have hle : quoteAt + 1 ≤ runEnd b '"' (quoteAt + 1) := le_skipWhile _ _ _
      refine ⟨rfl, ?_, ?_⟩ <;> simp only [LiteralOpening.body] at * <;> split <;> omega
    · simp at h

/-! ## Moves in code -/

/-- What passing over something in code comes to. Only a single unit is passed
as punctuation, and a brace never is. -/
structure CodePast (b : Buffer) (pos : Nat) (kind : Option HostKind) (next : Nat) : Prop where
  /-- It goes forward. -/
  lt : pos < next
  /-- It stays in the buffer. -/
  le_size : next ≤ b.size
  /-- What it passes is no string. -/
  not_string : kind ≠ some .string
  /-- Punctuation is one unit. -/
  one : kind = some .punctuation → next = pos + 1
  /-- That unit is no opening brace, -/
  not_open : kind = some .punctuation → b.isAt pos '\x7b' = false
  /-- nor a closing one. -/
  not_close : kind = some .punctuation → b.isAt pos '\x7d' = false

theorem codePast_of_codeMove {pos next : Nat} {kind : Option HostKind} (hpos : pos < b.size)
    (h : codeMove b pos = .past kind next) : CodePast b pos kind next := by
  have hlt := lt_of_codeMove_past hpos h
  have hline := skipWhile_le b (fun u => !isLineBreak u) (pos + 2)
  have hblock := blockEnd_le b (pos + 2)
  have hchar := charEnd_le b (pos + 1)
  unfold codeMove at h
  split at h
  · next hslash =>
    have := lt_size_of_isAt (Bool.and_eq_true_iff.mp hslash).2
    cases h
    refine ⟨hlt, by simp only [lineEnd]; omega, ?_, ?_, ?_, ?_⟩ <;> split <;> simp
  · split at h
    · next hstar =>
      have := lt_size_of_isAt (Bool.and_eq_true_iff.mp hstar).2
      cases h
      refine ⟨hlt, by omega, ?_, ?_, ?_, ?_⟩ <;> simp
    · split at h
      · cases h
        refine ⟨hlt, hchar, ?_, ?_, ?_, ?_⟩ <;> simp
      · split at h
        · simp at h
        · split at h
          · simp at h
          · next hopen =>
            split at h
            · simp at h
            · next hclose =>
              cases h
              rw [Bool.not_eq_true] at hopen hclose
              exact ⟨hlt, by omega, by split <;> simp, fun _ => rfl, fun _ => hopen, fun _ => hclose⟩

theorem isAt_of_codeMove_opens {pos : Nat} (h : codeMove b pos = .opens) : b.isAt pos '\x7b' = true := by
  unfold codeMove at h
  grind

theorem isAt_of_codeMove_closes {pos : Nat} (h : codeMove b pos = .closes) :
    b.isAt pos '\x7d' = true := by
  unfold codeMove at h
  grind

/-- The move over a comment. -/
theorem comment_of_codeMove {pos next : Nat} (h : codeMove b pos = .past (some .comment) next) :
    b.isAt pos '/' = true ∧
      (b.isAt (pos + 1) '/' = true ∧ next = lineEnd b (pos + 2) ∨
        b.isAt (pos + 1) '*' = true ∧ next = blockEnd b (pos + 2)) := by
  unfold codeMove at h
  split at h
  · next hline =>
    obtain ⟨hfirst, hsecond⟩ := Bool.and_eq_true_iff.mp hline
    simp only [CodeMove.past.injEq] at h
    exact ⟨hfirst, Or.inl ⟨hsecond, h.2.symm⟩⟩
  · split at h
    · next hblock =>
      obtain ⟨hfirst, hsecond⟩ := Bool.and_eq_true_iff.mp hblock
      simp only [CodeMove.past.injEq] at h
      exact ⟨hfirst, Or.inr ⟨hsecond, h.2.symm⟩⟩
    · grind

theorem opening?_of_codeMove {pos : Nat} {o : LiteralOpening} (h : codeMove b pos = .literal o) :
    opening? b pos = some o := by
  unfold codeMove at h
  grind

theorem placed_of_codeMove {pos : Nat} {o : LiteralOpening} (h : codeMove b pos = .literal o) :
    o.Placed b pos := placed_of_opening? (opening?_of_codeMove h)

/-! ## Moves in content -/

theorem le_size_of_contentMove_past {o : LiteralOpening} {pos next : Nat}
    (h : contentMove b o pos = .past next) : next ≤ b.size := by
  have hpos := (lt_of_contentMove_past h).1
  have hquote := runEnd_le b '"' (pos + 1)
  have hbrace := runEnd_le b '\x7b' (pos + 1)
  have htwo : ∀ c, b.isAt (pos + 1) c = true → pos + 1 < b.size := fun c => lt_size_of_isAt
  unfold contentMove rawMove quotedMove at h
  grind

/-- What entering a hole comes to. -/
structure Entered (b : Buffer) (o : LiteralOpening) (pos first code : Nat) : Prop where
  /-- Text may come before the hole. -/
  le : pos ≤ first
  /-- The hole has as many braces as the literal asks for, -/
  count : code = first + if o.isRaw then o.dollars else 1
  /-- which is at least one. -/
  dollars : 0 < o.dollars
  /-- They are braces that open. -/
  braces : ∀ i, first ≤ i → i < code → b.isAt i '\x7b' = true

theorem entered_of_contentMove {o : LiteralOpening} {pos first code : Nat}
    (h : contentMove b o pos = .hole first code) : Entered b o pos first code := by
  have hle := (lt_of_contentMove_hole h).2.1
  unfold contentMove at h
  split at h
  · next hraw =>
    have hrun : pos + 1 ≤ runEnd b '\x7b' (pos + 1) := le_skipWhile _ _ _
    unfold rawMove at h
    split at h
    · split at h
      · simp only at h
        split at h <;> simp at h
      · split at h
        · next hopen =>
          rw [Bool.and_eq_true, decide_eq_true_eq] at hopen
          simp only at h
          split at h
          · simp at h
          · next hmany =>
            cases h
            refine ⟨hle, by rw [if_pos hraw]; omega, hopen.1, fun i hlo hhi => ?_⟩
            -- The braces in a row begin at `pos`, so the last of them do.
            rcases Nat.lt_or_eq_of_le (show pos ≤ i by omega) with hlt | rfl
            · exact isAt_of_lt_runEnd hlt hhi
            · exact hopen.2
        · simp at h
    · simp at h
  · next hraw =>
    unfold quotedMove at h
    split at h
    · split at h
      · simp at h
      · split at h
        · simp at h
        · split at h
          · split at h <;> simp at h
          · split at h
            · next hopen =>
              rw [Bool.and_eq_true, decide_eq_true_eq] at hopen
              split at h
              · simp at h
              · cases h
                refine ⟨hle, by rw [if_neg hraw], hopen.1, fun i hlo hhi => ?_⟩
                obtain rfl : i = pos := by omega
                exact hopen.2
            · split at h <;> simp at h
    · simp at h

theorem Entered.le_size {o : LiteralOpening} {pos first code : Nat} (h : Entered b o pos first code) :
    first < code ∧ code ≤ b.size := by
  have hcount := h.count
  have hdollars := h.dollars
  have hlt : first < code := by split at hcount <;> omega
  have := lt_size_of_isAt (h.braces (code - 1) (by omega) (by omega))
  omega

/-- Where a literal ends there is no opening brace, unless something closes
it. -/
theorem stop_of_contentMove_finish {o : LiteralOpening} {pos stop : Nat} {ending : Ending}
    (hpos : pos ≤ b.size) (h : contentMove b o pos = .finish ending stop) :
    pos ≤ stop ∧ stop ≤ b.size ∧ (pos < stop ∨ b.isAt stop '\x7b' = false) := by
  have hquote := runEnd_le b '"' (pos + 1)
  have hrun : pos + 1 ≤ runEnd b '"' (pos + 1) := le_skipWhile _ _ _
  have hend : ¬ pos < b.size → b.isAt pos '\x7b' = false := by
    intro hge
    rw [← Bool.not_eq_true]
    exact fun hat => hge (lt_size_of_isAt hat)
  have hbreak : isLineBreakAt b pos = true → b.isAt pos '\x7b' = false := by
    intro hline
    rw [isLineBreakAt, Option.any_eq_true] at hline
    obtain ⟨u, hu, hbreak⟩ := hline
    rw [Buffer.isAt, hu]
    revert hbreak
    simp only [isLineBreak, Bool.or_eq_true, beq_iff_eq]
    rintro (rfl | rfl) <;> decide
  unfold contentMove rawMove quotedMove at h
  grind

/-- The braces that close a hole. -/
theorem closingBraces_spec {o : LiteralOpening} {pos : Nat} (hdollars : 0 < o.dollars)
    (h : b.isAt pos '\x7d' = true) :
    0 < closingBraces b o pos ∧ pos + closingBraces b o pos ≤ b.size ∧
      ∀ i, pos ≤ i → i < pos + closingBraces b o pos → b.isAt i '\x7d' = true := by
  have hpos := lt_size_of_isAt h
  unfold closingBraces
  split
  · have hlt := lt_runEnd_of_isAt h
    have hle := runEnd_le b '\x7d' pos
    exact ⟨by omega, by omega, fun i hlo hhi => isAt_of_lt_runEnd hlo (by omega)⟩
  · refine ⟨by omega, by omega, fun i hlo hhi => ?_⟩
    obtain rfl : i = pos := by omega
    exact h

end Host

end EmbeddedSql
