import EmbeddedSql.Proofs.Layout

/-!
# The scanner makes progress

Code and literals are scanned by functions that call one another, and each goes
on from where a call it made has stopped. That the scan comes to an end, and that
no two of its tags overlap, are therefore one fact about single calls: a call
stops no earlier than it starts and no later than the buffer ends, and what it
tags lies in between (`Advances`). A literal takes up at least one unit, so the
code around it is never back where it was.

The whole scan is then one finite run over the buffer, and the index built from
it holds the scanned tags as they come, except for the empty ones: they are in
order already.
-/

namespace EmbeddedSql

namespace Host

variable {b : Buffer}

/-! ## Single calls -/

/-- **What a call may do** that starts at a position, with some tags found
before. -/
structure Advances (b : Buffer) (found : Found) (start : Nat) (r : Halt) : Prop where
  /-- It goes forward, or stays where it is. -/
  le : start ≤ r.stop
  /-- It stays in the buffer. -/
  le_size : r.stop ≤ b.size
  /-- It adds tags, and only between where it starts and where it stops. -/
  tags : ∃ new : List HostTag, r.found.tags = found.tags ++ new.toArray ∧
    ∀ t ∈ new, start ≤ t.span.start ∧ t.span.stop ≤ r.stop

/-- A run that is added to what was found advances from where its part begins to
yield tags. -/
theorem Scans.advances {part : Part} {found : Found} {r : Halt} {new : List HostTag}
    {literals more : List ScannedLiteral} (hrun : Scans b part r.stop new literals)
    (hpart : part.Sound b) (hstart : part.start ≤ part.pos) (hfound : r.found = found.extend new more) :
    Advances b found part.start r := by
  obtain ⟨hle, hsize, hlaid, -⟩ := hrun.layout hpart
  refine ⟨Nat.le_trans hstart hle, hsize, new, ?_, fun t ht => hlaid.bounds ht⟩
  rw [hfound, Found.extend]

theorem advances_scanCode (inHole : Bool) (depth : Nat) (found : Found) {pos : Nat}
    (hpos : pos ≤ b.size) : Advances b found pos (scanCode b inHole depth found pos).1 := by
  obtain ⟨tags, literals, hrun, hfound⟩ := (runs b).1 inHole depth found pos
  exact hrun.advances hpos (Nat.le_refl _) hfound

/-- A literal is left behind its opening. -/
theorem advances_scanContent {start : Nat} {o : LiteralOpening} (ho : opening? b start = some o)
    (found : Found) :
    start < (scanContent b (.begin o) found o.body).1.stop ∧
      Advances b found start (scanContent b (.begin o) found o.body).1 := by
  have hplaced := placed_of_opening? ho
  obtain ⟨tags, literals, fragments, closers, ending, hrun, hfound⟩ := (runs b).2 (.begin o) found o.body
  have hbody := lt_body_of_opening? ho
  have hstop := (scanContent b (.begin o) found o.body).2
  have hadvances : Advances b found o.start _ :=
    hrun.advances (.literal hplaced fragments closers ending)
      (show o.start ≤ o.body by rw [hplaced.start]; exact Nat.le_of_lt hbody) hfound
  rw [hplaced.start] at hadvances
  exact ⟨Nat.lt_of_lt_of_le hbody hstop, hadvances⟩

/-- **Scans the literal that starts at a position**, if one does: where it stops,
and what has been found then. -/
def scanLiteral (b : Buffer) (found : Found) (start : Nat) : Option Nat × Found :=
  match opening? b start with
  | none => (none, found)
  | some o =>
    let r := (scanContent b (.begin o) found o.body).1
    (some r.stop, r.found)

/-- Where code meets a literal it scans it and goes on behind it. -/
theorem scanCode_eq_scanLiteral {pos : Nat} {o : LiteralOpening} (hpos : pos < b.size)
    (hm : codeMove b pos = .literal o) (inHole : Bool) (depth : Nat) (found : Found) :
    ∃ stop, (scanLiteral b found pos).1 = some stop ∧
      (scanCode b inHole depth found pos).1 =
        (scanCode b inHole depth (scanLiteral b found pos).2 stop).1 := by
  rw [scanLiteral, opening?_of_codeMove hm, val_scanCode, if_pos hpos, hm]
  exact ⟨_, rfl, rfl⟩

/-! ## The whole scan -/

/-- Outside of holes nothing but the end of the buffer stops the scan. -/
theorem Scans.size_le_stop {part : Part} {stop : Nat} {tags : List HostTag}
    {literals : List ScannedLiteral} (h : Scans b part stop tags literals) {depth pos : Nat}
    (hpart : part = .code false depth pos) : b.size ≤ stop := by
  induction h generalizing depth pos with
  | done hend => cases hpart; exact hend
  | past _ _ _ ih => cases hpart; exact ih rfl
  | literal _ _ _ _ _ ih => cases hpart; exact ih rfl
  | opens _ _ _ ih => cases hpart; exact ih rfl
  | leave => cases hpart
  | closes _ _ _ _ ih => cases hpart; exact ih rfl
  | text => cases hpart
  | finish => cases hpart
  | hole => cases hpart
  | lost => cases hpart

/-- **The scan of a buffer is a finite run** over all of it. -/
theorem scans_to_size (b : Buffer) :
    Scans b (.code false 0 0) b.size (scan b).tags.toList (scan b).literals.toList := by
  obtain ⟨stop, hrun⟩ := scans_scan b
  have hsize := (hrun.layout (Nat.zero_le _)).le_size
  rwa [Nat.le_antisymm hsize (hrun.size_le_stop rfl)] at hrun

/-- The tags of a scan are in order already, and so the index keeps them as they
come. -/
theorem toList_classify (b : Buffer) :
    (classify b).toList = (scan b).tags.toList.filter fun t => !t.span.isEmpty := by
  rw [classify, TagIndex.toList_ofTags, TagIndex.arrange]
  refine List.mergeSort_of_pairwise (((layout_scan b).1.pairwise.filter _).imp_of_mem ?_)
  intro t u ht _ htu
  have hpos : ¬ t.span.len = 0 := by
    have hnonempty := (List.mem_filter.mp ht).2
    rwa [Bool.not_eq_true', ← Bool.not_eq_true, Span.isEmpty_iff] at hnonempty
  rw [Span.stop] at htu
  exact decide_eq_true (Or.inl (by omega))

theorem pairwise_classify (b : Buffer) :
    (classify b).toList.Pairwise fun t u => t.span.stop ≤ u.span.start := by
  rw [toList_classify]
  exact (layout_scan b).1.pairwise.filter _

/-- **The scanner is well-formed.** The tags of a buffer are non-empty, inside it,
and one behind the other. A scan of code stops between its start and the end of
the buffer, and so does the scan of a literal, which stops behind its start; where
no literal starts nothing is found. Each of them tags only what it passes, and the
calls of a whole scan end in a run over all of the buffer. -/
theorem scan_wellFormed (b : Buffer) :
    ((∀ t ∈ (classify b).toList, 0 < t.span.len ∧ t.span.stop ≤ b.size) ∧
        (classify b).toList.Pairwise fun t u => t.span.stop ≤ u.span.start) ∧
      (∀ inHole depth found pos, pos ≤ b.size →
        Advances b found pos (scanCode b inHole depth found pos).1) ∧
      (∀ found start, start < b.size →
        scanLiteral b found start = (none, found) ∨
          ∃ r, scanLiteral b found start = (some r.stop, r.found) ∧ start < r.stop ∧
            Advances b found start r) ∧
      Scans b (.code false 0 0) b.size (scan b).tags.toList (scan b).literals.toList := by
  refine ⟨⟨fun t ht => ?_, pairwise_classify b⟩, fun inHole depth found pos hpos => ?_,
    fun found start hstart => ?_, scans_to_size b⟩
  · obtain ⟨hmem, hpos⟩ := TagIndex.mem_toList_ofTags.mp ht
    exact ⟨hpos, ((layout_scan b).1.bounds hmem).2⟩
  · exact advances_scanCode inHole depth found hpos
  · cases ho : opening? b start with
    | none =>
      left
      rw [scanLiteral, ho]
    | some o =>
      right
      obtain ⟨hlt, hadvances⟩ := advances_scanContent ho found
      refine ⟨_, ?_, hlt, hadvances⟩
      rw [scanLiteral, ho]

/-- A literal whose hole is never closed takes up the rest of its buffer, and the
code of the hole may be scanned on its own. -/
theorem scan_wellFormed_openHole :
    ∃ b : Buffer, b = .ofText "$\"a\x7b(@\"b" ∧ 0 < b.size ∧ 4 ≤ b.size ∧
      (∃ r, scanLiteral b {} 0 = (some r.stop, r.found) ∧ 0 < r.stop ∧ Advances b {} 0 r) ∧
      Advances b {} 4 (scanCode b true 0 {} 4).1 := by
  obtain ⟨-, hcode, hliteral, -⟩ := scan_wellFormed (.ofText "$\"a\x7b(@\"b")
  refine ⟨_, rfl, by decide, by decide, ?_, hcode true 0 {} 4 (by decide)⟩
  refine (hliteral {} 0 (by decide)).resolve_left fun hnone => ?_
  exact absurd (congrArg Prod.fst hnone) (by decide +kernel)

end Host

end EmbeddedSql
