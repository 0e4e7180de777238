import EmbeddedSql.Checked.Literal
import EmbeddedSql.Proofs.Guards.Lookups
import EmbeddedSql.Proofs.PairBounds
import EmbeddedSql.Report

/-!
# Heads, delimiters and decoding without failure

Three guards are worth a look. A head counts its markers in a table, by index;
the table is as long as the list of markers, and it holds for each of them how
often it was seen (`tally`). The closing delimiter is taken off a fragment that
may reach past the buffer: it is found in the part that exists, so it is no
longer than the fragment. And the digits of a `\x` are cut out of the content by
their number, which was counted in the content itself.

Decoding moves by the width of a piece, and a piece ends within the content, so
the index stays inside it.
-/

namespace EmbeddedSql

namespace Checked

open Utf16

/-! ## Heads -/

section Heads

variable {style : LiteralStyle}

/-- The marker that a unit is stands at the marker's index. -/
theorem marker?_eq_bind (u : CodeUnit) :
    style.marker? u = (markerIndex? style u).bind fun i => style.markers[i]? :=
  List.find?_eq_bind_findIdx?_getElem?

/-- A marker is one unit. -/
theorem eq_of_markerIndex? {u v : CodeUnit} {i : Nat} (hu : markerIndex? style u = some i)
    (hv : markerIndex? style v = some i) : u = v := by
  obtain ⟨_, hmu, -⟩ := List.findIdx?_eq_some_iff_getElem.mp hu
  obtain ⟨_, hmv, -⟩ := List.findIdx?_eq_some_iff_getElem.mp hv
  exact UInt16.toNat_inj.mp ((eq_of_beq hmu).trans (eq_of_beq hmv).symm)

/-- How often each marker of a style occurs among the units read. -/
def tally (style : LiteralStyle) (seen : List CodeUnit) : List Nat :=
  (List.range style.markers.length).map fun i => (seen.map (markerIndex? style)).count (some i)

theorem tally_nil : tally style [] = List.replicate style.markers.length 0 := by
  simp [tally, List.map_const']

theorem getElem?_tally {i : Nat} (hi : i < style.markers.length) (seen : List CodeUnit) :
    (tally style seen)[i]? = some ((seen.map (markerIndex? style)).count (some i)) := by
  rw [tally, List.getElem?_map, List.getElem?_range hi, Option.map_some]

theorem tally_cons {u : CodeUnit} {i : Nat} (hu : markerIndex? style u = some i)
    (seen : List CodeUnit) :
    (tally style seen).set i ((seen.map (markerIndex? style)).count (some i) + 1)
      = tally style (u :: seen) := by
  have hi := (List.findIdx?_eq_some_iff_getElem.mp hu).1
  refine List.ext_getElem? fun j => ?_
  rw [List.getElem?_set]
  by_cases hj : j < style.markers.length
  · rw [getElem?_tally hj, getElem?_tally hj, List.map_cons, hu, List.count_cons]
    by_cases hij : i = j
    · subst hij
      simp [tally, hi]
    · simp [hij]
  · rw [if_neg (by omega)]
    simp [tally, hj]

/-- A marker has been seen if its counter is not zero. -/
theorem contains_eq_decide_count {u : CodeUnit} {i : Nat} (hu : markerIndex? style u = some i)
    (seen : List CodeUnit) :
    seen.contains u = decide (1 < (seen.map (markerIndex? style)).count (some i) + 1) := by
  rw [Bool.eq_iff_iff, List.contains_iff_mem, decide_eq_true_iff, Nat.lt_add_left_iff_pos,
    List.count_pos_iff, List.mem_map]
  constructor
  · intro h
    exact ⟨u, h, hu⟩
  · rintro ⟨v, hv, hvi⟩
    rwa [eq_of_markerIndex? hu hvi]

/-- Some marker was repeated if a counter is past one. -/
theorem any_tally {seen : List CodeUnit} (hseen : ∀ u ∈ seen, (markerIndex? style u).isSome) :
    (tally style seen).any (fun count => 1 < count) = !decide seen.Nodup := by
  have hinj : ∀ u ∈ seen, ∀ v ∈ seen, markerIndex? style u = markerIndex? style v → u = v := by
    intro u hu v hv huv
    obtain ⟨i, hi⟩ := Option.isSome_iff_exists.mp (hseen u hu)
    exact eq_of_markerIndex? hi (huv ▸ hi)
  have hmap : seen.Nodup ↔ (seen.map (markerIndex? style)).Nodup :=
    ⟨List.Nodup.map_on hinj, List.Nodup.of_map _⟩
  rw [Bool.eq_iff_iff, List.any_eq_true, Bool.not_eq_true', decide_eq_false_iff_not, hmap,
    List.nodup_iff_count_le_one, Classical.not_forall]
  constructor
  · rintro ⟨count, hcount, hone⟩
    obtain ⟨i, -, rfl⟩ := List.mem_map.mp hcount
    exact ⟨some i, Nat.not_le_of_lt (of_decide_eq_true hone)⟩
  · rintro ⟨a, hone⟩
    -- What is counted at all is the index of a unit seen, and so of a counter.
    obtain ⟨u, hu, rfl⟩ := List.mem_map.mp
      (List.count_pos_iff.mp (Nat.lt_of_lt_of_le Nat.one_pos (Nat.le_of_not_le hone)))
    obtain ⟨i, hi⟩ := Option.isSome_iff_exists.mp (hseen u hu)
    have hlt := (List.findIdx?_eq_some_iff_getElem.mp hi).1
    rw [hi] at hone
    exact ⟨_, List.mem_of_getElem? (getElem?_tally hlt seen),
      decide_eq_true (Nat.lt_of_not_le hone)⟩

theorem isSome_of_mem_seen {seen : List CodeUnit} {kind : LiteralKind} {units : List CodeUnit}
    {o : LiteralStyle.Opening} (hseen : ∀ u ∈ seen, (markerIndex? style u).isSome)
    (h : style.readMarkers seen kind units = .ok o) :
    ∀ u ∈ o.seen, (markerIndex? style u).isSome := by
  induction units generalizing seen kind with
  | nil => cases h; exact hseen
  | cons u rest ih =>
    rw [LiteralStyle.readMarkers] at h
    split at h
    · cases h; exact hseen
    · split at h
      · cases h
      · next m hm =>
        split at h
        · cases h
        · refine ih (List.forall_mem_cons.mpr ⟨?_, hseen⟩) h
          rw [marker?_eq_bind] at hm
          cases hi : markerIndex? style u with
          | none => rw [hi] at hm; cases hm
          | some i => rfl

/-- The reader by index reads what is left from the index on. It has read as
many units as the index says. -/
theorem readMarkers_eq {units : List CodeUnit} (hlen : units.length < 2 ^ 62)
    (seen : List CodeUnit) (kind : LiteralKind) :
    readMarkers style units (tally style seen) kind seen.length
      = some ((style.readMarkers seen kind (units.drop seen.length)).map fun o =>
          ⟨tally style o.seen, o.kind, o.seen.length⟩) := by
  generalize hrest : units.drop seen.length = rest
  induction rest generalizing seen kind with
  | nil =>
    rw [List.drop_eq_nil_iff] at hrest
    rw [readMarkers, List.getElem?_eq_none hrest]
    rfl
  | cons u rest ih =>
    obtain ⟨hlt, hu, hrest'⟩ := drop_eq_cons hrest
    rw [readMarkers, hu, LiteralStyle.readMarkers, marker?_eq_bind]
    simp only
    split
    · rfl
    · cases hi : markerIndex? style u with
      | none => rfl
      | some i =>
        have hilt := (List.findIdx?_eq_some_iff_getElem.mp hi).1
        have hcount := List.count_le_length (a := some i) (l := seen.map (markerIndex? style))
        rw [List.length_map] at hcount
        simp only [getElem?_tally hilt, some_bind, Option.bind_some, List.getElem?_eq_getElem hilt,
          add_eq (show (seen.map (markerIndex? style)).count (some i) + 1 < 2 ^ 64 by omega),
          contains_eq_decide_count hi]
        split
        · rfl
        · rw [add_eq (by omega), some_bind, tally_cons hi]
          exact ih (u :: seen) _ hrest'

theorem headAfter_eq {units : List CodeUnit} (hlen : units.length < 2 ^ 62)
    {o : LiteralStyle.Opening} (h : style.readMarkers [] .plain units = .ok o) :
    headAfter style units ⟨tally style o.seen, o.kind, o.seen.length⟩
      = some (style.readHead units) := by
  obtain ⟨markers, hunits, hseen⟩ := LiteralStyle.readMarkers_eq_ok h
  have hrest : units.drop o.seen.length = o.rest := by
    rw [hseen, List.length_nil, Nat.add_zero, hunits, List.drop_left]
  have hle : o.seen.length + o.rest.length = units.length := by
    rw [hseen, List.length_nil, Nat.add_zero, ← List.length_append, ← hunits]
  have hquotes : (o.rest.takeWhile (· == ascii '"')).length ≤ o.rest.length :=
    (List.takeWhile_sublist _).length_le
  unfold headAfter LiteralStyle.readHead
  simp only [cut_from (show o.seen.length ≤ units.length by omega), some_bind, hrest, h,
    any_tally (isSome_of_mem_seen (by simp) h)]
  simp only [bind, Except.bind]
  generalize (o.rest.takeWhile (· == ascii '"')).length = quotes at hquotes ⊢
  split
  · rfl
  · split
    · rw [add_eq (by omega)]
      rfl
    · by_cases hnodup : o.seen.Nodup
      · rw [if_neg (by simpa using hnodup), if_pos hnodup, add_eq (by omega)]
        rfl
      · rw [if_pos (by simpa using hnodup), if_neg hnodup]
        rfl

theorem readHead_eq {units : List CodeUnit} (hlen : units.length < 2 ^ 62) :
    readHead style units = some (style.readHead units) := by
  have hmarkers : readMarkers style units (List.replicate style.markers.length 0) .plain 0
      = some ((style.readMarkers [] .plain units).map fun o =>
          ⟨tally style o.seen, o.kind, o.seen.length⟩) := by
    rw [← tally_nil]
    exact readMarkers_eq hlen [] .plain
  unfold readHead
  rw [hmarkers, some_bind]
  cases h : style.readMarkers [] .plain units with
  | error e =>
    rw [LiteralStyle.readHead, h]
    rfl
  | ok o => exact headAfter_eq hlen h

/-- An opening lies in the units it was read from. -/
theorem openingLen_le {units : List CodeUnit} {head : LiteralHead}
    (h : style.readHead units = .ok head) : head.openingLen ≤ units.length := by
  obtain ⟨hpos, hquote, -⟩ := LiteralStyle.quote_of_readHead h
  have := (List.getElem?_eq_some_iff.mp hquote).1
  omega

end Heads

/-! ## Delimiters -/

theorem endsWithClosing_eq (b : Buffer) (head : LiteralHead) {s : Span} (hs : s.stop < 2 ^ 64) :
    endsWithClosing b head s = some (EmbeddedSql.endsWithClosing b head s) := by
  unfold endsWithClosing EmbeddedSql.endsWithClosing
  simp only [slice_eq b hs, some_bind]
  split
  · next hle =>
    rw [sub_eq hle, some_bind, cut_from (Nat.sub_le _ _), some_bind, decide_eq_true hle,
      Bool.true_and]
    rfl
  · next hle => rw [decide_eq_false hle]; rfl

/-- A closing delimiter that is found is no longer than the fragment. -/
theorem closingLen_le {b : Buffer} {head : LiteralHead} {s : Span}
    (h : EmbeddedSql.endsWithClosing b head s = true) : head.closingLen ≤ s.stop := by
  have hle := of_decide_eq_true (Bool.and_eq_true_iff.mp h).1
  have hlen := b.length_slice_le s
  simp only [Span.stop]
  omega

theorem trimFragment_eq (b : Buffer) {head : LiteralHead} (hopen : head.openingLen < 2 ^ 62)
    {s : Span} (hs : s.stop < 2 ^ 62) {i : Nat} (hi : i < 2 ^ 62) (count : Nat) :
    trimFragment b head count i s
      = some (trimFragment? b head (i == 0) (i + 1 == count) s) := by
  have hle := s.start_le_stop
  have hfirst : (if i = 0 then add s.start head.openingLen else some s.start)
      = some (if i == 0 then s.start + head.openingLen else s.start) := by
    rw [add_eq (by omega)]
    by_cases hzero : i = 0
    · simp [hzero]
    · simp [hzero]
  have hclosed : (if i + 1 = count then endsWithClosing b head s else some false)
      = some (i + 1 == count && EmbeddedSql.endsWithClosing b head s) := by
    rw [endsWithClosing_eq b head (by omega)]
    by_cases hlast : i + 1 = count
    · simp [hlast]
    · simp [hlast]
  have hlast : (if (i + 1 == count && EmbeddedSql.endsWithClosing b head s) = true then
        sub s.stop head.closingLen else some s.stop)
      = some (if i + 1 == count && EmbeddedSql.endsWithClosing b head s then
        s.stop - head.closingLen else s.stop) := by
    split
    · next h => rw [sub_eq (closingLen_le (Bool.and_eq_true_iff.mp h).2)]
    · rfl
  unfold trimFragment trimFragment?
  simp only [stop_eq (Nat.lt_trans hs (by decide)), some_bind, hfirst,
    add_eq (show i + 1 < 2 ^ 64 by omega), hclosed, hlast]
  rfl

theorem contentOf_eq (b : Buffer) {head : LiteralHead} (hopen : head.openingLen < 2 ^ 62)
    {fragments : List Span} (hs : ∀ s ∈ fragments, s.stop < 2 ^ 62)
    (hlen : fragments.length < 2 ^ 62) :
    contentOf b head fragments = some (EmbeddedSql.contentOf b head fragments) := by
  unfold contentOf EmbeddedSql.contentOf
  have htrim : ∀ entry ∈ fragments.zipIdx, trimFragment b head fragments.length entry.2 entry.1
      = some (trimFragment? b head (entry.2 == 0) (entry.2 + 1 == fragments.length) entry.1) := by
    intro entry hentry
    have hi := (List.mem_zipIdx' hentry).1
    exact trimFragment_eq b hopen (hs _ (List.fst_mem_of_mem_zipIdx hentry)) (by omega) _
  rw [mapM_eq htrim, some_bind, List.filterMap_map]
  rfl

/-! ## Escape sequences -/

theorem pair_eq {high low : CodeUnit} (hhigh : isHigh high = true) (hlow : isLow low = true) :
    pair high low = some (Utf16.pair high low) := by
  simp only [isHigh, isLow, Bool.and_eq_true, decide_eq_true_eq] at hhigh hlow
  unfold pair
  rw [sub_eq hhigh.1, some_bind, sub_eq hlow.1, some_bind]
  rfl

/-- A slice that may be missing, read as a number of that many digits. -/
theorem cut_bind_hexValue? (content : List CodeUnit) (i : Nat) {n : Nat} (hn : 0 < n) :
    (cut content i (i + n)).bind hexValue? = fixedHex? n (content.drop i) := by
  unfold fixedHex?
  rw [List.length_take, List.length_drop]
  by_cases hroom : i + n ≤ content.length
  · rw [cut_eq (Nat.le_add_right i n) hroom, List.drop_take, Nat.add_sub_cancel_left,
      if_pos (by omega)]
    rfl
  · rw [cut, if_neg (by omega), if_neg (by omega)]
    rfl

/-- A run of digits counted in the content can be cut out of it. -/
theorem cut_hexRun {content : List CodeUnit} {i : Nat} (hi : i ≤ content.length) :
    cut content i (i + (hexRun (content.drop i)).length) = some (hexRun (content.drop i)) := by
  have hrun : hexRun (content.drop i) <+: content.drop i :=
    (List.takeWhile_prefix _).trans (List.take_prefix 4 _)
  have hle := hrun.length_le
  rw [List.length_drop] at hle
  rw [cut_eq (Nat.le_add_right _ _) (by omega), List.drop_take, Nat.add_sub_cancel_left,
    ← List.prefix_iff_eq_take.mp hrun]

section Decoding

variable {content : List CodeUnit} (hlen : content.length < 2 ^ 62)

include hlen in
theorem escapeBody_eq (pos : Nat) :
    escapeBody content pos = some (escapeBody? (content.drop pos)) := by
  cases hrest : content.drop pos with
  | nil =>
    rw [List.drop_eq_nil_iff] at hrest
    rw [escapeBody, List.getElem?_eq_none hrest]
    rfl
  | cons u rest =>
    obtain ⟨hlt, hu, rfl⟩ := drop_eq_cons hrest
    rw [escapeBody, hu, escapeBody?]
    simp only
    cases simpleEscape? u with
    | some c => rfl
    | none =>
      simp only
      split
      · rw [add_eq (by omega), some_bind, add_eq (by omega), some_bind,
          show pos + 5 = pos + 1 + 4 from rfl, cut_bind_hexValue? _ _ (by decide)]
        rfl
      · split
        · rw [add_eq (by omega), some_bind, add_eq (by omega), some_bind,
            show pos + 9 = pos + 1 + 8 from rfl, cut_bind_hexValue? _ _ (by decide)]
          rfl
        · split
          · have hroom : pos + 1 ≤ content.length := hlt
            have hrun := length_hexRun_le_four (content.drop (pos + 1))
            have hcut := cut_hexRun hroom
            rw [add_eq (by omega), some_bind, cut_from hroom, some_bind]
            simp only [hexRun] at hrun hcut ⊢
            rw [add_eq (by omega), some_bind, hcut, some_bind, add_eq (by omega), some_bind]
            cases (content.drop (pos + 1)).take 4 |>.takeWhile fun d => (hexDigit? d).isSome with
            | nil => rfl
            | cons d digits => rfl
          · rfl

include hlen in
theorem lowEscape_eq (pos : Nat) :
    lowEscape content pos
      = some ((lowEscape? (content.drop pos)).map fun found => (found.1, found.2 - 1)) := by
  cases hrest : content.drop pos with
  | nil =>
    rw [List.drop_eq_nil_iff] at hrest
    rw [lowEscape, List.getElem?_eq_none hrest]
    rfl
  | cons u rest =>
    obtain ⟨hlt, hu, rfl⟩ := drop_eq_cons hrest
    rw [lowEscape, hu, lowEscape?, add_eq (by omega), some_bind, escapeBody_eq hlen, some_bind]
    by_cases hslash : u = ascii '\\'
    · rw [if_pos (by simp [hslash]), if_pos (by simp [hslash])]
      rcases escapeBody? (content.drop (pos + 1)) with _ | ⟨c | low, len⟩
      · rfl
      · rfl
      · simp only
        cases isLow low <;> rfl
    · rw [if_neg (by simpa using hslash), if_neg (by simpa using hslash)]
      rfl

include hlen in
/-- An escape sequence of one unit, and the one behind it. -/
theorem unitPiece_eq {start n : Nat} {u : CodeUnit} (hroom : start + (n + 1) ≤ content.length) :
    unitPiece content start (n + 1) u
      = some (match if isHigh u then lowEscape? (content.drop (start + (n + 1))) else none with
        | some (low, m) => ⟨Utf16.pair u low, n + 1 + m, true⟩
        | none => ⟨single u, n + 1, true⟩) := by
  unfold unitPiece
  split
  · next hhigh =>
    rw [add_eq (by omega), some_bind, lowEscape_eq hlen, some_bind]
    cases hlow : lowEscape? (content.drop (start + (n + 1))) with
    | none => rfl
    | some found =>
      obtain ⟨low, m⟩ := found
      have hm := lowEscape?_bounds hlow
      obtain ⟨-, k, -, -, hislow, rfl⟩ := lowEscape?_eq_some.mp hlow
      rw [List.length_drop] at hm
      simp only [Option.map_some, Nat.add_sub_cancel, pair_eq hhigh hislow, some_bind,
        add_eq (show n + 1 + k < 2 ^ 64 by omega), add_eq (show n + 1 + k + 1 < 2 ^ 64 by omega)]
      rfl
  · rfl

include hlen in
theorem escapePiece_eq {start : Nat} (hstart : start < content.length) :
    escapePiece content start = some (escapePiece? (content.drop (start + 1))) := by
  rw [escapePiece, add_eq (by omega), some_bind, escapeBody_eq hlen, some_bind, escapePiece?]
  cases hbody : escapeBody? (content.drop (start + 1)) with
  | none => rfl
  | some found =>
    obtain ⟨v, n⟩ := found
    have hn := (escapeBody?_eq_some.mp hbody).bounds.2
    rw [List.length_drop] at hn
    cases v with
    | char c =>
      simp only [add_eq (show n + 1 < 2 ^ 64 by omega), some_bind]
      rfl
    | unit u =>
      simp only [add_eq (show n + 1 < 2 ^ 64 by omega), some_bind,
        unitPiece_eq hlen (show start + (n + 1) ≤ content.length by omega), Option.map_some,
        List.drop_drop, show start + 1 + n = start + (n + 1) by omega]
      rfl

end Decoding

/-! ## Pieces -/

theorem ownPiece_eq (u : CodeUnit) (rest : List CodeUnit) :
    ownPiece u rest.head? = some (EmbeddedSql.ownPiece u rest) := by
  cases rest with
  | nil => rfl
  | cons v rest =>
    unfold ownPiece EmbeddedSql.ownPiece
    rw [List.head?_cons]
    simp only
    split
    · next hpair =>
      obtain ⟨hhigh, hlow⟩ := Bool.and_eq_true_iff.mp hpair
      rw [pair_eq hhigh hlow]
      rfl
    · rfl

section Pieces

variable {content : List CodeUnit} (hlen : content.length < 2 ^ 62)

include hlen in
theorem nextPiece_eq (kind : LiteralKind) {i : Nat} (hi : i < content.length) (u : CodeUnit) :
    nextPiece kind content i u = some (nextPiece? kind u (content.drop (i + 1))) := by
  unfold nextPiece nextPiece?
  rw [add_eq (by omega), some_bind, ← List.head?_drop]
  split
  · rfl
  · split
    · exact escapePiece_eq hlen hi
    · rw [ownPiece_eq]
      rfl

include hlen in
/-- **Decoding by index** decodes what is left from the index on. -/
theorem decode_eq_map (kind : LiteralKind) (i : Nat) :
    decode kind content i
      = some ((readPieces kind i (content.drop i)).map fun pieces =>
          ⟨pieces.map Piece.char, correctionsOf i pieces⟩) := by
  induction hn : content.length - i using Nat.strongRecOn generalizing i with
  | ind n ih =>
    cases hrest : content.drop i with
    | nil =>
      rw [List.drop_eq_nil_iff] at hrest
      rw [decode, if_neg (by omega), readPieces]
      rfl
    | cons u rest =>
      obtain ⟨hlt, hu, rfl⟩ := drop_eq_cons hrest
      rw [decode, if_pos hlt, hu, some_bind, nextPiece_eq hlen kind hlt, some_bind, readPieces]
      cases hpiece : nextPiece? kind u (content.drop (i + 1)) with
      | none => rfl
      | some p =>
        obtain ⟨hwidth, hroom, -⟩ := nextPiece?_bounds hpiece
        rw [List.length_drop] at hroom
        simp only [sub_eq hwidth, some_bind, add_eq (show i + p.width < 2 ^ 64 by omega),
          ih _ (by omega) (i + p.width) rfl, List.drop_drop,
          show i + 1 + (p.width - 1) = i + p.width by omega]
        rw [if_pos (show 0 < p.width from hwidth)]
        cases readPieces kind (i + p.width) (content.drop (i + p.width)) with
        | error e => rfl
        | ok pieces => rfl

include hlen in
theorem decode_eq (kind : LiteralKind) :
    decode kind content 0 = some (Decoded.ofUnits kind content) := by
  rw [decode_eq_map hlen, List.drop_zero]
  rfl

end Pieces

end Checked

end EmbeddedSql
