import EmbeddedSql.Output.Echo
import EmbeddedSql.Proofs.DirectiveText
import EmbeddedSql.Proofs.PairBounds
import EmbeddedSql.Session

/-!
# What an echo says

An echo writes a buffer stretch by stretch, tags and what lies between them,
and every stretch is decoded on its own. Nothing is written twice and nothing
is left out, but that is a statement about code units. What is written are
characters, and a surrogate pair that is cut in two is read as two replacement
characters.

So an echo says what the buffer says exactly if none of the *seams* between its
stretches falls inside a pair: each one that does makes it a character longer
(`length_spoken`). The seams are bounds of tags, and of these only the bounds of
the request can fall inside a pair. They do, since a request is not moved to
the next character: asked for half of one, the echo of a text is another text
(`join_chunks_report_halved`).
-/

namespace EmbeddedSql

namespace Utf16

/-! ## Reading in two parts -/

/-- Behind a whole pair, what comes before it has no say. -/
theorem splitsAt_behind_pair (u : CodeUnit) {w : CodeUnit} (hw : isLow w = true)
    (us vs : List CodeUnit) :
    splitsAt (u :: w :: (us ++ vs)) (us.length + 2) = splitsAt (us ++ vs) us.length := by
  cases us with
  | nil => exact not_splitsAt_of_not_isHigh (not_isHigh_of_isLow hw)
  | cons v us =>
    rw [Nat.add_comm]
    exact (splitsAt_drop (u :: w :: (v :: us ++ vs)) 2 (Nat.succ_pos us.length)).symm

theorem splitsAt_behind_unit (u w : CodeUnit) (us vs : List CodeUnit) :
    splitsAt (u :: w :: (us ++ vs)) (us.length + 2) = splitsAt (w :: (us ++ vs)) (us.length + 1) := by
  rw [show us.length + 2 = 1 + (us.length + 1) by omega]
  exact (splitsAt_drop (u :: w :: (us ++ vs)) 1 (Nat.succ_pos us.length)).symm

/-- **A text may be read in two parts**, if they do not part a pair. -/
theorem decode_append_of_not_splitsAt {us vs : List CodeUnit}
    (h : splitsAt (us ++ vs) us.length = false) : decode (us ++ vs) = decode us ++ decode vs := by
  fun_induction decode us with
  | case1 => rfl
  | case2 u =>
    cases vs with
    | nil => rfl
    | cons v vs =>
      show decode (u :: v :: vs) = single u :: decode (v :: vs)
      have hpair : (isHigh u && isLow v) = false := h
      rw [decode, hpair, if_neg Bool.false_ne_true]
  | case3 u w rest hpair ih =>
    have hrest := splitsAt_behind_pair u (Bool.and_eq_true_iff.mp hpair).2 rest vs
    show decode (u :: w :: (rest ++ vs)) = _
    rw [decode, if_pos hpair, ih (hrest.symm.trans h)]
    rfl
  | case4 u w rest hpair ih =>
    have hrest := splitsAt_behind_unit u w rest vs
    show decode (u :: w :: (rest ++ vs)) = _
    rw [decode, if_neg hpair]
    exact congrArg (single u :: ·) (ih (hrest.symm.trans h))

/-- Two parts that part a pair have half of it each. -/
theorem exists_halves_of_splitsAt {us vs : List CodeUnit} (h : splitsAt (us ++ vs) us.length = true) :
    ∃ before high low behind, us = before ++ [high] ∧ vs = low :: behind ∧ isHigh high = true ∧
      isLow low = true := by
  rcases List.eq_nil_or_concat us with rfl | ⟨before, high, rfl⟩
  · rw [List.length_nil, not_splitsAt_zero] at h
    cases h
  · cases vs with
    | nil =>
      rw [not_splitsAt_of_length_le (by rw [List.append_nil])] at h
      cases h
    | cons low behind =>
      have hhalves : isHigh high = true ∧ isLow low = true := by simpa [splitsAt] using h
      exact ⟨before, high, low, behind, List.concat_eq_append, rfl, hhalves⟩

/-- **Reading in two parts costs a character** for a pair that is parted. -/
theorem length_decode_append (us vs : List CodeUnit) :
    (decode us).length + (decode vs).length =
      (decode (us ++ vs)).length + if splitsAt (us ++ vs) us.length then 1 else 0 := by
  cases h : splitsAt (us ++ vs) us.length with
  | false =>
    rw [decode_append_of_not_splitsAt h, List.length_append, if_neg Bool.false_ne_true, Nat.add_zero]
  | true =>
    obtain ⟨before, high, low, behind, rfl, rfl, hhigh, hlow⟩ := exists_halves_of_splitsAt h
    have hnotLow := not_isLow_of_isHigh hhigh
    have hleft := decode_append hnotLow before []
    have hwhole := decode_append hnotLow before (low :: behind)
    have hpair : decode (high :: low :: behind) = pair high low :: decode behind := by
      rw [decode, if_pos (Bool.and_eq_true_iff.mpr ⟨hhigh, hlow⟩)]
    rw [List.append_assoc, List.singleton_append, hwhole, hleft, hpair,
      decode_cons (not_isHigh_of_isLow hlow), if_pos rfl]
    simp only [List.length_append, List.length_cons, decode, List.length_nil]
    omega

/-- Reading gives back what was written. -/
theorem decode_encode (cs : List Char) : decode (encode cs) = cs := by
  induction cs with
  | nil => rfl
  | cons c cs ih =>
    rw [encode, List.flatMap_cons]
    change decode (encodeChar c ++ encode cs) = c :: cs
    rcases encodeChar_cases c with ⟨u, hu⟩ | ⟨high, low, hpair⟩
    · obtain ⟨hsingle, hhigh, -⟩ := single_of_encodeChar hu
      rw [hu, List.singleton_append, decode_cons hhigh, hsingle, ih]
    · obtain ⟨hchar, hhigh, hlow⟩ := pair_of_encodeChar hpair
      rw [hpair, List.cons_append, List.singleton_append, decode,
        if_pos (Bool.and_eq_true_iff.mpr ⟨hhigh, hlow⟩), hchar, ih]

end Utf16

open Utf16

/-! ## Cutting a buffer -/

/-- A cut inside the rest of a buffer parts a pair where the buffer has one. -/
theorem Buffer.splitsAt_rest (b : Buffer) {pos mid : Nat} (hle : pos ≤ mid) (hsize : mid ≤ b.size) :
    splitsAt (b.slice (.between pos b.size)) (mid - pos) =
      (decide (pos < mid) && b.splitsPair mid) := by
  rcases Nat.lt_or_eq_of_le hle with hlt | rfl
  · rw [decide_eq_true hlt, Bool.true_and]
    rcases Nat.lt_or_eq_of_le hsize with hmid | rfl
    · have hslice := b.splitsAt_slice (.between pos b.size) (Nat.sub_pos_of_lt hlt)
        (Nat.sub_lt_sub_right hle hmid)
      rwa [Span.start_between, Nat.add_sub_cancel' hle] at hslice
    · rw [b.not_splitsPair_of_size_le (Nat.le_refl _)]
      exact not_splitsAt_of_length_le (Nat.le_of_eq (b.length_slice (Nat.le_refl _)))
  · rw [Nat.sub_self, not_splitsAt_zero, decide_eq_false (Nat.lt_irrefl _), Bool.false_and]

namespace Echo

variable {b : Buffer}

/-- What is left of a buffer, in characters. -/
def remainder (b : Buffer) (pos : Nat) : List Char := decode (b.slice (.between pos b.size))

/-- Cutting what is left of a buffer costs a character inside a pair, -/
theorem length_remainder_cut {pos mid : Nat} (hle : pos ≤ mid) (hsize : mid ≤ b.size) :
    (decode (b.slice (.between pos mid))).length + (remainder b mid).length =
      (remainder b pos).length + if decide (pos < mid) && b.splitsPair mid then 1 else 0 := by
  have hcut := length_decode_append (b.slice (.between pos mid)) (b.slice (.between mid b.size))
  rwa [b.slice_append hle hsize, b.length_slice hsize, b.splitsAt_rest hle hsize] at hcut

/-- and outside of pairs nothing. -/
theorem remainder_cut {pos mid : Nat} (hle : pos ≤ mid) (hsize : mid ≤ b.size)
    (h : pos < mid → b.splitsPair mid = false) :
    decode (b.slice (.between pos mid)) ++ remainder b mid = remainder b pos := by
  have hwhole : (decide (pos < mid) && b.splitsPair mid) = false := by
    rw [Bool.and_eq_false_iff, decide_eq_false_iff_not]
    exact or_iff_not_imp_left.mpr fun hlt => h (not_not.mp hlt)
  have happend := b.slice_append hle hsize
  have hlen : (b.slice (.between pos mid)).length = mid - pos := b.length_slice hsize
  rw [← b.splitsAt_rest hle hsize, ← happend, ← hlen] at hwhole
  rw [remainder, remainder, ← decode_append_of_not_splitsAt hwhole, happend]

/-! ## Seams -/

/-- **Where an echo passes from one stretch to the next**, from a position on. -/
def seams (pos : Nat) : List SqlTag → List Nat
  | [] => []
  | t :: rest =>
    if t.span.start < pos then seams pos rest
    else (if pos < t.span.start then [t.span.start] else []) ++ t.span.stop :: seams t.span.stop rest

theorem eq_bound_of_mem_seams {pos x : Nat} {tags : List SqlTag} (h : x ∈ seams pos tags) :
    ∃ t ∈ tags, x = t.span.start ∨ x = t.span.stop := by
  fun_induction seams pos tags with
  | case1 => cases h
  | case2 pos t rest hskip ih =>
    obtain ⟨u, hu, hx⟩ := ih h
    exact ⟨u, List.mem_cons_of_mem _ hu, hx⟩
  | case3 pos t rest hskip ih =>
    rcases List.mem_append.mp h with hstart | h
    · refine ⟨t, List.mem_cons_self, Or.inl ?_⟩
      split at hstart
      · exact List.mem_singleton.mp hstart
      · cases hstart
    · rcases List.mem_cons.mp h with rfl | h
      · exact ⟨t, List.mem_cons_self, Or.inr rfl⟩
      · obtain ⟨u, hu, hx⟩ := ih h
        exact ⟨u, List.mem_cons_of_mem _ hu, hx⟩

/-- What the chunks of an echo say, from a position on. -/
def spoken (b : Buffer) (pos : Nat) (tags : List SqlTag) : List Char :=
  (chunksFrom b pos tags).flatMap fun c => c.text.toList

theorem spoken_nil (b : Buffer) (pos : Nat) : spoken b pos [] = remainder b pos := by
  simp [spoken, chunksFrom, Buffer.text, remainder]

theorem spoken_cons_of_lt {pos : Nat} {t : SqlTag} (h : t.span.start < pos) (rest : List SqlTag) :
    spoken b pos (t :: rest) = spoken b pos rest := by
  rw [spoken, chunksFrom, if_pos h, spoken]

theorem spoken_cons_of_le {pos : Nat} {t : SqlTag} (h : pos ≤ t.span.start) (rest : List SqlTag) :
    spoken b pos (t :: rest) = decode (b.slice (.between pos t.span.start)) ++
      (decode (b.slice (.between t.span.start t.span.stop)) ++ spoken b t.span.stop rest) := by
  rw [Span.between_start_stop]
  simp [spoken, chunksFrom, Nat.not_lt.mpr h, Buffer.text]

/-- Tags to be echoed: each of them holds a unit and lies in the buffer. -/
def Echoed (b : Buffer) (tags : List SqlTag) : Prop :=
  ∀ t ∈ tags, 0 < t.span.len ∧ t.span.stop ≤ b.size

theorem Echoed.of_cons {t : SqlTag} {rest : List SqlTag} (h : Echoed b (t :: rest)) :
    t.span.start < t.span.stop ∧ t.span.stop ≤ b.size ∧ Echoed b rest := by
  obtain ⟨⟨hlen, hsize⟩, hrest⟩ := List.forall_mem_cons.mp h
  exact ⟨Nat.lt_add_of_pos_right hlen, hsize, hrest⟩

/-- **Each seam inside a pair makes an echo a character longer.** -/
theorem length_spoken {pos : Nat} {tags : List SqlTag} (htags : Echoed b tags) (hpos : pos ≤ b.size) :
    (spoken b pos tags).length = (remainder b pos).length + (seams pos tags).countP b.splitsPair := by
  fun_induction seams pos tags with
  | case1 pos => rw [spoken_nil, List.countP_nil, Nat.add_zero]
  | case2 pos t rest hskip ih => rw [spoken_cons_of_lt hskip, ih htags.of_cons.2.2 hpos]
  | case3 pos t rest hskip ih =>
    obtain ⟨hlt, hsize, hrest⟩ := htags.of_cons
    have hle : pos ≤ t.span.start := Nat.le_of_not_lt hskip
    have hgap := length_remainder_cut hle (Nat.le_trans (Nat.le_of_lt hlt) hsize)
    have htag := length_remainder_cut (Nat.le_of_lt hlt) hsize
    have hstart : (if pos < t.span.start then [t.span.start] else []).countP b.splitsPair =
        if decide (pos < t.span.start) && b.splitsPair t.span.start then 1 else 0 := by
      by_cases h : pos < t.span.start
      · rw [if_pos h, decide_eq_true h, Bool.true_and, List.countP_singleton]
      · rw [if_neg h, decide_eq_false h]
        rfl
    rw [decide_eq_true hlt, Bool.true_and] at htag
    rw [spoken_cons_of_le hle, List.length_append, List.length_append, ih hrest hsize,
      List.countP_append, List.countP_cons, hstart]
    omega

/-- **An echo without such seams says what is left of the buffer.** Empty tags do no
harm. -/
theorem spoken_eq_remainder {pos : Nat} {tags : List SqlTag}
    (htags : ∀ t ∈ tags, t.span.stop ≤ b.size) (hpos : pos ≤ b.size)
    (hseams : ∀ x ∈ seams pos tags, b.splitsPair x = false) : spoken b pos tags = remainder b pos := by
  fun_induction seams pos tags with
  | case1 pos => exact spoken_nil b pos
  | case2 pos t rest hskip ih =>
    rw [spoken_cons_of_lt hskip, ih (List.forall_mem_cons.mp htags).2 hpos hseams]
  | case3 pos t rest hskip ih =>
    obtain ⟨hsize, hrest⟩ := List.forall_mem_cons.mp htags
    have hle : pos ≤ t.span.start := Nat.le_of_not_lt hskip
    have hstart : pos < t.span.start → b.splitsPair t.span.start = false := fun hgap =>
      hseams _ (by simp [hgap])
    have hstop : b.splitsPair t.span.stop = false := hseams _ (by simp)
    have hbehind : ∀ x ∈ seams t.span.stop rest, b.splitsPair x = false := fun x hx =>
      hseams x (by simp [hx])
    rw [spoken_cons_of_le hle, ih hrest hsize hbehind,
      remainder_cut t.span.start_le_stop hsize fun _ => hstop,
      remainder_cut hle (Nat.le_trans t.span.start_le_stop hsize) hstart]

/-- An echo says what the buffer says exactly if no seam falls inside a pair. -/
theorem spoken_eq_remainder_iff {tags : List SqlTag} (htags : Echoed b tags) :
    spoken b 0 tags = remainder b 0 ↔ ∀ x ∈ seams 0 tags, b.splitsPair x = false := by
  refine ⟨fun h => ?_, spoken_eq_remainder (fun t ht => (htags t ht).2) (Nat.zero_le _)⟩
  have hlen := length_spoken htags (Nat.zero_le _)
  rw [h] at hlen
  have hcount : (seams 0 tags).countP b.splitsPair = 0 := by omega
  exact fun x hx => Bool.eq_false_iff.mpr (List.countP_eq_zero.mp hcount x hx)

/-! ## The echo of a report -/

theorem toList_join_chunks (b : Buffer) (tags : List SqlTag) :
    (String.join ((chunks b tags).map Chunk.text)).toList = spoken b 0 tags := by
  rw [String.toList_join, List.flatMap_map, chunks, spoken]

theorem remainder_ofText (text : String) : remainder (.ofText text) 0 = text.toList := by
  have hunits : (Buffer.ofText text).slice (.between 0 (Buffer.ofText text).size) =
      encode text.toList := by
    rw [Buffer.slice_eq]
    exact List.take_of_length_le (Nat.le_refl _)
  rw [remainder, hunits, decode_encode]

end Echo

/-- The tags of a report can be echoed. -/
theorem Highlighter.echoed_report (h : Highlighter) (b : Buffer) (request : Span) :
    Echo.Echoed b (h.report b (Host.classify b) request).tags := by
  intro t ht
  have hplace := inPlace_of_mem_report ht
  have hlast := (hplace.buffer _ (Span.pred_stop_mem hplace.nonempty)).2
  have hfull : b.full.stop = b.size := Nat.zero_add _
  exact ⟨hplace.nonempty, by omega⟩

/-- **What the echo of a text says.** For any settings and any request, the chunks
of the echo, put together, are the text, exactly if no seam that is a bound of the
request falls inside a surrogate pair. Every other seam is between characters. -/
theorem Session.join_chunks_report (text : String) (h : Highlighter) (request : Option Span) :
    let session : Session := ⟨.ofText text, h⟩
    let tags := (session.report request).tags
    let bounds := request.getD session.buffer.full
    String.join ((Echo.chunks session.buffer tags).map Echo.Chunk.text) = text ↔
      ∀ x ∈ Echo.seams 0 tags, x = bounds.start ∨ x = bounds.stop →
        session.buffer.splitsPair x = false := by
  intro session tags bounds
  have hiff := Echo.spoken_eq_remainder_iff (h.echoed_report session.buffer bounds)
  rw [← String.toList_inj, Echo.toList_join_chunks, ← Echo.remainder_ofText text]
  refine hiff.trans ⟨fun hwhole x hx _ => hwhole x hx, fun hbounds x hx => ?_⟩
  refine Bool.eq_false_iff.mpr fun hsplit => ?_
  obtain ⟨t, ht, hbound⟩ := Echo.eq_bound_of_mem_seams hx
  have hwhole := hbounds x hx (Highlighter.eq_bound_of_splitsPair ht hbound hsplit)
  simp [hwhole] at hsplit

/-- A request for a pair and nothing else. Both of its bounds are seams. -/
theorem Session.join_chunks_report_pair :
    ∃ (text : String) (session : Session) (tags : List SqlTag),
      text = "\"𝐀\"" ∧ session = ⟨.ofText text, {}⟩ ∧
      tags = (session.report (some ⟨1, 2⟩)).tags ∧ tags = [⟨⟨1, 2⟩, .identifier, false⟩] ∧
      String.join ((Echo.chunks session.buffer tags).map Echo.Chunk.text) = text := by
  have htags : (Session.report ⟨.ofText "\"𝐀\"", {}⟩ (some ⟨1, 2⟩)).tags =
      [⟨⟨1, 2⟩, .identifier, false⟩] := by decide +kernel
  refine ⟨_, _, _, rfl, rfl, rfl, htags, ?_⟩
  refine (join_chunks_report _ {} (some ⟨1, 2⟩)).mpr ?_
  rw [htags]
  decide +kernel

/-- A request that ends in the middle of the pair: both halves are echoed, each as
a replacement character. -/
theorem Session.join_chunks_report_halved :
    ∃ (text : String) (session : Session) (tags : List SqlTag),
      text = "\"𝐀\"" ∧ session = ⟨.ofText text, {}⟩ ∧
      tags = (session.report (some ⟨0, 2⟩)).tags ∧ tags = [⟨⟨1, 1⟩, .identifier, false⟩] ∧
      String.join ((Echo.chunks session.buffer tags).map Echo.Chunk.text) = "\"\uFFFD\uFFFD\"" ∧
      String.join ((Echo.chunks session.buffer tags).map Echo.Chunk.text) ≠ text := by
  have htags : (Session.report ⟨.ofText "\"𝐀\"", {}⟩ (some ⟨0, 2⟩)).tags =
      [⟨⟨1, 1⟩, .identifier, false⟩] := by decide +kernel
  refine ⟨_, _, _, rfl, rfl, rfl, htags, ?_⟩
  rw [htags]
  decide +kernel

end EmbeddedSql
