import EmbeddedSql.Proofs.Echoing

/-!
# Which tags an echo writes

An echo is not only made of the tags of a report. It takes any list of tags, in any
order, some over others, some empty, and keeps one position while it goes through
them: a tag that begins before that position is left out, and one that is written
moves it to its end. So a tag that is written may shut out any number of those that
follow it in the list, whether or not they overlap it.

What is written is nevertheless the buffer, each unit of it once, since whatever a
tag leaves behind becomes part of the gap before the next (`chunks_tile`). And
although the position is all that the echo remembers, the rule can be said of the
tags alone: a tag is written unless it begins before the end of the tag written last.
-/

namespace EmbeddedSql

open Utf16

namespace Echo

variable {b : Buffer}

/-- The chunk of a tag. -/
def Chunk.ofTag (b : Buffer) (t : SqlTag) : Chunk := ⟨b.text t.span, some (t.category, t.escape)⟩

/-- Whether a chunk is that of a tag. -/
def Chunk.isTagged (c : Chunk) : Bool := c.look.isSome

/-- The tags that are written from a position on, each with its place in the list,
which is counted from `k`. -/
def written (pos k : Nat) : List SqlTag → List (SqlTag × Nat)
  | [] => []
  | t :: rest =>
    if t.span.start < pos then written pos (k + 1) rest
    else (t, k) :: written t.span.stop (k + 1) rest

/-- The chunks of tags are those of the written tags, in order. -/
theorem filter_chunksFrom (b : Buffer) (pos k : Nat) (tags : List SqlTag) :
    (chunksFrom b pos tags).filter Chunk.isTagged =
      (written pos k tags).map fun w => Chunk.ofTag b w.1 := by
  fun_induction written pos k tags with
  | case1 => rfl
  | case2 pos k t rest hskip ih => rw [chunksFrom, if_pos hskip, ih]
  | case3 pos k t rest hskip ih =>
    rw [chunksFrom, if_neg hskip, List.map_cons, ← ih]
    rfl

theorem written_sublist (pos k : Nat) (tags : List SqlTag) :
    (written pos k tags).Sublist (tags.zipIdx k) := by
  fun_induction written pos k tags with
  | case1 => exact List.Sublist.refl []
  | case2 pos k t rest _ ih => exact ih.cons _
  | case3 pos k t rest _ ih => exact ih.cons_cons _

theorem le_of_mem_written {pos k : Nat} {tags : List SqlTag} {w : SqlTag × Nat}
    (h : w ∈ written pos k tags) : k ≤ w.2 :=
  (List.mem_zipIdx ((written_sublist pos k tags).mem h)).1

/-- The written tags before a place of the list. -/
def before (i : Nat) (tags : List (SqlTag × Nat)) : List (SqlTag × Nat) := tags.filter (·.2 < i)

/-- Where the last of some tags ends, or a position if there is none. -/
def lastStop (pos : Nat) (tags : List (SqlTag × Nat)) : Nat :=
  tags.getLast?.elim pos fun w => w.1.span.stop

theorem lastStop_cons (pos : Nat) (w : SqlTag × Nat) (tags : List (SqlTag × Nat)) :
    lastStop pos (w :: tags) = lastStop w.1.span.stop tags := by
  rw [lastStop, lastStop, List.getLast?_cons]
  cases tags.getLast? with
  | none => rfl
  | some last => rfl

theorem before_written_of_le {pos k i : Nat} (hi : i ≤ k) (tags : List SqlTag) :
    before i (written pos k tags) = [] := by
  refine List.filter_eq_nil_iff.mpr fun w hw => ?_
  have hle := le_of_mem_written hw
  rw [decide_eq_true_eq]
  omega

/-- **What is written next begins where the tag written last has ended, or behind
that.** -/
theorem mem_written_iff {pos k i : Nat} {t : SqlTag} {tags : List SqlTag}
    (h : (t, i) ∈ tags.zipIdx k) :
    (t, i) ∈ written pos k tags ↔
      lastStop pos (before i (written pos k tags)) ≤ t.span.start := by
  fun_induction written pos k tags with
  | case1 => cases h
  | case2 pos k u rest hskip ih =>
    rcases List.mem_cons.mp h with heq | h
    · cases heq
      have hout : (t, i) ∉ written pos (i + 1) rest := fun hmem =>
        Nat.not_succ_le_self i (le_of_mem_written hmem)
      rw [before_written_of_le (Nat.le_succ i)]
      exact iff_of_false hout (Nat.not_le_of_lt hskip)
    · exact ih h
  | case3 pos k u rest hskip ih =>
    rcases List.mem_cons.mp h with heq | h
    · cases heq
      have hnone : before i ((t, i) :: written t.span.stop (i + 1) rest) = [] := by
        rw [before, List.filter_cons_of_neg (by simp)]
        exact before_written_of_le (Nat.le_succ i) rest
      rw [hnone]
      exact iff_of_true List.mem_cons_self (Nat.le_of_not_lt hskip)
    · have hlt : k < i := (List.mem_zipIdx h).1
      have hne : (t, i) ≠ (u, k) := fun heq => Nat.ne_of_gt hlt (congrArg Prod.snd heq)
      rw [List.mem_cons, or_iff_right hne, before, List.filter_cons_of_pos (by simpa using hlt),
        lastStop_cons]
      exact ih h

/-- **An echo of any tags says what the buffer says, and leaves out only what comes too
late.** The tags may come in any order, lie over one another and be empty, as long as
they lie in the buffer and keep surrogate pairs whole. The chunks that are tagged are
those of some of the tags, in the order of the list, and a tag is among them exactly
if it does not begin before the end of the last one among them that stands before it
in the list. -/
theorem chunks_tile {tags : List SqlTag} (hbuffer : ∀ t ∈ tags, t.span.stop ≤ b.size)
    (hpairs : ∀ t ∈ tags, KeepsPairs b t.span) :
    String.join ((chunks b tags).map Chunk.text) = b.text b.full ∧
      ∃ written : List (SqlTag × Nat), written.Sublist tags.zipIdx ∧
        (chunks b tags).filter Chunk.isTagged = written.map (fun w => Chunk.ofTag b w.1) ∧
        ∀ t i, (t, i) ∈ tags.zipIdx → ((t, i) ∈ written ↔
          ∀ last, (written.filter (·.2 < i)).getLast? = some last →
            ¬ t.span.start < last.1.span.stop) := by
  refine ⟨?_, written 0 0 tags, written_sublist 0 0 tags, filter_chunksFrom b 0 0 tags,
    fun t i h => ?_⟩
  · have hseams : ∀ x ∈ seams 0 tags, b.splitsPair x = false := fun x hx => by
      obtain ⟨t, ht, rfl | rfl⟩ := eq_bound_of_mem_seams hx
      · exact (hpairs t ht).start
      · exact (hpairs t ht).stop
    rw [← String.toList_inj, toList_join_chunks,
      spoken_eq_remainder hbuffer (Nat.zero_le _) hseams, Buffer.text, String.toList_ofList]
    rfl
  · rw [mem_written_iff h, before, lastStop]
    cases ((written 0 0 tags).filter (·.2 < i)).getLast? with
    | none => simp
    | some last => simp

/-- A tag for a surrogate pair, one over it that begins before it, an empty one behind
it, and one that ends with half a pair. The second is left out. -/
theorem chunks_tile_overlapping :
    ∃ (b : Buffer) (tags : List SqlTag),
      b = .ofUnits (encode "a𝐀b".toList ++ [0xD835]) ∧
      tags = [⟨⟨1, 2⟩, .identifier, false⟩, ⟨⟨0, 4⟩, .keyword, false⟩, ⟨⟨3, 0⟩, .number, true⟩,
        ⟨⟨3, 2⟩, .string, false⟩] ∧
      (∀ t ∈ tags, t.span.stop ≤ b.size) ∧ (∀ t ∈ tags, KeepsPairs b t.span) ∧
      b.text b.full = "a𝐀b\uFFFD" ∧
      String.join ((chunks b tags).map Chunk.text) = b.text b.full ∧
      ∃ written : List (SqlTag × Nat), written.Sublist tags.zipIdx ∧
        (chunks b tags).filter Chunk.isTagged = written.map (fun w => Chunk.ofTag b w.1) ∧
        ∀ t i, (t, i) ∈ tags.zipIdx → ((t, i) ∈ written ↔
          ∀ last, (written.filter (·.2 < i)).getLast? = some last →
            ¬ t.span.start < last.1.span.stop) := by
  refine ⟨_, _, rfl, rfl, ?hbuffer, ?hpairs, by decide +kernel, chunks_tile ?hbuffer ?hpairs⟩
  case hbuffer => decide +kernel
  case hpairs =>
    have hbounds : ∀ t ∈ ([⟨⟨1, 2⟩, .identifier, false⟩, ⟨⟨0, 4⟩, .keyword, false⟩,
        ⟨⟨3, 0⟩, .number, true⟩, ⟨⟨3, 2⟩, .string, false⟩] : List SqlTag),
        ∀ x ∈ [t.span.start, t.span.stop],
          (Buffer.ofUnits (encode "a𝐀b".toList ++ [0xD835])).splitsPair x = false := by
      decide +kernel
    exact fun t ht => ⟨hbounds t ht _ (by simp), hbounds t ht _ (by simp)⟩

end Echo

end EmbeddedSql
