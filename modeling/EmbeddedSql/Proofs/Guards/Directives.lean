import EmbeddedSql.Checked.Report
import EmbeddedSql.Proofs.DirectiveText
import EmbeddedSql.Proofs.Enabling
import EmbeddedSql.Proofs.Guards.Lookups

/-!
# Reading directives without failure

The content of a comment is found by searching from both ends of the slice that
the comment selects. The search from the back starts where the end mark begins,
which is taken off only if there is room for it, and it never passes the place
where the search from the front stopped. What the two find lies in the slice, so
moved to the comment it still lies in the comment, whose stop is a word.

Regions begin and end at the stops of comments and of the request, and a comment
in front of a literal is looked for only if something stands in front.
-/

namespace EmbeddedSql

namespace Checked

open Utf16

/-! ## Searching a comment -/

theorem firstOther_eq {units : List CodeUnit} (hlen : units.length < 2 ^ 62) (u : CodeUnit)
    (i : Nat) :
    firstOther units u i
      = some (if i + ((units.drop i).takeWhile (· == u)).length < units.length
          then some (i + ((units.drop i).takeWhile (· == u)).length) else none) := by
  generalize hrest : units.drop i = rest
  induction rest generalizing i with
  | nil =>
    rw [List.drop_eq_nil_iff] at hrest
    rw [firstOther, if_neg (by omega), if_neg (by omega)]
  | cons v rest ih =>
    obtain ⟨hlt, hv, hrest'⟩ := drop_eq_cons hrest
    rw [firstOther, if_pos hlt, hv, some_bind, List.takeWhile_cons]
    split
    · rw [add_eq (by omega), some_bind, ih _ hrest', List.length_cons, Nat.add_assoc,
        Nat.add_comm 1]
    · rw [List.length_nil, Nat.add_zero, if_pos hlt]
      rfl

theorem lastOther_eq {units : List CodeUnit} (u : CodeUnit) (first : Nat) {past : Nat}
    (hpast : past ≤ units.length) :
    lastOther units u first past
      = some (if (((units.take past).drop first).reverse.dropWhile (· == u)).isEmpty then none
          else some (first
            + (((units.take past).drop first).reverse.dropWhile (· == u)).length - 1)) := by
  induction past with
  | zero =>
    rw [lastOther, if_neg (Nat.not_lt_zero _)]
    simp
  | succ past ih =>
    by_cases hfirst : first < past + 1
    · have hv := List.getElem?_eq_getElem (Nat.lt_of_succ_le hpast)
      generalize units[past] = v at hv
      have hsplit : ((units.take (past + 1)).drop first).reverse
          = v :: ((units.take past).drop first).reverse := by
        rw [List.take_add_one, hv, List.drop_append_of_le_length (by rw [List.length_take]; omega)]
        simp
      rw [lastOther, if_pos hfirst, sub_eq (by omega), some_bind, Nat.add_sub_cancel, hv, some_bind,
        hsplit, List.dropWhile_cons]
      split
      · exact ih (Nat.le_of_succ_le hpast)
      · have hlength : (v :: ((units.take past).drop first).reverse).length = past - first + 1 := by
          simp only [List.length_cons, List.length_reverse, List.length_drop, List.length_take]
          omega
        rw [hlength, List.isEmpty_cons, if_neg Bool.false_ne_true,
          show first + (past - first + 1) - 1 = past by omega]
        rfl
    · rw [lastOther, if_neg hfirst, List.drop_eq_nil_of_le (by rw [List.length_take]; omega)]
      rfl

theorem spanToOther_eq {units : List CodeUnit} (hlen : units.length < 2 ^ 62) (u : CodeUnit)
    (first : Nat) {past : Nat} (hpast : past ≤ units.length) :
    spanToOther units u first past
      = some (if (((units.take past).drop first).reverse.dropWhile (· == u)).isEmpty then none
          else some ⟨first,
            (((units.take past).drop first).reverse.dropWhile (· == u)).length⟩) := by
  have hkept := (List.dropWhile_sublist (l := ((units.take past).drop first).reverse)
    (· == u)).length_le
  rw [List.length_reverse, List.length_drop, List.length_take] at hkept
  rw [spanToOther, lastOther_eq u first hpast, some_bind]
  generalize ((units.take past).drop first).reverse.dropWhile (· == u) = content at hkept ⊢
  cases content with
  | nil => rfl
  | cons v content =>
    rw [List.length_cons] at hkept ⊢
    rw [List.isEmpty_cons, if_neg Bool.false_ne_true, if_neg Bool.false_ne_true]
    dsimp only
    rw [add_eq (by omega), some_bind, Span.between,
      show first + (content.length + 1) - 1 + 1 - first = content.length + 1 by omega]
    rfl

/-- A mark of two units ends a comment behind its first two units if the comment
has room for four. -/
theorem isSuffixOf_behind_two (mark : List CodeUnit) (hmark : mark.length = 2) (a b : CodeUnit)
    (body : List CodeUnit) :
    (4 ≤ (a :: b :: body).length ∧ mark.isSuffixOf (a :: b :: body) = true) ↔
      mark.isSuffixOf body = true := by
  simp only [List.isSuffixOf_iff_suffix, List.length_cons]
  constructor
  · rintro ⟨hroom, hsuffix⟩
    exact List.suffix_of_suffix_length_le hsuffix (List.suffix_append [a, b] body) (by omega)
  · intro hsuffix
    have := hsuffix.length_le
    exact ⟨by omega, hsuffix.trans (List.suffix_append [a, b] body)⟩

/-- Where the end mark of a block comment begins, or the comment ends. -/
theorem sub_endMark (a b : CodeUnit) (body : List CodeUnit) :
    (if 4 ≤ (a :: b :: body).length ∧ [ascii '*', ascii '/'].isSuffixOf (a :: b :: body) then
        sub (a :: b :: body).length 2 else some (a :: b :: body).length)
      = some ((if [ascii '*', ascii '/'].isSuffixOf body then body.length - 2
          else body.length) + 2) := by
  simp only [isSuffixOf_behind_two [ascii '*', ascii '/'] rfl]
  split
  · next hmark =>
    have hroom := (List.isSuffixOf_iff_suffix.mp hmark).length_le
    rw [List.length_cons, List.length_singleton] at hroom
    rw [sub_eq (by simp), Nat.sub_add_cancel hroom]
    rfl
  · rfl

theorem commentContent_eq {comment : List CodeUnit} (hlen : comment.length < 2 ^ 62) :
    commentContent comment = some (commentContent? comment) := by
  match comment with
  | [] => rfl
  | [a] => rfl
  | a :: b :: body =>
    have hdrop : (a :: b :: body).drop 2 = body := rfl
    have hlength : (a :: b :: body).length = body.length + 2 := rfl
    unfold commentContent commentContent?
    dsimp only
    split
    · rw [firstOther_eq hlen, some_bind, hdrop, hlength]
      generalize (body.takeWhile (· == ascii '/')).length = lead
      by_cases hlead : lead < body.length
      · rw [if_pos (by omega), if_pos hlead, Option.map_some, Span.between,
          show body.length + 2 - (2 + lead) = body.length - lead by omega]
        rfl
      · rw [if_neg (by omega), if_neg hlead]
        rfl
    · split
      · have hend := sub_endMark a b body
        generalize hstop : (if [ascii '*', ascii '/'].isSuffixOf body then body.length - 2
          else body.length) = last at hend ⊢
        have hlast : last ≤ body.length := by
          rw [← hstop]
          split <;> omega
        rw [firstOther_eq hlen, some_bind, hdrop, hlength]
        generalize (body.takeWhile (· == ascii '*')).length = lead
        by_cases hlead : lead < body.length
        · have hinside : ((a :: b :: body).take (last + 2)).drop (2 + lead)
              = (body.take last).drop lead := by
            rw [Nat.add_comm 2 lead]
            rfl
          rw [if_pos (by omega)]
          dsimp only
          rw [hlength] at hend
          rw [hend, some_bind, spanToOther_eq hlen _ _ (by rw [hlength]; omega), hinside]
        · rw [if_neg (by omega), List.drop_eq_nil_of_le (by rw [List.length_take]; omega)]
          rfl
      · rfl

theorem directiveAt_eq (b : Buffer) {s : Span} (hs : s.stop < 2 ^ 62) :
    directiveAt b s = some (directiveAt? b s) := by
  have hlen := b.length_slice_le s
  rw [Span.stop] at hs
  rw [directiveAt, slice_eq b (by rw [Span.stop]; omega), some_bind,
    commentContent_eq (by omega), some_bind, directiveAt?]
  cases hcontent : commentContent? (b.slice s) with
  | none => rfl
  | some content =>
    have hstop := stop_le_of_commentContent? hcontent
    rw [Span.stop] at hstop
    dsimp only
    rw [shift_eq (by omega), some_bind,
      slice_eq b (by rw [Span.stop_shift, Span.stop]; omega)]
    rfl

/-! ## Regions -/

section Regions

variable {b : Buffer} {last : Nat} {comments : List Span}
  (hcomments : ∀ comment ∈ comments, comment.stop < 2 ^ 62)

include hcomments in
theorem regionsFrom_eq (since : Option Nat) :
    regionsFrom b last since comments
      = some (Regions.walk (directiveAt? b) last since comments) := by
  fun_induction Regions.walk (directiveAt? b) last since comments with
  | case1 since => rfl
  | case2 comment rest hdirective ih =>
    obtain ⟨hstop, hrest⟩ := List.forall_mem_cons.mp hcomments
    rw [regionsFrom, directiveAt_eq b hstop, some_bind, hdirective]
    dsimp only
    rw [stop_eq (by omega), some_bind, ih hrest]
  | case3 comment rest start hdirective ih =>
    obtain ⟨hstop, hrest⟩ := List.forall_mem_cons.mp hcomments
    rw [regionsFrom, directiveAt_eq b hstop, some_bind, hdirective]
    dsimp only
    rw [stop_eq (by omega), some_bind, ih hrest]
    rfl
  | case4 since comment rest hon hoff ih =>
    obtain ⟨hstop, hrest⟩ := List.forall_mem_cons.mp hcomments
    rw [regionsFrom, directiveAt_eq b hstop, some_bind]
    split
    · next hdirective => exact absurd rfl (hon hdirective)
    · next start hdirective => exact absurd rfl (hoff start hdirective)
    · exact ih hrest

include hcomments in
theorem stop_lt_of_mem_walk (hlast : last < 2 ^ 62) {since : Option Nat}
    (hsince : ∀ start ∈ since, start < 2 ^ 62) {s : Span}
    (hs : s ∈ Regions.walk (directiveAt? b) last since comments) : s.stop < 2 ^ 62 := by
  fun_induction Regions.walk (directiveAt? b) last since comments with
  | case1 since =>
    obtain ⟨start, hstart, rfl⟩ := List.mem_map.mp hs
    have := hsince start (Option.mem_toList.mp hstart)
    rw [Span.stop_between]
    omega
  | case2 comment rest _ ih =>
    obtain ⟨hstop, hrest⟩ := List.forall_mem_cons.mp hcomments
    exact ih hrest (fun start hstart => by rwa [← Option.some_inj.mp hstart]) hs
  | case3 comment rest start _ ih =>
    obtain ⟨hstop, hrest⟩ := List.forall_mem_cons.mp hcomments
    rcases List.mem_cons.mp hs with rfl | hs
    · have := hsince start rfl
      rw [Span.stop_between]
      omega
    · exact ih hrest (by simp) hs
  | case4 since comment rest _ _ ih =>
    exact ih (List.forall_mem_cons.mp hcomments).2 hsince hs

end Regions

section Enabling

variable {b : Buffer} {index : TagIndex} (hix : ∀ t ∈ index.toList, t.span.stop < 2 ^ 62)

include hix in
/-- The regions before they are joined. -/
theorem stop_lt_of_mem_regions {request : Span} (hrequest : request.stop < 2 ^ 62)
    {byDefault : Bool} {s : Span} (hs : s ∈ Regions.walk (directiveAt? b) request.stop
      (if byDefault then some 0 else none)
      (index.spansOf .comment (Span.between 0 request.stop)).toList) : s.stop < 2 ^ 62 := by
  refine stop_lt_of_mem_walk (fun c hc => stop_lt_of_mem_spansOf hix hc) hrequest ?_ hs
  cases byDefault <;> simp

include hix in
theorem enabledRegions_eq {request : Span} (hrequest : request.stop < 2 ^ 62) (byDefault : Bool) :
    enabledRegions b index request byDefault
      = some (EmbeddedSql.enabledRegions b index request byDefault).toList := by
  have hprobe := stop_probe_le (Span.between 0 request.stop)
  rw [Span.stop_between] at hprobe
  rw [enabledRegions, stop_eq (by omega), some_bind, spansOf_eq hix (by omega), some_bind,
    regionsFrom_eq fun c hc => stop_lt_of_mem_spansOf hix hc, some_bind, EmbeddedSql.enabledRegions,
    SpanSet.ofSpans, SpanSet.toList_ofNormal]
  exact normalize_eq fun s hs => Nat.lt_trans (stop_lt_of_mem_regions hix hrequest hs) (by decide)

include hix in
theorem stop_lt_of_mem_enabledRegions {request : Span} (hrequest : request.stop < 2 ^ 62)
    {byDefault : Bool} {s : Span}
    (hs : s ∈ (EmbeddedSql.enabledRegions b index request byDefault).toList) : s.stop < 2 ^ 62 :=
  SpanSet.stop_lt_of_mem_ofSpans (fun _ ht => stop_lt_of_mem_regions hix hrequest ht) hs

include hix in
theorem inlineOverride_eq {start : Nat} (hstart : start < 2 ^ 62) :
    inlineOverride b index start = some (inlineOverride? b index start) := by
  cases start with
  | zero => rfl
  | succ pos =>
    rw [inlineOverride, if_neg (Nat.succ_ne_zero pos), sub_eq (by omega), some_bind,
      Nat.add_sub_cancel, firstComment_eq hix (by omega), some_bind, inlineOverride?]
    cases hcomment : index.firstComment? pos with
    | none => rfl
    | some comment =>
      obtain ⟨t, ht, -, rfl⟩ := TagIndex.firstComment?_eq_some hcomment
      dsimp only
      rw [directiveAt_eq b (hix t ht), some_bind, Option.bind_some]
      cases directiveAt? b t.span with
      | none => rfl
      | some directive => cases directive <;> rfl

end Enabling

end Checked

end EmbeddedSql
