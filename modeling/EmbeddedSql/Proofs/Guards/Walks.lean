import EmbeddedSql.Proofs.Guards.Lookups

/-!
# Walks across holes, with a depth that may not fit

The guards of a walk stand apart from what they protect. Backward, the loop over
the inside of a hole asks for three positions and gives one away in each round,
so a brace it finds is at position two at the earliest, and the step across that
brace has a position to go to. Forward, a brace found has a position behind it
inside the buffer. None of this depends on the depth of nesting, and that is as
well, because the word in which the depth is counted can be too small for it.

What that does to a walk is the subject of `Ends`. Every brace that is open
stands at a position of its own, so the depth and what is left of the buffer
never exceed its size together. Where sums that do not fit are refused, a walk
is refused only in a buffer of more than `2 ^ 31` units, and the depth is right
as long as it is not. Where such sums wrap, no walk is refused. The word then
holds the depth up to multiples of `2 ^ 32`, so it is zero when the depth is, and
at no other time in a buffer of up to `2 ^ 32` units. Beyond that a walk may
take another brace for the one that matches, but no position outside the buffer.
-/

namespace EmbeddedSql

namespace Checked

/-! ## Words of 32 bits -/

theorem wrap_eq_self {n : Int} (hlo : -2 ^ 31 ≤ n) (hhi : n < 2 ^ 31) : wrap n = n := by
  unfold wrap
  omega

/-- Wrapping early or late makes no difference. -/
theorem wrap_wrap_add (n k : Int) : wrap (wrap n + k) = wrap (n + k) := by
  unfold wrap
  omega

theorem fit_of_fits (o : Overflow) {n : Int} (hlo : -2 ^ 31 ≤ n) (hhi : n < 2 ^ 31) :
    o.fit n = some n := if_pos ⟨hlo, hhi⟩

/-- A sum that passes is right in its lower bits. -/
theorem wrap_of_fit {o : Overflow} {n m : Int} (h : o.fit n = some m) : m = wrap n := by
  unfold Overflow.fit at h
  split at h
  · next hfits =>
    cases h
    exact (wrap_eq_self hfits.1 hfits.2).symm
  · cases o with
    | wraps => exact (Option.some.inj h).symm
    | refuses => cases h

/-- The least sum that does not fit. -/
example : Overflow.wraps.fit (2 ^ 31) = some (-2 ^ 31) ∧ Overflow.refuses.fit (2 ^ 31) = none := by
  decide

theorem fits_of_fit {n m : Int} (h : Overflow.refuses.fit n = some m) : m = n ∧ n < 2 ^ 31 := by
  unfold Overflow.fit at h
  split at h
  · next hfits => exact ⟨(Option.some.inj h).symm, hfits.2⟩
  · cases h

theorem refuses_of_fit {o : Overflow} {n : Int} (h : o.fit n = none) : o = .refuses := by
  unfold Overflow.fit at h
  split at h
  · cases h
  · cases o with
    | wraps => cases h
    | refuses => rfl

/-! ## A word that follows a depth -/

/-- **A word follows a depth of nesting**, in a buffer of a size, with room left
for some more braces to open. -/
structure Follows (o : Overflow) (size : Nat) (nesting : Int) (depth room : Nat) : Prop where
  /-- Some brace is open. -/
  pos : 1 ≤ depth
  /-- The open braces and the room are apart. -/
  apart : depth + room ≤ size
  /-- The word has the lower bits of the depth. -/
  word : nesting = wrap depth
  /-- Where nothing but what fits goes on, the depth fits. -/
  fits : o = .refuses → depth < 2 ^ 31

namespace Follows

variable {o : Overflow} {size : Nat} {nesting next : Int} {depth room : Nat}

theorem one (o : Overflow) (h : 1 + room ≤ size) : Follows o size 1 1 room :=
  ⟨Nat.le_refl 1, h, rfl, fun _ => by decide⟩

theorem pass (h : Follows o size nesting depth (room + 1)) : Follows o size nesting depth room :=
  ⟨h.pos, Nat.le_of_succ_le h.apart, h.word, h.fits⟩

/-- A word that refuses holds the depth itself. -/
theorem eq_depth (h : Follows .refuses size nesting depth room) : nesting = depth := by
  have := h.fits rfl
  rw [h.word]
  exact wrap_eq_self (by omega) (by omega)

theorem deeper (h : Follows o size nesting depth (room + 1))
    (hfit : o.fit (nesting + 1) = some next) : Follows o size next (depth + 1) room := by
  refine ⟨Nat.succ_le_succ (Nat.zero_le depth), by have := h.apart; omega, ?_, ?_⟩
  · rw [wrap_of_fit hfit, h.word, wrap_wrap_add]
    rfl
  · rintro rfl
    have := (fits_of_fit hfit).2
    have := h.eq_depth
    omega

/-- **Only a large buffer has room for a depth that is refused.** -/
theorem lt_size (h : Follows .refuses size nesting depth (room + 1)) (hroom : 1 ≤ room)
    (hfit : Overflow.refuses.fit (nesting + 1) = none) : 2 ^ 31 < size := by
  have heq := h.eq_depth
  have happart := h.apart
  by_contra hsize
  rw [fit_of_fits .refuses (by omega) (by omega)] at hfit
  cases hfit

/-- The depth can always be taken one from. -/
theorem fit_pred_ne_none (h : Follows .refuses size nesting depth room) :
    Overflow.refuses.fit (nesting - 1) ≠ none := by
  have heq := h.eq_depth
  have hpos := h.pos
  have hfits := h.fits rfl
  rw [fit_of_fits .refuses (by omega) (by omega)]
  exact Option.some_ne_none _

/-- **The word is zero when the depth is.** -/
theorem eq_zero_iff (h : Follows o size nesting depth (room + 1))
    (hsize : o = .refuses ∨ size ≤ 2 ^ 32) (hfit : o.fit (nesting - 1) = some next) :
    next = 0 ↔ depth ≤ 1 := by
  have hpos := h.pos
  have happart := h.apart
  have hsmall : depth ≤ 2 ^ 32 := by
    rcases hsize with ho | hsize
    · exact Nat.le_of_lt (Nat.lt_trans (h.fits ho) (by decide))
    · omega
  rw [wrap_of_fit hfit, h.word, Int.sub_eq_add_neg, wrap_wrap_add]
  unfold wrap
  omega

theorem shallower (h : Follows o size nesting depth (room + 1)) (hdepth : 1 < depth)
    (hfit : o.fit (nesting - 1) = some next) : Follows o size next (depth - 1) room := by
  refine ⟨Nat.le_sub_one_of_lt hdepth, by have := h.apart; omega, ?_, fun ho => ?_⟩
  · rw [wrap_of_fit hfit, h.word, Int.sub_eq_add_neg, wrap_wrap_add]
    congr 1
    omega
  · exact Nat.lt_of_le_of_lt (Nat.sub_le depth 1) (h.fits ho)

end Follows

/-! ## How a run ends -/

/-- No depth in the buffer can be mistaken for zero. -/
def Reliable (o : Overflow) (b : Buffer) : Prop := o = .refuses ∨ b.size ≤ 2 ^ 32

/-- **How a run ends** that counts depths on its way, where `want` is what it
comes to if depths are counted without a bound. -/
inductive Ends {α : Type} (o : Overflow) (b : Buffer) (good : α → Prop) (want : α) :
    Option α → Prop where
  /-- A depth was refused. -/
  | refused (ho : o = .refuses) (hsize : 2 ^ 31 < b.size) : Ends o b good want none
  /-- The run has an outcome. -/
  | ended {x : α} (hgood : good x) (heq : Reliable o b → x = want) : Ends o b good want (some x)

namespace Ends

variable {α β : Type} {o : Overflow} {b : Buffer} {good : α → Prop} {want : α} {run : Option α}

/-- One run after another. -/
theorem bind {good' : β → Prop} {want' : β} {f : α → Option β} (h : Ends o b good want run)
    (hf : ∀ x, good x → (Reliable o b → x = want) → Ends o b good' want' (f x)) :
    Ends o b good' want' (run >>= f) := by
  cases h with
  | refused ho hsize => exact .refused ho hsize
  | ended hgood heq => exact hf _ hgood heq

theorem imp {good' : α → Prop} {want' : α} (h : Ends o b good want run)
    (hgood : ∀ x, good x → good' x) (hwant : Reliable o b → want = want') :
    Ends o b good' want' run := by
  cases h with
  | refused ho hsize => exact .refused ho hsize
  | ended hx heq => exact .ended (hgood _ hx) fun hr => (heq hr).trans (hwant hr)

theorem exists_eq_some (h : Ends o b good want run) (ho : o = .wraps ∨ b.size ≤ 2 ^ 31) :
    ∃ x, run = some x := by
  cases h with
  | refused hrefuses hsize =>
    rcases ho with rfl | hsmall
    · cases hrefuses
    · omega
  | ended => exact ⟨_, rfl⟩

theorem eq_of_eq_some {x : α} (h : Ends o b good want run) (hrun : run = some x)
    (hr : o = .refuses ∨ b.size ≤ 2 ^ 32) : x = want := by
  cases h with
  | refused => cases hrun
  | ended _ heq => exact (Option.some.inj hrun).symm.trans (heq hr)

end Ends

/-! ## Meeting a brace -/

section Braces

variable {o : Overflow} {b : Buffer} {good : Option Nat → Prop} {want : Option Nat}
  {run : Int → Option (Option Nat)} {nesting : Int} {depth room : Nat}

/-- A brace that leads deeper, which may be too deep. -/
theorem ends_deeper (hdepth : Reliable o b → Follows o b.size nesting depth (room + 1))
    (hroom : 1 ≤ room)
    (hrun : ∀ next, (Reliable o b → Follows o b.size next (depth + 1) room) →
      Ends o b good want (run next)) :
    Ends o b good want (o.fit (nesting + 1) >>= run) := by
  cases hfit : o.fit (nesting + 1) with
  | none =>
    obtain rfl := refuses_of_fit hfit
    exact .refused rfl ((hdepth (.inl rfl)).lt_size hroom hfit)
  | some next => exact hrun next fun hr => (hdepth hr).deeper hfit

/-- A brace that leads out of the hole, or out of one inside it. -/
theorem ends_shallower {here : Nat}
    (hdepth : Reliable o b → Follows o b.size nesting depth (room + 1)) (hhere : good (some here))
    (hrun : ∀ next, (Reliable o b → Follows o b.size next (depth - 1) room) →
      Ends o b good want (run next)) :
    Ends o b good (if depth ≤ 1 then some here else want)
      (o.fit (nesting - 1) >>= fun next => if next = 0 then pure (some here) else run next) := by
  cases hfit : o.fit (nesting - 1) with
  | none =>
    obtain rfl := refuses_of_fit hfit
    exact absurd hfit (hdepth (.inl rfl)).fit_pred_ne_none
  | some next =>
    have hzero := fun hr => (hdepth hr).eq_zero_iff hr hfit
    rw [some_bind]
    by_cases hnext : next = 0
    · rw [if_pos hnext]
      exact .ended hhere fun hr => (if_pos ((hzero hr).mp hnext)).symm
    · have hdeep := fun hr => Nat.lt_of_not_le (mt (hzero hr).mpr hnext)
      rw [if_neg hnext]
      exact (hrun next fun hr => (hdepth hr).shallower (hdeep hr) hfit).imp (fun _ h => h)
        fun hr => (if_neg (Nat.not_le.mpr (hdeep hr))).symm

end Braces

/-! ## Crossing holes -/

section Walks

variable {o : Overflow} {b : Buffer} {index : TagIndex} (hb : b.size < 2 ^ 62)
  (hix : ∀ t ∈ index.toList, t.span.stop < 2 ^ 62)

include hix in
/-- The depth without a bound is of use only where the word can be relied on to
follow it. Where it cannot, the position alone bounds what is found. -/
theorem matchBackward_ends {nesting : Int} {depth pos : Nat} (hpos : pos < 2 ^ 62)
    (hdepth : Reliable o b → Follows o b.size nesting depth pos) :
    Ends o b (fun found => ∀ first ∈ found, 2 ≤ first ∧ first < pos)
      (Stitch.matchBackward b index depth pos) (matchBackward o b index nesting pos) := by
  induction pos generalizing nesting depth with
  | zero =>
    rw [matchBackward, if_pos (by omega)]
    exact .ended (by simp) fun _ => rfl
  | succ pos ih =>
    have hmore : ∀ found : Option Nat, (∀ first ∈ found, 2 ≤ first ∧ first < pos) →
        ∀ first ∈ found, 2 ≤ first ∧ first < pos + 1 := fun found h first hmem =>
      ⟨(h first hmem).1, Nat.lt_succ_of_lt (h first hmem).2⟩
    rw [matchBackward, Stitch.matchBackward]
    by_cases hroom : pos < 2
    · rw [if_pos hroom, if_pos (by omega)]
      exact .ended (by simp) fun _ => rfl
    · rw [if_neg hroom, if_neg (show ¬ pos + 1 ≤ 2 by omega), sub_eq (Nat.le_add_left 1 pos),
        Nat.add_sub_cancel]
      simp only [some_bind, isHoleBrace_eq hix b (show pos + 1 < 2 ^ 64 by omega)]
      split
      · refine ends_shallower hdepth ?_ fun next hnext => (ih (by omega) hnext).imp hmore fun _ => rfl
        rintro first ⟨⟩
        omega
      · split
        · exact ends_deeper hdepth (by omega) fun next hnext =>
            (ih (by omega) hnext).imp hmore fun _ => rfl
        · exact (ih (by omega) fun hr => (hdepth hr).pass).imp hmore fun _ => rfl

include hix in
theorem beforeHoles_ends {pos : Nat} (hpos : pos < 2 ^ 62) :
    Ends o b (fun step => ∀ s, step = .fragment s → s.start ≤ pos ∧ s.stop < 2 ^ 62)
      (Stitch.beforeHoles b index pos) (beforeHoles o b index pos) := by
  induction pos using Nat.strongRecOn with
  | ind pos ih =>
    rw [beforeHoles, Stitch.beforeHoles_eq, isHoleBrace_eq hix b (by omega), some_bind]
    split
    · next hclose =>
      have hlt := Host.lt_size_of_isAt (Stitch.isAt_of_isHoleBrace hclose)
      refine (matchBackward_ends hix hpos fun _ => .one o (by omega)).bind fun found hfound heq => ?_
      cases found with
      | none => exact .ended (by simp) fun hr => by rw [← heq hr]
      | some first =>
        -- The loop that found the brace left two positions before it.
        obtain ⟨htwo, hfirst⟩ := hfound first rfl
        simp only [sub_eq (show 1 ≤ first by omega), some_bind,
          previousString_eq hix (show first - 1 + 1 < 2 ^ 64 by omega)]
        cases hprev : index.previousString? (first - 1) with
        | none =>
          dsimp only
          by_cases hnear : b.isAt (first - 1) '\x7d' = true
          · rw [if_pos hnear, if_pos (by omega)]
            refine (ih (first - 1) (by omega) (by omega)).imp ?_ fun hr => ?_
            · exact fun step h s hs => ⟨Nat.le_trans (h s hs).1 (by omega), (h s hs).2⟩
            · simp only [← heq hr, hprev, if_pos hnear]
          · rw [if_neg hnear]
            exact .ended (by simp) fun hr => by simp only [← heq hr, hprev, if_neg hnear]
        | some prev =>
          simp only [extendBackward_eq hix (stop_lt_of_previousString? hix hprev), some_bind]
          refine .ended (fun s hs => ?_) fun hr => by simp only [← heq hr, hprev]
          cases hs
          refine ⟨?_, stop_extendBackward_lt (stop_lt_of_previousString? hix hprev)⟩
          have h₁ := TagIndex.start_le_of_previousString? hprev
          have h₂ := Stitch.start_extendBackward_le index prev
          omega
    · exact .ended (by simp) fun _ => rfl

include hix in
theorem walkBackward_ends {edge : Span} (hedge : edge.stop < 2 ^ 62) :
    Ends o b (fun found => ∀ s ∈ found.1, s.stop < 2 ^ 62)
      (Stitch.walkBackward b index edge) (walkBackward o b index edge) := by
  induction hn : edge.start using Nat.strongRecOn generalizing edge with
  | ind n ih =>
    have hle := edge.start_le_stop
    rw [walkBackward, Stitch.walkBackward_eq]
    split
    · next hroom =>
      rw [sub_eq (by omega), some_bind]
      refine (beforeHoles_ends hix (by omega)).bind fun step hstep heq => ?_
      cases step with
      | edge => exact .ended (by simp) fun hr => by rw [← heq hr]
      | unresolvable => exact .ended (by simp) fun hr => by rw [← heq hr]
      | fragment prev =>
        obtain ⟨hstart, hstop⟩ := hstep prev rfl
        dsimp only
        rw [if_pos (by omega)]
        refine (ih prev.start (by omega) hstop rfl).bind fun more hmore hrest => ?_
        refine .ended (List.forall_mem_cons.mpr ⟨hstop, hmore⟩) fun hr => ?_
        rw [← heq hr, hrest hr]
    · exact .ended (by simp) fun _ => rfl

include hb hix in
theorem matchForward_ends {nesting : Int} {depth pos : Nat} (hpos : pos < 2 ^ 62)
    (hdepth : Reliable o b → Follows o b.size nesting depth (b.size - (pos + 1))) :
    Ends o b (fun found => ∀ last ∈ found, pos < last ∧ last + 1 < b.size)
      (Stitch.matchForward b index depth pos) (matchForward o b index nesting pos) := by
  induction hn : b.size - pos using Nat.strongRecOn generalizing nesting depth pos with
  | ind n ih =>
    have hmore : ∀ found : Option Nat, (∀ last ∈ found, pos + 1 < last ∧ last + 1 < b.size) →
        ∀ last ∈ found, pos < last ∧ last + 1 < b.size := fun found h last hmem =>
      ⟨Nat.lt_of_succ_lt (h last hmem).1, (h last hmem).2⟩
    rw [matchForward, Stitch.matchForward, add_eq (by omega), some_bind]
    by_cases hroom : pos + 2 < b.size
    · rw [show b.size - (pos + 1) = b.size - (pos + 1 + 1) + 1 by omega] at hdepth
      rw [if_pos hroom, if_neg (show ¬ b.size ≤ pos + 2 by omega), add_eq (by omega)]
      simp only [some_bind, isHoleBrace_eq hix b (show pos + 1 + 1 < 2 ^ 64 by omega)]
      split
      · refine ends_shallower hdepth ?_ fun next hnext =>
          (ih _ (by omega) (by omega) hnext rfl).imp hmore fun _ => rfl
        rintro last ⟨⟩
        omega
      · split
        · exact ends_deeper hdepth (by omega) fun next hnext =>
            (ih _ (by omega) (by omega) hnext rfl).imp hmore fun _ => rfl
        · exact (ih _ (by omega) (by omega) (fun hr => (hdepth hr).pass) rfl).imp hmore
            fun _ => rfl
    · rw [if_neg hroom, if_pos (show b.size ≤ pos + 2 by omega)]
      exact .ended (by simp) fun _ => rfl

include hb hix in
theorem afterHoles_ends {pos : Nat} (hpos : pos < 2 ^ 62) :
    Ends o b (fun step => ∀ s, step = .fragment s → pos < s.stop ∧ s.stop < 2 ^ 62)
      (Stitch.afterHoles b index pos) (afterHoles o b index pos) := by
  induction hn : b.size - pos using Nat.strongRecOn generalizing pos with
  | ind n ih =>
    rw [afterHoles, Stitch.afterHoles_eq, isHoleBrace_eq hix b (by omega), some_bind]
    split
    · next hopen =>
      have hlt := Host.lt_size_of_isAt (Stitch.isAt_of_isHoleBrace hopen)
      refine (matchForward_ends hb hix hpos fun _ => .one o (by omega)).bind
        fun found hfound heq => ?_
      cases found with
      | none => exact .ended (by simp) fun hr => by rw [← heq hr]
      | some last =>
        obtain ⟨hlast, hroom⟩ := hfound last rfl
        simp only [add_eq (show last + 1 < 2 ^ 64 by omega), some_bind,
          nextString_eq hix (show last + 1 + 1 < 2 ^ 64 by omega)]
        cases hnext : index.nextString? (last + 1) with
        | none =>
          dsimp only
          by_cases hnear : b.isAt (last + 1) '\x7b' = true
          · rw [if_pos hnear, if_pos (by omega)]
            refine (ih (b.size - (last + 1)) (by omega) (by omega) rfl).imp ?_ fun hr => ?_
            · exact fun step h s hs => ⟨Nat.lt_trans (by omega) (h s hs).1, (h s hs).2⟩
            · simp only [← heq hr, hnext, if_pos hnear]
          · rw [if_neg hnear]
            exact .ended (by simp) fun hr => by simp only [← heq hr, hnext, if_neg hnear]
        | some next =>
          simp only [extendForward_eq hix b (stop_lt_of_nextString? hix hnext), some_bind]
          refine .ended (fun s hs => ?_) fun hr => by simp only [← heq hr, hnext]
          cases hs
          refine ⟨?_, stop_extendForward_lt hix b (stop_lt_of_nextString? hix hnext)⟩
          have h₁ := TagIndex.lt_stop_of_nextString? hnext
          have h₂ := Stitch.stop_le_extendForward b index next
          omega
    · exact .ended (by simp) fun _ => rfl

include hb hix in
theorem walkForward_ends {edge : Span} (hedge : edge.stop < 2 ^ 62) :
    Ends o b (fun found => ∀ s ∈ found.1, s.stop < 2 ^ 62)
      (Stitch.walkForward b index edge) (walkForward o b index edge) := by
  induction hn : b.size - edge.stop using Nat.strongRecOn generalizing edge with
  | ind n ih =>
    rw [walkForward, Stitch.walkForward_eq, stop_eq (by omega), some_bind, add_eq (by omega),
      some_bind]
    split
    · next hroom =>
      refine (afterHoles_ends hb hix hedge).bind fun step hstep heq => ?_
      cases step with
      | edge => exact .ended (by simp) fun hr => by rw [← heq hr]
      | unresolvable => exact .ended (by simp) fun hr => by rw [← heq hr]
      | fragment next =>
        obtain ⟨hlt, hstop⟩ := hstep next rfl
        dsimp only
        rw [if_pos hlt]
        refine (ih _ (by omega) hstop rfl).bind fun more hmore hrest => ?_
        refine .ended (List.forall_mem_cons.mpr ⟨hstop, hmore⟩) fun hr => ?_
        rw [← heq hr, hrest hr]
    · exact .ended (by simp) fun _ => rfl

/-! ## Literals -/

/-- A stitched literal with its set of fragments as a plain list. -/
def Literal.ofStitched (l : StitchedLiteral) : Literal := ⟨l.fragments.toList, l.issue⟩

theorem Literal.ofStitched_inj {l m : StitchedLiteral}
    (h : Literal.ofStitched l = Literal.ofStitched m) : l = m := by
  obtain ⟨hfragments, hissue⟩ := Literal.mk.inj h
  cases l
  cases m
  cases SpanSet.ext hfragments
  cases hissue
  rfl

/-- The fragments of a literal stop where tags may. -/
def Bounded (l : StitchedLiteral) : Prop := ∀ s ∈ l.fragments.toList, s.stop < 2 ^ 62

include hb hix in
theorem stitch_ends (o : Overflow) {seed : Span} (hseed : seed.stop < 2 ^ 62) :
    Ends o b (fun literal => ∃ l, literal = .ofStitched l ∧ Bounded l)
      (.ofStitched (EmbeddedSql.stitch b index seed)) (stitch o b index seed) := by
  have hwhole := stop_complete_lt hix b hseed
  unfold stitch
  rw [complete_eq hix b hseed, some_bind]
  refine (walkBackward_ends hix hwhole).bind fun before hbefore heq => ?_
  refine (walkForward_ends hb hix hwhole).bind fun after hafter heq' => ?_
  have hleft : ∀ s ∈ Stitch.complete b index seed :: before.1, s.stop < 2 ^ 62 :=
    List.forall_mem_cons.mpr ⟨hwhole, hbefore⟩
  have hall : ∀ s ∈ Stitch.complete b index seed :: before.1 ++ after.1, s.stop < 2 ^ 62 :=
    List.forall_mem_append.mpr ⟨hleft, hafter⟩
  rw [normalize_eq fun s hs => Nat.lt_trans (hall s hs) (by decide : 2 ^ 62 < 2 ^ 64), some_bind]
  refine .ended ⟨⟨SpanSet.ofSpans _, _⟩, rfl, fun s hs => SpanSet.stop_lt_of_mem_ofSpans hall hs⟩
    fun hr => ?_
  rw [heq hr, heq' hr]
  rfl

include hb hix in
theorem stitchAll_ends {visited : SpanSet} (hvisited : ∀ s ∈ visited.toList, s.stop < 2 ^ 62)
    {seeds : List Span} (hseeds : ∀ s ∈ seeds, s.stop < 2 ^ 62) :
    Ends o b (fun found => ∃ ls, found = List.map .ofStitched ls ∧ ∀ l ∈ ls, Bounded l)
      ((EmbeddedSql.stitchAll b index visited seeds).map .ofStitched)
      (stitchAll o b index visited.toList seeds) := by
  induction seeds generalizing visited with
  | nil => exact .ended ⟨[], rfl, by simp⟩ fun _ => rfl
  | cons seed rest ih =>
    obtain ⟨hseed, hrest⟩ := List.forall_mem_cons.mp hseeds
    rw [stitchAll, EmbeddedSql.stitchAll,
      holds_eq (fun s hs => Nat.lt_trans (hvisited s hs) (by decide)), some_bind]
    split
    · exact ih hvisited hrest
    · refine (stitch_ends hb hix o hseed).bind ?_
      rintro _ ⟨l, rfl, hl⟩ heq
      have hboth : ∀ s ∈ visited.toList ++ l.fragments.toList, s.stop < 2 ^ 62 :=
        List.forall_mem_append.mpr ⟨hvisited, hl⟩
      have hunion : normalize (visited.toList ++ l.fragments.toList)
          = some (visited.union l.fragments).toList := by
        rw [normalize_eq fun s hs => Nat.lt_trans (hboth s hs) (by decide), SpanSet.union,
          SpanSet.ofSpans, SpanSet.toList_ofNormal]
      rw [Literal.ofStitched, hunion, some_bind]
      refine (ih (fun s hs => SpanSet.stop_lt_of_mem_ofSpans hboth hs) hrest).bind ?_
      rintro _ ⟨ls, rfl, hls⟩ heq'
      refine .ended ⟨l :: ls, rfl, List.forall_mem_cons.mpr ⟨hl, hls⟩⟩ fun hr => ?_
      obtain rfl := Literal.ofStitched_inj (heq hr)
      rw [List.map_cons, heq' hr]
      rfl

include hb hix in
/-- **What the literals of a request come to.** -/
theorem literalsIn_ends {request : Span} (h : (TagIndex.probe request).stop < 2 ^ 64) :
    Ends o b (fun found => ∃ ls, found = List.map .ofStitched ls ∧ ∀ l ∈ ls, Bounded l)
      ((EmbeddedSql.literalsIn b index request).map .ofStitched)
      (literalsIn o b index request) := by
  unfold literalsIn
  rw [spansOf_eq hix h, some_bind]
  have hempty : ∀ s ∈ SpanSet.empty.toList, s.stop < 2 ^ 62 := by simp [SpanSet.empty]
  exact stitchAll_ends hb hix hempty fun s hs => stop_lt_of_mem_spansOf hix hs

end Walks

end Checked

end EmbeddedSql
