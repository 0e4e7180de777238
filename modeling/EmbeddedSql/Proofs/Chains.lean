import EmbeddedSql.Proofs.Holes
import Mathlib.Logic.Relation

/-!
# Chains of fragments

The fragments of a literal are *runs*: stretches of string text that cannot be
made longer on either side. Two runs are linked when nothing but holes stands
between them. A run has at most one successor and at most one predecessor, so
the runs that can be reached from one of them form a chain, and it does not
matter from which run of the chain the walk begins.

What can cut a walk short is the room it asks for, which is why the walks are
described as closures of the link restricted to places with room. For string
tags that leave two positions before every hole (`Roomy`), the walk backward
is never cut short; the walk forward is not if the last position of the buffer
is no string.

Where string tags reach past the end of the buffer, a fragment need not be a run:
growing stops at the end. Whatever the tags are, the walks meet string text only
(`isString_of_mem_walkForward`, `isString_of_mem_walkBackward`).
-/

namespace EmbeddedSql

namespace Stitch

/-! ## Runs -/

/-- **A run of string text**: all of it is tagged as a string, and the
positions right before and right behind it are not. -/
structure IsRun (index : TagIndex) (s : Span) : Prop where
  /-- It holds a position. -/
  pos : 0 < s.len
  /-- Every position in it is string text. -/
  string : ∀ p ∈ s, IsString index p
  /-- The position behind it is none. -/
  stop : ¬ IsString index s.stop
  /-- Nor is the position before it, if there is one. -/
  start : ∀ p, p + 1 = s.start → ¬ IsString index p

namespace IsRun

/-- Everything from a position of a run up to where string text ends is in
the run. -/
theorem mem_of_isString {index : TagIndex} {s : Span} (h : IsRun index s) {p q : Nat} (hp : p ∈ s)
    (hbetween : ∀ r, min p q ≤ r → r ≤ max p q → IsString index r) : q ∈ s := by
  rw [Span.mem_def] at hp ⊢
  constructor
  · refine Nat.le_of_not_lt fun hlt => ?_
    exact h.start (s.start - 1) (by omega) (hbetween _ (by omega) (by omega))
  · refine Nat.lt_of_not_le fun hle => ?_
    exact h.stop (hbetween _ (by omega) (by omega))

/-- Two runs that share a position are the same run. -/
theorem eq_of_mem {index : TagIndex} {s t : Span} (hs : IsRun index s) (ht : IsRun index t) {p : Nat}
    (hps : p ∈ s) (hpt : p ∈ t) : s = t := by
  have hstart : ∀ {u v : Span}, IsRun index u → IsRun index v → p ∈ u → p ∈ v → u.start ≤ v.start := by
    intro u v hu hv hpu hpv
    have hmem : v.start ∈ u := by
      refine hu.mem_of_isString hpu fun r hlo hhi => hv.string r ?_
      rw [Span.mem_def] at hpv ⊢
      omega
    exact hmem.1
  have hstop : ∀ {u v : Span}, IsRun index u → IsRun index v → p ∈ u → p ∈ v → v.stop ≤ u.stop := by
    intro u v hu hv hpu hpv
    have hmem : v.stop - 1 ∈ u := by
      refine hu.mem_of_isString hpu fun r hlo hhi => hv.string r ?_
      rw [Span.mem_def] at hpv ⊢
      omega
    have := hv.pos
    have := hmem.2
    simp only [Span.stop] at *
    omega
  exact Span.ext_bounds (Nat.le_antisymm (hstart hs ht hps hpt) (hstart ht hs hpt hps))
    (Nat.le_antisymm (hstop ht hs hpt hps) (hstop hs ht hps hpt))

end IsRun

/-- All string text lies inside the buffer. -/
def StringsInside (b : Buffer) (index : TagIndex) : Prop := ∀ p, IsString index p → p < b.size

/-- Growing to the right stops at the first position that is no string, or
where the buffer ends. -/
theorem extendForward_spec (b : Buffer) (index : TagIndex) (s : Span) :
    (extendForward b index s).start = s.start ∧ s.stop ≤ (extendForward b index s).stop ∧
      (∀ p, s.stop ≤ p → p < (extendForward b index s).stop → IsString index p) ∧
      (IsString index (extendForward b index s).stop → b.size ≤ (extendForward b index s).stop) := by
  fun_induction extendForward b index s with
  | case1 s hsize next hnext hlt ih =>
    obtain ⟨hstart, hle, hall, hstop⟩ := ih
    obtain ⟨t, ht, hkind, rfl, hmem⟩ := TagIndex.nextString?_eq_some hnext
    have hmax : (Span.between s.start t.span.stop).stop = t.span.stop := by
      rw [Span.stop_between]
      have := s.start_le_stop
      omega
    rw [hmax] at hle hall
    refine ⟨hstart, by omega, fun p hlo hhi => ?_, hstop⟩
    by_cases hp : p < t.span.stop
    · exact isString_iff.mpr ⟨t, ht, hkind, by rw [Span.mem_def] at hmem ⊢; omega⟩
    · exact hall p (by omega) hhi
  | case2 s hsize next hnext hlt => exact absurd (TagIndex.lt_stop_of_nextString? hnext) hlt
  | case3 s hsize hnext =>
    refine ⟨rfl, Nat.le_refl _, fun p hlo hhi => by omega, fun h => absurd h ?_⟩
    rw [IsString, TagIndex.nextString?_eq_none.mp hnext]
    exact Bool.false_ne_true
  | case4 s hsize =>
    exact ⟨rfl, Nat.le_refl _, fun p hlo hhi => by omega, fun _ => Nat.le_of_not_lt hsize⟩

theorem not_isString_stop_extendForward {b : Buffer} {index : TagIndex} (hin : StringsInside b index)
    (s : Span) : ¬ IsString index (extendForward b index s).stop := fun h =>
  Nat.lt_irrefl _ (Nat.lt_of_lt_of_le (hin _ h) ((extendForward_spec b index s).2.2.2 h))

/-- Growing to the right keeps to string text. -/
theorem isString_extendForward {b : Buffer} {index : TagIndex} {s : Span}
    (h : ∀ p ∈ s, IsString index p) : ∀ p ∈ extendForward b index s, IsString index p := by
  intro p hp
  obtain ⟨hstart, -, hall, -⟩ := extendForward_spec b index s
  by_cases hlt : p < s.stop
  · exact h p ⟨hstart ▸ hp.1, hlt⟩
  · exact hall p (Nat.le_of_not_lt hlt) hp.2

/-- Growing to the left stops behind the first position that is no string. -/
theorem extendBackward_spec (index : TagIndex) (s : Span) :
    (extendBackward index s).stop = s.stop ∧ (extendBackward index s).start ≤ s.start ∧
      (∀ p, (extendBackward index s).start ≤ p → p < s.start → IsString index p) ∧
      ∀ p, p + 1 = (extendBackward index s).start → ¬ IsString index p := by
  fun_induction extendBackward index s with
  | case1 s hpos prev hprev hlt ih =>
    obtain ⟨hstop, hle, hall, hstart⟩ := ih
    obtain ⟨t, ht, hkind, rfl, hmem⟩ := TagIndex.previousString?_eq_some hprev
    rw [Span.start_between] at hle hall
    refine ⟨?_, by omega, fun p hlo hhi => ?_, hstart⟩
    · rw [hstop, Span.stop_between]
      have := s.start_le_stop
      omega
    · by_cases hp : t.span.start ≤ p
      · exact isString_iff.mpr ⟨t, ht, hkind, by rw [Span.mem_def] at hmem ⊢; omega⟩
      · exact hall p hlo (by omega)
  | case2 s hpos prev hprev hlt =>
    obtain ⟨t, ht, hkind, rfl, hmem⟩ := TagIndex.previousString?_eq_some hprev
    rw [Span.mem_def] at hmem
    omega
  | case3 s hpos hprev =>
    refine ⟨rfl, Nat.le_refl _, fun p hlo hhi => by omega, fun p hp => ?_⟩
    rw [IsString, show p = s.start - 1 by omega, TagIndex.previousString?_eq_none.mp hprev]
    exact Bool.false_ne_true
  | case4 s hpos => exact ⟨rfl, Nat.le_refl _, fun p hlo hhi => by omega, fun p hp => by omega⟩

theorem mem_complete_iff {b : Buffer} {index : TagIndex} {seed : Span} {p : Nat} :
    p ∈ complete b index seed ↔
      (extendBackward index seed).start ≤ p ∧ p < (extendForward b index seed).stop := by
  rw [complete, Span.mem_between]

/-- A seed of string text grows to string text. -/
theorem isString_complete {b : Buffer} {index : TagIndex} {seed : Span}
    (hseed : ∀ p ∈ seed, IsString index p) : ∀ p ∈ complete b index seed, IsString index p := by
  intro p hp
  obtain ⟨hlo, hhi⟩ := mem_complete_iff.mp hp
  by_cases hlt : p < seed.start
  · exact (extendBackward_spec index seed).2.2.1 p hlo hlt
  · refine isString_extendForward hseed p ⟨?_, hhi⟩
    rw [(extendForward_spec b index seed).1]
    exact Nat.le_of_not_lt hlt

/-- **A seed grows to the run it lies in.** -/
theorem isRun_complete {b : Buffer} {index : TagIndex} (hin : StringsInside b index) {seed : Span}
    (hpos : 0 < seed.len) (hseed : ∀ p ∈ seed, IsString index p) :
    IsRun index (complete b index seed) ∧ ∀ p ∈ seed, p ∈ complete b index seed := by
  obtain ⟨-, hfle, -, -⟩ := extendForward_spec b index seed
  obtain ⟨-, hble, -, hbstart⟩ := extendBackward_spec index seed
  have hwhole : ∀ p ∈ seed, p ∈ complete b index seed := fun p hp =>
    mem_complete_iff.mpr ⟨Nat.le_trans hble hp.1, Nat.lt_of_lt_of_le hp.2 hfle⟩
  have hlt : seed.start < seed.stop := (Span.start_mem hpos).2
  have hstop : (complete b index seed).stop = (extendForward b index seed).stop := by
    rw [complete, Span.stop_between]
    omega
  refine ⟨⟨?_, isString_complete hseed, ?_, hbstart⟩, hwhole⟩
  · exact Span.len_pos_of_mem (hwhole _ (Span.start_mem hpos))
  · rw [hstop]
    exact not_isString_stop_extendForward hin seed

/-! ## Links -/

/-- **Two runs with nothing but holes between them.** -/
structure Next (b : Buffer) (index : TagIndex) (x y : Span) : Prop where
  /-- The first is a run. -/
  left : IsRun index x
  /-- So is the second. -/
  right : IsRun index y
  /-- Holes lead from the one to the other. -/
  holes : Holes b index x.stop y.start

/-- Crossing holes to the right, without the reason why it ends. -/
theorem afterHoles_eq (b : Buffer) (index : TagIndex) (pos : Nat) :
    afterHoles b index pos =
      if isHoleBrace b index pos '\x7b' then
        match matchForward b index 1 pos with
        | none => .unresolvable
        | some last =>
          match index.nextString? (last + 1) with
          | some next => .fragment (extendForward b index next)
          | none => if b.isAt (last + 1) '\x7b' then afterHoles b index (last + 1) else .edge
      else .edge := by
  cases hmatch : matchForward b index 1 pos with
  | none =>
    rw [afterHoles]
    split
    · split
      · rfl
      · next hsome => rw [hmatch] at hsome; simp at hsome
    · rfl
  | some last =>
    rw [afterHoles]
    split
    · split
      · next hnone => rw [hmatch] at hnone; simp at hnone
      · next found hfound =>
        obtain rfl : last = found := Option.some.inj (hmatch.symm.trans hfound)
        rfl
    · rfl

/-- Crossing holes to the left, without the reason why it ends. -/
theorem beforeHoles_eq (b : Buffer) (index : TagIndex) (pos : Nat) :
    beforeHoles b index pos =
      if isHoleBrace b index pos '\x7d' then
        match matchBackward b index 1 pos with
        | none => .unresolvable
        | some first =>
          match index.previousString? (first - 1) with
          | some prev => .fragment (extendBackward index prev)
          | none => if b.isAt (first - 1) '\x7d' then beforeHoles b index (first - 1) else .edge
      else .edge := by
  cases hmatch : matchBackward b index 1 pos with
  | none =>
    rw [beforeHoles]
    split
    · split
      · rfl
      · next hsome => rw [hmatch] at hsome; simp at hsome
    · rfl
  | some first =>
    rw [beforeHoles]
    split
    · split
      · next hnone => rw [hmatch] at hnone; simp at hnone
      · next found hfound =>
        obtain rfl : first = found := Option.some.inj (hmatch.symm.trans hfound)
        rfl
    · rfl

/-- Crossing holes to the right leads to the run behind them. -/
theorem isRun_of_afterHoles {b : Buffer} {index : TagIndex} (hin : StringsInside b index) {pos : Nat}
    {s : Span} (h : afterHoles b index pos = .fragment s) :
    IsRun index s ∧ Holes b index pos s.start := by
  fun_induction afterHoles b index pos with
  | case1 => simp at h
  | case2 pos hopen last hlast _ next hnext =>
    cases h
    obtain ⟨hgroup, -⟩ := (matchForward_eq_some hopen).mp hlast
    have hbrace := not_isString_of_isHoleBrace hgroup.closes
    obtain ⟨t, ht, hkind, rfl, hmem⟩ := TagIndex.nextString?_eq_some hnext
    have htag : ∀ p ∈ t.span, IsString index p := fun p hp => isString_iff.mpr ⟨t, ht, hkind, hp⟩
    -- The brace before the tag is no string, so the tag begins right behind it.
    have hfirst : t.span.start = last + 1 := by
      have hlo := hmem.1
      refine Nat.le_antisymm hlo (Nat.lt_of_not_le fun hle => hbrace (htag last ⟨hle, ?_⟩))
      exact Nat.lt_of_succ_lt hmem.2
    obtain ⟨hstart, hle, -, -⟩ := extendForward_spec b index t.span
    have hlen : t.span.start < t.span.stop := Nat.lt_of_le_of_lt hmem.1 hmem.2
    refine ⟨⟨?_, isString_extendForward htag, not_isString_stop_extendForward hin _, fun p hp => ?_⟩,
      ?_⟩
    · simp only [Span.stop] at *
      omega
    · rw [show p = last by omega]
      exact hbrace
    · rw [hstart, hfirst]
      exact .one hgroup
  | case3 pos hopen last hlast _ _ _ ih =>
    obtain ⟨hrun, hholes⟩ := ih h
    exact ⟨hrun, .cons ((matchForward_eq_some hopen).mp hlast).1 hholes⟩
  | case4 => simp at h
  | case5 => simp at h

/-- Whatever is found behind holes is string text, also at the end of the
buffer. -/
theorem isString_of_afterHoles {b : Buffer} {index : TagIndex} {pos : Nat} {s : Span}
    (h : afterHoles b index pos = .fragment s) : ∀ p ∈ s, IsString index p := by
  fun_induction afterHoles b index pos with
  | case1 => simp at h
  | case2 pos _ last _ _ next hnext =>
    cases h
    obtain ⟨t, ht, hkind, rfl, -⟩ := TagIndex.nextString?_eq_some hnext
    exact isString_extendForward fun p hp => isString_iff.mpr ⟨t, ht, hkind, hp⟩
  | case3 pos _ last _ _ _ _ ih => exact ih h
  | case4 => simp at h
  | case5 => simp at h

/-- Every run behind a row of holes is reached by crossing them. -/
theorem afterHoles_eq_fragment {b : Buffer} {index : TagIndex} (hin : StringsInside b index)
    {pos stop : Nat} {s : Span} (hs : IsRun index s) (h : Holes b index pos stop)
    (hstop : stop = s.start) : afterHoles b index pos = .fragment s := by
  have hmem : s.start ∈ s := Span.start_mem hs.pos
  have hsize : s.start < b.size := hin _ (hs.string _ hmem)
  induction h with
  | @one first last h =>
    cases hnext : index.nextString? (last + 1) with
    | none =>
      have hnot := TagIndex.nextString?_eq_none.mp hnext
      rw [hstop, ← Bool.not_eq_true] at hnot
      exact absurd (hs.string _ hmem) hnot
    | some next =>
      have hmatch := (matchForward_eq_some h.opens).mpr ⟨h, by omega⟩
      have hstep : afterHoles b index first = .fragment (extendForward b index next) := by
        rw [afterHoles_eq, if_pos h.opens, hmatch]
        simp only [hnext]
      rw [hstep]
      obtain ⟨hrun, hholes⟩ := isRun_of_afterHoles hin hstep
      have hpast := extendForward_spec b index next
      obtain ⟨t, -, -, rfl, hat⟩ := TagIndex.nextString?_eq_some hnext
      congr 1
      refine hrun.eq_of_mem hs (p := s.start) ?_ hmem
      rw [← hstop, Span.mem_def, hpast.1]
      exact ⟨hat.1, Nat.lt_of_lt_of_le hat.2 hpast.2.1⟩
  | @cons first last stop h hrest ih =>
    have hroom := hrest.add_two_le
    have hnone : index.nextString? (last + 1) = none := by
      rw [TagIndex.nextString?_eq_none, ← Bool.not_eq_true]
      exact not_isString_of_isHoleBrace hrest.opens
    have hmatch := (matchForward_eq_some h.opens).mpr ⟨h, by omega⟩
    rw [afterHoles_eq, if_pos h.opens, hmatch]
    simp only [hnone, isAt_of_isHoleBrace hrest.opens, if_true]
    exact ih hstop

/-- Crossing holes to the left leads to the run before them. -/
theorem isRun_of_beforeHoles {b : Buffer} {index : TagIndex} {pos : Nat} {s : Span}
    (h : beforeHoles b index pos = .fragment s) :
    IsRun index s ∧ Holes b index s.stop (pos + 1) ∧ 2 ≤ s.stop := by
  fun_induction beforeHoles b index pos with
  | case1 => simp at h
  | case2 pos hclose first hfirst _ prev hprev =>
    cases h
    obtain ⟨hgroup, htwo⟩ := (matchBackward_eq_some hclose).mp hfirst
    have hbrace := not_isString_of_isHoleBrace hgroup.opens
    obtain ⟨t, ht, hkind, rfl, hmem⟩ := TagIndex.previousString?_eq_some hprev
    have htag : ∀ p ∈ t.span, IsString index p := fun p hp => isString_iff.mpr ⟨t, ht, hkind, hp⟩
    have hlast : t.span.stop = first := by
      have hlo := hmem.1
      have hhi := hmem.2
      refine Nat.le_antisymm (Nat.le_of_not_lt fun hlt => hbrace (htag first ⟨?_, hlt⟩)) ?_
      · omega
      · omega
    obtain ⟨hstop, hle, hall, hstart⟩ := extendBackward_spec index t.span
    have hlen : t.span.start < t.span.stop := Nat.lt_of_le_of_lt hmem.1 hmem.2
    refine ⟨⟨?_, fun p hp => ?_, ?_, hstart⟩, ?_, ?_⟩
    · simp only [Span.stop] at *
      omega
    · by_cases hp' : p < t.span.start
      · exact hall p hp.1 hp'
      · exact htag p ⟨Nat.le_of_not_lt hp', hstop ▸ hp.2⟩
    · rw [hstop, hlast]
      exact hbrace
    · rw [hstop, hlast]
      exact .one hgroup
    · rw [hstop, hlast]
      exact htwo
  | case3 pos hclose first hfirst _ _ _ ih =>
    obtain ⟨hrun, hholes, hroom⟩ := ih h
    obtain ⟨hgroup, htwo⟩ := (matchBackward_eq_some hclose).mp hfirst
    rw [show first - 1 + 1 = first by omega] at hholes
    exact ⟨hrun, hholes.trans (.one hgroup), hroom⟩
  | case4 => simp at h
  | case5 => simp at h

/-- Every run before a row of holes is reached by crossing them, if there are
two positions before the row. -/
theorem beforeHoles_eq_fragment {b : Buffer} {index : TagIndex} {pos : Nat} {s : Span}
    (hs : IsRun index s) (h : Holes b index s.stop (pos + 1)) (hroom : 2 ≤ s.stop) :
    beforeHoles b index pos = .fragment s := by
  induction pos using Nat.strongRecOn with
  | ind pos ih =>
    obtain ⟨first, last, heq, hgroup, hrest⟩ := h.exists_last
    obtain rfl : pos = last := by omega
    have hfirst : s.stop ≤ first := by
      rcases hrest with rfl | hrest
      · exact Nat.le_refl _
      · have := hrest.add_two_le
        omega
    have hlt := hgroup.lt
    have hmatch := (matchBackward_eq_some hgroup.closes).mpr ⟨hgroup, by omega⟩
    rcases hrest with rfl | hrest
    · have hmem := Span.pred_stop_mem hs.pos
      cases hprev : index.previousString? (s.stop - 1) with
      | none =>
        have hnot := TagIndex.previousString?_eq_none.mp hprev
        rw [← Bool.not_eq_true] at hnot
        exact absurd (hs.string _ hmem) hnot
      | some prev =>
        have hfound : beforeHoles b index pos = .fragment (extendBackward index prev) := by
          rw [beforeHoles_eq, if_pos hgroup.closes, hmatch]
          simp only [hprev]
        rw [hfound]
        obtain ⟨hrun, -⟩ := isRun_of_beforeHoles hfound
        have hpast := extendBackward_spec index prev
        obtain ⟨t, -, -, rfl, hat⟩ := TagIndex.previousString?_eq_some hprev
        congr 1
        refine hrun.eq_of_mem hs (p := s.stop - 1) ?_ hmem
        rw [Span.mem_def, hpast.1]
        exact ⟨Nat.le_trans hpast.2.1 hat.1, hat.2⟩
    · have hnone : index.previousString? (first - 1) = none := by
        rw [TagIndex.previousString?_eq_none, ← Bool.not_eq_true]
        exact not_isString_of_isHoleBrace hrest.closes
      rw [beforeHoles_eq, if_pos hgroup.closes, hmatch]
      simp only [hnone, isAt_of_isHoleBrace hrest.closes, if_true]
      refine ih (first - 1) (by omega) ?_
      rwa [show first - 1 + 1 = first by omega]

/-- There are two positions before the holes behind a run. -/
def Roomy (b : Buffer) (index : TagIndex) : Prop := ∀ x y, Next b index x y → 2 ≤ x.stop

namespace Next

theorem right_unique {b : Buffer} {index : TagIndex} (hin : StringsInside b index) {x y z : Span}
    (hy : Next b index x y) (hz : Next b index x z) : y = z := by
  have h₁ := afterHoles_eq_fragment hin hy.right hy.holes rfl
  have h₂ := afterHoles_eq_fragment hin hz.right hz.holes rfl
  exact Step.fragment.inj (h₁.symm.trans h₂)

theorem left_unique {b : Buffer} {index : TagIndex} (hroom : Roomy b index) {x y z : Span}
    (hx : Next b index x z) (hy : Next b index y z) : x = y := by
  have hpos : z.start - 1 + 1 = z.start := by
    have := hx.holes.add_two_le
    omega
  have h₁ := beforeHoles_eq_fragment hx.left (hpos ▸ hx.holes) (hroom _ _ hx)
  have h₂ := beforeHoles_eq_fragment hy.left (hpos ▸ hy.holes) (hroom _ _ hy)
  exact Step.fragment.inj (h₁.symm.trans h₂)

end Next

/-! ## Walks -/

open Relation (ReflTransGen)

/-- The walk to the right, without the reason why it ends. -/
theorem walkForward_eq (b : Buffer) (index : TagIndex) (edge : Span) :
    walkForward b index edge =
      if edge.stop + 3 < b.size then
        match afterHoles b index edge.stop with
        | .fragment next => (next :: (walkForward b index next).1, (walkForward b index next).2)
        | .edge => ([], false)
        | .unresolvable => ([], true)
      else ([], false) := by
  rw [walkForward]
  split
  · split
    · next hnext => simp only [hnext]
    · next hnext => rw [hnext]
    · next hnext => rw [hnext]
  · rfl

/-- The walk to the left, without the reason why it ends. -/
theorem walkBackward_eq (b : Buffer) (index : TagIndex) (edge : Span) :
    walkBackward b index edge =
      if 3 < edge.start then
        match beforeHoles b index (edge.start - 1) with
        | .fragment prev => (prev :: (walkBackward b index prev).1, (walkBackward b index prev).2)
        | .edge => ([], false)
        | .unresolvable => ([], true)
      else ([], false) := by
  rw [walkBackward]
  split
  · split
    · next hprev => simp only [hprev]
    · next hprev => rw [hprev]
    · next hprev => rw [hprev]
  · rfl

/-- A link that the walk to the right can follow. -/
def Ahead (b : Buffer) (index : TagIndex) (x y : Span) : Prop :=
  Next b index x y ∧ x.stop + 3 < b.size

/-- A link that the walk to the left can follow. -/
def Behind (b : Buffer) (index : TagIndex) (y x : Span) : Prop := Next b index x y ∧ 2 ≤ x.stop

/-- **The walk to the right follows links as long as it can.** -/
theorem mem_walkForward {b : Buffer} {index : TagIndex} (hin : StringsInside b index) {x y : Span}
    (hx : IsRun index x) :
    y ∈ x :: (walkForward b index x).1 ↔ ReflTransGen (Ahead b index) x y := by
  fun_induction walkForward b index x with
  | case1 x hroom next hnext _ more cut hwalk ih =>
    obtain ⟨hrun, hholes⟩ := isRun_of_afterHoles hin hnext
    have hlink : Next b index x next := ⟨hx, hrun, hholes⟩
    have hmore := ih hrun
    rw [hwalk] at hmore
    rw [List.mem_cons, hmore, ReflTransGen.cases_head_iff (a := x), eq_comm]
    refine or_congr_right ⟨fun h => ⟨next, ⟨hlink, hroom⟩, h⟩, ?_⟩
    rintro ⟨z, ⟨hz, -⟩, h⟩
    rwa [hlink.right_unique hin hz]
  | case2 x hroom hnext =>
    rw [List.mem_singleton, Relation.reflTransGen_iff_eq]
    rintro z ⟨hz, -⟩
    rw [afterHoles_eq_fragment hin hz.right hz.holes rfl] at hnext
    simp at hnext
  | case3 x hroom hnext =>
    rw [List.mem_singleton, Relation.reflTransGen_iff_eq]
    rintro z ⟨hz, -⟩
    rw [afterHoles_eq_fragment hin hz.right hz.holes rfl] at hnext
    simp at hnext
  | case4 x hroom =>
    rw [List.mem_singleton, Relation.reflTransGen_iff_eq]
    rintro z ⟨-, hz⟩
    exact hroom hz

theorem Behind.crossed {b : Buffer} {index : TagIndex} {x y : Span} (h : Behind b index y x) :
    3 < y.start ∧ beforeHoles b index (y.start - 1) = .fragment x := by
  obtain ⟨hlink, htwo⟩ := h
  have := hlink.holes.add_two_le
  refine ⟨by omega, beforeHoles_eq_fragment hlink.left ?_ htwo⟩
  rw [show y.start - 1 + 1 = y.start by omega]
  exact hlink.holes

/-- **So does the walk to the left.** The room it asks for before a hole is
there as soon as there are two positions before the hole's first brace. -/
theorem mem_walkBackward {b : Buffer} {index : TagIndex} {x y : Span} (hx : IsRun index x) :
    y ∈ x :: (walkBackward b index x).1 ↔ ReflTransGen (Behind b index) x y := by
  fun_induction walkBackward b index x with
  | case1 x hroom prev hprev _ more cut hwalk ih =>
    obtain ⟨hrun, hholes, htwo⟩ := isRun_of_beforeHoles hprev
    rw [show x.start - 1 + 1 = x.start by omega] at hholes
    have hmore := ih hrun
    rw [hwalk] at hmore
    rw [List.mem_cons, hmore, ReflTransGen.cases_head_iff (a := x), eq_comm]
    refine or_congr_right ⟨fun h => ⟨prev, ⟨⟨hrun, hx, hholes⟩, htwo⟩, h⟩, ?_⟩
    rintro ⟨z, hz, h⟩
    rwa [Step.fragment.inj (hprev.symm.trans hz.crossed.2)]
  | case2 x hroom hprev =>
    rw [List.mem_singleton, Relation.reflTransGen_iff_eq]
    intro z hz
    rw [hz.crossed.2] at hprev
    simp at hprev
  | case3 x hroom hprev =>
    rw [List.mem_singleton, Relation.reflTransGen_iff_eq]
    intro z hz
    rw [hz.crossed.2] at hprev
    simp at hprev
  | case4 x hroom =>
    rw [List.mem_singleton, Relation.reflTransGen_iff_eq]
    intro z hz
    exact hroom hz.crossed.1

/-- The walk to the right meets string text only. -/
theorem isString_of_mem_walkForward {b : Buffer} {index : TagIndex} {x y : Span}
    (h : y ∈ (walkForward b index x).1) : ∀ p ∈ y, IsString index p := by
  fun_induction walkForward b index x with
  | case1 x _ next hnext _ more cut hwalk ih =>
    rw [hwalk] at ih
    rcases List.mem_cons.mp h with rfl | h
    · exact isString_of_afterHoles hnext
    · exact ih h
  | case2 => simp at h
  | case3 => simp at h
  | case4 => simp at h

/-- So does the walk to the left. -/
theorem isString_of_mem_walkBackward {b : Buffer} {index : TagIndex} {x y : Span}
    (h : y ∈ (walkBackward b index x).1) : ∀ p ∈ y, IsString index p := by
  fun_induction walkBackward b index x with
  | case1 x _ prev hprev _ more cut hwalk ih =>
    rw [hwalk] at ih
    rcases List.mem_cons.mp h with rfl | h
    · exact (isRun_of_beforeHoles hprev).1.string
    · exact ih h
  | case2 => simp at h
  | case3 => simp at h
  | case4 => simp at h

end Stitch

end EmbeddedSql
