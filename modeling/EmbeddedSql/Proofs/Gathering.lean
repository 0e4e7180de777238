import EmbeddedSql.Proofs.Chains

/-!
# Gathering the literals of a request

A literal is stitched from a seed: the seed grows to a run, and the walks from
there collect fragments on both sides. What comes out holds, with a run, every
run that leads to it (`mem_stitch_of_next`). If moreover no walk is cut short
for want of room, it is the whole chain of the run, so it does not depend on
the seed, and two literals that share a position are the same.

A request stitches one literal for each seed that no earlier literal holds.
The literals it finds are therefore exactly the chains with a position in the
request (`exists_literalsIn_iff`), each of them once.
-/

namespace EmbeddedSql

namespace Stitch

open Relation (ReflTransGen)

variable {b : Buffer} {index : TagIndex}

/-! ## The literal of a seed -/

/-- A span of string text to start from. -/
structure IsSeed (index : TagIndex) (seed : Span) : Prop where
  /-- It holds a position. -/
  pos : 0 < seed.len
  /-- Every position in it is string text. -/
  string : ∀ p ∈ seed, IsString index p

/-- Runs that a walk collects when it starts from a run. -/
def Collected (b : Buffer) (index : TagIndex) (x y : Span) : Prop :=
  ReflTransGen (Behind b index) x y ∨ ReflTransGen (Ahead b index) x y

theorem Collected.isRun {x y : Span} (hx : IsRun index x) (h : Collected b index x y) :
    IsRun index y := by
  rcases h with h | h
  · cases h with
    | refl => exact hx
    | tail _ hlast => exact hlast.1.left
  · cases h with
    | refl => exact hx
    | tail _ hlast => exact hlast.1.right

/-- A stitched literal holds what its seed grows to and what the walks meet. -/
theorem mem_fragments_stitch {seed : Span} {p : Nat} :
    p ∈ (stitch b index seed).fragments ↔
      ∃ y, (y = complete b index seed ∨ y ∈ (walkBackward b index (complete b index seed)).1 ∨
        y ∈ (walkForward b index (complete b index seed)).1) ∧ p ∈ y := by
  unfold stitch
  simp only [SpanSet.mem_ofSpans, Covers, List.cons_append, List.mem_cons, List.mem_append]

/-- **The positions of a stitched literal** are those of the runs collected. -/
theorem mem_stitch (hin : StringsInside b index) {seed : Span} (hseed : IsSeed index seed) {p : Nat} :
    p ∈ (stitch b index seed).fragments ↔
      ∃ y, Collected b index (complete b index seed) y ∧ p ∈ y := by
  have hrun := (isRun_complete hin hseed.pos hseed.string).1
  rw [mem_fragments_stitch]
  constructor
  · rintro ⟨y, rfl | hy | hy, hp⟩
    · exact ⟨_, Or.inl .refl, hp⟩
    · exact ⟨y, Or.inl ((mem_walkBackward hrun).mp (List.mem_cons_of_mem _ hy)), hp⟩
    · exact ⟨y, Or.inr ((mem_walkForward hin hrun).mp (List.mem_cons_of_mem _ hy)), hp⟩
  · rintro ⟨y, hy | hy, hp⟩
    · rcases List.mem_cons.mp ((mem_walkBackward hrun).mpr hy) with rfl | hy
      · exact ⟨_, Or.inl rfl, hp⟩
      · exact ⟨y, Or.inr (Or.inl hy), hp⟩
    · rcases List.mem_cons.mp ((mem_walkForward hin hrun).mpr hy) with rfl | hy
      · exact ⟨_, Or.inl rfl, hp⟩
      · exact ⟨y, Or.inr (Or.inr hy), hp⟩

/-- A stitched literal holds string text only, whatever the tags. -/
theorem isString_of_mem_stitch {seed : Span} (hseed : IsSeed index seed) {p : Nat}
    (h : p ∈ (stitch b index seed).fragments) : IsString index p := by
  obtain ⟨y, rfl | hy | hy, hp⟩ := mem_fragments_stitch.mp h
  · exact isString_complete hseed.string p hp
  · exact isString_of_mem_walkBackward hy p hp
  · exact isString_of_mem_walkForward hy p hp

/-- A stitched literal holds its seed. -/
theorem mem_stitch_of_mem (hin : StringsInside b index) {seed : Span} (hseed : IsSeed index seed)
    {p : Nat} (hp : p ∈ seed) : p ∈ (stitch b index seed).fragments :=
  (mem_stitch hin hseed).mpr
    ⟨_, Or.inl .refl, (isRun_complete hin hseed.pos hseed.string).2 p hp⟩

/-- A stitched literal holds a run as a whole or not at all. -/
theorem mem_stitch_of_isRun (hin : StringsInside b index) {seed : Span} (hseed : IsSeed index seed)
    {x : Span} (hx : IsRun index x) {p q : Nat} (hp : p ∈ x) (hq : q ∈ x)
    (h : p ∈ (stitch b index seed).fragments) : q ∈ (stitch b index seed).fragments := by
  obtain ⟨y, hy, hpy⟩ := (mem_stitch hin hseed).mp h
  have hrun := hy.isRun (isRun_complete hin hseed.pos hseed.string).1
  exact (mem_stitch hin hseed).mpr ⟨y, hy, hrun.eq_of_mem hx hpy hp ▸ hq⟩

/-- **A stitched literal that holds a run holds every run that leads to it.**
Going back is possible from wherever the walk has come. -/
theorem mem_stitch_of_next (hin : StringsInside b index) (hroom : Roomy b index) {seed : Span}
    (hseed : IsSeed index seed) {x y : Span} (hlink : Next b index x y) {p q : Nat} (hp : p ∈ y)
    (hq : q ∈ x) (h : p ∈ (stitch b index seed).fragments) :
    q ∈ (stitch b index seed).fragments := by
  obtain ⟨y', hy', hpy'⟩ := (mem_stitch hin hseed).mp h
  have hwhole := (isRun_complete hin hseed.pos hseed.string).1
  obtain rfl := (hy'.isRun hwhole).eq_of_mem hlink.right hpy' hp
  have hback : Behind b index y' x := ⟨hlink, hroom _ _ hlink⟩
  refine (mem_stitch hin hseed).mpr ⟨x, ?_, hq⟩
  rcases hy' with hy' | hy'
  · exact Or.inl (hy'.tail hback)
  · -- The last step forward came from `x`, unless there was none.
    rcases ReflTransGen.cases_tail hy' with heq | ⟨z, hz, hlast⟩
    · exact Or.inl (heq ▸ .single hback)
    · rw [hlink.left_unique hroom hlast.1]
      exact Or.inr hz

/-! ## Whole chains -/

/-- Runs of the same chain. -/
def Linked (b : Buffer) (index : TagIndex) (x y : Span) : Prop :=
  ReflTransGen (Next b index) x y ∨ ReflTransGen (Next b index) y x

/-- **What the walks need to be complete**: string text inside the buffer, two
positions before every hole behind a run, and a last position that is no
string text. -/
structure Spacious (b : Buffer) (index : TagIndex) : Prop where
  /-- String text lies inside the buffer. -/
  inside : StringsInside b index
  /-- There is room before holes. -/
  roomy : Roomy b index
  /-- The buffer does not end in string text. -/
  ending : ∀ p, p + 1 = b.size → ¬ IsString index p

namespace Linked

theorem symm {x y : Span} (h : Linked b index x y) : Linked b index y x := Or.symm h

/-- Links do not branch, on either side. -/
theorem trans (hin : StringsInside b index) (hroom : Roomy b index) {x y z : Span}
    (hxy : Linked b index x y) (hyz : Linked b index y z) : Linked b index x z := by
  have hright : Relator.RightUnique (Next b index) := fun _ _ _ h h' => h.right_unique hin h'
  have hleft : Relator.RightUnique (Function.swap (Next b index)) :=
    fun _ _ _ h h' => Next.left_unique hroom h h'
  rcases hxy with hxy | hyx <;> rcases hyz with hyz | hzy
  · exact Or.inl (hxy.trans hyz)
  · have h := ReflTransGen.total_of_right_unique hleft hxy.swap hzy.swap
    exact (h.imp Relation.reflTransGen_swap.mp Relation.reflTransGen_swap.mp).symm
  · exact ReflTransGen.total_of_right_unique hright hyx hyz
  · exact Or.inr (hzy.trans hyx)

end Linked

/-- With room everywhere, the walks collect the whole chain. -/
theorem collected_iff_linked (hs : Spacious b index) {x y : Span} :
    Collected b index x y ↔ Linked b index x y := by
  have hbehind : Behind b index = Function.swap (Next b index) := by
    funext x y
    exact propext ⟨fun h => h.1, fun h => ⟨h, hs.roomy _ _ h⟩⟩
  have hahead : Ahead b index = Next b index := by
    funext x y
    refine propext ⟨fun h => h.1, fun h => ⟨h, ?_⟩⟩
    -- Behind the holes there is one position at least, and it is not the last.
    have hholes := h.holes.add_two_le
    have hlen := h.right.pos
    have hstring := h.right.string _ (Span.pred_stop_mem hlen)
    have hsize := hs.inside _ hstring
    have hend : y.stop - 1 + 1 ≠ b.size := fun heq => hs.ending _ heq hstring
    simp only [Span.stop] at *
    omega
  rw [Collected, Linked, hbehind, hahead, Relation.reflTransGen_swap]
  exact Or.comm

/-- **A set of positions that is a whole chain.** -/
def IsChain (b : Buffer) (index : TagIndex) (fragments : SpanSet) : Prop :=
  ∃ x, IsRun index x ∧ ∀ p, p ∈ fragments ↔ ∃ y, Linked b index x y ∧ p ∈ y

theorem isChain_stitch (hs : Spacious b index) {seed : Span} (hseed : IsSeed index seed) :
    IsChain b index (stitch b index seed).fragments := by
  refine ⟨_, (isRun_complete hs.inside hseed.pos hseed.string).1, fun p => ?_⟩
  simp only [mem_stitch hs.inside hseed, collected_iff_linked hs]

namespace IsChain

theorem isString {c : SpanSet} (h : IsChain b index c) {p : Nat} (hp : p ∈ c) : IsString index p := by
  obtain ⟨x, hx, hmem⟩ := h
  obtain ⟨y, hy, hpy⟩ := (hmem p).mp hp
  refine IsRun.string (s := y) ?_ p hpy
  rcases hy with hy | hy
  · exact (ReflTransGen.cases_tail hy).elim (· ▸ hx) fun ⟨_, _, hlast⟩ => hlast.right
  · exact (ReflTransGen.cases_head hy).elim (· ▸ hx) fun ⟨_, hfirst, _⟩ => hfirst.left

/-- Chains with a position in common are equal. -/
theorem eq_of_mem (hs : Spacious b index) {c d : SpanSet} (hc : IsChain b index c)
    (hd : IsChain b index d) {p : Nat} (hpc : p ∈ c) (hpd : p ∈ d) : c = d := by
  obtain ⟨x, hx, hcx⟩ := hc
  obtain ⟨y, hy, hdy⟩ := hd
  have hrun : ∀ {u v : Span}, IsRun index u → Linked b index u v → IsRun index v :=
    fun hu huv => ((collected_iff_linked hs).mpr huv).isRun hu
  obtain ⟨u, hxu, hpu⟩ := (hcx p).mp hpc
  obtain ⟨v, hyv, hpv⟩ := (hdy p).mp hpd
  obtain rfl := (hrun hx hxu).eq_of_mem (hrun hy hyv) hpu hpv
  have hxy : Linked b index x y := hxu.trans hs.inside hs.roomy hyv.symm
  refine SpanSet.ext_mem fun q => ?_
  rw [hcx, hdy]
  exact ⟨fun ⟨z, hz, hq⟩ => ⟨z, hxy.symm.trans hs.inside hs.roomy hz, hq⟩,
    fun ⟨z, hz, hq⟩ => ⟨z, hxy.trans hs.inside hs.roomy hz, hq⟩⟩

end IsChain

/-! ## The literals of a request -/

theorem exists_seed_of_mem_stitchAll {visited : SpanSet} {seeds : List Span} {l : StitchedLiteral}
    (h : l ∈ stitchAll b index visited seeds) :
    ∃ seed ∈ seeds, seed.start ∉ visited ∧ l = stitch b index seed := by
  induction seeds generalizing visited with
  | nil => simp [stitchAll] at h
  | cons seed seeds ih =>
    rw [stitchAll] at h
    split at h
    · obtain ⟨s, hs, hrest⟩ := ih h
      exact ⟨s, List.mem_cons_of_mem _ hs, hrest⟩
    · next hnew =>
      rw [SpanSet.contains_iff] at hnew
      rcases List.mem_cons.mp h with rfl | h
      · exact ⟨seed, List.mem_cons_self, hnew, rfl⟩
      · obtain ⟨s, hs, hfree, heq⟩ := ih h
        rw [SpanSet.mem_union, not_or] at hfree
        exact ⟨s, List.mem_cons_of_mem _ hs, hfree.1, heq⟩

/-- Every seed lies in a literal that is found, or was found before. The literal
was stitched from the seed itself or from an earlier one. -/
theorem exists_stitchAll_of_mem (hin : StringsInside b index) (visited : SpanSet) {seeds : List Span}
    (hseeds : ∀ seed ∈ seeds, IsSeed index seed)
    (hsorted : seeds.Pairwise fun s t => s.start ≤ t.start) {seed : Span} (hseed : seed ∈ seeds) :
    seed.start ∈ visited ∨ ∃ s ∈ seeds, s.start ≤ seed.start ∧
      stitch b index s ∈ stitchAll b index visited seeds ∧
      seed.start ∈ (stitch b index s).fragments := by
  induction seeds generalizing visited with
  | nil => simp at hseed
  | cons s seeds ih =>
    obtain ⟨hfirst, hrest⟩ := List.forall_mem_cons.mp hseeds
    obtain ⟨hle, hsorted⟩ := List.pairwise_cons.mp hsorted
    rw [stitchAll]
    split
    · next hold =>
      rcases List.mem_cons.mp hseed with rfl | hseed
      · exact Or.inl (SpanSet.contains_iff.mp hold)
      · refine (ih visited hrest hsorted hseed).imp_right ?_
        rintro ⟨t, ht, hfound⟩
        exact ⟨t, List.mem_cons_of_mem _ ht, hfound⟩
    · rcases List.mem_cons.mp hseed with rfl | hseed
      · exact Or.inr ⟨seed, List.mem_cons_self, Nat.le_refl _, List.mem_cons_self,
          mem_stitch_of_mem hin hfirst (Span.start_mem hfirst.pos)⟩
      · rcases ih (visited.union (stitch b index s).fragments) hrest hsorted hseed with h | h
        · rw [SpanSet.mem_union] at h
          exact h.imp_right fun h => ⟨s, List.mem_cons_self, hle seed hseed, List.mem_cons_self, h⟩
        · obtain ⟨t, ht, hlt, hfound, hmem⟩ := h
          exact Or.inr ⟨t, List.mem_cons_of_mem _ ht, hlt, List.mem_cons_of_mem _ hfound, hmem⟩

/-- **No literal is stitched from a seed that an earlier one holds.** -/
theorem pairwise_seed_stitchAll {visited : SpanSet} {seeds : List Span} :
    (stitchAll b index visited seeds).Pairwise fun l m =>
      ∃ seed ∈ seeds, m = stitch b index seed ∧ seed.start ∉ l.fragments := by
  induction seeds generalizing visited with
  | nil => exact .nil
  | cons s seeds ih =>
    have hlater : ∀ {l m : StitchedLiteral},
        (∃ seed ∈ seeds, m = stitch b index seed ∧ seed.start ∉ l.fragments) →
        ∃ seed ∈ s :: seeds, m = stitch b index seed ∧ seed.start ∉ l.fragments :=
      fun ⟨seed, hseed, hfree⟩ => ⟨seed, List.mem_cons_of_mem _ hseed, hfree⟩
    rw [stitchAll]
    split
    · exact ih.imp hlater
    · refine List.pairwise_cons.mpr ⟨fun m hm => ?_, ih.imp hlater⟩
      obtain ⟨seed, hseed, hfree, rfl⟩ := exists_seed_of_mem_stitchAll hm
      rw [SpanSet.mem_union, not_or] at hfree
      exact ⟨seed, List.mem_cons_of_mem _ hseed, rfl, hfree.2⟩

/-- **No position is in two of the literals found.** -/
theorem pairwise_stitchAll (hs : Spacious b index) {visited : SpanSet} {seeds : List Span}
    (hseeds : ∀ seed ∈ seeds, IsSeed index seed) :
    (stitchAll b index visited seeds).Pairwise fun l m => ∀ p ∈ l.fragments, p ∉ m.fragments := by
  refine pairwise_seed_stitchAll.imp_of_mem ?_
  rintro l _ hl - ⟨seed, hseed, rfl, hfree⟩ p hp hpm
  obtain ⟨first, hfirst, -, rfl⟩ := exists_seed_of_mem_stitchAll hl
  have hone := hseeds seed hseed
  have heq := (isChain_stitch hs (hseeds first hfirst)).eq_of_mem hs (isChain_stitch hs hone) hp hpm
  rw [heq] at hfree
  exact hfree (mem_stitch_of_mem hs.inside hone (Span.start_mem hone.pos))

theorem isSeed_of_mem_spansOf {request seed : Span}
    (h : seed ∈ (index.spansOf .string request).toList) : IsSeed index seed := by
  refine ⟨(index.spansOf .string request).normal.nonempty seed h, fun p hp => ?_⟩
  obtain ⟨t, ht, hkind, -, hpt⟩ := TagIndex.mem_spansOf.mp ⟨seed, h, hp⟩
  exact isString_iff.mpr ⟨t, ht, hkind, hpt⟩

/-- The literals of a request are stitched from seeds. -/
theorem exists_seed_of_mem_literalsIn {request : Span} {l : StitchedLiteral}
    (h : l ∈ literalsIn b index request) :
    ∃ seed ∈ (index.spansOf .string request).toList, IsSeed index seed ∧ l = stitch b index seed := by
  obtain ⟨seed, hseed, -, rfl⟩ := exists_seed_of_mem_stitchAll h
  exact ⟨seed, hseed, isSeed_of_mem_spansOf hseed, rfl⟩

theorem isString_of_mem_literalsIn {request : Span} {l : StitchedLiteral}
    (h : l ∈ literalsIn b index request) {p : Nat} (hp : p ∈ l.fragments) : IsString index p := by
  obtain ⟨seed, -, hseed, rfl⟩ := exists_seed_of_mem_literalsIn h
  exact isString_of_mem_stitch hseed hp

/-- What a seed of a request holds is in a literal that is found, stitched from
that seed or from an earlier one. -/
theorem exists_stitch_of_mem_seed (hin : StringsInside b index) {request seed : Span}
    (hseed : seed ∈ (index.spansOf .string request).toList) {p : Nat} (hp : p ∈ seed) :
    ∃ s, IsSeed index s ∧ s.start ≤ seed.start ∧ stitch b index s ∈ literalsIn b index request ∧
      p ∈ (stitch b index s).fragments := by
  have hone := isSeed_of_mem_spansOf hseed
  obtain ⟨hrun, hwhole⟩ := isRun_complete hin hone.pos hone.string
  rcases exists_stitchAll_of_mem hin .empty (fun s hs => isSeed_of_mem_spansOf hs)
    (SpanSet.pairwise_start _) hseed with h | ⟨s, hs, hle, hl, hmem⟩
  · exact absurd h (by simp)
  · have hsseed := isSeed_of_mem_spansOf hs
    exact ⟨s, hsseed, hle, hl, mem_stitch_of_isRun hin hsseed hrun
      (hwhole _ (Span.start_mem hone.pos)) (hwhole p hp) hmem⟩

/-- Every string tag that shares a position with the request is in a literal
that is found. -/
theorem exists_literalsIn_of_tag (hin : StringsInside b index) (request : Span) {t : HostTag}
    (ht : t ∈ index.toList) (hkind : t.kind = .string)
    (hover : t.span.overlaps (TagIndex.probe request) = true) {p : Nat} (hp : p ∈ t.span) :
    ∃ l ∈ literalsIn b index request, p ∈ l.fragments := by
  obtain ⟨seed, hseed, hps⟩ := TagIndex.mem_spansOf.mpr ⟨t, ht, hkind, hover, hp⟩
  obtain ⟨s, -, -, hl, hmem⟩ := exists_stitch_of_mem_seed hin hseed hps
  exact ⟨_, hl, hmem⟩

theorem probe_of_pos {request : Span} (hpos : 0 < request.len) : TagIndex.probe request = request := by
  rw [TagIndex.probe, if_neg]
  rw [Span.isEmpty_iff]
  omega

/-- String text inside a request is in one of its seeds. -/
theorem exists_seed_of_isString {request : Span} {p : Nat} (hp : p ∈ request)
    (hstring : IsString index p) : ∃ seed ∈ (index.spansOf .string request).toList, p ∈ seed := by
  obtain ⟨t, ht, hkind, hpt⟩ := isString_iff.mp hstring
  refine TagIndex.mem_spansOf.mpr ⟨t, ht, hkind, ?_, hpt⟩
  rw [probe_of_pos (Span.len_pos_of_mem hp), Span.overlaps_iff]
  exact ⟨p, hpt, hp⟩

/-- The run of a seed reaches into the request: the tag that the seed begins in
does. -/
theorem exists_mem_complete (hin : StringsInside b index) {request : Span} (hpos : 0 < request.len)
    {seed : Span} (hseed : seed ∈ (index.spansOf .string request).toList) :
    ∃ q ∈ request, q ∈ complete b index seed := by
  have hone := isSeed_of_mem_spansOf hseed
  have hfirst := Span.start_mem hone.pos
  obtain ⟨t, ht, hkind, hover, hpt⟩ := TagIndex.mem_spansOf.mp ⟨seed, hseed, hfirst⟩
  have htag : ∀ p ∈ t.span, IsString index p := fun p hp => isString_iff.mpr ⟨t, ht, hkind, hp⟩
  rw [probe_of_pos hpos, Span.overlaps_iff] at hover
  obtain ⟨q, hqt, hq⟩ := hover
  obtain ⟨hrun, hwhole⟩ := isRun_complete hin hone.pos hone.string
  refine ⟨q, hq, hrun.mem_of_isString (hwhole _ hfirst) fun r hlo hhi => htag r ?_⟩
  rw [Span.mem_def] at hpt hqt ⊢
  omega

/-- **The literals of a request are the chains that reach into it.** -/
theorem exists_literalsIn_iff (hs : Spacious b index) {request : Span} (hpos : 0 < request.len)
    {c : SpanSet} :
    (∃ l ∈ literalsIn b index request, l.fragments = c) ↔
      IsChain b index c ∧ ∃ p ∈ request, p ∈ c := by
  constructor
  · rintro ⟨l, hl, rfl⟩
    obtain ⟨seed, hseed, hone, rfl⟩ := exists_seed_of_mem_literalsIn hl
    obtain ⟨q, hq, hmem⟩ := exists_mem_complete hs.inside hpos hseed
    exact ⟨isChain_stitch hs hone, q, hq, (mem_stitch hs.inside hone).mpr ⟨_, Or.inl .refl, hmem⟩⟩
  · rintro ⟨hc, p, hp, hpc⟩
    obtain ⟨seed, hseed, hps⟩ := exists_seed_of_isString hp (hc.isString hpc)
    obtain ⟨s, hone, -, hl, hpl⟩ := exists_stitch_of_mem_seed hs.inside hseed hps
    exact ⟨_, hl, (isChain_stitch hs hone).eq_of_mem hs hc hpl hpc⟩

theorem pairwise_literalsIn (hs : Spacious b index) (request : Span) :
    (literalsIn b index request).Pairwise fun l m => ∀ p ∈ l.fragments, p ∉ m.fragments :=
  pairwise_stitchAll hs fun _ h => isSeed_of_mem_spansOf h

end Stitch

end EmbeddedSql
