import EmbeddedSql.Proofs.Layout

/-!
# How often a position is stitched

A request should meet every literal once. It keeps track of the positions of
the literals it has stitched, and passes over a seed that is among them, so a
literal comes out twice only if it is not the same literal from each of its
fragments.

The two walks are inverse to each other but for the room they ask for. The walk
to the left asks for no more than a hole needs. The walk to the right asks for
one position too many: it wants four positions behind a fragment, and a hole
with nothing in it takes two and the fragment behind it may be a single quote.
So there is one link that is followed to the left and not to the right: the one
that leads to the very last position of the buffer through a hole with nothing
in it (`Stranded`). Stitched from the last position, the literal is whole;
stitched from any other fragment, it lacks that position, which is then met as
a seed of its own.

Every other position of such a literal is stitched twice by a request that
holds it and the last position. This is the only way that anything is stitched
more than once, and nothing is left out.
-/

namespace EmbeddedSql

/-- If no two elements of a list have a property, and one has it, it counts
once. -/
theorem countP_eq_one_of_pairwise {α : Type} {p : α → Bool} {l : List α}
    (hne : l.Pairwise fun a b => p a = true → ¬ p b = true) (hex : ∃ a ∈ l, p a = true) :
    l.countP p = 1 := by
  induction l with
  | nil => simp at hex
  | cons a l ih =>
    obtain ⟨hfirst, hrest⟩ := List.pairwise_cons.mp hne
    by_cases ha : p a = true
    · have hzero : l.countP p = 0 := List.countP_eq_zero.mpr fun b hb => hfirst b hb ha
      rw [List.countP_cons_of_pos ha, hzero]
    · rw [List.countP_cons_of_neg ha]
      refine ih hrest ?_
      obtain ⟨c, hc, hpc⟩ := hex
      rcases List.mem_cons.mp hc with rfl | hc
      · exact absurd hpc ha
      · exact ⟨c, hc, hpc⟩

namespace Stitch

open Relation (ReflTransGen)

variable {b : Buffer} {index : TagIndex}

/-! ## The link that is followed in one direction -/

/-- **A link with too little room for the walk to the right**: behind the first
run there are three positions and then the buffer ends. -/
structure Stranded (b : Buffer) (index : TagIndex) (x y : Span) : Prop where
  /-- There is a link. -/
  next : Next b index x y
  /-- It takes up the rest of the buffer. -/
  room : x.stop + 3 = b.size

namespace Stranded

/-- Two braces behind a run, and one more position of string text, with which
the buffer ends. -/
theorem of_braces (hin : StringsInside b index) {x : Span} (hrun : IsRun index x)
    (hroom : x.stop + 3 = b.size) (hopen : isHoleBrace b index x.stop '\x7b' = true)
    (hclose : isHoleBrace b index (x.stop + 1) '\x7d' = true) (hlast : IsString index (x.stop + 2)) :
    Stranded b index x ⟨x.stop + 2, 1⟩ := by
  have hrise := height_succ b index x.stop
  have hfall := height_succ b index (x.stop + 1)
  rw [rise_of_open hopen] at hrise
  rw [rise_of_close hclose] at hfall
  have hgroup : Group b index x.stop (x.stop + 1) := by
    refine ⟨Nat.lt_succ_self _, by omega, fun c hlo hhi => ?_⟩
    rw [show c = x.stop + 1 by omega]
    omega
  refine ⟨⟨hrun, ⟨Nat.one_pos, fun p hp => ?_, fun hend => ?_, fun p hp => ?_⟩, .one hgroup⟩, hroom⟩
  · have hlo : x.stop + 2 ≤ p := hp.1
    have hhi : p < x.stop + 2 + 1 := hp.2
    rwa [show p = x.stop + 2 by omega]
  · exact absurd (hin _ hend) (by show ¬ x.stop + 2 + 1 < b.size; omega)
  · rw [show p = x.stop + 1 from Nat.succ.inj hp]
    exact not_isString_of_isHoleBrace hclose

/-- The hole has nothing in it, and the second run is the last position. -/
theorem bounds (hin : StringsInside b index) {x y : Span} (h : Stranded b index x y) :
    y.start + 1 = b.size ∧ y.stop = b.size := by
  have hholes := h.next.holes.add_two_le
  have hlen := h.next.right.pos
  have hsize := hin _ (h.next.right.string _ (Span.pred_stop_mem hlen))
  have hroom := h.room
  simp only [Span.stop] at *
  omega

/-- Nothing follows the last position. -/
theorem not_next (hin : StringsInside b index) {x y z : Span} (h : Stranded b index x y) :
    ¬ Next b index y z := by
  intro hz
  have hstop := (h.bounds hin).2
  have hholes := hz.holes.add_two_le
  have hsize := hin _ (hz.right.string _ (Span.start_mem hz.right.pos))
  omega

/-- **The last position is reached from itself only.** -/
theorem eq_of_collected (hin : StringsInside b index) (hroom : Roomy b index) {x y z : Span}
    (h : Stranded b index x y) (hz : Collected b index z y) : z = y := by
  rcases hz with hz | hz
  · -- To the left: `z` would have to follow the last position.
    rcases ReflTransGen.cases_tail hz with heq | ⟨w, -, hlast⟩
    · exact heq.symm
    · exact absurd hlast.1 (h.not_next hin)
  · rcases ReflTransGen.cases_tail hz with heq | ⟨w, -, hlast⟩
    · exact heq.symm
    · have hlt := hlast.2
      rw [Next.left_unique hroom hlast.1 h.next, h.room] at hlt
      exact absurd hlt (Nat.lt_irrefl _)

/-- A literal that holds the last position was stitched from it. -/
theorem complete_eq (hin : StringsInside b index) (hroom : Roomy b index) {x y seed : Span}
    (h : Stranded b index x y) (hseed : IsSeed index seed)
    (hmem : y.start ∈ (stitch b index seed).fragments) : complete b index seed = y := by
  obtain ⟨z, hz, hyz⟩ := (mem_stitch hin hseed).mp hmem
  have hrun := hz.isRun (isRun_complete hin hseed.pos hseed.string).1
  obtain rfl := hrun.eq_of_mem h.next.right hyz (Span.start_mem h.next.right.pos)
  exact h.eq_of_collected hin hroom hz

end Stranded

/-- What can be reached to the right is reached by the walk, unless the last
link is stranded. -/
theorem ahead_or_stranded (hin : StringsInside b index) {x y : Span}
    (h : ReflTransGen (Next b index) x y) :
    ReflTransGen (Ahead b index) x y ∨ ∃ w, Stranded b index w y := by
  induction h with
  | refl => exact Or.inl .refl
  | @tail y z _ hlink ih =>
    rcases ih with hwalk | ⟨w, hw⟩
    · have hholes := hlink.holes.add_two_le
      have hsize := hin _ (hlink.right.string _ (Span.start_mem hlink.right.pos))
      rcases Nat.lt_or_eq_of_le (show y.stop + 3 ≤ b.size by omega) with hlt | heq
      · exact Or.inl (hwalk.tail ⟨hlink, hlt⟩)
      · exact Or.inr ⟨y, hlink, heq⟩
    · exact absurd hlink (hw.not_next hin)

theorem Collected.linked {x y : Span} (h : Collected b index x y) : Linked b index x y := by
  rcases h with h | h
  · exact Or.inr (Relation.reflTransGen_swap.mp (h.lift id fun _ _ hlink => hlink.1))
  · exact Or.inl (h.lift id fun _ _ hlink => hlink.1)

/-- With room before the holes, everything to the left is collected. -/
theorem collected_of_next (hroom : Roomy b index) {x y : Span}
    (h : ReflTransGen (Next b index) x y) : Collected b index y x :=
  Or.inl ((Relation.reflTransGen_swap.mpr h).lift id fun _ _ hlink => ⟨hlink, hroom _ _ hlink⟩)

/-! ## Positions in two literals -/

/-- **A position that goes with the last one**: its literal leads, through a
hole with nothing in it, to the last position of the buffer `y`. -/
def Leads (b : Buffer) (index : TagIndex) (p : Nat) (y : Span) : Prop :=
  ∃ w x, p ∈ w ∧ ReflTransGen (Next b index) w x ∧ Stranded b index x y

/-- **Two literals share a position only if the second was stitched from a
stranded one**, given that the first does not hold the seed of the second. -/
theorem leads_of_mem_both (hin : StringsInside b index) (hroom : Roomy b index) {s t : Span}
    (hs : IsSeed index s) (ht : IsSeed index t) (hfree : t.start ∉ (stitch b index s).fragments)
    {p : Nat} (hp : p ∈ (stitch b index s).fragments) (hp' : p ∈ (stitch b index t).fragments) :
    Leads b index p (complete b index t) := by
  have hsrun := (isRun_complete hin hs.pos hs.string).1
  obtain ⟨htrun, hwhole⟩ := isRun_complete hin ht.pos ht.string
  have hseed := hwhole _ (Span.start_mem ht.pos)
  -- The first literal does not hold the run of the second seed.
  have hapart : ¬ Collected b index (complete b index s) (complete b index t) := fun h =>
    hfree ((mem_stitch hin hs).mpr ⟨_, h, hseed⟩)
  obtain ⟨w, hsw, hpw⟩ := (mem_stitch hin hs).mp hp
  obtain ⟨w', htw, hpw'⟩ := (mem_stitch hin ht).mp hp'
  obtain rfl := (hsw.isRun hsrun).eq_of_mem (htw.isRun htrun) hpw hpw'
  have hne : w ≠ complete b index t := fun heq => hapart (heq ▸ hsw)
  have hstranded : ∃ x, Stranded b index x (complete b index t) := by
    rcases hsw.linked.trans hin hroom htw.linked.symm with h | h
    · exact (ahead_or_stranded hin h).resolve_left fun hwalk => hapart (Or.inr hwalk)
    · exact absurd (collected_of_next hroom h) hapart
  obtain ⟨x, hx⟩ := hstranded
  -- The position lies before the stranded one, so the way there is by `x`.
  rcases htw.linked with h | h
  · rcases ReflTransGen.cases_head h with heq | ⟨z, hz, -⟩
    · exact absurd heq.symm hne
    · exact absurd hz (hx.not_next hin)
  · rcases ReflTransGen.cases_tail h with heq | ⟨z, hwz, hz⟩
    · exact absurd heq.symm hne
    · rw [Next.left_unique hroom hz hx.next] at hwz
      exact ⟨w, x, hpw, hwz, hx⟩

theorem Leads.lt_start (hin : StringsInside b index) {p : Nat} {y : Span}
    (h : Leads b index p y) : p < y.start := by
  obtain ⟨w, x, hp, hwx, hx⟩ := h
  have hlast := (hx.bounds hin).1
  have hbefore : ∀ {w}, ReflTransGen (Next b index) w x → w.stop ≤ x.stop := by
    intro w hwx
    induction hwx using ReflTransGen.head_induction_on with
    | refl => exact Nat.le_refl _
    | @head u v huv _ ih =>
      have hholes := huv.holes.add_two_le
      have hle := v.start_le_stop
      omega
  have hle := hbefore hwx
  have hroom := hx.room
  have hend := hp.2
  omega

/-! ## Counting -/

/-- The literals of a request that hold a position. -/
def multiplicity (b : Buffer) (index : TagIndex) (request : Span) (p : Nat) : Nat :=
  (literalsIn b index request).countP fun l => l.fragments.contains p

/-- **Two literals of a request that share a position** share it because of the
last position, which the request holds too, and the second literal has it. -/
theorem pairwise_literalsIn_leads (hin : StringsInside b index) (hroom : Roomy b index)
    {request : Span} (hpos : 0 < request.len) :
    (literalsIn b index request).Pairwise fun l m => ∀ p, p ∈ l.fragments → p ∈ m.fragments →
      ∃ y, Leads b index p y ∧ y.start ∈ request ∧ y.start ∈ m.fragments ∧ y.start ∉ l.fragments := by
  refine pairwise_seed_stitchAll.imp_of_mem ?_
  rintro l _ hl - ⟨t, ht, rfl, hfree⟩ p hp hp'
  obtain ⟨s, hs, hsseed, rfl⟩ := exists_seed_of_mem_literalsIn hl
  have htseed := isSeed_of_mem_spansOf ht
  have hleads := leads_of_mem_both hin hroom hsseed htseed hfree hp hp'
  obtain ⟨htrun, hwhole⟩ := isRun_complete hin htseed.pos htseed.string
  have hstart := Span.start_mem htrun.pos
  refine ⟨_, hleads, ?_, (mem_stitch hin htseed).mpr ⟨_, Or.inl .refl, hstart⟩, fun hmem => ?_⟩
  · obtain ⟨q, hq, hqt⟩ := exists_mem_complete hin hpos ht
    obtain ⟨-, x, -, -, hx⟩ := hleads
    obtain ⟨hone, hstop⟩ := hx.bounds hin
    rw [Span.mem_def, hstop] at hqt
    rwa [show (complete b index t).start = q by omega]
  · exact hfree (mem_stitch_of_isRun hin hsseed htrun hstart
      (hwhole _ (Span.start_mem htseed.pos)) hmem)

/-- **A position that does not go with the last one is stitched once**, and so is
one that does, if the request leaves the last position out. -/
theorem multiplicity_eq_one (hin : StringsInside b index) (hroom : Roomy b index) {request : Span}
    {p : Nat} (hp : p ∈ request) (hstring : IsString index p)
    (halone : ¬ ∃ y, Leads b index p y ∧ y.start ∈ request) :
    multiplicity b index request p = 1 := by
  refine countP_eq_one_of_pairwise ?_ ?_
  · refine (pairwise_literalsIn_leads hin hroom (Span.len_pos_of_mem hp)).imp ?_
    intro l m hshare hl hm
    obtain ⟨y, hleads, hy, -⟩ := hshare p (SpanSet.contains_iff.mp hl) (SpanSet.contains_iff.mp hm)
    exact halone ⟨y, hleads, hy⟩
  · obtain ⟨seed, hseed, hps⟩ := exists_seed_of_isString hp hstring
    obtain ⟨s, -, -, hl, hpl⟩ := exists_stitch_of_mem_seed hin hseed hps
    exact ⟨_, hl, SpanSet.contains_iff.mpr hpl⟩

/-- There is one last position only. -/
theorem Leads.start_eq (hin : StringsInside b index) {p q : Nat} {y z : Span}
    (hy : Leads b index p y) (hz : Leads b index q z) : y.start = z.start := by
  obtain ⟨-, x, -, -, hx⟩ := hy
  obtain ⟨-, x', -, -, hx'⟩ := hz
  exact Nat.succ.inj ((hx.bounds hin).1.trans (hx'.bounds hin).1.symm)

section Twice

variable (hin : StringsInside b index) (hroom : Roomy b index) {request : Span} {p : Nat}
  (hp : p ∈ request) {y : Span} (hleads : Leads b index p y)

include hin hroom hp hleads

/-- Of the literals with the last position, one holds the other positions. -/
theorem countP_with_last (hy : y.start ∈ request) :
    ((literalsIn b index request).filter fun l => l.fragments.contains y.start).countP
      (fun l => l.fragments.contains p) = 1 := by
  refine countP_eq_one_of_pairwise ?_ ?_
  · have hshares := pairwise_literalsIn_leads hin hroom (Span.len_pos_of_mem hp)
    refine List.pairwise_filter.mpr (hshares.imp ?_)
    intro l m hshare hl hm _ _
    obtain ⟨z, hz, -⟩ := hshare y.start (SpanSet.contains_iff.mp hl) (SpanSet.contains_iff.mp hm)
    -- Nothing leads from the last position to the last position.
    exact Nat.ne_of_lt (hz.lt_start hin) (hleads.start_eq hin hz)
  · obtain ⟨w, x, hpw, hwx, hx⟩ := hleads
    have hlast := hx.next.right.string _ (Span.start_mem hx.next.right.pos)
    obtain ⟨seed, hseed, hys⟩ := exists_seed_of_isString hy hlast
    obtain ⟨s, hone, -, hl, hyl⟩ := exists_stitch_of_mem_seed hin hseed hys
    refine ⟨_, List.mem_filter.mpr ⟨hl, SpanSet.contains_iff.mpr hyl⟩, SpanSet.contains_iff.mpr ?_⟩
    refine (mem_stitch hin hone).mpr ⟨w, ?_, hpw⟩
    rw [hx.complete_eq hin hroom hone hyl]
    exact collected_of_next hroom (hwx.tail hx.next)

/-- Of the literals without it, one holds them too: the seed that a position is
in is met before the last position. -/
theorem countP_without_last (hstring : IsString index p) :
    ((literalsIn b index request).filter fun l => !l.fragments.contains y.start).countP
      (fun l => l.fragments.contains p) = 1 := by
  have hnot : ∀ l : StitchedLiteral,
      (!l.fragments.contains y.start) = true ↔ y.start ∉ l.fragments := fun l => by
    rw [Bool.not_eq_true', ← Bool.not_eq_true, SpanSet.contains_iff]
  refine countP_eq_one_of_pairwise ?_ ?_
  · have hshares := pairwise_literalsIn_leads hin hroom (Span.len_pos_of_mem hp)
    refine List.pairwise_filter.mpr (hshares.imp ?_)
    intro l m hshare _ hm hpl hpm
    obtain ⟨z, hz, -, hzm, -⟩ := hshare p (SpanSet.contains_iff.mp hpl) (SpanSet.contains_iff.mp hpm)
    rw [hnot, hleads.start_eq hin hz] at hm
    exact hm hzm
  · obtain ⟨seed, hseed, hps⟩ := exists_seed_of_isString hp hstring
    obtain ⟨s, hone, hle, hl, hpl⟩ := exists_stitch_of_mem_seed hin hseed hps
    refine ⟨_, List.mem_filter.mpr ⟨hl, (hnot _).mpr fun hys => ?_⟩, SpanSet.contains_iff.mpr hpl⟩
    have hlt := hleads.lt_start hin
    obtain ⟨-, x, -, -, hx⟩ := hleads
    have hfirst := (isRun_complete hin hone.pos hone.string).2 _ (Span.start_mem hone.pos)
    rw [hx.complete_eq hin hroom hone hys] at hfirst
    have hbefore : s.start ≤ p := Nat.le_trans hle hps.1
    exact Nat.lt_irrefl _ (Nat.lt_of_le_of_lt (Nat.le_trans hfirst.1 hbefore) hlt)

/-- **A position that goes with the last one is stitched twice** by a request
that holds both: once with the last position and once without it. -/
theorem multiplicity_eq_two (hstring : IsString index p) (hy : y.start ∈ request) :
    multiplicity b index request p = 2 := by
  have hsplit := List.countP_eq_countP_filter_add (literalsIn b index request)
    (fun l => l.fragments.contains p) (fun l => l.fragments.contains y.start)
  rw [multiplicity, hsplit, countP_with_last hin hroom hp hleads hy,
    countP_without_last hin hroom hp hleads hstring]

end Twice

/-- **How often string text is stitched.** On a scanned buffer, a position of
string text inside a request is in exactly one literal of the request, unless
its literal leads through a hole with nothing in it to the last position of the
buffer and the request holds that position as well: then it is in exactly
two. -/
theorem multiplicity_classify (b : Buffer) {request : Span} {p : Nat} (hp : p ∈ request)
    (hstring : (Host.classify b).isKindAt p .string = true) :
    ((¬ ∃ y, Leads b (Host.classify b) p y ∧ y.start ∈ request) →
        multiplicity b (Host.classify b) request p = 1) ∧
      ((∃ y, Leads b (Host.classify b) p y ∧ y.start ∈ request) →
        multiplicity b (Host.classify b) request p = 2) := by
  have hin := Host.stringsInside_classify b
  have hroom := Host.roomy_classify b
  exact ⟨multiplicity_eq_one hin hroom hp hstring,
    fun ⟨_, hleads, hy⟩ => multiplicity_eq_two hin hroom hp hleads hstring hy⟩

/-- A buffer that goes on behind its literal: its first fragment is stitched
once. -/
theorem multiplicity_classify_closed :
    ∃ (b : Buffer) (request : Span) (p : Nat), b = .ofText "$\"a\x7b\x7d\";" ∧ request = b.full ∧
      p ∈ request ∧ (Host.classify b).isKindAt p .string = true ∧
      multiplicity b (Host.classify b) request p = 1 := by
  have htags : (Host.scan (.ofText "$\"a\x7b\x7d\";")).tags.toList =
      [⟨⟨0, 3⟩, .string⟩, ⟨⟨3, 1⟩, .punctuation⟩, ⟨⟨4, 1⟩, .punctuation⟩, ⟨⟨5, 1⟩, .string⟩,
        ⟨⟨6, 1⟩, .punctuation⟩] := by decide +kernel
  have hstring : (Host.classify (.ofText "$\"a\x7b\x7d\";")).isKindAt 2 .string = true := by
    rw [Host.isKindAt_classify, htags]
    decide
  refine ⟨_, _, 2, rfl, rfl, by decide, hstring, ?_⟩
  refine (multiplicity_classify _ (by decide) hstring).1 ?_
  -- The last position is a semicolon, which no link leads to.
  rintro ⟨y, ⟨-, x, -, -, hx⟩, -⟩
  have hlast := (hx.bounds (Host.stringsInside_classify _)).1
  have hy := hx.next.right.string _ (Span.start_mem hx.next.right.pos)
  rw [show y.start = 6 from Nat.succ.inj (hlast.trans (by decide)), IsString,
    Host.isKindAt_classify, htags] at hy
  exact absurd hy (by decide)

/-- **The last link of a buffer may be followed in one direction only.** If the
buffer ends with an interpolated literal and a hole with nothing in it stands
before the closing quote, its first fragment is stitched twice. -/
theorem multiplicity_emptyHole :
    ∃ (b : Buffer) (request : Span) (p : Nat), b = .ofText "$\"a\x7b\x7d\"" ∧ request = b.full ∧
      p ∈ request ∧ (Host.classify b).isKindAt p .string = true ∧
      multiplicity b (Host.classify b) request p = 2 := by
  have htags : (Host.scan (.ofText "$\"a\x7b\x7d\"")).tags.toList =
      [⟨⟨0, 3⟩, .string⟩, ⟨⟨3, 1⟩, .punctuation⟩, ⟨⟨4, 1⟩, .punctuation⟩, ⟨⟨5, 1⟩, .string⟩] := by
    decide +kernel
  have hstring : ∀ p, IsString (Host.classify (.ofText "$\"a\x7b\x7d\"")) p ↔ p < 3 ∨ p = 5 := by
    intro p
    rw [IsString, Host.isKindAt_classify, htags]
    simp only [List.mem_cons, List.not_mem_nil, or_false, exists_eq_or_imp, exists_eq_left,
      Span.mem_def, Span.stop, reduceCtorEq, false_and, true_and, false_or]
    omega
  have hbrace : ∀ p c, (Buffer.ofText "$\"a\x7b\x7d\"").isAt p c = true → p = 3 ∨ p = 4 →
      isHoleBrace (.ofText "$\"a\x7b\x7d\"") (Host.classify (.ofText "$\"a\x7b\x7d\"")) p c =
        true := by
    intro p c hat hp
    rw [Host.isHoleBrace_classify, hat, Bool.true_and, Host.isKindAt_classify, htags]
    rcases hp with rfl | rfl <;> decide
  have hrun : IsRun (Host.classify (.ofText "$\"a\x7b\x7d\"")) ⟨0, 3⟩ :=
    ⟨by decide, fun p hp => (hstring p).mpr (Or.inl (hp.2)), mt (hstring 3).mp (by decide),
      fun p hp => absurd hp (Nat.succ_ne_zero p)⟩
  have hin := Host.stringsInside_classify (.ofText "$\"a\x7b\x7d\"")
  have hlast : Stranded (.ofText "$\"a\x7b\x7d\"") (Host.classify (.ofText "$\"a\x7b\x7d\""))
      ⟨0, 3⟩ ⟨5, 1⟩ :=
    .of_braces hin hrun (by decide) (hbrace 3 _ (by decide) (Or.inl rfl))
      (hbrace 4 _ (by decide) (Or.inr rfl)) ((hstring 5).mpr (Or.inr rfl))
  have htwo := (hstring 2).mpr (Or.inl (by decide))
  exact ⟨_, _, 2, rfl, rfl, by decide, htwo, multiplicity_eq_two hin (Host.roomy_classify _)
    (by decide) ⟨⟨0, 3⟩, ⟨0, 3⟩, by decide, .refl, hlast⟩ htwo (by decide)⟩

end Stitch

end EmbeddedSql
