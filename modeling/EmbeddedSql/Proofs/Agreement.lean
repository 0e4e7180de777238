import EmbeddedSql.Proofs.Balance
import Mathlib.Algebra.Ring.Int.Defs

/-!
# The scanner and the stitcher agree

The stitcher sees tags only, and counts braces. On a scanned buffer its count
is read off the tags in order: the height of a position is what the tags
before it add up to (`height_classify`). So the tags of a hole between two
fragments, which balance, make the braces around them a group, and the walk
from the one fragment leads to the other.

It follows that whatever literal the scanner found, its fragments are together
in one stitched literal (`exists_literalsIn_of_scanned`): the literal that
holds the last of them holds the others, since it holds with a run every run
that leads to it.
-/

namespace EmbeddedSql

namespace Host

open Stitch

variable {b : Buffer}

/-! ## Heights on a scanned buffer -/

/-- What the tags that start before a position add up to. -/
def sumBefore (b : Buffer) (c : Nat) (tags : List HostTag) : Int :=
  (tags.map fun t => if t.span.start < c then turn b t else 0).sum

@[simp] theorem sumBefore_nil (b : Buffer) (c : Nat) : sumBefore b c [] = 0 := rfl

@[simp] theorem sumBefore_cons (b : Buffer) (c : Nat) (t : HostTag) (tags : List HostTag) :
    sumBefore b c (t :: tags) = (if t.span.start < c then turn b t else 0) + sumBefore b c tags := by
  simp [sumBefore]

@[simp] theorem sumBefore_append (b : Buffer) (c : Nat) (ts us : List HostTag) :
    sumBefore b c (ts ++ us) = sumBefore b c ts + sumBefore b c us := by
  simp [sumBefore]

/-- Tags that start later do not count. -/
theorem sumBefore_of_le_start {c : Nat} {tags : List HostTag} (h : ∀ t ∈ tags, c ≤ t.span.start) :
    sumBefore b c tags = 0 := by
  induction tags with
  | nil => rfl
  | cons t tags ih =>
    obtain ⟨ht, htags⟩ := List.forall_mem_cons.mp h
    rw [sumBefore_cons, if_neg (by omega), ih htags, Int.add_zero]

/-- Only punctuation counts, and it is where it starts. -/
theorem mem_span_of_turn_ne_zero {t : HostTag} (ht : Tagged b t) (h : turn b t ≠ 0) :
    t.kind = .punctuation ∧ t.span.stop = t.span.start + 1 := by
  have hkind : t.kind = .punctuation := Decidable.of_not_not fun hkind => h (if_neg hkind)
  exact ⟨hkind, by rw [Span.stop, ht.one hkind]⟩

/-- Moving on over a position without punctuation changes nothing. -/
theorem sumBefore_succ_of_not_mem {c : Nat} {tags : List HostTag} (htags : ∀ t ∈ tags, Tagged b t)
    (h : ∀ t ∈ tags, t.kind = .punctuation → c ∉ t.span) :
    sumBefore b (c + 1) tags = sumBefore b c tags := by
  induction tags with
  | nil => rfl
  | cons t tags ih =>
    obtain ⟨ht, htags⟩ := List.forall_mem_cons.mp htags
    obtain ⟨hc, hrest⟩ := List.forall_mem_cons.mp h
    rw [sumBefore_cons, sumBefore_cons, ih htags hrest]
    by_cases hturn : turn b t = 0
    · simp [hturn]
    · obtain ⟨hkind, hstop⟩ := mem_span_of_turn_ne_zero ht hturn
      have hne : t.span.start ≠ c := fun heq => hc hkind ⟨by omega, by omega⟩
      simp only [show t.span.start < c + 1 ↔ t.span.start < c by omega]

/-- Moving on over punctuation adds what its unit does. -/
theorem sumBefore_succ_of_mem {c lo hi : Nat} {tags : List HostTag} (hlaid : Laid lo hi tags)
    (htags : ∀ t ∈ tags, Tagged b t) {t : HostTag} (ht : t ∈ tags) (hkind : t.kind = .punctuation)
    (hc : c ∈ t.span) : sumBefore b (c + 1) tags = sumBefore b c tags + unitTurn b c := by
  induction tags generalizing lo with
  | nil => simp at ht
  | cons u tags ih =>
    obtain ⟨hu, hrest⟩ := List.forall_mem_cons.mp htags
    rw [sumBefore_cons, sumBefore_cons]
    by_cases hcu : u.kind = .punctuation ∧ c ∈ u.span
    · -- This is the tag, and the tags behind it start later.
      obtain ⟨hukind, hcu⟩ := hcu
      have hone := hu.one hukind
      rw [Span.mem_def, Span.stop] at hcu
      obtain rfl : u.span.start = c := by omega
      have hlater : ∀ v ∈ tags, u.span.start + 1 ≤ v.span.start := fun v hv => by
        have := (hlaid.2.bounds hv).1
        rw [Span.stop] at this
        omega
      rw [sumBefore_of_le_start hlater, sumBefore_of_le_start fun v hv => Nat.le_of_succ_le (hlater v hv),
        if_pos (by omega), if_neg (by omega), turn, if_pos hukind]
      omega
    · have htrest : t ∈ tags := (List.mem_cons.mp ht).resolve_left fun heq => hcu (heq ▸ ⟨hkind, hc⟩)
      rw [ih hlaid.2 hrest htrest]
      by_cases hturn : turn b u = 0
      · simp [hturn]
      · obtain ⟨hukind, hstop⟩ := mem_span_of_turn_ne_zero hu hturn
        have hne : u.span.start ≠ c := fun heq => hcu ⟨hukind, by omega, by omega⟩
        simp only [show u.span.start < c + 1 ↔ u.span.start < c by omega]
        omega

theorem rise_classify (b : Buffer) (p : Nat) :
    rise b (classify b) p =
      if (classify b).isKindAt p .punctuation then unitTurn b p else 0 := by
  simp only [rise, isHoleBrace_classify, unitTurn]
  by_cases hpunct : (classify b).isKindAt p .punctuation = true
  · simp only [hpunct, Bool.and_true, if_true]
  · simp [hpunct]

/-- **The height of a position is what the tags before it add up to.** -/
theorem height_classify (b : Buffer) (c : Nat) :
    height b (classify b) c = sumBefore b c (scan b).tags.toList := by
  obtain ⟨hlaid, htagged⟩ := layout_scan b
  induction c with
  | zero => exact (sumBefore_of_le_start fun t _ => Nat.zero_le _).symm
  | succ c ih =>
    rw [height_succ, ih, rise_classify]
    split
    · next hpunct =>
      obtain ⟨t, ht, hkind, hc⟩ := isKindAt_classify.mp hpunct
      exact (sumBefore_succ_of_mem hlaid htagged ht hkind hc).symm
    · next hpunct =>
      rw [Int.add_zero, sumBefore_succ_of_not_mem htagged]
      exact fun t ht hkind hc => hpunct (isKindAt_classify.mpr ⟨t, ht, hkind, hc⟩)

/-! ## Holes on a scanned buffer -/

/-- What tags add up to. -/
def total (b : Buffer) (tags : List HostTag) : Int := (tags.map (turn b)).sum

theorem sumBefore_of_stop_le {c : Nat} {tags : List HostTag} (htags : ∀ t ∈ tags, Tagged b t)
    (h : ∀ t ∈ tags, t.span.stop ≤ c) : sumBefore b c tags = total b tags := by
  induction tags with
  | nil => rfl
  | cons t tags ih =>
    obtain ⟨ht, htags⟩ := List.forall_mem_cons.mp htags
    obtain ⟨hc, hrest⟩ := List.forall_mem_cons.mp h
    rw [sumBefore_cons, ih htags hrest, total, total, List.map_cons, List.sum_cons]
    by_cases hturn : turn b t = 0
    · simp [hturn]
    · have hstop := (mem_span_of_turn_ne_zero ht hturn).2
      rw [if_pos (by omega)]

theorem Climbs.add_total {h k : Int} {tags : List HostTag} (hc : Climbs b h k tags) :
    h + total b tags = k := by
  induction tags generalizing h with
  | nil =>
    have hend := hc.2
    simpa [total] using hend
  | cons t tags ih =>
    have hrest := ih hc.2
    rw [total, List.map_cons, List.sum_cons, ← Int.add_assoc]
    exact hrest

/-- Balanced tags, cut off anywhere, do not go below zero. -/
theorem Climbs.add_sumBefore_nonneg {h k : Int} {lo hi c : Nat} {tags : List HostTag}
    (hc : Climbs b h k tags) (hlaid : Laid lo hi tags) : 0 ≤ h + sumBefore b c tags := by
  induction tags generalizing h lo with
  | nil => simpa using hc.nonneg
  | cons t tags ih =>
    rw [sumBefore_cons]
    split
    · have := ih hc.2 hlaid.2
      omega
    · next hlater =>
      have hrest : sumBefore b c tags = 0 := sumBefore_of_le_start fun u hu => by
        have := (hlaid.2.bounds hu).1
        have := t.span.start_le_stop
        omega
      have := hc.nonneg
      omega

/-- Where the tags around a hole lie. -/
theorem Laid.around_hole {lo hi last : Nat} {f g : Span} {before inner behind : List HostTag}
    (h : Laid lo hi (before ++ (⟨f, .string⟩ :: markTag f.stop :: inner ++
      [markTag last, ⟨g, .string⟩]) ++ behind)) :
    (∀ t ∈ before, t.span.stop ≤ f.start) ∧ Laid (f.stop + 1) last inner ∧ last + 1 ≤ g.start ∧
      ∀ t ∈ behind, g.stop ≤ t.span.start := by
  have hmark : ∀ p, (markTag p).span.stop = p + 1 := fun p => by
    rw [markTag, Span.stop_between]
    omega
  obtain ⟨m₁, h, hbehind⟩ := h.split
  obtain ⟨m₂, hbefore, hf, -, h⟩ := h.split
  obtain ⟨m₃, hinner, hlast, hfollow, hend⟩ := h.split
  rw [hmark] at hinner hfollow
  refine ⟨fun t ht => ?_, hinner.to_le hlast, hfollow, fun t ht => ?_⟩
  · exact Nat.le_trans (hbefore.bounds ht).2 hf
  · exact Nat.le_trans hend (hbehind.bounds ht).1

/-- **The braces between two fragments are a group.** -/
theorem group_of_parted {f g : Span} (h : Parted b (scan b).tags.toList f g) :
    Group b (classify b) f.stop (g.start - 1) := by
  obtain ⟨inner, last, hg, hopen, hclose, hinner, before, behind, heq⟩ := h
  obtain ⟨hlaid, htagged⟩ := layout_scan b
  have hheight := height_classify b
  rw [← heq] at hlaid htagged hheight
  obtain ⟨hbefore, hlaid, -, hbehind⟩ := hlaid.around_hole
  simp only [List.mem_append, List.mem_cons] at htagged
  have hstring : ∀ s : Span, turn b ⟨s, .string⟩ = 0 := fun s => turn_of_not_punctuation nofun
  have hlt := hlaid.le
  have hf := f.start_le_stop
  have hgstop := g.start_le_stop
  -- Between the braces only the tags in between still change the sum.
  have hsum : ∀ c, f.stop ≤ c → c ≤ last + 1 → height b (classify b) c =
      total b before + (if f.stop < c then 1 else 0) + sumBefore b c inner +
        if last < c then -1 else 0 := by
    intro c hlo hhi
    have h₁ : sumBefore b c before = total b before :=
      sumBefore_of_stop_le (fun t ht => htagged t (by grind)) fun t ht => by
        have := hbefore t ht
        omega
    have h₂ : sumBefore b c behind = 0 := sumBefore_of_le_start fun t ht => by
      have := hbehind t ht
      omega
    rw [hheight]
    simp only [List.cons_append, sumBefore_append, sumBefore_cons, sumBefore_nil, h₁, h₂, hstring,
      turn_markTag_open hopen, turn_markTag_close hclose, ite_self]
    simp only [markTag, Span.start_between]
    omega
  have hbase : height b (classify b) f.stop = total b before := by
    have h₁ : sumBefore b f.stop inner = 0 := sumBefore_of_le_start fun t ht => by
      have := (hlaid.bounds ht).1
      omega
    rw [hsum _ (Nat.le_refl _) (by omega), h₁, if_neg (by omega), if_neg (by omega)]
    omega
  obtain rfl : last = g.start - 1 := by omega
  refine ⟨by omega, ?_, fun c hlo hhi => ?_⟩
  · have h₁ : sumBefore b (g.start - 1 + 1) inner = total b inner :=
      sumBefore_of_stop_le (fun t ht => htagged t (by grind)) fun t ht => by
        have := (hlaid.bounds ht).2
        omega
    have htotal := hinner.add_total
    rw [hbase, hsum _ (by omega) (Nat.le_refl _), h₁, if_pos (by omega), if_pos (by omega)]
    omega
  · have hnonneg := hinner.add_sumBefore_nonneg (c := c) hlaid
    rw [hbase, hsum c (by omega) (by omega), if_pos hlo, if_neg (by omega)]
    omega

/-- Empty fragments do not stop the walk: from a fragment, holes lead to the
next one that is not empty. -/
theorem exists_holes {f : Span} {fragments : List Span}
    (hchain : (f :: fragments).IsChain (Parted b (scan b).tags.toList))
    (hne : ∃ g ∈ fragments, 0 < g.len) :
    ∃ g ∈ fragments, 0 < g.len ∧ Holes b (classify b) f.stop g.start := by
  induction fragments generalizing f with
  | nil => simp at hne
  | cons g rest ih =>
    obtain ⟨hparted, hrest⟩ := List.isChain_cons_cons.mp hchain
    have hgroup := group_of_parted hparted
    have hstart : g.start - 1 + 1 = g.start := by
      have := hgroup.lt
      omega
    by_cases hg : 0 < g.len
    · exact ⟨g, List.mem_cons_self, hg, hstart ▸ Holes.one hgroup⟩
    · have hempty : g.stop = g.start := by rw [Span.stop]; omega
      have hlater : ∃ g ∈ rest, 0 < g.len := by
        obtain ⟨k, hk, hpos⟩ := hne
        exact ⟨k, (List.mem_cons.mp hk).resolve_left fun heq => hg (heq ▸ hpos), hpos⟩
      obtain ⟨k, hk, hpos, hholes⟩ := ih hrest hlater
      refine ⟨k, List.mem_cons_of_mem _ hk, hpos, .cons hgroup ?_⟩
      rwa [hstart, ← hempty]

/-- A fragment that is tagged is a seed. -/
theorem isSeed_of_tag {f : Span} (hf : ⟨f, .string⟩ ∈ (scan b).tags.toList) (hpos : 0 < f.len) :
    IsSeed (classify b) f :=
  ⟨hpos, fun _ hp => isKindAt_classify.mpr ⟨_, hf, rfl, hp⟩⟩

/-- Fragments with holes between them lie in runs that are linked. -/
theorem exists_next {f g : Span} (hf : IsSeed (classify b) f) (hg : IsSeed (classify b) g)
    (hholes : Holes b (classify b) f.stop g.start) :
    ∃ x y, Next b (classify b) x y ∧ (∀ p ∈ f, p ∈ x) ∧ ∀ p ∈ g, p ∈ y := by
  have hin := stringsInside_classify b
  obtain ⟨hx, hfx⟩ := isRun_complete hin hf.pos hf.string
  obtain ⟨hy, hgy⟩ := isRun_complete hin hg.pos hg.string
  refine ⟨_, _, ⟨hx, hy, ?_⟩, hfx, hgy⟩
  have hopen := not_isString_of_isHoleBrace hholes.opens
  have hclose := not_isString_of_isHoleBrace hholes.closes
  -- The braces bound the runs where they bound the fragments.
  have hstop : (complete b (classify b) f).stop = f.stop := by
    have hlast := Span.pred_stop_mem hf.pos
    have hmem := hfx _ hlast
    have hpos := hf.pos
    refine Nat.le_antisymm (Nat.le_of_not_lt fun hlt => hopen (hx.string _ ⟨?_, hlt⟩)) ?_
    · have := hmem.1
      omega
    · have := hmem.2
      simp only [Span.stop] at *
      omega
  have hstart : (complete b (classify b) g).start = g.start := by
    have hmem := hgy _ (Span.start_mem hg.pos)
    have hgap := hholes.add_two_le
    refine Nat.le_antisymm hmem.1 (Nat.le_of_not_lt fun hlt => hclose (hy.string _ ⟨by omega, ?_⟩))
    have := hmem.2
    omega
  rwa [hstop, hstart]

/-- **Fragments that follow one another are stitched together.** -/
theorem exists_literalsIn_of_threaded {fragments : List Span}
    (h : Threaded b (scan b).tags.toList fragments) (hne : ∃ f ∈ fragments, 0 < f.len) :
    ∃ s ∈ literalsIn b (classify b) b.full, ∀ f ∈ fragments, ∀ p ∈ f, p ∈ s.fragments := by
  have hin := stringsInside_classify b
  induction fragments with
  | nil => simp at hne
  | cons f rest ih =>
    have hseed := fun g hg => isSeed_of_tag (f := g) (h.tagged g hg)
    by_cases hlater : ∃ g ∈ rest, 0 < g.len
    · obtain ⟨s, hs, hcover⟩ := ih ⟨h.chain.tail, fun g hg => h.tagged g (List.mem_cons_of_mem _ hg)⟩
        hlater
      refine ⟨s, hs, List.forall_mem_cons.mpr ⟨fun p hp => ?_, hcover⟩⟩
      have hpos : 0 < f.len := by rw [Span.mem_def, Span.stop] at hp; omega
      obtain ⟨g, hg, hgpos, hholes⟩ := exists_holes h.chain hlater
      obtain ⟨x, y, hlink, hfx, hgy⟩ := exists_next (hseed f List.mem_cons_self hpos)
        (hseed g (List.mem_cons_of_mem _ hg) hgpos) hholes
      obtain ⟨seed, -, hone, rfl⟩ := exists_seed_of_mem_literalsIn hs
      have hfirst := Span.start_mem hgpos
      exact mem_stitch_of_next hin (roomy_classify b) hone hlink (hgy _ hfirst) (hfx p hp)
        (hcover g hg _ hfirst)
    · -- This is the last fragment that is not empty.
      have hpos : 0 < f.len := by
        obtain ⟨g, hg, hpos⟩ := hne
        rcases List.mem_cons.mp hg with rfl | hg
        · exact hpos
        · exact absurd ⟨g, hg, hpos⟩ hlater
      have hf := hseed f List.mem_cons_self hpos
      have hfirst := Span.start_mem hpos
      have htag : ⟨f, .string⟩ ∈ (classify b).toList :=
        TagIndex.mem_toList_ofTags.mpr ⟨h.tagged f List.mem_cons_self, hpos⟩
      have hsize := hin _ (hf.string _ hfirst)
      have hover : f.overlaps (TagIndex.probe b.full) = true := by
        have hfull : ¬ b.full.isEmpty = true := by
          rw [Span.isEmpty_iff]
          exact Nat.ne_of_gt (Nat.zero_lt_of_lt hsize)
        rw [TagIndex.probe, if_neg hfull, Span.overlaps_iff]
        exact ⟨f.start, hfirst, Nat.zero_le _, by simpa [Buffer.full, Span.stop] using hsize⟩
      obtain ⟨s, hs, hmem⟩ := exists_literalsIn_of_tag hin b.full htag rfl hover hfirst
      obtain ⟨seed, -, hone, rfl⟩ := exists_seed_of_mem_literalsIn hs
      obtain ⟨hrun, hwhole⟩ := isRun_complete hin hf.pos hf.string
      refine ⟨_, hs, List.forall_mem_cons.mpr ⟨fun p hp => ?_, fun g hg p hp => ?_⟩⟩
      · exact mem_stitch_of_isRun hin hone hrun (hwhole _ hfirst) (hwhole p hp) hmem
      · have hgpos : 0 < g.len := by rw [Span.mem_def, Span.stop] at hp; omega
        exact absurd ⟨g, hg, hgpos⟩ hlater

/-- **Every scanned literal is within one stitched literal.** If each hole of a
raw literal that is closed is closed by as many braces as the literal has `$`,
then the fragments of any literal of the scan, however deeply it is nested, are
covered by a single literal of the whole buffer. -/
theorem exists_literalsIn_of_scanned (b : Buffer)
    (hmatched : ∀ l ∈ (scan b).literals, l.opening.isRaw = true →
      ∀ n ∈ l.closers, n = l.opening.dollars) :
    ∀ l ∈ (scan b).literals, ∃ s ∈ literalsIn b (classify b) b.full,
      ∀ f ∈ l.fragments, ∀ p ∈ f, p ∈ s.fragments := by
  intro l hl
  obtain ⟨stop, hrun⟩ := scans_scan b
  rw [← Array.mem_toList_iff] at hl
  obtain ⟨hthreads, -⟩ := hrun.threaded (Nat.zero_le _) fun l hl hraw n hn =>
    hmatched l (Array.mem_toList_iff.mp hl) hraw n (Array.mem_toList_iff.mp hn)
  obtain ⟨f, rest, heq, hpos⟩ := hrun.first_pos hl
  obtain ⟨s, hs, hcover⟩ := exists_literalsIn_of_threaded (hthreads l hl)
    ⟨f, heq ▸ List.mem_cons_self, hpos⟩
  exact ⟨s, hs, fun f hf => hcover f (Array.mem_toList_iff.mpr hf)⟩

/-- A raw literal with two `$`, and in its hole an interpolated one with a hole
of its own. -/
theorem exists_literalsIn_of_scanned_nested :
    ∃ b : Buffer, b = .ofText "$$\"\"\"a\x7b\x7b$\"x\x7b1\x7dy\"\x7d\x7db\"\"\"" ∧
      (scan b).literals.map ScannedLiteral.closers = #[#[1], #[2]] ∧
      (∀ l ∈ (scan b).literals, l.opening.isRaw = true → ∀ n ∈ l.closers, n = l.opening.dollars) ∧
      ∀ l ∈ (scan b).literals, ∃ s ∈ literalsIn b (classify b) b.full,
        ∀ f ∈ l.fragments, ∀ p ∈ f, p ∈ s.fragments := by
  refine ⟨.ofText "$$\"\"\"a\x7b\x7b$\"x\x7b1\x7dy\"\x7d\x7db\"\"\"", rfl, by decide +kernel, ?_⟩
  refine ⟨by decide +kernel, exists_literalsIn_of_scanned _ (by decide +kernel)⟩

end Host

end EmbeddedSql
