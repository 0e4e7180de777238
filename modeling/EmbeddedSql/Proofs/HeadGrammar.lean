import EmbeddedSql.Proofs.Heads
import Mathlib.Data.List.TakeWhile

/-!
# The grammar of heads

A head is read unit by unit, and the rule for repeated markers is applied at two
places. A second `@` is refused where it stands. A second `$` is not: it is meant
for raw literals, and whether the literal is raw is known only when its quotes have
been counted and no `@` has turned up.

Taken together the two places accept a language that can be said at once
(`readHead_grammar`): markers in any order, a run of quotes, and whatever follows
the run, with one `@` at most, and one `$` at most unless the literal is raw. What a
head says about its literal is read off the same parts.
-/

namespace EmbeddedSql

open Utf16 (ascii)

/-! ## Counting markers -/

/-- Markers are what they are counted as. -/
theorem Markers.counts {k : Nat} {v : Bool} {m : List CodeUnit} (h : Markers k v m) :
    (∀ u ∈ m, u = ascii '@' ∨ u = ascii '$') ∧ m.count (ascii '@') = v.toNat ∧
      m.count (ascii '$') = k := by
  induction h with
  | nil => simp
  | dollar _ ih =>
    obtain ⟨hall, hat, hdollar⟩ := ih
    refine ⟨List.forall_mem_cons.mpr ⟨Or.inr rfl, hall⟩, ?_, ?_⟩
    · rw [List.count_cons_of_ne (by decide), hat]
    · rw [List.count_cons_self, hdollar]
  | verbatim _ ih =>
    obtain ⟨hall, hat, hdollar⟩ := ih
    refine ⟨List.forall_mem_cons.mpr ⟨Or.inl rfl, hall⟩, ?_, ?_⟩
    · rw [List.count_cons_self, hat]
      rfl
    · rw [List.count_cons_of_ne (by decide), hdollar]

/-- Units that are all `@` or `$`, with no second `@`, are markers. -/
theorem exists_markers {m : List CodeUnit} (hall : ∀ u ∈ m, u = ascii '@' ∨ u = ascii '$')
    (hone : m.count (ascii '@') ≤ 1) : ∃ k v, Markers k v m := by
  induction m with
  | nil => exact ⟨0, false, .nil⟩
  | cons u m ih =>
    obtain ⟨hu, hrest⟩ := List.forall_mem_cons.mp hall
    rcases hu with rfl | rfl
    · rw [List.count_cons_self] at hone
      obtain ⟨k, v, hm⟩ := ih hrest (by omega)
      have hv : v = false := by
        rw [← Bool.toNat_eq_zero, ← hm.counts.2.1]
        omega
      subst hv
      exact ⟨k, true, .verbatim hm⟩
    · rw [List.count_cons_of_ne (by decide)] at hone
      obtain ⟨k, v, hm⟩ := ih hrest hone
      exact ⟨k + 1, v, .dollar hm⟩

/-- What markers and quotes say of a literal that is raw or not. -/
def LiteralHead.ofParts (markers : List CodeUnit) (quotes : Nat) (raw : Bool) : LiteralHead where
  kind := .quoted (decide (ascii '@' ∈ markers)) (decide (ascii '$' ∈ markers)) raw
  openingLen := markers.length + if raw then quotes else 1
  closingLen := if raw then quotes else 1

namespace LiteralStyle

/-! ## What is read is a head -/

theorem eq_of_marker?_csharp {u : CodeUnit} {marker : Marker} (h : csharp.marker? u = some marker) :
    u = ascii '@' ∧ marker = ⟨'@', .verbatim, false⟩ ∨
      u = ascii '$' ∧ marker = ⟨'$', .interpolated, true⟩ := by
  have hunit : ∀ c : Char, (u.toNat == c.toNat) = true → u = ascii c := fun c hc => by
    rw [ascii, ← beq_iff_eq.mp hc, UInt16.ofNat_toNat]
  have hsymbol : (u.toNat == marker.symbol.toNat) = true :=
    List.find?_some (p := fun m : Marker => u.toNat == m.symbol.toNat) h
  have hmem : marker ∈ csharp.markers := List.mem_of_find?_eq_some h
  rcases List.mem_pair.mp hmem with rfl | rfl
  · exact Or.inl ⟨hunit _ hsymbol, rfl⟩
  · exact Or.inr ⟨hunit _ hsymbol, rfl⟩

/-- **What is read up to a quote are markers.** -/
theorem exists_markers_of_readMarkers {seen units : List CodeUnit} {kind : LiteralKind}
    {opening : Opening} (h : csharp.readMarkers seen kind units = .ok opening)
    (hrest : opening.rest ≠ []) :
    ∃ k v m rest, Markers k v m ∧ units = m ++ ascii '"' :: rest ∧
      (v = true → ascii '@' ∉ seen) := by
  induction units generalizing seen kind with
  | nil =>
    cases h
    exact absurd rfl hrest
  | cons u units ih =>
    rw [readMarkers] at h
    split at h
    · next hquote =>
      exact ⟨0, false, [], units, .nil, by rw [eq_of_beq hquote]; rfl,
        fun htrue => absurd htrue Bool.false_ne_true⟩
    · split at h
      · simp at h
      · next marker hmarker =>
        split at h
        · simp at h
        · next hfresh =>
          obtain ⟨k, v, m, rest, hm, rfl, hv⟩ := ih h
          rcases eq_of_marker?_csharp hmarker with ⟨rfl, rfl⟩ | ⟨rfl, rfl⟩
          · -- A second `@` would have been refused, here or further on.
            obtain rfl : v = false := Bool.eq_false_iff.mpr fun htrue =>
              hv htrue List.mem_cons_self
            refine ⟨k, true, _, rest, .verbatim hm, rfl, fun _ hseen => hfresh ?_⟩
            rw [List.contains_iff_mem.mpr hseen]
            rfl
          · exact ⟨k + 1, v, _, rest, .dollar hm, rfl, fun htrue hseen =>
              hv htrue (List.mem_cons_of_mem _ hseen)⟩

/-! ## The grammar -/

/-- **A text in the parts of a head**: markers, a run of quotes, and what follows
it. -/
structure HeadParts (units markers : List CodeUnit) (quotes : Nat) (rest : List CodeUnit) :
    Prop where
  /-- The parts make up the text. -/
  units_eq : units = markers ++ (List.replicate quotes (ascii '"') ++ rest)
  /-- The markers are each one of the two. -/
  markers_mem : ∀ u ∈ markers, u = ascii '@' ∨ u = ascii '$'
  /-- There is a quote, -/
  quotes_pos : 0 < quotes
  /-- and the run takes all the quotes there are. -/
  rest_head : rest.head? ≠ some (ascii '"')

variable {units markers rest : List CodeUnit} {quotes : Nat}

theorem HeadParts.head?_run (h : HeadParts units markers quotes rest) :
    (List.replicate quotes (ascii '"') ++ rest).head? = some (ascii '"') := by
  obtain ⟨n, rfl⟩ := Nat.exists_eq_succ_of_ne_zero (Nat.ne_of_gt h.quotes_pos)
  rw [List.replicate_succ, List.cons_append, List.head?_cons]

theorem HeadParts.length_run (h : HeadParts units markers quotes rest) :
    ((List.replicate quotes (ascii '"') ++ rest).takeWhile (· == ascii '"')).length = quotes := by
  have hrest : rest.takeWhile (· == ascii '"') = [] := by
    cases rest with
    | nil => rfl
    | cons u rest =>
      exact List.takeWhile_cons_of_neg fun hu => h.rest_head (by rw [eq_of_beq hu]; rfl)
  rw [List.takeWhile_append_of_pos, hrest, List.append_nil, List.length_replicate]
  intro u hu
  rw [List.eq_of_mem_replicate hu, beq_self_eq_true]

/-- The quotes at the start of a text, and what follows them. -/
theorem exists_headParts (hmarkers : ∀ u ∈ markers, u = ascii '@' ∨ u = ascii '$')
    (units : List CodeUnit) :
    ∃ quotes rest, HeadParts (markers ++ ascii '"' :: units) markers quotes rest := by
  refine ⟨(units.takeWhile (· == ascii '"')).length + 1, units.dropWhile (· == ascii '"'), ?_,
    hmarkers, Nat.succ_pos _, fun hhead => ?_⟩
  · have hrun : units.takeWhile (· == ascii '"') =
        List.replicate (units.takeWhile (· == ascii '"')).length (ascii '"') :=
      List.eq_replicate_of_mem fun u hu =>
        eq_of_beq (List.mem_takeWhile_imp (p := (· == ascii '"')) hu)
    rw [List.replicate_succ, List.cons_append, ← hrun, List.takeWhile_append_dropWhile]
  · have hstop := List.head?_dropWhile_not (· == ascii '"') units
    rw [hhead] at hstop
    simp at hstop

/-- Whether a style takes a head in these parts for that of a raw literal. -/
def opensRaw (style : LiteralStyle) (markers : List CodeUnit) (quotes : Nat) : Bool :=
  style.rawQuotes.any (· ≤ quotes) && !decide (ascii '@' ∈ markers)

theorem opensRaw_csharp :
    csharp.opensRaw markers quotes = decide (3 ≤ quotes ∧ ascii '@' ∉ markers) := by
  simp [opensRaw, csharp]

theorem opensRaw_legacy : legacy.opensRaw markers quotes = false := rfl

section Reading

variable {style : LiteralStyle} (hstyle : style.markers = csharp.markers)

include hstyle

/-- What the parts of a head with one `@` at most are read as. -/
theorem HeadParts.readHead_eq (h : HeadParts units markers quotes rest)
    (hone : markers.count (ascii '@') ≤ 1) :
    style.readHead units =
      if style.opensRaw markers quotes ∨ markers.count (ascii '$') ≤ 1 then
        .ok (LiteralHead.ofParts markers quotes (style.opensRaw markers quotes))
      else .error .malformedHead := by
  obtain ⟨k, v, hm⟩ := exists_markers h.markers_mem hone
  obtain rfl : v = decide (ascii '@' ∈ markers) := by
    rw [Bool.eq_iff_iff, decide_eq_true_iff, hm.verbatim_mem_iff]
  have hraw : style.rawQuotes.any (· ≤ quotes) = true ∧ decide (ascii '@' ∈ markers) = false ↔
      style.opensRaw markers quotes = true := by
    rw [opensRaw, Bool.and_eq_true, Bool.not_eq_true']
  rw [h.units_eq, readHead_of_markers hstyle hm h.quotes_pos h.head?_run h.length_run]
  simp only [hraw, hm.counts.2.2, LiteralHead.ofParts, hm.dollar_mem_iff]
  cases style.opensRaw markers quotes with
  | true => simp
  | false => simp

/-- What is read as a head has the parts of one, and one `@` at most. -/
theorem exists_headParts_of_readHead {head : LiteralHead} (h : style.readHead units = .ok head) :
    ∃ markers quotes rest, HeadParts units markers quotes rest ∧
      markers.count (ascii '@') ≤ 1 := by
  rw [readHead, readMarkers_congr hstyle] at h
  cases hread : csharp.readMarkers [] .plain units with
  | error e =>
    rw [hread] at h
    cases h
  | ok opening =>
    rw [hread] at h
    obtain ⟨seen, kind, behind⟩ := opening
    have hbehind : behind ≠ [] := by
      rintro rfl
      cases h
    obtain ⟨k, v, m, tail, hm, rfl, -⟩ := exists_markers_of_readMarkers hread hbehind
    obtain ⟨hmem, hcount, -⟩ := hm.counts
    obtain ⟨quotes, rest, hparts⟩ := exists_headParts hmem tail
    exact ⟨m, quotes, rest, hparts, hcount ▸ Bool.toNat_le v⟩

/-- The heads that a style with the markers of C# accepts. -/
theorem readHead_eq_ok_iff {head : LiteralHead} :
    style.readHead units = .ok head ↔
      ∃ markers quotes rest, HeadParts units markers quotes rest ∧
        markers.count (ascii '@') ≤ 1 ∧
        (style.opensRaw markers quotes ∨ markers.count (ascii '$') ≤ 1) ∧
        head = LiteralHead.ofParts markers quotes (style.opensRaw markers quotes) := by
  constructor
  · intro h
    obtain ⟨markers, quotes, rest, hparts, hone⟩ := exists_headParts_of_readHead hstyle h
    rw [hparts.readHead_eq hstyle hone] at h
    split at h
    · next hfew =>
      cases h
      exact ⟨markers, quotes, rest, hparts, hone, hfew, rfl⟩
    · cases h
  · rintro ⟨markers, quotes, rest, hparts, hone, hfew, rfl⟩
    rw [hparts.readHead_eq hstyle hone, if_pos hfew]

end Reading

/-- **The heads of literals are exactly these.** In C# a head is read from a text
that starts with markers and quotes, with one `@` at most, and with one `$` at most
unless there are three quotes and no `@`, which make the literal raw. The markers say
whether it is verbatim and interpolated, the opening takes the markers and either all
quotes or one, and the closing as many quotes. Where nothing makes a literal raw, a
head has one of either marker at most and opens with one quote. -/
theorem readHead_grammar (units : List CodeUnit) (head : LiteralHead) :
    (csharp.readHead units = .ok head ↔
      ∃ markers quotes rest, HeadParts units markers quotes rest ∧
        markers.count (ascii '@') ≤ 1 ∧
        (markers.count (ascii '$') ≤ 1 ∨ 3 ≤ quotes ∧ ascii '@' ∉ markers) ∧
        head.kind = .quoted (decide (ascii '@' ∈ markers)) (decide (ascii '$' ∈ markers))
          (decide (3 ≤ quotes ∧ ascii '@' ∉ markers)) ∧
        head.openingLen = markers.length + (if 3 ≤ quotes ∧ ascii '@' ∉ markers then quotes else 1) ∧
        head.closingLen = if 3 ≤ quotes ∧ ascii '@' ∉ markers then quotes else 1) ∧
    (legacy.readHead units = .ok head ↔
      ∃ markers quotes rest, HeadParts units markers quotes rest ∧
        markers.count (ascii '@') ≤ 1 ∧ markers.count (ascii '$') ≤ 1 ∧
        head.kind = .quoted (decide (ascii '@' ∈ markers)) (decide (ascii '$' ∈ markers)) false ∧
        head.openingLen = markers.length + 1 ∧ head.closingLen = 1) := by
  obtain ⟨kind, openingLen, closingLen⟩ := head
  constructor
  · rw [readHead_eq_ok_iff rfl]
    simp only [opensRaw_csharp, LiteralHead.ofParts, decide_eq_true_eq, LiteralHead.mk.injEq,
      or_comm (b := _ ≤ 1)]
  · rw [readHead_eq_ok_iff (show legacy.markers = csharp.markers from rfl)]
    simp only [opensRaw_legacy, LiteralHead.ofParts, Bool.false_eq_true, false_or, if_false,
      LiteralHead.mk.injEq]

end LiteralStyle

end EmbeddedSql
