import EmbeddedSql.Literal.Stitch
import EmbeddedSql.Proofs.TagQueries

/-!
# Holes

A hole is crossed by counting braces, from its closing brace to the left or
from its opening brace to the right. Both counts are read here off one
function of the position, its *height*: the number of hole braces opened
before it less the number closed. A brace and its match enclose a stretch of
the buffer where the height stays above what it is on either side, and this
description (`Group`) has no direction. So the two searches find the same
pairs (`matchForward_eq_some`, `matchBackward_eq_some`), up to the room each
asks for.

Holes that touch are crossed one after the other; `Holes` is a row of them,
and it too can be taken apart from either end.
-/

namespace EmbeddedSql

namespace Stitch

/-- A position is tagged as string text. -/
def IsString (index : TagIndex) (p : Nat) : Prop := index.isKindAt p .string = true

theorem isString_iff {index : TagIndex} {p : Nat} :
    IsString index p ↔ ∃ t ∈ index.toList, t.kind = .string ∧ p ∈ t.span := TagIndex.isKindAt_iff

/-! ## Heights -/

theorem isAt_of_isHoleBrace {b : Buffer} {index : TagIndex} {p : Nat} {c : Char}
    (h : isHoleBrace b index p c = true) : b.isAt p c = true := by
  simp only [isHoleBrace, Bool.and_eq_true] at h
  exact h.1.1

theorem not_isString_of_isHoleBrace {b : Buffer} {index : TagIndex} {p : Nat} {c : Char}
    (h : isHoleBrace b index p c = true) : ¬ IsString index p := by
  simp only [isHoleBrace, Bool.and_eq_true, Bool.not_eq_true'] at h
  rw [IsString, h.2]
  exact Bool.false_ne_true

/-- A position holds one unit only. -/
theorem isAt_unique {b : Buffer} {p : Nat} {c d : Char} (hc : b.isAt p c = true)
    (hd : b.isAt p d = true) : Utf16.ascii c = Utf16.ascii d := by
  simp only [Buffer.isAt, beq_iff_eq] at hc hd
  exact Option.some.inj (hc.symm.trans hd)

/-- No brace both opens and closes. -/
theorem not_isHoleBrace_both {b : Buffer} {index : TagIndex} {p : Nat}
    (ho : isHoleBrace b index p '\x7b' = true) : isHoleBrace b index p '\x7d' = false := by
  rw [← Bool.not_eq_true]
  intro hc
  exact absurd (isAt_unique (isAt_of_isHoleBrace ho) (isAt_of_isHoleBrace hc)) (by decide)

/-- How much a position adds to the nesting of holes. -/
def rise (b : Buffer) (index : TagIndex) (p : Nat) : Int :=
  if isHoleBrace b index p '\x7b' then 1 else if isHoleBrace b index p '\x7d' then -1 else 0

/-- The nesting of holes before a position. -/
def height (b : Buffer) (index : TagIndex) : Nat → Int
  | 0 => 0
  | p + 1 => height b index p + rise b index p

theorem height_succ (b : Buffer) (index : TagIndex) (p : Nat) :
    height b index (p + 1) = height b index p + rise b index p := rfl

theorem rise_of_open {b : Buffer} {index : TagIndex} {p : Nat}
    (h : isHoleBrace b index p '\x7b' = true) : rise b index p = 1 := by
  rw [rise, if_pos h]

theorem rise_of_close {b : Buffer} {index : TagIndex} {p : Nat}
    (h : isHoleBrace b index p '\x7d' = true) : rise b index p = -1 := by
  rw [rise, if_neg, if_pos h]
  intro ho
  rw [not_isHoleBrace_both ho] at h
  exact Bool.false_ne_true h

theorem rise_of_neither {b : Buffer} {index : TagIndex} {p : Nat}
    (ho : ¬ isHoleBrace b index p '\x7b' = true) (hc : ¬ isHoleBrace b index p '\x7d' = true) :
    rise b index p = 0 := by
  rw [rise, if_neg ho, if_neg hc]

theorem isHoleBrace_of_rise_pos {b : Buffer} {index : TagIndex} {p : Nat} (h : 0 < rise b index p) :
    isHoleBrace b index p '\x7b' = true := by
  unfold rise at h
  split at h
  · assumption
  · split at h <;> omega

theorem isHoleBrace_of_rise_neg {b : Buffer} {index : TagIndex} {p : Nat} (h : rise b index p < 0) :
    isHoleBrace b index p '\x7d' = true := by
  unfold rise at h
  split at h
  · omega
  · split at h
    · assumption
    · omega

/-! ## Groups -/

/-- **A brace with its match**: between them the height stays above what it is
before the one and behind the other. -/
structure Group (b : Buffer) (index : TagIndex) (first last : Nat) : Prop where
  /-- The opening brace comes first. -/
  lt : first < last
  /-- Behind the closing brace the height is what it was before. -/
  level : height b index (last + 1) = height b index first
  /-- In between it is greater. -/
  above : ∀ c, first < c → c ≤ last → height b index first < height b index c

namespace Group

theorem opens {b : Buffer} {index : TagIndex} {first last : Nat} (h : Group b index first last) :
    isHoleBrace b index first '\x7b' = true := by
  have habove := h.above (first + 1) (Nat.lt_succ_self _) h.lt
  rw [height_succ] at habove
  exact isHoleBrace_of_rise_pos (by omega)

theorem closes {b : Buffer} {index : TagIndex} {first last : Nat} (h : Group b index first last) :
    isHoleBrace b index last '\x7d' = true := by
  have habove := h.above last h.lt (Nat.le_refl _)
  have hlevel := h.level
  rw [height_succ] at hlevel
  exact isHoleBrace_of_rise_neg (by omega)

end Group

/-! ## Searching for the match -/

/-- Past `pos`, the height has come down by `n` behind `last`, and not
before. -/
def FallsTo (b : Buffer) (index : TagIndex) (n pos last : Nat) : Prop :=
  pos < last ∧ height b index (last + 1) + n = height b index (pos + 1) ∧
    ∀ c, pos < c → c ≤ last → height b index (pos + 1) < height b index c + n

/-- The search moves on by one position, and the number of open braces with
it. -/
theorem fallsTo_succ_iff {b : Buffer} {index : TagIndex} {n m pos last : Nat} (hn : 1 ≤ n)
    (hm : 1 ≤ m) (hstep : rise b index (pos + 1) + n = m) :
    FallsTo b index m (pos + 1) last ↔ FallsTo b index n pos last := by
  have hsucc := height_succ b index (pos + 1)
  constructor
  · rintro ⟨hlt, hlevel, habove⟩
    refine ⟨by omega, by omega, fun c hlo hhi => ?_⟩
    rcases Nat.lt_or_eq_of_le (show pos + 1 ≤ c from hlo) with hlo' | rfl
    · have := habove c hlo' hhi
      omega
    · omega
  · rintro ⟨hlt, hlevel, habove⟩
    have hne : last ≠ pos + 1 := by rintro rfl; omega
    refine ⟨by omega, by omega, fun c hlo hhi => ?_⟩
    have := habove c (by omega) hhi
    omega

/-- **The search to the right** stops where all open braces are closed, if
there is a position left behind the brace it stops at. -/
theorem matchForward_eq_some_iff {b : Buffer} {index : TagIndex} {n pos last : Nat} (hn : 1 ≤ n) :
    matchForward b index n pos = some last ↔ FallsTo b index n pos last ∧ last + 1 < b.size := by
  fun_induction matchForward b index n pos with
  | case1 n pos hroom hclose hone =>
    have hstep := height_succ b index (pos + 1)
    rw [rise_of_close hclose] at hstep
    obtain rfl : n = 1 := by omega
    constructor
    · intro h
      cases h
      refine ⟨⟨by omega, by omega, fun c hlo hhi => ?_⟩, hroom⟩
      obtain rfl : c = pos + 1 := by omega
      omega
    · rintro ⟨⟨hlt, -, habove⟩, -⟩
      rcases Nat.lt_or_eq_of_le (show pos + 1 ≤ last from hlt) with hlt' | rfl
      · have := habove (pos + 1 + 1) (by omega) hlt'
        omega
      · rfl
  | case2 n pos hroom hclose hmany ih =>
    rw [ih (by omega), fallsTo_succ_iff hn (by omega) (by rw [rise_of_close hclose]; omega)]
  | case3 n pos hroom _ hopen ih =>
    rw [ih (by omega), fallsTo_succ_iff hn (by omega) (by rw [rise_of_open hopen]; omega)]
  | case4 n pos hroom hclose hopen ih =>
    rw [ih hn, fallsTo_succ_iff hn hn (by rw [rise_of_neither hopen hclose]; omega)]
  | case5 n pos hroom =>
    constructor
    · intro h; simp at h
    · rintro ⟨⟨hlt, -⟩, hend⟩; omega

/-- Before `pos`, the height was lower by `n` at `first`, and not since. -/
def RisesFrom (b : Buffer) (index : TagIndex) (n pos first : Nat) : Prop :=
  first < pos ∧ height b index first + n = height b index pos ∧
    ∀ c, first < c → c ≤ pos → height b index pos < height b index c + n

theorem risesFrom_succ_iff {b : Buffer} {index : TagIndex} {n m pos first : Nat} (hn : 1 ≤ n)
    (hm : 1 ≤ m) (hstep : rise b index pos + m = n) :
    RisesFrom b index m pos first ↔ RisesFrom b index n (pos + 1) first := by
  have hsucc := height_succ b index pos
  constructor
  · rintro ⟨hlt, hlevel, habove⟩
    refine ⟨by omega, by omega, fun c hlo hhi => ?_⟩
    rcases Nat.lt_or_eq_of_le hhi with hhi' | rfl
    · have := habove c hlo (by omega)
      omega
    · omega
  · rintro ⟨hlt, hlevel, habove⟩
    have hne : first ≠ pos := by rintro rfl; omega
    refine ⟨by omega, by omega, fun c hlo hhi => ?_⟩
    have := habove c hlo (by omega)
    omega

/-- **The search to the left** stops where all open braces are matched, if
there are two positions left before the brace it stops at. -/
theorem matchBackward_eq_some_iff {b : Buffer} {index : TagIndex} {n pos first : Nat} (hn : 1 ≤ n) :
    matchBackward b index n pos = some first ↔ RisesFrom b index n pos first ∧ 2 ≤ first := by
  induction pos generalizing n with
  | zero =>
    rw [matchBackward]
    constructor
    · intro h; simp at h
    · rintro ⟨⟨hlt, -⟩, -⟩; omega
  | succ pos ih =>
    rw [matchBackward]
    split
    · next hroom =>
      constructor
      · intro h; simp at h
      · rintro ⟨⟨hlt, -⟩, hend⟩; omega
    · next hroom =>
      split
      · next hopen =>
        have hstep := height_succ b index pos
        rw [rise_of_open hopen] at hstep
        split
        · next hone =>
          obtain rfl : n = 1 := by omega
          constructor
          · intro h
            cases h
            refine ⟨⟨by omega, by omega, fun c hlo hhi => ?_⟩, by omega⟩
            obtain rfl : c = first + 1 := by omega
            omega
          · rintro ⟨⟨hlt, hlevel, habove⟩, -⟩
            rcases Nat.lt_or_eq_of_le (show first ≤ pos by omega) with hlt' | rfl
            · have := habove pos hlt' (by omega)
              omega
            · rfl
        · next hmany =>
          rw [ih (by omega), risesFrom_succ_iff hn (by omega) (by rw [rise_of_open hopen]; omega)]
      · next hopen =>
        split
        · next hclose =>
          rw [ih (by omega), risesFrom_succ_iff hn (by omega) (by rw [rise_of_close hclose]; omega)]
        · next hclose =>
          rw [ih hn, risesFrom_succ_iff hn hn (by rw [rise_of_neither hopen hclose]; omega)]

/-- From an opening brace, the search to the right finds its match. -/
theorem matchForward_eq_some {b : Buffer} {index : TagIndex} {first last : Nat}
    (hopen : isHoleBrace b index first '\x7b' = true) :
    matchForward b index 1 first = some last ↔ Group b index first last ∧ last + 1 < b.size := by
  have hstep := height_succ b index first
  rw [rise_of_open hopen] at hstep
  rw [matchForward_eq_some_iff (Nat.le_refl 1)]
  refine and_congr_left fun _ => ⟨fun ⟨hlt, hlevel, habove⟩ => ⟨hlt, by omega, ?_⟩, fun h => ?_⟩
  · intro c hlo hhi
    have := habove c hlo hhi
    omega
  · have hlevel := h.level
    refine ⟨h.lt, by omega, fun c hlo hhi => ?_⟩
    have := h.above c hlo hhi
    omega

/-- From a closing brace, the search to the left finds its match. -/
theorem matchBackward_eq_some {b : Buffer} {index : TagIndex} {first last : Nat}
    (hclose : isHoleBrace b index last '\x7d' = true) :
    matchBackward b index 1 last = some first ↔ Group b index first last ∧ 2 ≤ first := by
  have hstep := height_succ b index last
  rw [rise_of_close hclose] at hstep
  rw [matchBackward_eq_some_iff (Nat.le_refl 1)]
  refine and_congr_left fun _ => ⟨fun ⟨hlt, hlevel, habove⟩ => ⟨hlt, by omega, ?_⟩, fun h => ?_⟩
  · intro c hlo hhi
    have := habove c hlo hhi
    omega
  · have hlevel := h.level
    refine ⟨h.lt, by omega, fun c hlo hhi => ?_⟩
    have := h.above c hlo hhi
    omega

/-! ## Rows of holes -/

/-- **Holes side by side**, from the first brace of the first to the position
behind the last. -/
inductive Holes (b : Buffer) (index : TagIndex) : Nat → Nat → Prop
  | one {first last : Nat} : Group b index first last → Holes b index first (last + 1)
  | cons {first last stop : Nat} : Group b index first last → Holes b index (last + 1) stop →
      Holes b index first stop

namespace Holes

theorem opens {b : Buffer} {index : TagIndex} {start stop : Nat} (h : Holes b index start stop) :
    isHoleBrace b index start '\x7b' = true := by
  cases h with
  | one h => exact h.opens
  | cons h _ => exact h.opens

theorem add_two_le {b : Buffer} {index : TagIndex} {start stop : Nat} (h : Holes b index start stop) :
    start + 2 ≤ stop := by
  induction h with
  | one h => have := h.lt; omega
  | cons h _ ih => have := h.lt; omega

theorem trans {b : Buffer} {index : TagIndex} {start mid stop : Nat} (h : Holes b index start mid)
    (h' : Holes b index mid stop) : Holes b index start stop := by
  induction h with
  | one h => exact .cons h h'
  | cons h _ ih => exact .cons h (ih h')

/-- A row of holes has a last one. -/
theorem exists_last {b : Buffer} {index : TagIndex} {start stop : Nat}
    (h : Holes b index start stop) :
    ∃ first last, stop = last + 1 ∧ Group b index first last ∧
      (first = start ∨ Holes b index start first) := by
  induction h with
  | @one first last h => exact ⟨first, last, rfl, h, Or.inl rfl⟩
  | @cons first last stop h _ ih =>
    obtain ⟨first', last', rfl, h', hrest⟩ := ih
    refine ⟨first', last', rfl, h', Or.inr ?_⟩
    rcases hrest with rfl | hrest
    · exact .one h
    · exact .cons h hrest

theorem closes {b : Buffer} {index : TagIndex} {start stop : Nat} (h : Holes b index start stop) :
    isHoleBrace b index (stop - 1) '\x7d' = true := by
  obtain ⟨first, last, rfl, hlast, -⟩ := h.exists_last
  exact hlast.closes

end Holes

end Stitch

end EmbeddedSql
