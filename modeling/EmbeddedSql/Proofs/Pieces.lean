import EmbeddedSql.Literal.Decoded
import Mathlib.Algebra.Ring.Nat

/-!
# Reading pieces

A content is cut into pieces from left to right, and each piece is read off
the units that are left. `Reads` says so as a relation: it is what a
successful `readPieces` amounts to, without the offset, which only errors
mention.

What makes the pieces a *cut* of the content is that reading one looks no
further than its own units: whatever follows a piece may be taken away
without changing it (`nextPiece?_take`). Two readers look ahead, and both have
to be shown harmless. A `\x` takes digits as long as there are any, and stops
at the end as it stops at anything that is no digit. An escaped high surrogate
asks whether an escaped low one follows, and what is left of a longer sequence
never spells a low surrogate: fewer than four digits are too few.

From locality it follows that a reading splits wherever two pieces meet
(`Reads.split`), and that is all the offsets of a decoded text rely on.
-/

namespace EmbeddedSql

open Utf16

/-! ## Hexadecimal digits -/

theorem hexDigit?_lt {u : CodeUnit} {n : Nat} (h : hexDigit? u = some n) : n < 16 := by
  simp only [hexDigit?] at h
  split at h
  · cases h; omega
  · split at h
    · cases h; omega
    · split at h
      · cases h; omega
      · simp at h

theorem foldlM_hexDigit?_lt {units : List CodeUnit} {acc n : Nat} (bound : Nat)
    (hacc : acc < bound)
    (h : units.foldlM (fun acc u => (hexDigit? u).map (acc * 16 + ·)) acc = some n) :
    n < bound * 16 ^ units.length := by
  induction units generalizing acc bound with
  | nil =>
    obtain rfl : acc = n := by simpa using h
    simpa using hacc
  | cons u rest ih =>
    rw [List.foldlM_cons] at h
    obtain ⟨acc', hacc', hrest⟩ := Option.bind_eq_some_iff.mp h
    obtain ⟨d, hd, rfl⟩ := Option.map_eq_some_iff.mp hacc'
    have hlt := hexDigit?_lt hd
    have hstep := ih (bound * 16) (by omega) hrest
    rw [List.length_cons, Nat.pow_succ']
    rwa [Nat.mul_assoc] at hstep

/-- Digits spell a number below the power of sixteen that their count gives. -/
theorem hexValue?_lt {units : List CodeUnit} {n : Nat} (h : hexValue? units = some n) :
    n < 16 ^ units.length := by
  simpa using foldlM_hexDigit?_lt 1 Nat.zero_lt_one h

theorem fixedHex?_eq_some {m n : Nat} {units : List CodeUnit} :
    fixedHex? m units = some n ↔ m ≤ units.length ∧ hexValue? (units.take m) = some n := by
  have hlen : (units.take m).length = m ↔ m ≤ units.length := by
    rw [List.length_take]; omega
  simp only [fixedHex?, hlen, Option.ite_none_right_eq_some]

/-- A fixed number of digits is read in the same way after a cut behind them. -/
theorem fixedHex?_take {m n k : Nat} {units : List CodeUnit} :
    fixedHex? m (units.take k) = some n ↔ m ≤ k ∧ fixedHex? m units = some n := by
  rw [fixedHex?_eq_some, fixedHex?_eq_some, List.length_take, List.take_take]
  constructor
  · rintro ⟨hlen, hval⟩
    rw [show min m k = m by omega] at hval
    exact ⟨by omega, by omega, hval⟩
  · rintro ⟨hk, hlen, hval⟩
    exact ⟨by omega, by rwa [show min m k = m by omega]⟩

/-- The digits a `\x` takes: as many as there are, up to four. -/
def hexRun (units : List CodeUnit) : List CodeUnit :=
  (units.take 4).takeWhile fun d => (hexDigit? d).isSome

theorem length_hexRun_le_four (units : List CodeUnit) : (hexRun units).length ≤ 4 := by
  have h := (List.takeWhile_sublist (fun d => (hexDigit? d).isSome) (l := units.take 4)).length_le
  rw [List.length_take] at h
  exact Nat.le_trans h (Nat.min_le_left _ _)

theorem length_hexRun_le (units : List CodeUnit) : (hexRun units).length ≤ units.length := by
  have h := (List.takeWhile_sublist (fun d => (hexDigit? d).isSome) (l := units.take 4)).length_le
  rw [List.length_take] at h
  exact Nat.le_trans h (Nat.min_le_right _ _)

/-- A cut shortens the digits to what is left of them. -/
theorem hexRun_take (k : Nat) (units : List CodeUnit) :
    hexRun (units.take k) = (hexRun units).take k := by
  unfold hexRun
  rw [List.take_take, Nat.min_comm, ← List.take_take, List.take_takeWhile]

/-! ## Escape sequences -/

/-- **What may follow a backslash**, with what it says and how many units it
takes: a letter, four digits after `u`, eight that name a character after `U`,
or one to four after `x`. -/
inductive EscapeBody : List CodeUnit → EscapeValue → Nat → Prop
  | letter {u : CodeUnit} {body : List CodeUnit} {c : Char} :
      simpleEscape? u = some c → EscapeBody (u :: body) (.char c) 1
  | unit {body : List CodeUnit} {n : Nat} :
      fixedHex? 4 body = some n → EscapeBody (ascii 'u' :: body) (.unit (UInt16.ofNat n)) 5
  | scalar {body : List CodeUnit} {n : Nat} :
      fixedHex? 8 body = some n → n.isValidChar →
      EscapeBody (ascii 'U' :: body) (.char (Char.ofNat n)) 9
  | run {body : List CodeUnit} {n : Nat} :
      hexRun body ≠ [] → hexValue? (hexRun body) = some n →
      EscapeBody (ascii 'x' :: body) (.unit (UInt16.ofNat n)) ((hexRun body).length + 1)

theorem escapeBody?_eq_some {units : List CodeUnit} {v : EscapeValue} {n : Nat} :
    escapeBody? units = some (v, n) ↔ EscapeBody units v n := by
  constructor
  · intro h
    cases units with
    | nil => simp [escapeBody?] at h
    | cons u body =>
      simp only [escapeBody?] at h
      split at h
      · next c hc => cases h; exact .letter hc
      · split at h
        · next hu =>
          obtain ⟨m, hm, heq⟩ := Option.map_eq_some_iff.mp h
          cases heq
          rw [eq_of_beq hu]
          exact .unit hm
        · split at h
          · next hu =>
            obtain ⟨m, hm, heq⟩ := Option.bind_eq_some_iff.mp h
            split at heq
            · next hvalid => cases heq; rw [eq_of_beq hu]; exact .scalar hm hvalid
            · simp at heq
          · split at h
            · next hu =>
              split at h
              · simp at h
              · next hempty =>
                obtain ⟨m, hm, heq⟩ := Option.map_eq_some_iff.mp h
                cases heq
                rw [eq_of_beq hu]
                exact .run (fun hnil => hempty (List.isEmpty_iff.mpr hnil)) hm
            · simp at h
  · intro h
    cases h with
    | letter hc => simp only [escapeBody?, hc]
    | unit hm =>
      simp only [escapeBody?, show simpleEscape? (ascii 'u') = none by decide]
      rw [if_pos (by decide), hm]
      rfl
    | scalar hm hvalid =>
      simp only [escapeBody?, show simpleEscape? (ascii 'U') = none by decide]
      rw [if_neg (by decide), if_pos (by decide), hm]
      simp [hvalid]
    | @run body m hrun hm =>
      have hempty : ¬ (hexRun body).isEmpty := fun h => hrun (List.isEmpty_iff.mp h)
      simp only [escapeBody?, show simpleEscape? (ascii 'x') = none by decide]
      rw [if_neg (by decide), if_neg (by decide), if_pos (by decide)]
      change (if (hexRun body).isEmpty then none
        else (hexValue? (hexRun body)).map fun n =>
          (EscapeValue.unit (UInt16.ofNat n), (hexRun body).length + 1)) = _
      rw [if_neg hempty, hm]
      rfl

namespace EscapeBody

theorem bounds {units : List CodeUnit} {v : EscapeValue} {n : Nat} (h : EscapeBody units v n) :
    1 ≤ n ∧ n ≤ units.length := by
  cases h with
  | letter => simp
  | unit hm => have := (fixedHex?_eq_some.mp hm).1; simp only [List.length_cons]; omega
  | scalar hm => have := (fixedHex?_eq_some.mp hm).1; simp only [List.length_cons]; omega
  | @run body => have := length_hexRun_le body; simp only [List.length_cons]; omega

/-- A cut behind a sequence does not change it. -/
theorem take {units : List CodeUnit} {v : EscapeValue} {n k : Nat} (h : EscapeBody units v n)
    (hk : n ≤ k) : EscapeBody (units.take k) v n := by
  obtain ⟨k, rfl⟩ : ∃ j, k = j + 1 := ⟨k - 1, by have := h.bounds; omega⟩
  rw [Nat.add_comm] at hk
  cases h with
  | letter hc => exact .letter hc
  | unit hm => exact .unit (fixedHex?_take.mpr ⟨by omega, hm⟩)
  | scalar hm hvalid => exact .scalar (fixedHex?_take.mpr ⟨by omega, hm⟩) hvalid
  | @run body m hrun hm =>
    have heq : hexRun (body.take k) = hexRun body := by
      rw [hexRun_take, List.take_of_length_le (by omega)]
    rw [← heq] at hrun hm ⊢
    exact .run hrun hm

/-- **A cut never makes a low surrogate.** It may shorten the digits of a
`\x`, but a low surrogate has four of them. -/
theorem of_take_low {units : List CodeUnit} {low : CodeUnit} {n k : Nat}
    (h : EscapeBody (units.take k) (.unit low) n) (hlow : isLow low) :
    EscapeBody units (.unit low) n := by
  obtain ⟨u, body, rfl⟩ : ∃ u body, units = u :: body := by
    cases units with
    | nil => rw [List.take_nil] at h; cases h
    | cons u body => exact ⟨u, body, rfl⟩
  obtain ⟨k, rfl⟩ : ∃ j, k = j + 1 := by
    cases k with
    | zero => rw [List.take_zero] at h; cases h
    | succ k => exact ⟨k, rfl⟩
  rw [List.take_succ_cons] at h
  cases h with
  | unit hm => exact .unit (fixedHex?_take.mp hm).2
  | @run _ m hrun hm =>
    have hfour : (hexRun (body.take k)).length = 4 := by
      refine Nat.le_antisymm (length_hexRun_le_four _) (Nat.le_of_not_lt fun hlt => ?_)
      have hsmall : m < 16 ^ 3 :=
        Nat.lt_of_lt_of_le (hexValue?_lt hm) (Nat.pow_le_pow_right (by decide) (by omega))
      simp only [isLow, Bool.and_eq_true, decide_eq_true_eq, UInt16.toNat_ofNat'] at hlow
      omega
    have heq : hexRun (body.take k) = hexRun body := by
      rw [hexRun_take, List.length_take] at hfour
      rw [hexRun_take, List.take_of_length_le (by have := length_hexRun_le_four body; omega)]
    rw [heq] at hrun hm ⊢
    exact .run hrun hm

end EscapeBody

theorem lowEscape?_eq_some {units : List CodeUnit} {low : CodeUnit} {m : Nat} :
    lowEscape? units = some (low, m) ↔
      ∃ rest n, units = ascii '\\' :: rest ∧ EscapeBody rest (.unit low) n ∧ isLow low ∧ m = n + 1 := by
  constructor
  · intro h
    cases units with
    | nil => simp [lowEscape?] at h
    | cons u rest =>
      simp only [lowEscape?] at h
      split at h
      · next hu =>
        split at h
        · next low' n hbody =>
          split at h
          · next hlow =>
            cases h
            exact ⟨rest, n, by rw [eq_of_beq hu], escapeBody?_eq_some.mp hbody, hlow, rfl⟩
          · simp at h
        · simp at h
      · simp at h
  · rintro ⟨rest, n, rfl, hbody, hlow, rfl⟩
    simp only [lowEscape?, escapeBody?_eq_some.mpr hbody, beq_self_eq_true, if_true, hlow]

theorem lowEscape?_bounds {units : List CodeUnit} {low : CodeUnit} {m : Nat}
    (h : lowEscape? units = some (low, m)) : m ≤ units.length := by
  obtain ⟨rest, n, rfl, hbody, -, rfl⟩ := lowEscape?_eq_some.mp h
  simpa using hbody.bounds.2

theorem lowEscape?_take {units : List CodeUnit} {k : Nat}
    (hk : ∀ low m, lowEscape? units = some (low, m) → m ≤ k) :
    lowEscape? (units.take k) = lowEscape? units := by
  apply Option.ext
  rintro ⟨low, m⟩
  rw [lowEscape?_eq_some, lowEscape?_eq_some]
  constructor
  · rintro ⟨rest, n, heq, hbody, hlow, rfl⟩
    cases units with
    | nil => simp at heq
    | cons u tail =>
      cases k with
      | zero => simp at heq
      | succ k =>
        rw [List.take_succ_cons, List.cons.injEq] at heq
        obtain ⟨rfl, rfl⟩ := heq
        exact ⟨tail, n, rfl, hbody.of_take_low hlow, hlow, rfl⟩
  · rintro ⟨rest, n, rfl, hbody, hlow, rfl⟩
    have hle := hk low (n + 1) (lowEscape?_eq_some.mpr ⟨rest, n, rfl, hbody, hlow, rfl⟩)
    obtain ⟨k, rfl⟩ : ∃ j, k = j + 1 := ⟨k - 1, by omega⟩
    exact ⟨rest.take k, n, rfl, hbody.take (by omega), hlow, rfl⟩

/-! ## Pieces -/

/-- What an escape sequence is: one body, or two that spell a pair. -/
theorem escapePiece?_eq_some {rest : List CodeUnit} {p : Piece} :
    escapePiece? rest = some p ↔
      (∃ c n, EscapeBody rest (.char c) n ∧ p = ⟨c, n + 1, true⟩) ∨
      (∃ u n low m, EscapeBody rest (.unit u) n ∧ isHigh u ∧
        lowEscape? (rest.drop n) = some (low, m) ∧ p = ⟨pair u low, n + 1 + m, true⟩) ∨
      (∃ u n, EscapeBody rest (.unit u) n ∧ (isHigh u → lowEscape? (rest.drop n) = none) ∧
        p = ⟨single u, n + 1, true⟩) := by
  constructor
  · intro h
    obtain ⟨⟨v, n⟩, hbody, rfl⟩ := Option.map_eq_some_iff.mp h
    rw [escapeBody?_eq_some] at hbody
    cases v with
    | char c => exact Or.inl ⟨c, n, hbody, rfl⟩
    | unit u =>
      by_cases hhigh : isHigh u
      · cases hlow : lowEscape? (rest.drop n) with
        | none => exact Or.inr (Or.inr ⟨u, n, hbody, fun _ => hlow, by simp [hhigh, hlow]⟩)
        | some r => exact Or.inr (Or.inl ⟨u, n, r.1, r.2, hbody, hhigh, hlow, by simp [hhigh, hlow]⟩)
      · exact Or.inr (Or.inr ⟨u, n, hbody, fun h => absurd h hhigh, by simp [hhigh]⟩)
  · rintro (⟨c, n, hbody, rfl⟩ | ⟨u, n, low, m, hbody, hhigh, hlow, rfl⟩ | ⟨u, n, hbody, hlow, rfl⟩)
    · simp [escapePiece?, escapeBody?_eq_some.mpr hbody]
    · simp [escapePiece?, escapeBody?_eq_some.mpr hbody, hhigh, hlow]
    · by_cases hhigh : isHigh u
      · simp [escapePiece?, escapeBody?_eq_some.mpr hbody, hlow hhigh]
      · simp [escapePiece?, escapeBody?_eq_some.mpr hbody, hhigh]

/-- An escape is marked as one, has at least two units, and they are there. -/
theorem escapePiece?_bounds {rest : List CodeUnit} {p : Piece} (h : escapePiece? rest = some p) :
    p.escape = true ∧ 2 ≤ p.width ∧ p.width ≤ rest.length + 1 := by
  rcases escapePiece?_eq_some.mp h with ⟨c, n, hbody, rfl⟩ | ⟨u, n, low, m, hbody, -, hlow, rfl⟩ |
    ⟨u, n, hbody, -, rfl⟩
  · have := hbody.bounds
    exact ⟨rfl, by simp only; omega⟩
  · have hn := hbody.bounds
    have hm := lowEscape?_bounds hlow
    rw [List.length_drop] at hm
    exact ⟨rfl, by simp only; omega⟩
  · have := hbody.bounds
    exact ⟨rfl, by simp only; omega⟩

theorem escapePiece?_take {rest : List CodeUnit} {p : Piece} {k : Nat}
    (h : escapePiece? rest = some p) (hk : p.width ≤ k + 1) :
    escapePiece? (rest.take k) = some p := by
  rw [escapePiece?_eq_some] at h ⊢
  rcases h with ⟨c, n, hbody, rfl⟩ | ⟨u, n, low, m, hbody, hhigh, hlow, rfl⟩ |
    ⟨u, n, hbody, hlow, rfl⟩
  · simp only at hk
    exact Or.inl ⟨c, n, hbody.take (by omega), rfl⟩
  · simp only at hk
    refine Or.inr (Or.inl ⟨u, n, low, m, hbody.take (by omega), hhigh, ?_, rfl⟩)
    rw [List.drop_take, lowEscape?_take, hlow]
    intro low' m' hlow'
    rw [hlow, Option.some.injEq, Prod.mk.injEq] at hlow'
    omega
  · simp only at hk
    refine Or.inr (Or.inr ⟨u, n, hbody.take (by omega), fun hhigh => ?_, rfl⟩)
    rw [List.drop_take, lowEscape?_take, hlow hhigh]
    intro low' m' hlow'
    rw [hlow hhigh] at hlow'
    simp at hlow'

theorem ownPiece_take {u : CodeUnit} {rest : List CodeUnit} {k : Nat}
    (hk : (ownPiece u rest).width ≤ k + 1) : ownPiece u (rest.take k) = ownPiece u rest := by
  cases rest with
  | nil => simp
  | cons v rest =>
    cases k with
    | succ k => rfl
    | zero =>
      simp only [ownPiece, List.take_zero] at hk ⊢
      split at hk
      · simp at hk
      · next hpair => rw [if_neg hpair]

/-- **The four sorts of pieces**: a doubled delimiter, an escape sequence, a surrogate pair,
and any other unit alone. -/
theorem nextPiece?_cases {kind : LiteralKind} {u : CodeUnit} {rest : List CodeUnit} {p : Piece}
    (h : nextPiece? kind u rest = some p) :
    (kind.doubles u = true ∧ rest.head? = some u ∧ p = ⟨single u, 2, true⟩) ∨
      (kind.hasEscapes = true ∧ u = ascii '\\' ∧ escapePiece? rest = some p) ∨
      (∃ v tail, rest = v :: tail ∧ (isHigh u && isLow v) = true ∧ p = ⟨pair u v, 2, false⟩) ∨
      ((∀ v, rest.head? = some v → (isHigh u && isLow v) = false) ∧ p = ⟨single u, 1, false⟩) := by
  unfold nextPiece? at h
  split at h
  · next hdoubled =>
    cases h
    rw [Bool.and_eq_true, beq_iff_eq] at hdoubled
    exact Or.inl ⟨hdoubled.1, hdoubled.2, rfl⟩
  · split at h
    · next hescapes =>
      rw [Bool.and_eq_true, beq_iff_eq] at hescapes
      exact Or.inr (Or.inl ⟨hescapes.1, hescapes.2, h⟩)
    · cases h
      cases rest with
      | nil => exact Or.inr (Or.inr (Or.inr ⟨by simp, rfl⟩))
      | cons v tail =>
        rw [ownPiece]
        split
        · next hpair => exact Or.inr (Or.inr (Or.inl ⟨v, tail, rfl, hpair, rfl⟩))
        · next hpair => exact Or.inr (Or.inr (Or.inr ⟨by simpa using hpair, rfl⟩))

/-- **What a piece is made of.** It has at least one unit and no more than
there are. An escape has two or more, and a piece that is none has at most
two. -/
theorem nextPiece?_bounds {kind : LiteralKind} {u : CodeUnit} {rest : List CodeUnit} {p : Piece}
    (h : nextPiece? kind u rest = some p) :
    1 ≤ p.width ∧ p.width ≤ rest.length + 1 ∧ (p.escape = true → 2 ≤ p.width) ∧
      (p.escape = false → p.width ≤ 2) := by
  rcases nextPiece?_cases h with ⟨-, hhead, rfl⟩ | ⟨-, -, hpiece⟩ | ⟨v, tail, rfl, -, rfl⟩ |
    ⟨-, rfl⟩
  · obtain ⟨tail, rfl⟩ := List.head?_eq_some_iff.mp hhead
    simp
  · obtain ⟨hescape, hwidth⟩ := escapePiece?_bounds hpiece
    exact ⟨by omega, hwidth.2, fun _ => hwidth.1, by simp [hescape]⟩
  · simp
  · simp

/-- **Pieces are local.** What follows a piece may be cut off anywhere. -/
theorem nextPiece?_take {kind : LiteralKind} {u : CodeUnit} {rest : List CodeUnit} {p : Piece}
    {k : Nat} (h : nextPiece? kind u rest = some p) (hk : p.width ≤ k + 1) :
    nextPiece? kind u (rest.take k) = some p := by
  unfold nextPiece? at h ⊢
  split at h
  · next hdoubled =>
    cases h
    cases k with
    | zero => simp at hk
    | succ k =>
      have hhead : (rest.take (k + 1)).head? = rest.head? := by cases rest <;> rfl
      rw [hhead, if_pos hdoubled]
  · next hdoubled =>
    have hdoubled' : ¬ (kind.doubles u && (rest.take k).head? == some u) = true := by
      intro hcut
      apply hdoubled
      cases k with
      | zero => simp at hcut
      | succ k => cases rest with
        | nil => exact hcut
        | cons v rest => exact hcut
    rw [if_neg hdoubled']
    split at h
    · next hescapes => rw [if_pos hescapes]; exact escapePiece?_take h hk
    · next hescapes =>
      cases h
      rw [if_neg hescapes, ownPiece_take hk]

/-! ## Readings -/

/-- **A content read as pieces**, each off what the ones before it left. -/
inductive Reads (kind : LiteralKind) : List CodeUnit → List Piece → Prop
  | nil : Reads kind [] []
  | cons {u : CodeUnit} {rest : List CodeUnit} {p : Piece} {pieces : List Piece} :
      nextPiece? kind u rest = some p → Reads kind (rest.drop (p.width - 1)) pieces →
      Reads kind (u :: rest) (p :: pieces)

/-- The number of units that pieces take together. -/
def totalWidth (pieces : List Piece) : Nat := (pieces.map Piece.width).sum

@[simp] theorem totalWidth_nil : totalWidth [] = 0 := rfl

@[simp] theorem totalWidth_cons (p : Piece) (pieces : List Piece) :
    totalWidth (p :: pieces) = p.width + totalWidth pieces := rfl

@[simp] theorem totalWidth_append (ps qs : List Piece) :
    totalWidth (ps ++ qs) = totalWidth ps + totalWidth qs := by
  simp [totalWidth]

/-- Reading succeeds exactly where there is a reading. The offset plays no
part in it. -/
theorem readPieces_eq_ok {kind : LiteralKind} {pos : Nat} {units : List CodeUnit}
    {pieces : List Piece} : readPieces kind pos units = .ok pieces ↔ Reads kind units pieces := by
  constructor
  · intro h
    fun_induction readPieces kind pos units generalizing pieces with
    | case1 => cases h; exact .nil
    | case2 => simp at h
    | case3 pos u rest p hp ih =>
      cases hrest : readPieces kind (pos + p.width) (rest.drop (p.width - 1)) with
      | error e => rw [hrest] at h; simp [Except.map] at h
      | ok qs =>
        rw [hrest] at h
        cases h
        exact .cons hp (ih hrest)
  · intro h
    induction h generalizing pos with
    | nil => simp [readPieces]
    | @cons u rest p pieces hp _ ih =>
      rw [readPieces, hp]
      simp only [ih, Except.map]

namespace Reads

/-- Every piece of a reading is what some unit starts. -/
theorem exists_nextPiece? {kind : LiteralKind} {units : List CodeUnit} {pieces : List Piece}
    (h : Reads kind units pieces) : ∀ p ∈ pieces, ∃ u rest, nextPiece? kind u rest = some p := by
  induction h with
  | nil => simp
  | @cons u rest p pieces hp _ ih =>
    intro q hq
    rcases List.mem_cons.mp hq with rfl | hq
    · exact ⟨u, rest, hp⟩
    · exact ih q hq

theorem one_le_width {kind : LiteralKind} {units : List CodeUnit} {pieces : List Piece}
    (h : Reads kind units pieces) : ∀ p ∈ pieces, 1 ≤ p.width := by
  intro p hp
  obtain ⟨u, rest, hnext⟩ := h.exists_nextPiece? p hp
  exact (nextPiece?_bounds hnext).1

theorem two_le_width {kind : LiteralKind} {units : List CodeUnit} {pieces : List Piece}
    (h : Reads kind units pieces) : ∀ p ∈ pieces, p.escape → 2 ≤ p.width := by
  intro p hp
  obtain ⟨u, rest, hnext⟩ := h.exists_nextPiece? p hp
  exact (nextPiece?_bounds hnext).2.2.1

/-- The pieces of a content take all of it. -/
theorem totalWidth_eq {kind : LiteralKind} {units : List CodeUnit} {pieces : List Piece}
    (h : Reads kind units pieces) : totalWidth pieces = units.length := by
  induction h with
  | nil => rfl
  | cons hp _ ih =>
    have := nextPiece?_bounds hp
    rw [List.length_drop] at ih
    rw [totalWidth_cons, List.length_cons]
    omega

/-- **A reading splits where two pieces meet**: the units of the first pieces
are read as these pieces, and what follows them as the others. -/
theorem split {kind : LiteralKind} {units : List CodeUnit} {ps qs : List Piece}
    (h : Reads kind units (ps ++ qs)) :
    Reads kind (units.take (totalWidth ps)) ps ∧ Reads kind (units.drop (totalWidth ps)) qs := by
  induction ps generalizing units with
  | nil => exact ⟨by simpa using .nil, by simpa using h⟩
  | cons p ps ih =>
    cases h with
    | @cons u rest _ _ hp hrest =>
      obtain ⟨hfirst, hsecond⟩ := ih hrest
      have hwidth := (nextPiece?_bounds hp).1
      obtain ⟨k, hk⟩ : ∃ k, p.width = k + 1 := ⟨p.width - 1, by omega⟩
      rw [hk, Nat.add_sub_cancel] at hfirst hsecond
      rw [totalWidth_cons, hk, Nat.add_right_comm, List.take_succ_cons, List.drop_succ_cons]
      constructor
      · refine .cons (nextPiece?_take hp (by omega)) ?_
        rwa [hk, Nat.add_sub_cancel, List.drop_take, Nat.add_sub_cancel_left]
      · rwa [List.drop_drop] at hsecond

end Reads

end EmbeddedSql
