/-!
# Searching for a boundary

A property of positions that holds up to some point and never again has one
boundary, and halving finds it. The sets of spans and the tag index both look
things up this way, so the search and the one fact about it stand here, over
an arbitrary property of natural numbers.
-/

namespace EmbeddedSql

/-- The first position of `[lo, hi)` where `p` fails, found by halving, or
`hi` if it fails nowhere. The answer means something only for a property that
never holds again once it has failed. -/
def bisect (p : Nat → Bool) (lo hi : Nat) : Nat :=
  if lo < hi then
    let mid := (lo + hi) / 2
    if p mid then bisect p (mid + 1) hi else bisect p lo mid
  else lo
termination_by hi - lo

/-- The boundary lies in the interval searched. -/
theorem bisect_bounds (p : Nat → Bool) {lo hi : Nat} (h : lo ≤ hi) :
    lo ≤ bisect p lo hi ∧ bisect p lo hi ≤ hi := by
  fun_induction bisect p lo hi with
  | case1 lo hi hlt mid hp ih => have := ih (by omega); omega
  | case2 lo hi hlt mid hp ih => have := ih (by omega); omega
  | case3 lo hi hlt => omega

/-- **The boundary is one.** If the property never holds again once it has
failed, it holds at every position before the boundary and at none from the
boundary on. -/
theorem lt_bisect_iff (p : Nat → Bool) {lo hi : Nat} (h : lo ≤ hi)
    (mono : ∀ i j, lo ≤ i → i ≤ j → j < hi → p j = true → p i = true)
    {i : Nat} (hlo : lo ≤ i) (hhi : i < hi) :
    i < bisect p lo hi ↔ p i = true := by
  fun_induction bisect p lo hi with
  | case1 lo hi hlt mid hp ih =>
    have hb := bisect_bounds p (show mid + 1 ≤ hi by omega)
    by_cases him : i ≤ mid
    · exact ⟨fun _ => mono i mid hlo him (by omega) hp, fun _ => by omega⟩
    · exact ih (by omega) (fun a b ha hab hb => mono a b (by omega) hab hb) (by omega) hhi
  | case2 lo hi hlt mid hp ih =>
    have hb := bisect_bounds p (show lo ≤ mid by omega)
    by_cases him : i < mid
    · exact ih (by omega) (fun a b ha hab hb => mono a b ha hab (by omega)) hlo him
    · refine ⟨fun _ => by omega, fun hi' => absurd ?_ hp⟩
      exact mono mid i (by omega) (by omega) hhi hi'
  | case3 lo hi hlt => omega

end EmbeddedSql
