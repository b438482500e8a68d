/-
# Uniform integer draws

`(rand-int n)` is uniform on the integers below `n`. Compared with a threshold it tosses a
coin whose odds are two natural numbers, which is how two alternatives are weighted
against each other.
-/

import Mathlib

noncomputable section

namespace Jepsen.Library

universe u

/-- `(rand-int n)`; with no integers to choose from, it is zero. -/
def randInt (n : ℕ) : PMF ℕ := (PMF.uniformOfFintype (Fin (n - 1 + 1))).map Fin.val

theorem lt_of_mem_support_randInt {n d : ℕ} (hn : 0 < n) (hd : d ∈ (randInt n).support) :
    d < n := by
  rw [randInt, PMF.mem_support_map_iff] at hd
  obtain ⟨i, -, rfl⟩ := hd
  have hi := i.isLt
  omega

/-- What follows a draw is the average of what follows each of its outcomes. -/
theorem toOuterMeasure_randInt_bind {B : Type u} {n : ℕ} (hn : 0 < n) (f : ℕ → PMF B)
    (event : Set B) :
    ((randInt n).bind f).toOuterMeasure event =
      (∑ d ∈ Finset.range n, (f d).toOuterMeasure event) / n := by
  obtain ⟨k, rfl⟩ : ∃ k, n = k + 1 := ⟨n - 1, by omega⟩
  change (((PMF.uniformOfFintype (Fin (k + 1))).map Fin.val).bind f).toOuterMeasure event = _
  rw [PMF.bind_map, PMF.toOuterMeasure_bind_apply, tsum_fintype,
    ← Fin.sum_univ_eq_sum_range (fun d => (f d).toOuterMeasure event), ENNReal.div_eq_inv_mul,
    Finset.mul_sum]
  apply Finset.sum_congr rfl
  intro d _
  rw [PMF.uniformOfFintype_apply, Fintype.card_fin, Function.comp_apply]

/-- Compared with the first of two weights, a draw from their sum takes each side with the
probability of its weight. -/
theorem toOuterMeasure_randInt_bind_lt {B : Type u} {first second : ℕ}
    (hpos : 0 < first + second) (p q : PMF B) (event : Set B) :
    ((randInt (first + second)).bind fun d => if d < first then p else q).toOuterMeasure event =
      (first * p.toOuterMeasure event + second * q.toOuterMeasure event) /
        (first + second : ℕ) := by
  rw [toOuterMeasure_randInt_bind hpos, Finset.sum_range_add]
  congr 2
  · rw [← nsmul_eq_mul, ← Finset.card_range first, ← Finset.sum_const, Finset.card_range]
    apply Finset.sum_congr rfl
    intro d hd
    rw [if_pos (Finset.mem_range.mp hd)]
  · rw [← nsmul_eq_mul, ← Finset.card_range second, ← Finset.sum_const, Finset.card_range]
    apply Finset.sum_congr rfl
    intro d _
    rw [if_neg (by omega)]

end Jepsen.Library

end
