/-
# Bit sets and the next set bit

A bit set is a finite set of positions. The one search a scheduler needs of it
is the least member at or above a starting position; running that search once
from a start and, if it finds nothing, once more from zero visits the positions
in cyclic order. Both facts are stated here for arbitrary sets and starts.
-/

import Mathlib

namespace Jepsen.Library

/-- A set of bit positions. -/
abbrev Bits := Finset ℕ

namespace Bits

/-- The least set position at or above `start`, if there is one. -/
def nextSetBit (bits : Bits) (start : ℕ) : Option ℕ :=
  (List.range (bits.sup id + 1)).find? fun i => decide (start ≤ i ∧ i ∈ bits)

theorem nextSetBit_eq_some_iff {bits : Bits} {start i : ℕ} :
    nextSetBit bits start = some i ↔
      i ∈ bits ∧ start ≤ i ∧ ∀ j ∈ bits, start ≤ j → i ≤ j := by
  rw [nextSetBit, List.find?_range_eq_some]
  simp only [decide_eq_true_eq, List.mem_range, Bool.not_eq_eq_eq_not,
    Bool.not_true, decide_eq_false_iff_not]
  constructor
  · rintro ⟨⟨hstart, hmem⟩, -, hleast⟩
    refine ⟨hmem, hstart, fun j hj hle => ?_⟩
    by_contra hlt
    exact hleast j (not_le.mp hlt) ⟨hle, hj⟩
  · rintro ⟨hmem, hstart, hleast⟩
    have hbound : i ≤ bits.sup id := Finset.le_sup (f := id) hmem
    refine ⟨⟨hstart, hmem⟩, Nat.lt_succ_of_le hbound, ?_⟩
    rintro j hj ⟨hle, hjmem⟩
    exact absurd (hleast j hjmem hle) (not_le.mpr hj)

theorem nextSetBit_eq_none_iff {bits : Bits} {start : ℕ} :
    nextSetBit bits start = none ↔ ∀ i ∈ bits, i < start := by
  rw [nextSetBit, List.find?_eq_none]
  simp only [List.mem_range, decide_eq_true_eq, not_and]
  constructor
  · intro hnone i hi
    by_contra hle
    have hbound : i ≤ bits.sup id := Finset.le_sup (f := id) hi
    exact hnone i (Nat.lt_succ_of_le hbound) (not_lt.mp hle) hi
  · intro hall i _ hle hi
    exact absurd (hall i hi) (not_lt.mpr hle)

/-- How far `i` lies ahead of `start` when positions are counted modulo `n`. -/
def cyclicDistance (n start i : ℕ) : ℕ := (i + (n - start)) % n

/-- Search from `start`, then from zero. -/
def nextSetBitCyclic (bits : Bits) (start : ℕ) : Option ℕ :=
  match nextSetBit bits start with
  | some i => some i
  | none => nextSetBit bits 0

theorem nextSetBitCyclic_eq_none_iff {bits : Bits} (start : ℕ) :
    nextSetBitCyclic bits start = none ↔ bits = ∅ := by
  unfold nextSetBitCyclic
  cases hnext : nextSetBit bits start with
  | some i =>
      have hmem := (nextSetBit_eq_some_iff.mp hnext).1
      simp only [reduceCtorEq, false_iff]
      exact Finset.ne_empty_of_mem hmem
  | none =>
      simp only [nextSetBit_eq_none_iff, not_lt_zero, imp_false]
      exact Finset.eq_empty_iff_forall_notMem.symm

theorem cyclicDistance_of_le {n start i : ℕ} (hstart : start < n) (hi : i < n)
    (hle : start ≤ i) : cyclicDistance n start i = i - start := by
  have hshift : i + (n - start) = (i - start) + n := by omega
  rw [cyclicDistance, hshift, Nat.add_mod_right, Nat.mod_eq_of_lt (by omega)]

theorem cyclicDistance_of_lt {n start i : ℕ} (hstart : start < n)
    (hlt : i < start) : cyclicDistance n start i = i + (n - start) := by
  rw [cyclicDistance, Nat.mod_eq_of_lt (by omega)]

/-- The two-pass search returns the member that comes first when positions are
walked cyclically from `start`. -/
theorem nextSetBitCyclic_least {bits : Bits} {n start i : ℕ}
    (hbits : ∀ j ∈ bits, j < n) (hstart : start < n)
    (hnext : nextSetBitCyclic bits start = some i) :
    i ∈ bits ∧ ∀ j ∈ bits,
      cyclicDistance n start i ≤ cyclicDistance n start j := by
  unfold nextSetBitCyclic at hnext
  cases hfirst : nextSetBit bits start with
  | some k =>
      rw [hfirst] at hnext
      obtain rfl : k = i := Option.some.inj hnext
      obtain ⟨hmem, hle, hleast⟩ := nextSetBit_eq_some_iff.mp hfirst
      refine ⟨hmem, fun j hj => ?_⟩
      rw [cyclicDistance_of_le hstart (hbits k hmem) hle]
      have hk := hbits k hmem
      rcases lt_or_ge j start with hlt | hge
      · rw [cyclicDistance_of_lt hstart hlt]
        omega
      · rw [cyclicDistance_of_le hstart (hbits j hj) hge]
        have := hleast j hj hge
        omega
  | none =>
      rw [hfirst] at hnext
      have hbelow := nextSetBit_eq_none_iff.mp hfirst
      obtain ⟨hmem, -, hleast⟩ := nextSetBit_eq_some_iff.mp hnext
      refine ⟨hmem, fun j hj => ?_⟩
      rw [cyclicDistance_of_lt hstart (hbelow i hmem),
        cyclicDistance_of_lt hstart (hbelow j hj)]
      exact Nat.add_le_add_right (hleast j hj (Nat.zero_le j)) _

end Bits

end Jepsen.Library
