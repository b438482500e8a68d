/-
# The last value of a key

A list of pairs read as a map: where pairs have the same key, the last one counts,
as when they are inserted one after the other.
-/

import Mathlib

namespace Jepsen.Library

universe u v

variable {K : Type u} {V : Type v} [DecidableEq K]

/-- The value that the last pair with a key has. -/
def lastValue (pairs : List (K × V)) (key : K) : Option V :=
  (pairs.reverse.find? fun p => p.1 = key).map Prod.snd

@[simp]
theorem lastValue_nil (key : K) : lastValue ([] : List (K × V)) key = none :=
  rfl

theorem lastValue_concat (pairs : List (K × V)) (p : K × V) (key : K) :
    lastValue (pairs ++ [p]) key = if p.1 = key then some p.2 else lastValue pairs key := by
  unfold lastValue
  rw [List.reverse_append, List.reverse_singleton, List.singleton_append, List.find?_cons]
  by_cases heq : p.1 = key
  · rw [if_pos heq, decide_eq_true heq]
    rfl
  · rw [if_neg heq, decide_eq_false heq]

theorem mem_of_lastValue {pairs : List (K × V)} {key : K} {value : V}
    (hvalue : lastValue pairs key = some value) : (key, value) ∈ pairs := by
  obtain ⟨p, hfind, hname⟩ := Option.map_eq_some_iff.mp hvalue
  have hkey : p.1 = key := by simpa using List.find?_some hfind
  have hmem := List.mem_reverse.mp (List.mem_of_find?_eq_some hfind)
  rw [← hkey, ← hname]
  exact hmem

theorem exists_lastValue {pairs : List (K × V)} {p : K × V} (hp : p ∈ pairs) :
    ∃ value, lastValue pairs p.1 = some value := by
  cases hvalue : lastValue pairs p.1 with
  | some value => exact ⟨value, rfl⟩
  | none =>
    have hnone := List.find?_eq_none.mp (Option.map_eq_none_iff.mp hvalue)
    exact absurd (decide_eq_true rfl) (hnone p (List.mem_reverse.mpr hp))

/-- A key has a value unless no pair has it. -/
theorem lastValue_eq_none {pairs : List (K × V)} {key : K}
    (hnot : ∀ p ∈ pairs, p.1 ≠ key) : lastValue pairs key = none := by
  cases hvalue : lastValue pairs key with
  | none => rfl
  | some value => exact absurd rfl (hnot _ (mem_of_lastValue hvalue))

end Jepsen.Library
