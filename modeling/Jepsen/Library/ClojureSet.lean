/-
# Set functions on collections of integers

`clojure.set` takes sets, but its functions also accept other collections, and
then do what the operations they are made of do. Looking up a member of a vector
asks for an index, and a sequence does not support the lookup at all. Which
operations run depends on which argument is larger.
-/

import Mathlib

namespace Jepsen.Library.ClojureSet

/-- `IllegalArgumentException` -/
inductive Thrown
  | illegalArgument
  deriving DecidableEq

/-- A collection of integers, in the order in which it is walked. -/
inductive Coll
  | vector (items : List ℤ)
  | seq (items : List ℤ)
  | set (walk : List ℤ) (nodup : walk.Nodup)
  deriving DecidableEq

namespace Coll

def items : Coll → List ℤ
  | vector items => items
  | seq items => items
  | set walk _ => walk

/-- `count` -/
def count (coll : Coll) : ℕ := coll.items.length

end Coll

/-- `(.intValue x)`: the low 32 bits, with their sign. -/
def intValue (x : ℤ) : ℤ := Int.bmod x (2 ^ 32)

/-- `contains?` -/
def contains (coll : Coll) (x : ℤ) : Except Thrown Bool :=
  match coll with
  -- The keys of a vector are its indices.
  | .vector items => .ok (decide (0 ≤ intValue x) && decide (intValue x < items.length))
  | .seq _ => .error .illegalArgument
  | .set walk _ => .ok (decide (x ∈ walk))

/-- A set or `nil`, which has no elements. -/
abbrev MaybeSet : Type := Option (Finset ℤ)

def elements (s : MaybeSet) : Finset ℤ := s.getD ∅

@[simp]
theorem elements_some (s : Finset ℤ) : elements (some s) = s := rfl

@[simp]
theorem elements_none : elements none = ∅ := rfl

/-! ## Union -/

/-- `set/union` of two sets: the smaller one is added to the larger. -/
def union (s₁ s₂ : MaybeSet) : MaybeSet :=
  if (elements s₁).card < (elements s₂).card then s₂.map fun s => s ∪ elements s₁
  else s₁.map fun s => s ∪ elements s₂

/-- `(reduce set/union sets)` -/
def reduceUnion : List MaybeSet → MaybeSet
  | [] => some ∅
  | s :: sets => sets.foldl union s

theorem elements_union (s₁ s₂ : MaybeSet) :
    elements (union s₁ s₂) = elements s₁ ∪ elements s₂ := by
  unfold union
  split
  · rename_i hlt
    cases s₂ with
    | none => simp at hlt
    | some s => exact Finset.union_comm _ _
  · rename_i hle
    cases s₁ with
    | none =>
      have hempty : elements s₂ = ∅ := by simpa using hle
      simp [hempty]
    | some s => rfl

theorem mem_foldl_union (sets : List MaybeSet) (s : MaybeSet) (x : ℤ) :
    x ∈ elements (sets.foldl union s) ↔ x ∈ elements s ∨ ∃ s' ∈ sets, x ∈ elements s' := by
  induction sets generalizing s with
  | nil => simp
  | cons s' sets ih =>
    rw [List.foldl_cons, ih, elements_union, Finset.mem_union]
    simp only [List.mem_cons, exists_eq_or_imp, or_assoc]

theorem mem_reduceUnion (sets : List MaybeSet) (x : ℤ) :
    x ∈ elements (reduceUnion sets) ↔ ∃ s ∈ sets, x ∈ elements s := by
  cases sets with
  | nil => simp [reduceUnion]
  | cons s sets =>
    rw [reduceUnion, mem_foldl_union]
    simp only [List.mem_cons, exists_eq_or_imp]

/-! ## Difference -/

/-- `(reduce disj s coll)` -/
def disjAll (s : MaybeSet) (coll : List ℤ) : MaybeSet :=
  coll.foldl (fun s x => s.map fun s => s.erase x) s

/-- `set/difference`: either what the second collection contains is taken out of the
first, or, if the first is not smaller, every item of the second. -/
def difference (s₁ : MaybeSet) (s₂ : Coll) : Except Thrown MaybeSet :=
  if (elements s₁).card < s₂.count then
    match s₁ with
    | none => .ok none
    | some s =>
        match s₂ with
        | .vector _ | .set _ _ =>
            .ok (some (s.filter fun x => contains s₂ x ≠ .ok true))
        | .seq _ => if s = ∅ then .ok (some s) else .error .illegalArgument
  else .ok (disjAll s₁ s₂.items)

theorem elements_disjAll (s : MaybeSet) (coll : List ℤ) :
    elements (disjAll s coll) = (elements s).filter fun x => x ∉ coll := by
  unfold disjAll
  induction coll generalizing s with
  | nil => simp
  | cons y coll ih =>
    rw [List.foldl_cons, ih]
    ext x
    cases s with
    | none => simp
    | some s => simp [and_assoc, and_left_comm]

/-- What the difference takes out of a smaller set is what it should. -/
def Comparable (s : Finset ℤ) : Coll → Prop
  | .vector items => items.length ≤ s.card ∨
      ∀ x ∈ s, x ∈ items ↔ 0 ≤ intValue x ∧ intValue x < items.length
  | .seq items => items.length ≤ s.card ∨ s = ∅
  | .set _ _ => True

/-- The difference is the set difference exactly if the collection is a set, is not
larger than the first set, or has those of its elements as items that are also its
indices. -/
theorem difference_eq_iff (s₁ : MaybeSet) (s₂ : Coll) :
    (∃ s, difference s₁ s₂ = .ok s ∧ elements s = (elements s₁).filter fun x => x ∉ s₂.items) ↔
      Comparable (elements s₁) s₂ := by
  unfold difference
  by_cases hlt : (elements s₁).card < s₂.count
  · rw [if_pos hlt]
    have hnot : ¬ s₂.items.length ≤ (elements s₁).card := not_le.mpr hlt
    cases s₁ with
    | none =>
      have hcomparable : Comparable (elements none) s₂ := by
        cases s₂ with
        | vector items => exact Or.inr (by simp)
        | seq items => exact Or.inr rfl
        | set walk nodup => trivial
      exact ⟨fun _ => hcomparable, fun _ => ⟨none, rfl, rfl⟩⟩
    | some s =>
      cases s₂ with
      | vector items =>
        constructor
        · rintro ⟨s', hs', helements⟩
          refine Or.inr fun x hx => ?_
          obtain rfl := Except.ok.inj hs'
          have hiff := Finset.ext_iff.mp helements x
          simp only [elements_some, Finset.mem_filter] at hiff hx
          simp only [hx, true_and, Coll.items, contains] at hiff
          have hiff' := not_congr hiff
          simpa using hiff'.symm
        · rintro (hle | hindex)
          · exact absurd hle hnot
          · refine ⟨_, rfl, Finset.filter_congr fun x hx => ?_⟩
            rw [Coll.items, hindex x hx]
            simp [contains]
      | seq items =>
        constructor
        · rintro ⟨s', hs', -⟩
          by_cases hempty : s = ∅
          · exact Or.inr hempty
          · simp only [if_neg hempty] at hs'
            cases hs'
        · rintro (hle | hempty)
          · exact absurd hle hnot
          · rw [elements_some] at hempty
            subst hempty
            exact ⟨some ∅, rfl, rfl⟩
      | set walk nodup =>
        refine ⟨fun _ => trivial, fun _ => ⟨_, rfl, Finset.filter_congr fun x hx => ?_⟩⟩
        simp [contains, Coll.items]
  · rw [if_neg hlt]
    refine ⟨fun _ => ?_, fun _ => ⟨_, rfl, elements_disjAll s₁ s₂.items⟩⟩
    cases s₂ with
    | vector items => exact Or.inl (not_lt.mp hlt)
    | seq items => exact Or.inl (not_lt.mp hlt)
    | set walk nodup => trivial

end Jepsen.Library.ClojureSet
