/-
# Version orders

The log of a key becomes a vector of sets, with holes where no value was
reported, and the vector becomes a version order: one value for each offset that
has any, and an index from values to their places. Offsets with several values
and values with several offsets are reported as errors.
-/

import Jepsen.Tests.Kafka.Logs

namespace Jepsen.Tests.Kafka

open Jepsen.Library

universe u v

/-- A vector of sets of values, `none` where an offset has none. -/
abbrev Log (V : Type v) := List (Option (NonemptySet V))

section IndexSeq

variable {V : Type v} [DecidableEq V]

/-- The `:by-value` of `index-seq`: a later index replaces an earlier one. -/
def indexMap (xs : List V) : Assoc V ℕ :=
  xs.zipIdx.foldl (fun m e => m.insert e.1 e.2) ∅

theorem lookup_foldl_zipIdx (xs : List V) (n : ℕ) (m : Assoc V ℕ) {x : V} {i : ℕ}
    (hlookup : ((xs.zipIdx n).foldl (fun m e => m.insert e.1 e.2) m).lookup x = some i) :
    (x ∉ xs ∧ m.lookup x = some i) ∨ (n ≤ i ∧ xs[i - n]? = some x) := by
  induction xs generalizing n m with
  | nil => exact Or.inl ⟨List.not_mem_nil, hlookup⟩
  | cons y xs ih =>
    rw [List.zipIdx_cons, List.foldl_cons] at hlookup
    cases ih (n + 1) (m.insert y n) hlookup with
    | inl hold =>
      obtain ⟨hnot, hlookup'⟩ := hold
      rw [Assoc.lookup_insert_eq_ite] at hlookup'
      split at hlookup'
      · rename_i heq
        cases hlookup'
        right
        simp [heq]
      · rename_i hne
        exact Or.inl ⟨by simp [hne, hnot], hlookup'⟩
    | inr hlater =>
      obtain ⟨hle, hget⟩ := hlater
      right
      have hsucc : i - n = (i - (n + 1)) + 1 := by omega
      refine ⟨by omega, ?_⟩
      rw [hsucc, List.getElem?_cons_succ]
      exact hget

theorem getElem?_of_lookup_indexMap {xs : List V} {x : V} {i : ℕ}
    (hlookup : (indexMap xs).lookup x = some i) : xs[i]? = some x := by
  cases lookup_foldl_zipIdx xs 0 ∅ hlookup with
  | inl hold => cases hold.2
  | inr hget => exact hget.2

theorem mem_foldl_zipIdx (xs : List V) (n : ℕ) (m : Assoc V ℕ) {x : V} (hx : x ∈ m ∨ x ∈ xs) :
    x ∈ (xs.zipIdx n).foldl (fun m e => m.insert e.1 e.2) m := by
  induction xs generalizing n m with
  | nil =>
    cases hx with
    | inl hmem => exact hmem
    | inr hnil => cases hnil
  | cons y xs ih =>
    rw [List.zipIdx_cons, List.foldl_cons]
    apply ih
    rw [AList.mem_insert]
    cases hx with
    | inl hmem => exact Or.inl (Or.inr hmem)
    | inr hcons =>
      cases List.mem_cons.mp hcons with
      | inl heq => exact Or.inl (Or.inl heq)
      | inr htail => exact Or.inr htail

theorem mem_indexMap {xs : List V} {x : V} (hx : x ∈ xs) : x ∈ indexMap xs :=
  mem_foldl_zipIdx xs 0 ∅ (Or.inr hx)

/-- Without repetitions the index map inverts the vector. -/
theorem lookup_indexMap_iff {xs : List V} (hnodup : xs.Nodup) {x : V} {i : ℕ} :
    (indexMap xs).lookup x = some i ↔ xs[i]? = some x := by
  constructor
  · exact getElem?_of_lookup_indexMap
  · intro hget
    have hmem := mem_indexMap (List.mem_of_getElem? hget)
    obtain ⟨j, hj⟩ := Option.isSome_iff_exists.mp (AList.lookup_isSome.mpr hmem)
    rw [hj]
    have hget' := getElem?_of_lookup_indexMap hj
    obtain ⟨hi, -⟩ := List.getElem?_eq_some_iff.mp hget
    rw [(List.getElem?_inj hi hnodup).mp (hget.trans hget'.symm)]

end IndexSeq

/-- The order `version-orders` infers for a key. -/
structure VersionOrder (V : Type v) [DecidableEq V] where
  /-- The values of the log, one for each offset that has any. -/
  byIndex : List V
  byValue : Assoc V ℕ
  log : Log V
  /-- A value that has an index is at that index. -/
  indexed : ∀ {v i}, byValue.lookup v = some i → byIndex[i]? = some v

variable {K : Type u} {V : Type v} [DecidableEq K] [LinearOrder V]

/-! ## From logs to orders -/

/-- `datafy-version-order-log`; the keys of a Bifurcan integer map are sorted, so
its last one is the greatest. -/
def datafyVersionOrderLog (m : OffsetMap V) : Log V :=
  match m.keys.max? with
  | none => []
  | some maxI => (List.range (maxI + 1)).map fun i => m.lookup i

/-- `(assoc (->> log (remove nil?) (map first) index-seq) :log log)` -/
def keyOrder (order : SetOrder V) (log : Log V) : VersionOrder V where
  byIndex := log.reduceOption.map order.first
  byValue := indexMap (log.reduceOption.map order.first)
  log := log
  indexed := getElem?_of_lookup_indexMap

/-- An offset of a key with several values. -/
structure OffsetError (K : Type u) (V : Type v) where
  key : K
  offset : ℕ
  index : ℕ
  values : List V

/-- `(count values)` -/
def valueCount : Option (NonemptySet V) → ℕ
  | none => 0
  | some s => s.1.card

/-- `(into (sorted-set) values)` -/
def sortedValues : Option (NonemptySet V) → List V
  | none => []
  | some s => s.1.sort (· ≤ ·)

/-- One step of the reduction that collects the errors of a log. -/
def errorStep (k : K) (state : ℕ × ℕ × List (OffsetError K V)) (values : Option (NonemptySet V)) :
    ℕ × ℕ × List (OffsetError K V) :=
  let (offset, index, errs) := state
  if 2 ≤ valueCount values then
    -- Divergence
    (offset + 1, index + 1, errs ++ [⟨k, offset, index, sortedValues values⟩])
  else if 1 ≤ valueCount values then
    -- No divergence
    (offset + 1, index + 1, errs)
  else
    -- Hole in log
    (offset + 1, index, errs)

def logErrors (k : K) (log : Log V) : List (OffsetError K V) :=
  (log.foldl (errorStep k) (0, 0, [])).2.2

/-- What `version-orders` returns. -/
structure VersionOrders (K : Type u) (V : Type v) [DecidableEq V] where
  errors : Option (List (OffsetError K V))
  orders : Assoc K (VersionOrder V)

/-- The logs of all keys, as vectors. -/
def datafiedLogs (plan : FoldPlan (KafkaOp K V))
    (readsByType : Assoc ClientType (Assoc K (Finset V))) : Assoc K (Log V) :=
  Assoc.mapVals (fun _ m => datafyVersionOrderLog m) ((logsFolder readsByType).run plan)

/-- `version-orders`, for a history whose fold is carried out as `plan` says. -/
def versionOrders (order : SetOrder V) (plan : FoldPlan (KafkaOp K V))
    (readsByType : Assoc ClientType (Assoc K (Finset V))) : VersionOrders K V where
  errors := seq ((datafiedLogs plan readsByType).entries.flatMap fun e => logErrors e.1 e.2)
  orders := Assoc.mapVals (fun _ log => keyOrder order log) (datafiedLogs plan readsByType)

/-- A value at several offsets of a key. -/
structure DuplicateCase (K : Type u) (V : Type v) where
  key : K
  value : V
  count : ℕ
  offsets : List ℕ

/-- `(contains? vs value)` -/
def containsValue (value : V) : Option (NonemptySet V) → Bool
  | none => false
  | some s => decide (value ∈ s.1)

/-- The offsets of a value, from the loop over the log in `duplicate-cases`. -/
def offsetsOf (log : Log V) (value : V) : List ℕ :=
  (log.foldl (fun state vs =>
    (state.1 + 1,
      if containsValue value vs then state.2 ++ [state.1] else state.2)) (0, [])).2

/-- The duplicates of one key. -/
def keyDuplicates (order : SetOrder V) (k : K) (log : Log V) : List (DuplicateCase K V) :=
  (((Assoc.frequencies (log.reduceOption.flatMap fun s => order.walk s.1)).entries.filter
    fun e => decide (1 < e.2)).map fun e => ⟨k, e.1, e.2, offsetsOf log e.1⟩)

/-- `duplicate-cases` -/
def duplicateCases (order : SetOrder V) (orders : Assoc K (VersionOrder V)) :
    Option (List (DuplicateCase K V)) :=
  seq (orders.entries.flatMap fun e => keyDuplicates order e.1 e.2.log)

end Jepsen.Tests.Kafka
