/-
# Reads of increment-only registers

Each read observes some of the registers, each with its value and the timestamp of the instance.
Going through the reads, `nonmonotonic-states` infers a lower bound for every register, the
highest value so far, and reports the reads below it.
-/

import Jepsen.Library.Assoc

namespace Jepsen.Faunadb.Multimonotonic

open Jepsen.Library

universe u v

/-- An instance of a register. -/
structure Register (Ts : Type v) where
  value : ℤ
  ts : Ts

/-- A read, with its index in the history. -/
structure Op (K : Type u) (Ts : Type v) where
  ts : Ts
  registers : Assoc K (Register Ts)
  index : ℕ

/-- What an op observed for a key. -/
structure Observation (Ts : Type v) where
  readTs : Ts
  ts : Option Ts
  value : Option ℤ
  opIndex : ℕ

/-- An error map. -/
structure Error (K : Type u) (Ts : Type v) where
  inferred : Assoc K (Option ℤ)
  observed : Assoc K ℤ
  op : Op K Ts
  errors : Assoc K (Option (Observation Ts) × Observation Ts)

section

variable {K : Type u} {V : Type*} {Ts : Type v} [DecidableEq K]

/-- `sorted-zipmap-without-nil-vals`, from its loop on. -/
def sortedZipmapWithoutNilVals (map : Assoc K V) : List K → List (Option V) → Assoc K V
  | k :: ks, v :: vs =>
      sortedZipmapWithoutNilVals (v.elim map fun v => map.insert k v) ks vs
  | _, _ => map

/-- `nonmonotonic-keys` -/
def nonmonotonicKeys (m1 : Assoc K (Option ℤ)) (m2 : Assoc K ℤ) : List K :=
  m2.entries.filterMap fun e =>
    ((m1.lookup e.1).join).bind fun v1 => if e.2 < v1 then some e.1 else none

/-- `op->observation` -/
def opObservation (op : Op K Ts) (k : K) : Observation Ts :=
  let register := op.registers.lookup k
  ⟨op.ts, register.map Register.ts, register.map Register.value, op.index⟩

/-- Update the inferred state map at a key. Comparing with a missing value throws. -/
def inferKey (op : Op K Ts) (state : Assoc K ℤ) (inferred : Assoc K (Observation Ts)) (k : K) :
    Option (Assoc K (Observation Ts)) :=
  match inferred.lookup k with
  | none => some (inferred.insert k (opObservation op k))
  | some prior =>
      match state.lookup k, prior.value with
      | some v, some v' =>
          -- We have an observation of this key already and it's higher than this op's
          if v < v' then some inferred else some (inferred.insert k (opObservation op k))
      | _, _ => none

/-- Update our inferred state map. -/
def infer (op : Op K Ts) (state : Assoc K ℤ) (inferred : Assoc K (Observation Ts)) :
    Option (Assoc K (Observation Ts)) :=
  state.keys.foldlM (inferKey op state) inferred

/-- An error, for the keys that are nonmonotonic. -/
def errorAt (op : Op K Ts) (state : Assoc K ℤ) (inferred : Assoc K (Observation Ts))
    (nmKeys : List K) : Error K Ts where
  inferred := (inferred.selectKeys state.keys).mapVals fun _ observation => observation.value
  observed := state
  op := op
  errors := sortedZipmapWithoutNilVals ∅ nmKeys
    (nmKeys.map fun k => some (inferred.lookup k, opObservation op k))

/-- The loop of `nonmonotonic-states`. -/
def loop (stateFn : Op K Ts → Assoc K ℤ) (inferred : Assoc K (Observation Ts))
    (nonmonotonic : List (Error K Ts)) : List (Op K Ts) → Option (List (Error K Ts))
  | [] => some nonmonotonic
  | op :: history => do
      let state := stateFn op
      let inferred' ← infer op state inferred
      -- And if we have any nonmonotonic keys here...
      match nonmonotonicKeys (inferred.mapVals fun _ observation => observation.value) state with
      | [] => loop stateFn inferred' nonmonotonic history
      | nmKeys => loop stateFn inferred' (nonmonotonic ++ [errorAt op state inferred nmKeys]) history

/-- `nonmonotonic-states`; without ops, its nil is an empty collection. -/
def nonmonotonicStates (stateFn : Op K Ts → Assoc K ℤ) (history : List (Op K Ts)) :
    Option (List (Error K Ts)) :=
  loop stateFn ∅ [] history

/-- `read-state` -/
def readState (op : Op K Ts) : Assoc K ℤ := op.registers.mapVals fun _ register => register.value

/-! ## What should be inferred and reported -/

/-- Some op read this value of the key. -/
def Reads (ops : List (Op K Ts)) (k : K) (v : ℤ) : Prop :=
  ∃ op ∈ ops, (readState op).lookup k = some v

/-- The observation is of the last op that read the highest value of the key. -/
def Highest (ops : List (Op K Ts)) (k : K) (observation : Observation Ts) : Prop :=
  ∃ earlier op later v, ops = earlier ++ op :: later ∧ observation = opObservation op k ∧
    (readState op).lookup k = some v ∧ (∀ v', Reads earlier k v' → v' ≤ v) ∧
      ∀ v', Reads later k v' → v' < v

/-- The inferred state after some ops. -/
structure Infers (ops : List (Op K Ts)) (inferred : Assoc K (Observation Ts)) : Prop where
  keys : ∀ k, k ∈ inferred ↔ ∃ v, Reads ops k v
  highest : ∀ k observation, inferred.lookup k = some observation → Highest ops k observation

/-- An op reads a value of a key that is lower than one that some earlier op read. -/
def Regresses (before : List (Op K Ts)) (op : Op K Ts) (k : K) : Prop :=
  ∃ v v', (readState op).lookup k = some v ∧ Reads before k v' ∧ v < v'

/-- The error of an op: it pairs the earlier highest observation with the current one. -/
structure Explains (before : List (Op K Ts)) (op : Op K Ts) (error : Error K Ts) : Prop where
  op_eq : error.op = op
  observed : error.observed = readState op
  keys : ∀ k, k ∈ error.errors ↔ Regresses before op k
  pairs : ∀ k pair, error.errors.lookup k = some pair →
    ∃ prior, pair = (some prior, opObservation op k) ∧ Highest before k prior

/-- Each op that reads a lower value is reported once, in order, and no other. -/
inductive Reported : List (Op K Ts) → List (Error K Ts) → Prop
  | nil : Reported [] []
  | monotonic {ops : List (Op K Ts)} {errors : List (Error K Ts)} {op : Op K Ts}
      (prior : Reported ops errors) (hnone : ∀ k, ¬ Regresses ops op k) :
      Reported (ops ++ [op]) errors
  | nonmonotonic {ops : List (Op K Ts)} {errors : List (Error K Ts)} {op : Op K Ts} {k : K}
      {error : Error K Ts} (prior : Reported ops errors) (hregresses : Regresses ops op k)
      (hexplains : Explains ops op error) : Reported (ops ++ [op]) (errors ++ [error])

end

end Jepsen.Faunadb.Multimonotonic
