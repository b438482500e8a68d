/-
# Intervals of nemesis activity

`nemesis-intervals` goes through the pairs of invocations and completions of the
nemesis, keeps the pairs that start something until a pair that stops it, and
makes two intervals of each.
-/

import Jepsen.History.Op

namespace Jepsen.Util

open Jepsen.Generator Jepsen.History

universe u

variable {V : Type u}

/-! ## The intervals -/

/-- The functions that start and stop something, by default `:start` and `:stop`. -/
structure Regions where
  start : Finset String := {"start"}
  stop : Finset String := {"stop"}

/-- A set, called with the function of an operation. -/
def called (set : Finset String) (f : Option String) : Bool := f.any fun f => decide (f ∈ set)

/-- `(partition 2 coll)`: an odd last element is left out. -/
def inPairs {α : Type u} : List α → List (α × α)
  | a :: b :: rest => (a, b) :: inPairs rest
  | _ => []

/-- The intervals so far, and the start pairs that are not closed. -/
structure Pending (V : Type u) where
  intervals : List (Op V × Option (Op V))
  starts : List (Op V × Op V)

/-- The two intervals of a start pair. -/
def closedBy (stop : Option (Op V × Op V)) (pair : Op V × Op V) : List (Op V × Option (Op V)) :=
  [(pair.1, stop.map Prod.fst), (pair.2, stop.map Prod.snd)]

/-- The function that the pairs are reduced with. -/
def Pending.step (opts : Regions) (state : Pending V) (pair : Op V × Op V) : Pending V :=
  if called opts.start pair.1.f then { state with starts := state.starts ++ [pair] }
  else if called opts.stop pair.1.f then
    { intervals := state.intervals ++ state.starts.flatMap (closedBy (some pair)), starts := [] }
  else state

/-- Complete unfinished intervals. -/
def Pending.finish (state : Pending V) : List (Op V × Option (Op V)) :=
  state.intervals ++ state.starts.flatMap (closedBy none)

/-- The pairs of the nemesis whose functions are equal. -/
def nemesisPairs (history : List (Op V)) : List (Op V × Op V) :=
  (inPairs (history.filter fun op => op.process = .nemesis)).filter fun pair =>
    pair.1.f = pair.2.f

/-- `nemesis-intervals` -/
def nemesisIntervals (opts : Regions) (history : List (Op V)) : List (Op V × Option (Op V)) :=
  ((nemesisPairs history).foldl (Pending.step opts) ⟨[], []⟩).finish

/-! ## What each start pair contributes -/

/-- A pair stops something if it does not start something. -/
def isStop (opts : Regions) (pair : Op V × Op V) : Bool :=
  !called opts.start pair.1.f && called opts.stop pair.1.f

/-- What a pair contributes, with the pairs after it. -/
def contribution (opts : Regions) : List (Op V × Op V) → List (Op V × Option (Op V))
  | [] => []
  | pair :: later =>
    if called opts.start pair.1.f then closedBy (later.find? (isStop opts)) pair else []

theorem inPairs_flatMap {α : Type u} (pairs : List (α × α)) :
    inPairs (pairs.flatMap fun pair => [pair.1, pair.2]) = pairs := by
  induction pairs with
  | nil => rfl
  | cons pair pairs ih =>
    rw [List.flatMap_cons]
    change pair :: inPairs (pairs.flatMap fun pair => [pair.1, pair.2]) = pair :: pairs
    rw [ih]

/-- Invocations and completions are paired up again. -/
theorem nemesisPairs_eq {history : List (Op V)} {pairs : List (Op V × Op V)}
    (hpairs : (history.filter fun op => op.process = .nemesis) =
      pairs.flatMap fun pair => [pair.1, pair.2])
    (hf : ∀ pair ∈ pairs, pair.1.f = pair.2.f) : nemesisPairs history = pairs := by
  unfold nemesisPairs
  rw [hpairs, inPairs_flatMap, List.filter_eq_self]
  intro pair hpair
  exact decide_eq_true (hf pair hpair)

/-- Pending start pairs wait for the first stop pair, and each later one contributes its own
intervals. -/
theorem finish_foldl (opts : Regions) (pairs : List (Op V × Op V)) (state : Pending V) :
    (pairs.foldl (Pending.step opts) state).finish =
      state.intervals ++ state.starts.flatMap (closedBy (pairs.find? (isStop opts))) ++
        pairs.tails.flatMap (contribution opts) := by
  induction pairs generalizing state with
  | nil => simp [Pending.finish, contribution]
  | cons pair pairs ih =>
    rw [List.foldl_cons, ih, List.tails_cons, List.flatMap_cons]
    unfold Pending.step
    cases hstart : called opts.start pair.1.f with
    | true =>
      -- The pair waits with the others.
      have hstop : isStop opts pair = false := by simp [isStop, hstart]
      rw [if_pos rfl, List.find?_cons_of_neg (by simp [hstop])]
      simp [contribution, hstart]
    | false =>
      rw [if_neg Bool.false_ne_true]
      have hnone : contribution opts (pair :: pairs) = [] := by simp [contribution, hstart]
      rw [hnone]
      cases hstop : called opts.stop pair.1.f with
      | true =>
        -- All that waits is closed.
        have hcloses : isStop opts pair = true := by simp [isStop, hstart, hstop]
        rw [if_pos rfl, List.find?_cons_of_pos hcloses]
        simp
      | false =>
        have hopen : isStop opts pair = false := by simp [isStop, hstop]
        rw [if_neg Bool.false_ne_true, List.find?_cons_of_neg (by simp [hopen])]
        simp

theorem tails_flatMap_contribution_starts (opts : Regions) (pairs : List (Op V × Op V)) :
    (pairs.tails.flatMap (contribution opts)).map Prod.fst =
      (pairs.filter fun pair => called opts.start pair.1.f).flatMap
        fun pair => [pair.1, pair.2] := by
  induction pairs with
  | nil => simp [contribution]
  | cons pair pairs ih =>
    rw [List.tails_cons, List.flatMap_cons, List.map_append, ih]
    cases hstart : called opts.start pair.1.f with
    | true => simp [contribution, hstart, closedBy]
    | false => simp [contribution, hstart]

/-- In a history whose nemesis operations are pairs of an invocation and a completion of one
function, the intervals are, in order, two for each start pair, up to the first stop pair after
it; and distinct operations start distinct intervals. -/
theorem nemesisIntervals_eq (opts : Regions) {history : List (Op V)}
    {pairs : List (Op V × Op V)}
    (hpairs : (history.filter fun op => op.process = .nemesis) =
      pairs.flatMap fun pair => [pair.1, pair.2])
    (hf : ∀ pair ∈ pairs, pair.1.f = pair.2.f) :
    nemesisIntervals opts history = pairs.tails.flatMap (contribution opts) ∧
      (nemesisIntervals opts history).map Prod.fst =
        (pairs.filter fun pair => called opts.start pair.1.f).flatMap
          (fun pair => [pair.1, pair.2]) ∧
      (history.Nodup → ((nemesisIntervals opts history).map Prod.fst).Nodup) := by
  have heq : nemesisIntervals opts history = pairs.tails.flatMap (contribution opts) := by
    unfold nemesisIntervals
    rw [nemesisPairs_eq hpairs hf, finish_foldl]
    rfl
  have hstarts := tails_flatMap_contribution_starts opts pairs
  rw [heq, hstarts]
  refine ⟨rfl, rfl, ?_⟩
  intro hnodup
  apply List.Nodup.sublist (List.Sublist.flatMap List.filter_sublist _)
  rw [← hpairs]
  exact hnodup.filter _

/-- An operation of the nemesis. -/
def nemesisOp (index : ℤ) (f : String) : Op ℤ :=
  ⟨index, index, .info, .nemesis, some f, index, false, none⟩

/-- The pairs of a nemesis that goes start, start, stop, stop. -/
def twoStarts : List (Op ℤ × Op ℤ) :=
  [(nemesisOp 1 "start", nemesisOp 2 "start"), (nemesisOp 3 "start", nemesisOp 4 "start"),
    (nemesisOp 5 "stop", nemesisOp 6 "stop")]

/-- Two start pairs are ended by the same pair of stops. -/
theorem twoStarts_intervals :
    nemesisIntervals {} (twoStarts.flatMap fun pair => [pair.1, pair.2]) =
      [(nemesisOp 1 "start", some (nemesisOp 5 "stop")),
        (nemesisOp 2 "start", some (nemesisOp 6 "stop")),
        (nemesisOp 3 "start", some (nemesisOp 5 "stop")),
        (nemesisOp 4 "start", some (nemesisOp 6 "stop"))] := by
  have hpairs : ((twoStarts.flatMap fun pair => [pair.1, pair.2]).filter
      fun op => op.process = .nemesis) = twoStarts.flatMap fun pair => [pair.1, pair.2] := by
    decide
  have hintervals := (nemesisIntervals_eq {} hpairs (by decide)).1
  rw [hintervals]
  decide

end Jepsen.Util
