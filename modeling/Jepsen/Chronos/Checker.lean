/-
# Targets and runs of scheduled jobs

A job should run at its targets, give or take a few seconds. `job->targets` says which targets must
have been met when the runs are read, and `disjoint-job-solution` riffles disjoint targets and runs
together. Times are in milliseconds, and jobs count whole seconds.
-/

import Jepsen.Library.Assoc

namespace Jepsen.Chronos.Checker

open Jepsen.Library

/-- `t/seconds` -/
def seconds (n : ℕ) : ℤ := 1000 * n

/-- `epsilon-forgiveness`: we let chronos miss its deadlines by a few seconds. -/
def epsilonForgiveness : ℕ := 5

/-- A job, without its name. -/
structure Job where
  start : ℤ
  /-- How long between runs in seconds -/
  interval : ℕ
  /-- How many times should we repeat the job -/
  count : ℕ
  /-- Allowable tolerance, in seconds, for scheduling -/
  epsilon : ℕ
  /-- How long should a run take, in seconds? -/
  duration : ℕ

/-- A target: the times at which a run may start. -/
structure Target where
  start : ℤ
  stop : ℤ
  le : start ≤ stop
  deriving DecidableEq

/-- An actual execution, which may not have ended. -/
structure Run where
  start : ℤ
  stop : Option ℤ
  deriving DecidableEq, Inhabited

/-- The target of a scheduled start. -/
def Job.target (job : Job) (start : ℤ) : Target where
  start := start
  stop := start + seconds job.epsilon + seconds epsilonForgiveness
  le := by
    unfold seconds
    omega

/-- The scheduled starts of a job. -/
def Job.starts (job : Job) : List ℤ :=
  List.iterate (· + seconds job.interval) job.start job.count

/-- `job->targets` -/
def jobTargets (readTime : ℤ) (job : Job) : List Target :=
  let finish := readTime - seconds job.epsilon - seconds job.duration
  (job.starts.takeWhile fun start => start < finish).map job.target

/-- `complete-incomplete-runs` -/
def completeIncompleteRuns (runs : List Run) : List Run × List Run :=
  let byStart := fun run run' : Run => decide (run.start ≤ run'.start)
  ((runs.filter fun run => run.stop.isSome).mergeSort byStart,
    (runs.filter fun run => run.stop.isNone).mergeSort byStart)

/-- A sorted map of targets to runs, or to nil. -/
abbrev Solution : Type := Assoc Target (Option Run)

/-- Safety first: the next target begins after this one has ended. -/
def safe (target : Target) (targets : List Target) : Prop :=
  ∀ target2 ∈ targets.head?, target.stop < target2.start

instance (target : Target) (targets : List Target) : Decidable (safe target targets) :=
  inferInstanceAs (Decidable (∀ _ ∈ targets.head?, _))

/-- The loop of `disjoint-job-solution`; it throws if the assertion fails. -/
def riffle (m : Solution) : List Target → List Run → Option Solution
  -- If we're out of targets, exit
  | [], _ => some m
  -- If we're out of runs, zip through remaining targets
  | target :: targets, [] =>
      if safe target targets then riffle (m.insert target none) targets [] else none
  | target :: targets, run :: runs =>
      if safe target targets then
        -- This run started before the target began.
        if run.start < target.start then riffle m (target :: targets) runs
        -- This run started after the target ended.
        else if target.stop < run.start then
          riffle (m.insert target none) targets (run :: runs)
        -- This run falls into the target.
        else riffle (m.insert target (some run)) targets runs
      else none
termination_by targets runs => targets.length + runs.length

/-- `disjoint-job-solution` -/
def disjointJobSolution (targets : List Target) (runs : List Run) : Option Solution :=
  riffle ∅ targets runs

end Jepsen.Chronos.Checker
