/-
# The counter checker

`counter` streams over a history and keeps two bounds on the counter: the sum of
the adds that were acknowledged, and the sum of the adds that were attempted and
do not fail. A read remembers the lower bound at its invocation and meets the
upper bound at its completion. Both an add and a read look forward to their
completion when they are invoked.
-/

import Jepsen.History.Op
import Jepsen.Library.Assoc

namespace Jepsen.Checker.Counter

open Jepsen.History Jepsen.Library
open Jepsen.Generator (Name)

/-- What the checker may throw. -/
inductive Thrown
  | assertionError
  | nullPointer
  deriving DecidableEq

/-- `:f` and `:value` of an operation. -/
inductive CounterCall
  | add (value : ℤ)
  | read (value : Option ℤ)
  | other (f : String)
  deriving DecidableEq

/-- An operation of a counter test. -/
structure CounterOp where
  index : ℕ
  process : Name
  type : OpType
  call : CounterCall
  deriving DecidableEq

/-- `(h/completion history op)`: what the process does next, unless it invokes again. -/
def completion (history : List CounterOp) (op : CounterOp) : Option CounterOp :=
  ((history.drop (op.index + 1)).find? fun o => decide (o.process = op.process)).filter
    fun o => decide (o.type ≠ .invoke)

/-- `(:value op)` of a read. -/
def readValue (op : CounterOp) : Option ℤ :=
  match op.call with
  | .read value => value
  | _ => none

/-- A completed read: `[lower val upper]`, or only `[upper]` if nothing was pending. -/
structure Read where
  pending : Option (ℤ × Option ℤ)
  upper : ℤ
  deriving DecidableEq

/-- The accumulators of the loop. -/
structure Bounds where
  lower : ℤ := 0
  upper : ℤ := 0
  pendingReads : Assoc Name (ℤ × Option ℤ) := ∅
  reads : List Read := []

/-- The body of the loop. -/
def step (history : List CounterOp) (acc : Bounds) (op : CounterOp) : Except Thrown Bounds :=
  match op.type, op.call with
  | .invoke, .read _ =>
      match completion history op with
      | some completion =>
          if completion.type = .ok then
            -- We're going to read something
            .ok { acc with
              pendingReads :=
                acc.pendingReads.insert op.process (acc.lower, readValue completion) }
          -- Won't read anything
          else .ok acc
      -- Doesn't finish at all
      | none => .ok acc
  | .ok, .read _ =>
      .ok { acc with
        pendingReads := acc.pendingReads.erase op.process
        reads := acc.reads ++ [⟨acc.pendingReads.lookup op.process, acc.upper⟩] }
  | .invoke, .add value =>
      if value < 0 then .error .assertionError
      else
        match completion history op with
        | some completion =>
            -- Won't complete
            if completion.type = .fail then .ok acc
            -- Will complete
            else .ok { acc with upper := acc.upper + value }
        -- Not sure
        | none => .ok { acc with upper := acc.upper + value }
  | .ok, .add value => .ok { acc with lower := acc.lower + value }
  | _, _ => .ok acc

/-- `(apply <= r)` -/
def inBounds (r : Read) : Except Thrown Bool :=
  match r.pending with
  | none => .ok true
  | some (_, none) => .error .nullPointer
  | some (lower, some value) => .ok (decide (lower ≤ value) && decide (value ≤ r.upper))

/-- `(remove (partial apply <=) reads)` -/
def errors : List Read → Except Thrown (List Read)
  | [] => .ok []
  | r :: reads =>
      match inBounds r, errors reads with
      | .error t, _ => .error t
      | .ok _, .error t => .error t
      | .ok true, .ok rest => .ok rest
      | .ok false, .ok rest => .ok (r :: rest)

/-- The map the checker returns. -/
structure Result where
  valid : Bool
  reads : List Read
  errors : List Read
  deriving DecidableEq

/-- `counter` -/
def counter (history : List CounterOp) : Except Thrown Result :=
  match history.foldlM (step history) {} with
  | .error t => .error t
  | .ok acc =>
      match errors acc.reads with
      | .error t => .error t
      | .ok errors => .ok ⟨errors.isEmpty, acc.reads, errors⟩

end Jepsen.Checker.Counter
