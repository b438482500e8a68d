/-
# The causal-reverse test

Concurrent blind writes, and reads of everything written. `graph` collects, for
each value, the values whose writes were acknowledged before its own was invoked;
a read that has the value should have those too. `errors` takes what a read has
from what it should have with `set/difference`, whatever collection the read is.
-/

import Jepsen.History.Op
import Jepsen.Library.Assoc
import Jepsen.Library.ClojureSet

namespace Jepsen.Tests.CausalReverse

open Jepsen.History Jepsen.Library Jepsen.Library.ClojureSet
open Jepsen.Generator (Name)

/-- `:f` and `:value` of an operation. -/
inductive Call
  | write (value : ℤ)
  | read (value : Option Coll)
  | other (f : String)
  deriving DecidableEq

/-- An operation of the test. -/
structure CausalOp where
  index : ℕ
  process : Name
  type : OpType
  call : Call
  deriving DecidableEq

/-- The body of the loop of `graph`. -/
def graphStep (acc : Finset ℤ × Assoc ℤ (Finset ℤ)) (op : CausalOp) :
    Finset ℤ × Assoc ℤ (Finset ℤ) :=
  match op.call with
  | .write value =>
      match op.type with
      -- Write is beginning; record precedence
      | .invoke => (acc.1, acc.2.insert value acc.1)
      -- Write is completing; we can now expect to see it
      | .ok => (insert value acc.1, acc.2)
      -- Not a write, ignore and continue
      | _ => acc
  | _ => acc

/-- `graph` -/
def graph (history : List CausalOp) : Assoc ℤ (Finset ℤ) :=
  (history.foldl graphStep (∅, ∅)).2

/-- An operation that violates the expected order, without its value. -/
structure Violation where
  index : ℕ
  process : Name
  missing : Finset ℤ
  expectedCount : ℕ
  deriving DecidableEq

/-- What a read has seen; `nil` is no item. -/
def seenItems : Option Coll → List ℤ
  | none => []
  | some coll => coll.items

/-- `our-expected` -/
def ourExpected (expected : Assoc ℤ (Finset ℤ)) (seen : Option Coll) : MaybeSet :=
  reduceUnion ((seenItems seen).map expected.lookup)

/-- `(set/difference our-expected seen)`. Nothing is taken out with `nil`. -/
def missingFrom (expected : Assoc ℤ (Finset ℤ)) (seen : Option Coll) :
    Except Thrown MaybeSet :=
  match seen with
  | none => .ok (ourExpected expected none)
  | some coll => difference (ourExpected expected (some coll)) coll

/-- The completed reads. -/
def okReads (history : List CausalOp) : List (CausalOp × Option Coll) :=
  history.filterMap fun op =>
    match op.call, op.type with
    | .read value, .ok => some (op, value)
    | _, _ => none

/-- `errors` -/
def errors (expected : Assoc ℤ (Finset ℤ)) :
    List (CausalOp × Option Coll) → Except Thrown (List Violation)
  | [] => .ok []
  | (op, seen) :: reads =>
      match missingFrom expected seen, errors expected reads with
      | .error t, _ => .error t
      | .ok _, .error t => .error t
      | .ok missing, .ok rest =>
          if elements missing = ∅ then .ok rest
          else .ok (⟨op.index, op.process, elements missing,
            (elements (ourExpected expected seen)).card⟩ :: rest)

/-- The map the checker returns. -/
structure Result where
  valid : Bool
  errors : List Violation
  deriving DecidableEq

/-- `checker` -/
def checker (history : List CausalOp) : Except Thrown Result :=
  match errors (graph history) (okReads history) with
  | .error t => .error t
  | .ok errors => .ok ⟨errors.isEmpty, errors⟩

end Jepsen.Tests.CausalReverse
