/-
# Operations

An operation is one event of a history: the invocation a generator emits and a
worker carries out, or the completion the worker hands back.
-/

import Jepsen.Generator.Context

namespace Jepsen.History

open Jepsen.Generator

universe u

/-- The `:type` of an operation. -/
inductive OpType
  | invoke | ok | fail | info | sleep | log | exit
  | other (keyword : String)
  deriving DecidableEq

/-- `jepsen.history.Op`, with the two extension fields the interpreter reads or
writes. -/
structure Op (V : Type u) where
  index : ℤ
  time : ℤ
  type : OpType
  process : Name
  f : Option String
  value : V
  /-- `:end-process?` -/
  endProcess : Bool
  error : Option String
  deriving DecidableEq

end Jepsen.History
