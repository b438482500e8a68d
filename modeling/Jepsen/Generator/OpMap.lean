/-
# Maps as generators

A Clojure map is a generator that yields one operation: the map itself, with
`:time`, `:type` and `:process` taken from the context where the map leaves them
out.
-/

import Jepsen.Generator.Protocol

namespace Jepsen.Generator

open Jepsen.History

universe u

/-- A map used as a generator. A `:value` left out is the caller's `nil`. -/
structure OpMap (V : Type u) where
  time : Option ℤ := none
  type : Option OpType := none
  process : Option Name := none
  f : Option String := none
  value : V
  endProcess : Bool := false

namespace OpMap

variable {V : Type u}

/-- `fill-in-op`. -/
def fillInOp (this : OpMap V) (ctx : Context) : Answer V :=
  match ctx.someFreeProcess with
  | none => .pending
  | some p => .op
      { index := -1
        time := this.time.getD ctx.time
        type := this.type.getD .invoke
        process := this.process.getD p
        f := this.f
        value := this.value
        endProcess := this.endProcess
        error := none }

/-- `op` of `APersistentMap`. -/
def op (_oracle : Oracle) (this : OpMap V) (ctx : Context) :
    Except Thrown (Option (Answer V × Option (OpMap V))) :=
  match this.fillInOp ctx with
  | .pending => .ok (some (.pending, some this))
  | .op o => .ok (some (.op o, none))

instance : Protocol (OpMap V) V where
  op := OpMap.op
  update := fun this _ _ => .ok (some this)

end OpMap

end Jepsen.Generator
