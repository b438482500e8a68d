/-
# The generator protocol

A generator is asked for an operation in a context and answers with an
operation or `:pending`, together with its next state; it is told about events
and answers with its next state. `nil` is itself a generator, the exhausted
one, so a state that may be `nil` is an `Option`. The test map, which is the
same throughout a run, belongs to the generator.
-/

import Jepsen.History.Op
import Jepsen.Library.Runs

namespace Jepsen.Generator

open Jepsen.History

universe u v

/-- What a generator may throw. -/
inductive Thrown
  | opThrew (cause : Thrown)
  | updateThrew (cause : Thrown)
  | invalidOp (problems : List String)
  | assertion (message : String)
  | nullPointer
  | classCast
  | indexOutOfBounds
  | diverged
  | threw (message : String)
  deriving DecidableEq

/-- What a call cannot compute from its arguments: the outcome of its random
draws, and how many iterations its loops are given before the call counts as
diverging. -/
structure Oracle where
  fuel : ℕ
  draw : ℕ → ℕ

namespace Oracle

/-- The draws left to the `i`th nested call. -/
def sub (oracle : Oracle) (i : ℕ) : Oracle :=
  { oracle with draw := fun j => oracle.draw (Nat.pair i j) }

/-- The order in which a set is walked. -/
def order {α : Type u} (oracle : Oracle) : List α → List α
  | [] => []
  | a :: rest =>
      (oracle.order rest).insertIdx (oracle.draw rest.length % (rest.length + 1)) a

/-- No loop iterates and every draw comes out zero. -/
def zero : Oracle := ⟨0, fun _ => 0⟩

theorem order_perm {α : Type u} (oracle : Oracle) (l : List α) : (oracle.order l).Perm l := by
  induction l with
  | nil => exact List.Perm.refl _
  | cons a rest ih =>
    have hle : oracle.draw rest.length % (rest.length + 1) ≤ (oracle.order rest).length := by
      rw [ih.length_eq]
      exact Nat.lt_succ_iff.mp (Nat.mod_lt _ (Nat.succ_pos _))
    exact (List.perm_insertIdx a _ hle).trans (ih.cons a)

end Oracle

/-- The first component of an `[op gen']` pair. -/
inductive Answer (V : Type u)
  | pending
  | op (op : Op V)
  deriving DecidableEq

/-- `defprotocol Generator`. -/
class Protocol (γ : Type v) (V : outParam (Type u)) where
  /-- `(op gen test context)` -/
  op : Oracle → γ → Context → Except Thrown (Option (Answer V × Option γ))
  /-- `(update gen test context event)` -/
  update : γ → Context → Op V → Except Thrown (Option γ)

section Nil

variable {γ : Type v} {V : Type u} [Protocol γ V]

/-- `op` on a generator that may be `nil`. -/
def op (oracle : Oracle) : Option γ → Context →
    Except Thrown (Option (Answer V × Option γ))
  | none, _ => .ok none
  | some gen, ctx => Protocol.op oracle gen ctx

/-- `update` on a generator that may be `nil`. -/
def update : Option γ → Context → Op V → Except Thrown (Option γ)
  | none, _, _ => .ok none
  | some gen, ctx, event => Protocol.update gen ctx event

@[simp]
theorem op_nil (oracle : Oracle) (ctx : Context) :
    op (V := V) oracle (none : Option γ) ctx = .ok none := rfl

@[simp]
theorem update_nil (ctx : Context) (event : Op V) :
    update (none : Option γ) ctx event = .ok none := rfl

end Nil

/-! ## Driving a generator -/

/-- What the environment does to a generator: it adopts an operation it was
offered, asks and discards the answer, or delivers an event. -/
inductive Drive (V : Type u)
  | emit (ctx : Context) (op : Op V)
  | discard (ctx : Context)
  | event (ctx : Context) (event : Op V)

/-- The context of a drive. -/
def Drive.ctx {V : Type u} : Drive V → Context
  | .emit ctx _ => ctx
  | .discard ctx => ctx
  | .event ctx _ => ctx

/-- One step of an environment. -/
inductive Driven {γ : Type v} {V : Type u} [Protocol γ V] :
    Option γ → Drive V → Option γ → Prop
  | emit {gen gen' : Option γ} {ctx : Context} {o : Op V} (oracle : Oracle)
      (offered : op oracle gen ctx = .ok (some (.op o, gen'))) :
      Driven gen (.emit ctx o) gen'
  | discard {gen : Option γ} {ctx : Context} (oracle : Oracle)
      {answer : Option (Answer V × Option γ)} (asked : op oracle gen ctx = .ok answer) :
      Driven gen (.discard ctx) gen
  | event {gen gen' : Option γ} {ctx : Context} {o : Op V}
      (updated : update gen ctx o = .ok gen') : Driven gen (.event ctx o) gen'

/-- The operations an environment adopted, in order. -/
def Drive.emitted {V : Type u} (drives : List (Drive V)) : List (Op V) :=
  drives.filterMap fun
    | .emit _ o => some o
    | _ => none

end Jepsen.Generator
