/-
# Validation and friendly exceptions

The interpreter wraps every generator twice: `FriendlyExceptions` rethrows what
the generator throws with its context, and `Validate` checks the operations it
emits. Neither changes an operation that is let through.
-/

import Jepsen.Generator.Protocol

namespace Jepsen.Generator

open Jepsen.History

universe u v

/-- `(defrecord FriendlyExceptions [gen])` -/
structure FriendlyExceptions (γ : Type v) where
  gen : Option γ

/-- `(defrecord Validate [gen])` -/
structure Validate (γ : Type v) where
  gen : Option γ

variable {γ : Type v} {V : Type u} [Protocol γ V]

/-- `FriendlyExceptions.op`. -/
def FriendlyExceptions.op (oracle : Oracle) (this : FriendlyExceptions γ) (ctx : Context) :
    Except Thrown (Option (Answer V × Option (FriendlyExceptions γ))) :=
  match Generator.op oracle this.gen ctx with
  | .error t => .error (.opThrew t)
  | .ok none => .ok none
  | .ok (some (answer, gen')) => .ok (some (answer, some ⟨gen'⟩))

/-- `FriendlyExceptions.update`. -/
def FriendlyExceptions.update (this : FriendlyExceptions γ) (ctx : Context)
    (event : Op V) : Except Thrown (Option (FriendlyExceptions γ)) :=
  match Generator.update this.gen ctx event with
  | .error t => .error (.updateThrew t)
  | .ok none => .ok none
  | .ok (some gen') => .ok (some ⟨some gen'⟩)

instance : Protocol (FriendlyExceptions γ) V where
  op := FriendlyExceptions.op
  update := FriendlyExceptions.update

namespace FriendlyExceptions

variable {oracle : Oracle} {this : FriendlyExceptions γ} {ctx : Context}

theorem op_eq_some {answer : Answer V} {next : Option (FriendlyExceptions γ)}
    (hop : Generator.op oracle (some this) ctx = .ok (some (answer, next))) :
    ∃ gen', Generator.op oracle this.gen ctx = .ok (some (answer, gen')) ∧
      next = some ⟨gen'⟩ := by
  change FriendlyExceptions.op oracle this ctx = _ at hop
  unfold FriendlyExceptions.op at hop
  split at hop
  · cases hop
  · cases hop
  · rename_i answer gen' hgen
    cases hop
    exact ⟨gen', hgen, rfl⟩

theorem op_eq_none (hop : Generator.op oracle (some this) ctx = .ok none) :
    Generator.op oracle this.gen ctx = .ok none := by
  change FriendlyExceptions.op oracle this ctx = _ at hop
  unfold FriendlyExceptions.op at hop
  split at hop
  · cases hop
  · assumption
  · cases hop

theorem update_eq_ok {event : Op V} {next : Option (FriendlyExceptions γ)}
    (hupdate : Generator.update (some this) ctx event = .ok next) :
    ∃ gen', Generator.update this.gen ctx event = .ok gen' ∧
      next = gen'.map fun g => ⟨some g⟩ := by
  change FriendlyExceptions.update this ctx event = _ at hupdate
  unfold FriendlyExceptions.update at hupdate
  split at hupdate
  · cases hupdate
  · rename_i hgen
    cases hupdate
    exact ⟨none, hgen, rfl⟩
  · rename_i gen' hgen
    cases hupdate
    exact ⟨some gen', hgen, rfl⟩

end FriendlyExceptions

/-- `friendly-exceptions`. -/
def friendlyExceptions (gen : Option γ) : Option (FriendlyExceptions γ) :=
  gen.map fun g => ⟨some g⟩

/-- `pr-str` of a process. -/
def Name.prStr : Name → String
  | .int i => toString i
  | .keyword k => ":" ++ k

/-- The problems `Validate` finds with an operation. That it is an `Op` with a
numeric `:time` and a `:process` is its type here. -/
def Validate.problems (ctx : Context) (o : Op V) : List String :=
  (if o.type ∈ [OpType.invoke, .info, .sleep, .log] then []
    else [":type should be :invoke, :info, :sleep, or :log"]) ++
  (if ctx.threadFree (ctx.processToThread o.process) then []
    else ["process " ++ o.process.prStr ++ " is not free"])

/-- `Validate.op`. -/
def Validate.op (oracle : Oracle) (this : Validate γ) (ctx : Context) :
    Except Thrown (Option (Answer V × Option (Validate γ))) :=
  match Generator.op oracle this.gen ctx with
  | .error t => .error t
  | .ok none => .ok none
  | .ok (some (.pending, gen')) => .ok (some (.pending, some ⟨gen'⟩))
  | .ok (some (.op o, gen')) =>
      if Validate.problems ctx o = [] then .ok (some (.op o, some ⟨gen'⟩))
      else .error (.invalidOp (Validate.problems ctx o))

/-- `Validate.update`. -/
def Validate.update (this : Validate γ) (ctx : Context) (event : Op V) :
    Except Thrown (Option (Validate γ)) :=
  match Generator.update this.gen ctx event with
  | .error t => .error t
  | .ok gen' => .ok (some ⟨gen'⟩)

instance : Protocol (Validate γ) V where
  op := Validate.op
  update := Validate.update

namespace Validate

variable {oracle : Oracle} {this : Validate γ} {ctx : Context}

/-- An operation that is let through is the generator's own, and has no problems. -/
theorem op_eq_op {o : Op V} {next : Option (Validate γ)}
    (hop : Generator.op oracle (some this) ctx = .ok (some (.op o, next))) :
    ∃ gen', Generator.op oracle this.gen ctx = .ok (some (.op o, gen')) ∧
      next = some ⟨gen'⟩ ∧ problems ctx o = [] := by
  change Validate.op oracle this ctx = _ at hop
  unfold Validate.op at hop
  split at hop
  · cases hop
  · cases hop
  · cases hop
  · rename_i o' gen' hgen
    split at hop
    · rename_i hproblems
      cases hop
      exact ⟨gen', hgen, rfl, hproblems⟩
    · cases hop

theorem op_eq_none (hop : Generator.op oracle (some this) ctx = .ok none) :
    Generator.op oracle this.gen ctx = .ok none := by
  change Validate.op oracle this ctx = _ at hop
  unfold Validate.op at hop
  split at hop
  · cases hop
  · assumption
  · cases hop
  · split at hop <;> cases hop

theorem update_eq_ok {event : Op V} {next : Option (Validate γ)}
    (hupdate : Generator.update (some this) ctx event = .ok next) :
    ∃ gen', Generator.update this.gen ctx event = .ok gen' ∧ next = some ⟨gen'⟩ := by
  change Validate.update this ctx event = _ at hupdate
  unfold Validate.update at hupdate
  split at hupdate
  · cases hupdate
  · rename_i gen' hgen
    cases hupdate
    exact ⟨gen', hgen, rfl⟩

end Validate

/-- `validate`. -/
def validate (gen : Option γ) : Option (Validate γ) :=
  gen.map fun g => ⟨some g⟩

/-- An operation that passes has one of the four types a worker can carry out. -/
theorem type_of_problems_eq_nil {ctx : Context} {o : Op V}
    (hproblems : Validate.problems ctx o = []) :
    o.type = .invoke ∨ o.type = .info ∨ o.type = .sleep ∨ o.type = .log := by
  have htype := (List.append_eq_nil_iff.mp hproblems).1
  by_contra hnot
  rw [if_neg (by simpa using hnot)] at htype
  cases htype

end Jepsen.Generator
