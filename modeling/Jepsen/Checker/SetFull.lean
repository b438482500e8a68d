/-
# The set-full checker

`set-full` follows every element of a set through a history. An element is
tracked from the invocation of its `:add`; each completed read then moves its
last-present or its last-absent invocation forward, and the first operation that
proves it exists is remembered. The outcome of an element is decided by these
three operations alone.
-/

import Jepsen.Checker.Valid
import Jepsen.History.Op
import Jepsen.Library.Assoc

namespace Jepsen.Checker

open Jepsen.History Jepsen.Library
open Jepsen.Generator (Name)

universe u

/-- What a checker may throw. -/
inductive Thrown
  | nullPointer
  | noMatchingClause
  deriving DecidableEq

/-- `:f` and `:value` of an operation. -/
inductive SetCall (α : Type u)
  | add (value : α)
  /-- A read that has returned nothing yet has the empty collection. -/
  | read (value : List α)
  | other (f : String)
  deriving DecidableEq

/-- An operation of a set test. -/
structure SetOp (α : Type u) where
  index : ℕ
  time : ℤ
  process : Name
  type : OpType
  call : SetCall α
  deriving DecidableEq

/-- `h/client-ops` -/
def clientOps {α : Type u} (history : List (SetOp α)) : List (SetOp α) :=
  history.filter fun op => op.process.isInteger

/-- `(h/invocation history op)`: the invocation that the process made last. -/
def invocation {α : Type u} (history : List (SetOp α)) (op : SetOp α) : Option (SetOp α) :=
  ((history.take op.index).reverse.find? fun o => decide (o.process = op.process)).filter
    fun o => decide (o.type = .invoke)

/-! ## Elements -/

/-- `(defrecord SetFullElement [element known last-present last-absent])` -/
structure SetFullElement (α : Type u) where
  element : α
  /-- The first operation that proves the element exists. -/
  known : Option (SetOp α) := none
  /-- The latest invocation of a read that saw the element. -/
  lastPresent : Option (SetOp α) := none
  /-- The latest invocation of a read that did not. -/
  lastAbsent : Option (SetOp α) := none

/-- The later of two invocations; either may be `nil`, but a `nil` has no index. -/
def laterInvocation {α : Type u} :
    Option (SetOp α) → Option (SetOp α) → Except Thrown (Option (SetOp α))
  | none, iop => .ok iop
  | some _, none => .error .nullPointer
  | some last, some iop => .ok (some (if last.index < iop.index then iop else last))

namespace SetFullElement

variable {α : Type u}

/-- `set-full-add` -/
def setFullAdd (this : SetFullElement α) (op : SetOp α) : SetFullElement α :=
  match op.type with
  | .ok => { this with known := this.known.or (some op) }
  | _ => this

/-- `set-full-read-present` -/
def setFullReadPresent (this : SetFullElement α) (iop : Option (SetOp α)) (op : SetOp α) :
    Except Thrown (SetFullElement α) :=
  match laterInvocation this.lastPresent iop with
  | .error t => .error t
  | .ok lastPresent =>
      .ok { this with known := this.known.or (some op), lastPresent := lastPresent }

/-- `set-full-read-absent` -/
def setFullReadAbsent (this : SetFullElement α) (iop : Option (SetOp α)) (_op : SetOp α) :
    Except Thrown (SetFullElement α) :=
  match laterInvocation this.lastAbsent iop with
  | .error t => .error t
  | .ok lastAbsent => .ok { this with lastAbsent := lastAbsent }

end SetFullElement

/-- `set-full-element` -/
def setFullElement {α : Type u} (value : α) : SetFullElement α := { element := value }

/-! ## Results of one element -/

inductive Outcome
  | stable | lost | neverRead
  deriving DecidableEq

/-- The map `set-full-element-results` returns. -/
structure ElementResult (α : Type u) where
  element : α
  outcome : Outcome
  stableLatency : Option ℤ
  lostLatency : Option ℤ
  known : Option (SetOp α)
  lastAbsent : Option (SetOp α)

/-- `(:index op -1)` -/
def indexOr {α : Type u} : Option (SetOp α) → ℤ
  | none => -1
  | some op => op.index

namespace SetFullElement

variable {α : Type u}

def isStable (e : SetFullElement α) : Bool :=
  e.lastPresent.isSome && decide (indexOr e.lastAbsent < indexOr e.lastPresent)

/-- An element has to be known for its absence to mean anything, and the read
that missed it must have started after it was known. -/
def isLost (e : SetFullElement α) : Bool :=
  e.known.isSome && e.lastAbsent.isSome &&
    decide (indexOr e.lastPresent < indexOr e.lastAbsent) &&
    decide (indexOr e.known < indexOr e.lastAbsent)

/-- Milliseconds from the known time to the time after `last`, or 0. -/
def latency (known last : Option (SetOp α)) : Except Thrown ℤ :=
  match known with
  | none => .error .nullPointer
  | some known =>
      let time : ℤ := match last with
        | none => 0
        | some last => last.time + 1
      .ok (max (time - known.time) 0 / 1000000)

/-- The latency, if there is one to compute. -/
def latencyWhen (outcome : Bool) (known last : Option (SetOp α)) :
    Except Thrown (Option ℤ) :=
  if outcome then (latency known last).map some else .ok none

/-- `set-full-element-results` -/
def setFullElementResults (e : SetFullElement α) : Except Thrown (ElementResult α) :=
  match latencyWhen e.isStable e.known e.lastAbsent with
  | .error t => .error t
  | .ok stableLatency =>
      match latencyWhen e.isLost e.known e.lastPresent with
      | .error t => .error t
      | .ok lostLatency => .ok
          { element := e.element
            outcome := if e.isStable then .stable else if e.isLost then .lost else .neverRead
            stableLatency := stableLatency
            lostLatency := lostLatency
            known := e.known
            lastAbsent := e.lastAbsent }

end SetFullElement

/-! ## Aggregate results -/

/-- `frequency-distribution` -/
def frequencyDistribution (points : List ℚ) (c : List ℤ) : Option (List (ℚ × ℤ)) :=
  let sorted := c.insertionSort (· ≤ ·)
  match sorted with
  | [] => none
  | _ :: _ => some (points.filterMap fun point =>
      sorted[min (sorted.length - 1) ⌊sorted.length * point⌋.toNat]?.map fun x => (point, x))

/-- The map `set-full-results` returns. -/
structure SetFullResults (α : Type u) where
  valid : Valid
  attemptCount : ℕ
  stableCount : ℕ
  lostCount : ℕ
  lost : List α
  neverReadCount : ℕ
  neverRead : List α
  staleCount : ℕ
  stale : List α
  worstStale : List (ElementResult α)
  stableLatencies : Option (List (ℚ × ℤ))
  lostLatencies : Option (List (ℚ × ℤ))

variable {α : Type u} [LinearOrder α]

/-- The aggregation of `set-full-results`. -/
def aggregate (linearizable : Bool) (rs : List (ElementResult α)) : SetFullResults α :=
  let having := fun outcome => rs.filter fun r => decide (r.outcome = outcome)
  let stale := (having .stable).filter fun r => decide (0 < r.stableLatency.getD 0)
  let sorted := fun (l : List (ElementResult α)) =>
    (l.map ElementResult.element).insertionSort (· ≤ ·)
  let points : List ℚ := [0, 1 / 2, 95 / 100, 99 / 100, 1]
  { valid :=
      if 0 < (having .lost).length then .false
      else if (having .stable).length = 0 then .unknown
      else if linearizable ∧ 0 < stale.length then .false
      else .true
    attemptCount := rs.length
    stableCount := (having .stable).length
    lostCount := (having .lost).length
    lost := sorted (having .lost)
    neverReadCount := (having .neverRead).length
    neverRead := sorted (having .neverRead)
    staleCount := stale.length
    stale := sorted stale
    worstStale := ((stale.insertionSort fun a b =>
      a.stableLatency.getD 0 ≤ b.stableLatency.getD 0).reverse).take 8
    stableLatencies := frequencyDistribution points (rs.filterMap ElementResult.stableLatency)
    lostLatencies := frequencyDistribution points (rs.filterMap ElementResult.lostLatency) }

/-- `set-full-results` -/
def setFullResults (linearizable : Bool) (elements : List (SetFullElement α)) :
    Except Thrown (SetFullResults α) :=
  (elements.mapM SetFullElement.setFullElementResults).map (aggregate linearizable)

/-! ## The checker -/

/-- `dups'` before it is merged with `dups`. -/
def duplicatesIn (v : List α) : Assoc α ℕ :=
  (Assoc.frequencies v).entries.foldl
    (fun m e => if e.2 < 1 then m.insert e.1 e.2 else m) ∅

/-- Process the visibility of one element in a read. -/
def updateElement (inv : Option (SetOp α)) (op : SetOp α) (v : List α) (element : α)
    (state : SetFullElement α) : Except Thrown (SetFullElement α) :=
  if element ∈ v then state.setFullReadPresent inv op else state.setFullReadAbsent inv op

/-- The elements tracked so far, and their multiplicities. -/
abbrev Tracking (α : Type u) : Type u := Assoc α (SetFullElement α) × Assoc α ℕ

/-- `red` -/
def red (history : List (SetOp α)) (acc : Tracking α) (op : SetOp α) :
    Except Thrown (Tracking α) :=
  match op.call with
  | .add v =>
      match op.type with
      -- Track a new element.
      | .invoke => .ok (acc.1.insert v (setFullElement v), acc.2)
      -- Oh good, it completed.
      | _ =>
          match acc.1.lookup v with
          | none => .error .nullPointer
          | some state => .ok (acc.1.insert v (state.setFullAdd op), acc.2)
  | .read v =>
      match op.type with
      | .ok =>
          let inv := invocation history op
          let dups' := Assoc.mergeWith max acc.2 (duplicatesIn v)
          match Assoc.traverse (updateElement inv op v) acc.1 with
          | .error t => .error t
          | .ok elements => .ok (elements, dups')
      | _ => .ok acc
  | .other _ => .error .noMatchingClause

/-- The elements and the duplicates of a history. -/
def track (history : List (SetOp α)) : Except Thrown (Tracking α) :=
  (clientOps history).foldlM (red history) (∅, ∅)

/-- The result of `set-full`. -/
structure Checked (α : Type u) extends SetFullResults α where
  duplicatedCount : ℕ
  duplicated : Assoc α ℕ

/-- `(mapv val (sort elements))` -/
def sortedElements (elements : Assoc α (SetFullElement α)) : List (SetFullElement α) :=
  (elements.entries.insertionSort fun a b => a.1 ≤ b.1).map Sigma.snd

/-- `set-full` -/
def setFull (linearizable : Bool) (history : List (SetOp α)) : Except Thrown (Checked α) :=
  match track history with
  | .error t => .error t
  | .ok (elements, dups) =>
      match setFullResults linearizable (sortedElements elements) with
      | .error t => .error t
      | .ok setResults => .ok
          { setResults with
            valid := if dups.entries = [] then setResults.valid else .false
            duplicatedCount := dups.entries.length
            duplicated := dups }

end Jepsen.Checker
