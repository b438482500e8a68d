/-
# The total queue checker

What goes in must come out. `total-queue` expands each drain into dequeues, collects
the values that were attempted, acknowledged and dequeued into multisets, and
compares them. Whether a dequeued value was ever attempted is asked of a set used as
a function, which answers with the value itself.
-/

import Jepsen.History.Op

namespace Jepsen.Checker.TotalQueue

open Jepsen.History
open Jepsen.Generator (Name)

universe u

/-- A value, as far as a condition tells it apart: nil and false are falsey. -/
inductive Val (A : Type u)
  | nil
  | false
  | truthy (value : A)
  deriving DecidableEq

/-- Whether a condition takes the value for true. -/
def Val.isTruthy {A : Type u} : Val A → Bool
  | .nil | .false => Bool.false
  | .truthy _ => Bool.true

/-- `:f` and `:value` of an operation. -/
inductive QueueCall (A : Type u)
  | enqueue (value : Val A)
  | dequeue (value : Val A)
  | drain (values : List (Val A))
  | other (f : String)
  deriving DecidableEq

/-- An operation of a queue test. -/
structure QueueOp (A : Type u) where
  index : ℤ
  process : Name
  type : OpType
  call : QueueCall A
  deriving DecidableEq

/-- "Not sure how to handle a crashed drain operation" -/
structure CrashedDrain (A : Type u) where
  op : QueueOp A

variable {A : Type u}

/-- One operation under `expand-queue-drain-ops`: the dequeues of a successful drain. -/
def expand (op : QueueOp A) : Except (CrashedDrain A) (List (QueueOp A)) :=
  match op.call with
  | .drain values =>
    match op.type with
    | .invoke | .fail => .ok []
    | .ok => .ok (values.flatMap fun element =>
        [{ op with index := -1, type := .invoke, call := .dequeue .nil },
         { op with index := -1, type := .ok, call := .dequeue element }])
    | _ => .error ⟨op⟩
  | _ => .ok [op]

/-- `expand-queue-drain-ops`, over a whole history. -/
def expandQueueDrainOps : List (QueueOp A) → Except (CrashedDrain A) (List (QueueOp A))
  | [] => .ok []
  | op :: history =>
    match expand op, expandQueueDrainOps history with
    | .error t, _ => .error t
    | .ok _, .error t => .error t
    | .ok ops, .ok rest => .ok (ops ++ rest)

/-- The values of the enqueues of a type. -/
def enqueuesOf (type : OpType) (ops : List (QueueOp A)) : Multiset (Val A) :=
  ops.filterMap fun op =>
    match op.call with
    | .enqueue value => if op.type = type then some value else none
    | _ => none

/-- The values of the successful dequeues. -/
def okDequeues (ops : List (QueueOp A)) : Multiset (Val A) :=
  ops.filterMap fun op =>
    match op.call with
    | .dequeue value => if op.type = .ok then some value else none
    | _ => none

/-- The multisets the checker compares. -/
structure Tally (A : Type u) where
  attempts : Multiset (Val A)
  enqueues : Multiset (Val A)
  dequeues : Multiset (Val A)

/-- The fused folds of `total-queue`. -/
def tally (history : List (QueueOp A)) : Except (CrashedDrain A) (Tally A) :=
  match expandQueueDrainOps history with
  | .error t => .error t
  | .ok ops => .ok
      { attempts := enqueuesOf .invoke ops
        enqueues := enqueuesOf .ok ops
        dequeues := okDequeues ops }

namespace Tally

variable [DecidableEq A] (t : Tally A)

/-- The OK set is every dequeue which we attempted. -/
def ok : Multiset (Val A) := t.dequeues ∩ t.attempts

/-- The dequeues less those `(set (keys (multiplicities attempts)))` maps to something
true. -/
def unexpected : Multiset (Val A) :=
  t.dequeues.filter fun v => ¬ (v ∈ t.attempts ∧ v.isTruthy = true)

/-- Dequeued more times than attempted, but attempted at least once. -/
def duplicated : Multiset (Val A) := t.dequeues - t.attempts - t.unexpected

/-- Definitely enqueued, but never came out. -/
def lost : Multiset (Val A) := t.enqueues - t.dequeues

/-- Dequeues of enqueues that may or may not have succeeded. -/
def recovered : Multiset (Val A) := t.ok - t.enqueues

end Tally

/-- The map the checker returns. -/
structure Result (A : Type u) where
  valid : Bool
  attemptCount : ℕ
  acknowledgedCount : ℕ
  okCount : ℕ
  unexpectedCount : ℕ
  duplicatedCount : ℕ
  lostCount : ℕ
  recoveredCount : ℕ
  lost : Multiset (Val A)
  unexpected : Multiset (Val A)
  duplicated : Multiset (Val A)
  recovered : Multiset (Val A)

variable [DecidableEq A]

/-- The result of the comparisons. -/
def Tally.result (t : Tally A) : Result A where
  valid := decide (t.lost = 0) && decide (t.unexpected = 0)
  attemptCount := t.attempts.card
  acknowledgedCount := t.enqueues.card
  okCount := t.ok.card
  unexpectedCount := t.unexpected.card
  duplicatedCount := t.duplicated.card
  lostCount := t.lost.card
  recoveredCount := t.recovered.card
  lost := t.lost
  unexpected := t.unexpected
  duplicated := t.duplicated
  recovered := t.recovered

/-- `total-queue` -/
def totalQueue (history : List (QueueOp A)) : Except (CrashedDrain A) (Result A) :=
  (tally history).map Tally.result

/-! ## What the folds collect -/

/-- What an operation dequeues, by itself or as a drain. -/
def QueueOp.dequeued (op : QueueOp A) : List (Val A) :=
  if op.type = .ok then
    match op.call with
    | .dequeue value => [value]
    | .drain values => values
    | _ => []
  else []

/-- What an operation of the given type enqueues. -/
def QueueOp.enqueued (type : OpType) (op : QueueOp A) : List (Val A) :=
  if op.type = type then
    match op.call with
    | .enqueue value => [value]
    | _ => []
  else []

/-- The drain, if the operation is one, is an invocation or completed ok or failed. -/
def QueueOp.DrainCompletes (op : QueueOp A) : Prop :=
  ∀ values, op.call = .drain values → op.type = .invoke ∨ op.type = .ok ∨ op.type = .fail

omit [DecidableEq A] in
theorem enqueuesOf_append (type : OpType) (ops ops' : List (QueueOp A)) :
    enqueuesOf type (ops ++ ops') = enqueuesOf type ops + enqueuesOf type ops' := by
  rw [enqueuesOf, List.filterMap_append, ← Multiset.coe_add]
  rfl

omit [DecidableEq A] in
theorem okDequeues_append (ops ops' : List (QueueOp A)) :
    okDequeues (ops ++ ops') = okDequeues ops + okDequeues ops' := by
  rw [okDequeues, List.filterMap_append, ← Multiset.coe_add]
  rfl

omit [DecidableEq A] in
/-- A drain expands to dequeues of what it drained, and to no enqueue. -/
theorem collect_drained (op : QueueOp A) (values : List (Val A)) :
    let ops := values.flatMap fun element =>
      [{ op with index := -1, type := .invoke, call := .dequeue .nil },
       { op with index := -1, type := .ok, call := .dequeue element }]
    okDequeues ops = values ∧ ∀ type, enqueuesOf type ops = 0 := by
  induction values with
  | nil => exact ⟨rfl, fun _ => rfl⟩
  | cons v values ih =>
    obtain ⟨hdequeues, henqueues⟩ := ih
    constructor
    · rw [List.flatMap_cons, okDequeues_append, hdequeues]
      rfl
    · intro type
      rw [List.flatMap_cons, enqueuesOf_append, henqueues type]
      rfl

omit [DecidableEq A] in
/-- What the expansion of an operation adds to each multiset. -/
theorem collect_expand {op : QueueOp A} {ops : List (QueueOp A)} (hexpand : expand op = .ok ops) :
    okDequeues ops = op.dequeued ∧ ∀ type, enqueuesOf type ops = op.enqueued type := by
  unfold expand at hexpand
  unfold QueueOp.dequeued QueueOp.enqueued
  cases hcall : op.call with
  | drain values =>
    rw [hcall] at hexpand
    cases htype : op.type with
    | ok =>
      rw [htype] at hexpand
      obtain ⟨hdequeues, henqueues⟩ := collect_drained op values
      rw [← Except.ok.inj hexpand]
      refine ⟨hdequeues, fun type => (henqueues type).trans ?_⟩
      split <;> rfl
    | invoke =>
      rw [htype] at hexpand
      rw [← Except.ok.inj hexpand]
      refine ⟨rfl, fun type => ?_⟩
      split <;> rfl
    | fail =>
      rw [htype] at hexpand
      rw [← Except.ok.inj hexpand]
      refine ⟨rfl, fun type => ?_⟩
      split <;> rfl
    | _ =>
      rw [htype] at hexpand
      cases hexpand
  | enqueue value =>
    rw [hcall] at hexpand
    rw [← Except.ok.inj hexpand]
    constructor
    · simp [okDequeues, hcall]
    · intro type
      by_cases htype : op.type = type <;> simp [enqueuesOf, hcall, htype]
  | dequeue value =>
    rw [hcall] at hexpand
    rw [← Except.ok.inj hexpand]
    constructor
    · by_cases htype : op.type = .ok <;> simp [okDequeues, hcall, htype]
    · intro type
      simp [enqueuesOf, hcall]
  | other f =>
    rw [hcall] at hexpand
    rw [← Except.ok.inj hexpand]
    exact ⟨by simp [okDequeues, hcall], fun type => by simp [enqueuesOf, hcall]⟩

omit [DecidableEq A] in
/-- If no drain crashes, the folds collect what the operations of the history enqueue and
dequeue. -/
theorem tally_eq {history : List (QueueOp A)} (hdrains : ∀ op ∈ history, op.DrainCompletes) :
    tally history = .ok
      { attempts := history.flatMap (QueueOp.enqueued .invoke)
        enqueues := history.flatMap (QueueOp.enqueued .ok)
        dequeues := history.flatMap QueueOp.dequeued } := by
  have hops : ∃ ops, expandQueueDrainOps history = .ok ops ∧
      okDequeues ops = history.flatMap QueueOp.dequeued ∧
      ∀ type, enqueuesOf type ops = history.flatMap (QueueOp.enqueued type) := by
    induction history with
    | nil => exact ⟨[], rfl, rfl, fun _ => rfl⟩
    | cons op history ih =>
      obtain ⟨rest, hrest, hdequeues, henqueues⟩ :=
        ih fun op' hop' => hdrains op' (List.mem_cons_of_mem _ hop')
      have hexpand : ∃ ops, expand op = .ok ops := by
        unfold expand
        cases hcall : op.call with
        | drain values =>
          rcases hdrains op List.mem_cons_self values hcall with htype | htype | htype <;>
            rw [htype] <;> exact ⟨_, rfl⟩
        | _ => exact ⟨_, rfl⟩
      obtain ⟨ops, hops⟩ := hexpand
      obtain ⟨hdequeued, henqueued⟩ := collect_expand hops
      refine ⟨ops ++ rest, by rw [expandQueueDrainOps, hops, hrest], ?_, fun type => ?_⟩
      · rw [okDequeues_append, hdequeued, hdequeues, List.flatMap_cons, Multiset.coe_add]
      · rw [enqueuesOf_append, henqueued, henqueues, List.flatMap_cons, Multiset.coe_add]
  obtain ⟨ops, hops, hdequeues, henqueues⟩ := hops
  rw [tally, hops, ← hdequeues, ← henqueues, ← henqueues]

/-! ## The partition of the dequeues -/

namespace Tally

variable (t : Tally A)

theorem count_ok (v : Val A) : t.ok.count v = min (t.dequeues.count v) (t.attempts.count v) :=
  Multiset.count_inter _ _ _

theorem count_lost (v : Val A) : t.lost.count v = t.enqueues.count v - t.dequeues.count v :=
  Multiset.count_sub _ _ _

theorem count_unexpected (v : Val A) :
    t.unexpected.count v = if v ∈ t.attempts ∧ v.isTruthy = true then 0 else t.dequeues.count v := by
  rw [unexpected, Multiset.count_filter]
  split_ifs <;> rfl

/-- For one value, the three multisets add up to its dequeues unless it is falsey and
was attempted. -/
theorem count_partition_iff (v : Val A) :
    t.dequeues.count v = (t.ok + t.duplicated + t.unexpected).count v ↔
      (v ∈ t.dequeues → v ∈ t.attempts → v.isTruthy = true) := by
  have hattempts : v ∈ t.attempts ↔ 0 < t.attempts.count v := Multiset.count_pos.symm
  have hdequeues : v ∈ t.dequeues ↔ 0 < t.dequeues.count v := Multiset.count_pos.symm
  rw [Multiset.count_add, Multiset.count_add, count_ok, duplicated, Multiset.count_sub,
    Multiset.count_sub, count_unexpected, hdequeues]
  split_ifs with hexpected
  · exact iff_of_true (by omega) fun _ _ => hexpected.2
  · constructor
    · intro hsum hdequeued hattempted
      rw [hattempts] at hattempted
      omega
    · intro htruthy
      by_cases hattempted : v ∈ t.attempts
      · have hnot : ¬ 0 < t.dequeues.count v :=
          fun hdequeued => hexpected ⟨hattempted, htruthy hdequeued hattempted⟩
        omega
      · rw [hattempts] at hattempted
        omega

/-- The multisets partition the dequeues if no value that is nil or false was both
attempted and dequeued. -/
theorem partition_iff :
    t.dequeues = t.ok + t.duplicated + t.unexpected ↔
      ∀ v ∈ t.dequeues, v ∈ t.attempts → v.isTruthy = true := by
  rw [Multiset.ext]
  exact forall_congr' t.count_partition_iff

/-- The verdict, if the multisets partition the dequeues. -/
theorem result_valid_iff (htruthy : ∀ v ∈ t.dequeues, v ∈ t.attempts → v.isTruthy = true) :
    t.result.valid = true ↔
      (∀ v, t.enqueues.count v ≤ t.dequeues.count v) ∧ ∀ v ∈ t.dequeues, v ∈ t.attempts := by
  have hlost : t.lost = 0 ↔ ∀ v, t.enqueues.count v ≤ t.dequeues.count v := by
    rw [lost, tsub_eq_zero_iff_le, Multiset.le_iff_count]
  have hunexpected : t.unexpected = 0 ↔ ∀ v ∈ t.dequeues, v ∈ t.attempts := by
    rw [unexpected, Multiset.filter_eq_nil]
    refine forall₂_congr fun v hv => ?_
    rw [not_not]
    exact ⟨fun h => h.1, fun h => ⟨h, htruthy v hv h⟩⟩
  rw [result, Bool.and_eq_true, decide_eq_true_iff, decide_eq_true_iff, hlost, hunexpected]

end Tally

/-- What the checker says is right about the multisets of a history: the dequeues are
the sum of the ok, duplicated and unexpected values, the losses are the acknowledged
enqueues beyond the dequeues, and the verdict says whether there is neither loss nor
a value from nowhere. -/
structure Exact (history : List (QueueOp A)) (t : Tally A) : Prop where
  dequeues : t.ok + t.duplicated + t.unexpected = (history.flatMap QueueOp.dequeued : List (Val A))
  ok : ∀ v, t.ok.count v = min ((history.flatMap QueueOp.dequeued).count v)
    ((history.flatMap (QueueOp.enqueued .invoke)).count v)
  lost : ∀ v, t.lost.count v =
    (history.flatMap (QueueOp.enqueued .ok)).count v - (history.flatMap QueueOp.dequeued).count v
  valid : t.result.valid = true ↔
    (∀ v, (history.flatMap (QueueOp.enqueued .ok)).count v ≤
      (history.flatMap QueueOp.dequeued).count v) ∧
    ∀ v ∈ history.flatMap QueueOp.dequeued, v ∈ history.flatMap (QueueOp.enqueued .invoke)

/-- The checker is exact on a history whose drains complete if and only if no value that
is nil or false was both attempted and dequeued. -/
theorem totalQueue_exact_iff {history : List (QueueOp A)}
    (hdrains : ∀ op ∈ history, op.DrainCompletes) :
    ∃ t : Tally A, tally history = .ok t ∧ totalQueue history = .ok t.result ∧
      (Exact history t ↔
        ∀ v ∈ history.flatMap QueueOp.dequeued,
          v ∈ history.flatMap (QueueOp.enqueued .invoke) → v.isTruthy = true) := by
  have htally := tally_eq hdrains
  refine ⟨_, htally, by rw [totalQueue, htally]; rfl, ?_⟩
  generalize ht : (Tally.mk _ _ _ : Tally A) = t
  have hattempts : t.attempts = history.flatMap (QueueOp.enqueued .invoke) := by rw [← ht]
  have henqueues : t.enqueues = history.flatMap (QueueOp.enqueued .ok) := by rw [← ht]
  have hdequeues : t.dequeues = history.flatMap QueueOp.dequeued := by rw [← ht]
  have hpartition := t.partition_iff
  rw [hattempts, hdequeues] at hpartition
  constructor
  · intro hexact
    exact hpartition.mp hexact.dequeues.symm
  · intro htruthy
    constructor
    · exact (hpartition.mpr htruthy).symm
    · intro v
      rw [t.count_ok, hattempts, hdequeues, Multiset.coe_count, Multiset.coe_count]
    · intro v
      rw [t.count_lost, henqueues, hdequeues, Multiset.coe_count, Multiset.coe_count]
    · have hvalid := t.result_valid_iff (by rw [hattempts, hdequeues]; exact htruthy)
      rw [hattempts, henqueues, hdequeues] at hvalid
      simpa only [Multiset.coe_count, Multiset.mem_coe] using hvalid

/-- One process enqueues false, and another dequeues it. -/
def falseQueue : List (QueueOp ℕ) :=
  [{ index := 0, process := .int 0, type := .invoke, call := .enqueue .false },
   { index := 1, process := .int 0, type := .ok, call := .enqueue .false },
   { index := 2, process := .int 1, type := .invoke, call := .dequeue .nil },
   { index := 3, process := .int 1, type := .ok, call := .dequeue .false }]

/-- A false that was enqueued and dequeued once is both ok and unexpected. -/
theorem not_exact_falseQueue : ¬ ∀ t, tally falseQueue = .ok t → Exact falseQueue t := by
  intro hexact
  have hsum := congrArg Multiset.card (hexact _ rfl).dequeues
  exact absurd hsum (by decide)

/-- The checker is exact on a queue that a drain empties. -/
theorem totalQueue_exact_drain : ∃ t : Tally ℕ,
    tally [{ index := 0, process := .int 0, type := .invoke, call := .enqueue (.truthy 7) },
      { index := 1, process := .int 0, type := .ok, call := .drain [.truthy 7] }] = .ok t ∧
    totalQueue [{ index := 0, process := .int 0, type := .invoke, call := .enqueue (.truthy 7) },
      { index := 1, process := .int 0, type := .ok, call := .drain [.truthy 7] }] = .ok t.result ∧
    (Exact [{ index := 0, process := .int 0, type := .invoke, call := .enqueue (.truthy 7) },
      { index := 1, process := .int 0, type := .ok, call := .drain [.truthy 7] }] t ↔
      ∀ v ∈ [Val.truthy 7], v ∈ [Val.truthy 7] → v.isTruthy = true) :=
  totalQueue_exact_iff (by
    intro op hop values hcall
    rcases List.mem_cons.mp hop with rfl | hop
    · cases hcall
    · rw [List.mem_singleton.mp hop]
      exact Or.inr (Or.inl rfl))

end Jepsen.Checker.TotalQueue
