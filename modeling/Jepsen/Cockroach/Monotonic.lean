/-
# The monotonic checker

Clients add rows with ever larger values and system timestamps; a final read returns
them in timestamp order. `check-monotonic` looks for lost, duplicated and revived
values and for rows out of order: over all rows, by node, by table and, under the key
`:proc`, by process. The rows carry their process under the key `:process`.
-/

import Jepsen.History.Op
import Jepsen.Library.Multimap

namespace Jepsen.Cockroach

open Jepsen.History Jepsen.Library
open Jepsen.Generator (Name)

universe u

/-- A row, as the client inserts it and as `parse-row` returns it. -/
structure Row where
  val : ℤ
  sts : ℤ
  node : ℤ
  process : ℤ
  tb : ℤ
  deriving DecidableEq

/-- `(:proc row)`; no row has this key. -/
def Row.proc (_row : Row) : Option ℤ := none

/-- `:f` and `:value` of an operation. An add has a row once it inserted one. -/
inductive MonotonicCall
  | add (row : Option Row)
  | read (rows : Option (List Row))
  | other (f : String)
  deriving DecidableEq

/-- An operation of a monotonic test. -/
structure MonotonicOp where
  index : ℕ
  process : Name
  type : OpType
  call : MonotonicCall
  deriving DecidableEq

/-- The pairs of successive elements `[x x']` where `(compare (f x) (f x'))` does not
hold. -/
def nonMonotonic (compare : ℤ → ℤ → Bool) (f : Row → ℤ) (xs : List Row) : List (Row × Row) :=
  (xs.zip xs.tail).filter fun p => !compare (f p.1) (f p.2)

/-- Like `nonMonotonic`, but breaks up the rows by `f`. -/
def nonMonotonicBy {K : Type u} [DecidableEq K] (f : Row → K) (comparator : ℤ → ℤ → Bool)
    (field : Row → ℤ) (coll : List Row) : Assoc K (List (Row × Row)) :=
  (Assoc.groupBy f coll).mapVals fun _ subColl => nonMonotonic comparator field subColl

/-- The `:value` of the adds of a type. -/
def addValues (type : OpType) (history : List MonotonicOp) : List (Option Row) :=
  history.filterMap fun op =>
    match op.call with
    | .add row => if op.type = type then some row else none
    | _ => none

/-- The `:value` of the last ok read. -/
def finalReadValues (history : List MonotonicOp) : Option (List Row) :=
  (history.filterMap fun op =>
    match op.call with
    | .read rows => if op.type = .ok then some rows else none
    | _ => none).getLast?.join

/-- `(set (map :val rows))` -/
def valsOf (rows : List (Option Row)) : Finset (Option ℤ) :=
  (rows.map fun row => row.map Row.val).toFinset

/-- `util/fraction` -/
def fraction (a b : ℕ) : ℚ := if b = 0 then 1 else a / b

/-- The map the checker returns for a set that was read. -/
structure Checked where
  valid : Bool
  revived : Finset (Option ℤ)
  revivedFrac : ℚ
  recovered : Finset (Option ℤ)
  recoveredFrac : ℚ
  lost : Finset (Option ℤ)
  lostFrac : ℚ
  duplicates : Finset ℤ
  orderByErrors : List (Row × Row)
  valueReorders : List (Row × Row)
  valueReordersPerProcess : Assoc (Option ℤ) (List (Row × Row))
  valueReordersPerNode : Assoc ℤ (List (Row × Row))
  valueReordersPerTable : Assoc ℤ (List (Row × Row))

/-- What the checker returns. -/
inductive MonotonicResult
  /-- `{:valid? :unknown, :error "Set was never read"}` -/
  | neverRead
  | checked (result : Checked)

/-- `(every? empty? (vals m))` -/
def everyEmpty {K : Type u} (m : Assoc K (List (Row × Row))) : Bool :=
  m.entries.all fun e => e.2.isEmpty

/-- `check-monotonic` -/
def checkMonotonic (linearizable global : Bool) (history : List MonotonicOp) : MonotonicResult :=
  match finalReadValues history with
  | none => .neverRead
  | some finalReadValues =>
    let offOrderStss := nonMonotonic (fun a b => decide (a ≤ b)) Row.sts finalReadValues
    let offOrderVals := nonMonotonic (fun a b => decide (a < b)) Row.val finalReadValues
    let offOrderValsPerProcess :=
      nonMonotonicBy Row.proc (fun a b => decide (a < b)) Row.val finalReadValues
    let offOrderValsPerNode :=
      nonMonotonicBy Row.node (fun a b => decide (a < b)) Row.val finalReadValues
    let offOrderValsPerTable :=
      nonMonotonicBy Row.tb (fun a b => decide (a < b)) Row.val finalReadValues
    let fails := valsOf (addValues .fail history)
    let infos := valsOf (addValues .info history)
    let adds := valsOf (addValues .ok history)
    let vals := finalReadValues.map Row.val
    let dups := vals.toFinset.filter fun id => 1 < vals.count id
    let finalReads := valsOf (finalReadValues.map some)
    let lost := adds \ finalReads
    let revived := finalReads ∩ fails
    let recovered := finalReads ∩ infos
    .checked
      { valid := decide (lost = ∅) && decide (dups = ∅) && decide (revived = ∅) &&
          offOrderStss.isEmpty && (if global then offOrderVals.isEmpty else true) &&
          everyEmpty offOrderValsPerProcess && (!linearizable || offOrderVals.isEmpty)
        revived := revived
        revivedFrac := fraction revived.card fails.card
        recovered := recovered
        recoveredFrac := fraction recovered.card infos.card
        lost := lost
        lostFrac := fraction lost.card adds.card
        duplicates := dups
        orderByErrors := offOrderStss
        valueReorders := offOrderVals
        valueReordersPerProcess := offOrderValsPerProcess
        valueReordersPerNode := offOrderValsPerNode
        valueReordersPerTable := offOrderValsPerTable }

/-- `:valid?` is true. -/
def MonotonicResult.isValid : MonotonicResult → Bool
  | .neverRead => false
  | .checked result => result.valid

/-! ## Rows in order -/

/-- The values of the rows increase strictly, in read order. -/
def Increasing (rows : List Row) : Prop := (rows.map Row.val).IsChain (· < ·)

/-- The values of each process's rows increase strictly, in read order. -/
def IncreasingPerProcess (rows : List Row) : Prop :=
  ∀ process, Increasing (rows.filter fun row => decide (row.process = process))

theorem nonMonotonic_eq_nil_iff {compare : ℤ → ℤ → Bool} {f : Row → ℤ} {xs : List Row} :
    nonMonotonic compare f xs = [] ↔ (xs.map f).IsChain fun a b => compare a b = true := by
  rw [nonMonotonic, List.filter_eq_nil_iff]
  induction xs with
  | nil => simp
  | cons x xs ih =>
    cases xs with
    | nil => simp
    | cons x' xs =>
      rw [List.tail_cons] at ih
      rw [List.tail_cons, List.zip_cons_cons, List.forall_mem_cons, ih, List.map_cons, List.map_cons,
        List.map_cons, List.isChain_cons_cons]
      simp

/-- Grouped by a key that no row has, the rows are one group. -/
theorem everyEmpty_proc_iff {rows : List Row} :
    everyEmpty (nonMonotonicBy Row.proc (fun a b => decide (a < b)) Row.val rows) = true ↔
      Increasing rows := by
  have hgroup : ∀ k, (Assoc.groupBy Row.proc rows).lookup k =
      if k ∈ rows.map Row.proc then some rows else none := by
    intro k
    rw [Assoc.lookup_groupBy]
    by_cases hk : k ∈ rows.map Row.proc
    · obtain ⟨row, -, rfl⟩ := List.mem_map.mp hk
      rw [if_pos hk, if_pos hk]
      exact congrArg some (List.filter_eq_self.mpr fun row' _ => decide_eq_true rfl)
    · rw [if_neg hk, if_neg hk]
  have hchain : Increasing rows ↔
      nonMonotonic (fun a b => decide (a < b)) Row.val rows = [] := by
    rw [nonMonotonic_eq_nil_iff, Increasing]
    simp only [decide_eq_true_iff]
  rw [hchain, everyEmpty, List.all_eq_true]
  constructor
  · intro hall
    cases rows with
    | nil => rfl
    | cons row rows =>
      have hkey : none ∈ (row :: rows).map Row.proc := List.mem_cons_self
      have hentry : (⟨none, nonMonotonic (fun a b => decide (a < b)) Row.val (row :: rows)⟩ :
          Σ _ : Option ℤ, List (Row × Row)) ∈
          (nonMonotonicBy Row.proc (fun a b => decide (a < b)) Row.val (row :: rows)).entries := by
        rw [Assoc.mem_entries_iff, nonMonotonicBy, Assoc.lookup_mapVals, hgroup,
          if_pos hkey]
        rfl
      exact List.isEmpty_iff.mp (hall _ hentry)
  · intro hnil e he
    obtain ⟨k, reorders⟩ := e
    rw [Assoc.mem_entries_iff, nonMonotonicBy, Assoc.lookup_mapVals, hgroup] at he
    split_ifs at he with hk
    · obtain rfl := Option.some.inj he
      exact List.isEmpty_iff.mpr hnil
    · cases he

/-- Increasing values increase for each process. -/
theorem Increasing.perProcess {rows : List Row} (hrows : Increasing rows) :
    IncreasingPerProcess rows := by
  intro process
  rw [Increasing, List.isChain_iff_pairwise] at hrows ⊢
  exact hrows.sublist (List.filter_sublist.map Row.val)

/-- No value of an ok add is missing, none was read twice, and none of a failed add was
read. -/
structure Accounted (history : List MonotonicOp) (rows : List Row) : Prop where
  lost : ∀ row, some row ∈ addValues .ok history → row.val ∈ rows.map Row.val
  /-- Every ok add inserted a row. -/
  inserted : none ∉ addValues .ok history
  duplicated : (rows.map Row.val).Nodup
  revived : ∀ row, some row ∈ addValues .fail history → row.val ∉ rows.map Row.val
  /-- The timestamps do not decrease. -/
  timestamps : (rows.map Row.sts).IsChain (· ≤ ·)

/-- On accounted rows the verdict is about the order of the values of all rows. -/
theorem isValid_iff_increasing {history : List MonotonicOp} {rows : List Row}
    (hread : finalReadValues history = some rows) (haccounted : Accounted history rows) :
    (checkMonotonic false false history).isValid = true ↔ Increasing rows := by
  have hlost : valsOf (addValues .ok history) \ valsOf (rows.map some) = ∅ := by
    rw [Finset.sdiff_eq_empty_iff_subset]
    intro v hv
    obtain ⟨row, hrow, rfl⟩ := List.mem_map.mp (List.mem_toFinset.mp hv)
    cases row with
    | none => exact absurd hrow haccounted.inserted
    | some row =>
      obtain ⟨row', hrow', hval⟩ := List.mem_map.mp (haccounted.lost row hrow)
      rw [valsOf, List.mem_toFinset, List.map_map]
      exact List.mem_map.mpr ⟨row', hrow', congrArg some hval⟩
  have hdups : ((rows.map Row.val).toFinset.filter fun id =>
      1 < (rows.map Row.val).count id) = ∅ := by
    rw [Finset.filter_eq_empty_iff]
    intro v _
    exact not_lt.mpr (List.nodup_iff_count_le_one.mp haccounted.duplicated v)
  have hrevived : valsOf (rows.map some) ∩ valsOf (addValues .fail history) = ∅ := by
    rw [← Finset.disjoint_iff_inter_eq_empty, Finset.disjoint_left]
    intro v hmem hfail
    obtain ⟨row, hrow, rfl⟩ := List.mem_map.mp (List.mem_toFinset.mp hmem)
    obtain ⟨read, hin, rfl⟩ := List.mem_map.mp hrow
    obtain ⟨row', hrow', hval⟩ := List.mem_map.mp (List.mem_toFinset.mp hfail)
    cases row' with
    | none => cases hval
    | some row' =>
      apply haccounted.revived row' hrow'
      rw [Option.some.inj hval]
      exact List.mem_map_of_mem hin
  have hstss : nonMonotonic (fun a b => decide (a ≤ b)) Row.sts rows = [] := by
    rw [nonMonotonic_eq_nil_iff]
    simpa only [decide_eq_true_iff] using haccounted.timestamps
  rw [checkMonotonic, hread]
  simp only [MonotonicResult.isValid, hlost, hdups, hrevived, hstss, decide_true, Bool.true_and,
    List.isEmpty_nil, Bool.false_eq_true, if_false, Bool.not_false, Bool.true_or, Bool.and_true]
  exact everyEmpty_proc_iff

/-- Per process, the verdict is right exactly if some process's own rows are out of order
or no rows are. -/
theorem perProcess_verdict_iff {history : List MonotonicOp} {rows : List Row}
    (hread : finalReadValues history = some rows) (haccounted : Accounted history rows) :
    ((checkMonotonic false false history).isValid = true ↔ IncreasingPerProcess rows) ↔
      ¬ IncreasingPerProcess rows ∨ Increasing rows := by
  rw [isValid_iff_increasing hread haccounted]
  constructor
  · intro hverdict
    by_cases hprocess : IncreasingPerProcess rows
    · exact Or.inr (hverdict.mpr hprocess)
    · exact Or.inl hprocess
  · intro horder
    refine ⟨Increasing.perProcess, fun hprocess => ?_⟩
    cases horder with
    | inl hnot => exact absurd hprocess hnot
    | inr hrows => exact hrows

/-- Two processes insert a row each, the one with the smaller value later. -/
def swappedRows : List Row :=
  [{ val := 2, sts := 1, node := 1, process := 0, tb := 0 },
   { val := 1, sts := 2, node := 1, process := 1, tb := 0 }]

/-- The history in which those rows are added and read. -/
def swappedHistory : List MonotonicOp :=
  [{ index := 0, process := .int 0, type := .invoke, call := .add none },
   { index := 1, process := .int 1, type := .invoke, call := .add none },
   { index := 2, process := .int 0, type := .ok, call := .add swappedRows[0]? },
   { index := 3, process := .int 1, type := .ok, call := .add swappedRows[1]? },
   { index := 4, process := .int 0, type := .invoke, call := .read none },
   { index := 5, process := .int 0, type := .ok, call := .read (some swappedRows) }]

theorem accounted_swapped : Accounted swappedHistory swappedRows where
  lost := by
    intro row hrow
    have hadded : some row ∈ swappedRows.map some := hrow
    obtain ⟨row', hrow', heq⟩ := List.mem_map.mp hadded
    rw [← Option.some.inj heq]
    exact List.mem_map_of_mem hrow'
  inserted := by decide
  duplicated := by decide
  revived := nofun
  timestamps := by decide

theorem increasingPerProcess_swapped : IncreasingPerProcess swappedRows := by
  intro process
  by_cases h0 : process = 0
  · subst h0
    exact List.isChain_singleton 2
  · by_cases h1 : process = 1
    · subst h1
      exact List.isChain_singleton 1
    · have hnone : (swappedRows.filter fun row => decide (row.process = process)) = [] := by
        simp [swappedRows, Ne.symm h0, Ne.symm h1]
      rw [hnone]
      exact List.isChain_nil

/-- Rows of two processes that are each in order are reported. -/
theorem swapped_reported :
    finalReadValues swappedHistory = some swappedRows ∧ Accounted swappedHistory swappedRows ∧
      ¬ ((checkMonotonic false false swappedHistory).isValid = true ↔
        IncreasingPerProcess swappedRows) := by
  refine ⟨rfl, accounted_swapped, fun hverdict => ?_⟩
  exact absurd (hverdict.mpr increasingPerProcess_swapped) (by decide)

/-- The condition, for the rows of the two processes. -/
theorem perProcess_verdict_swapped :
    ((checkMonotonic false false swappedHistory).isValid = true ↔
      IncreasingPerProcess swappedRows) ↔
    ¬ IncreasingPerProcess swappedRows ∨ Increasing swappedRows :=
  perProcess_verdict_iff rfl accounted_swapped

end Jepsen.Cockroach
