/-
# Values of a register at timestamps

Reads at past timestamps, sorted by these, should see values that do not decrease.
The checker goes through all of them, or through those of each process; the plotter
looks for the spots that are worth a plot.
-/

import Jepsen.Library.Assoc
import Jepsen.Library.LastValue

namespace Jepsen.Faunadb.TimestampValues

open Jepsen.Library

universe u v w

/-- The `:type` of an op. -/
inductive OpType
  | invoke | ok | fail | info
  deriving DecidableEq

/-- The `:f` of an op. -/
inductive Func
  | inc | read | readAt | events
  deriving DecidableEq

/-- An op, with the timestamp and the value of the register in its `:value`; nil is `⊥`. -/
structure Op (P : Type u) (T : Type v) (V : Type w) where
  process : P
  type : OpType
  f : Func
  value : T × WithBot V
  deriving DecidableEq

variable {P : Type u} {T : Type v} {V : Type w}

/-! ## The previous op of a process -/

section Previous

variable [DecidableEq P]

/-- The previous op of a process. -/
def previous (ops : List (Op P T V)) (process : P) : Option (Op P T V) :=
  lastValue (ops.map fun op => (op.process, op)) process

/-- The value of an op is that of the previous op of its process, if that is not nil. -/
def SteadyAfter (ops : List (Op P T V)) (op : Op P T V) : Prop :=
  ∀ prev, previous ops op.process = some prev → prev.value.2 = ⊥ ∨ prev.value.2 = op.value.2

/-- The values of a process, once not nil, stay the same. -/
def Steady (sorted : List (Op P T V)) : Prop :=
  ∀ ops op later, sorted = ops ++ op :: later → SteadyAfter ops op

theorem previous_concat (ops : List (Op P T V)) (op : Op P T V) (process : P) :
    previous (ops ++ [op]) process =
      if op.process = process then some op else previous ops process := by
  unfold previous
  rw [List.map_append, List.map_singleton, lastValue_concat]

theorem steady_concat {ops : List (Op P T V)} {op : Op P T V} :
    Steady (ops ++ [op]) ↔ Steady ops ∧ SteadyAfter ops op := by
  constructor
  · intro h
    constructor
    · intro before op' later heq
      apply h before op' (later ++ [op])
      rw [heq, List.append_assoc]
      rfl
    · exact h ops op [] rfl
  · intro h before op' later heq
    cases later using List.reverseRecOn with
    | nil =>
      obtain ⟨rfl, hop⟩ := List.append_inj' heq rfl
      cases hop
      exact h.2
    | append_singleton later last =>
      have hassoc : before ++ op' :: (later ++ [last]) = (before ++ op' :: later) ++ [last] := by
        simp
      rw [hassoc] at heq
      exact h.1 before op' later (List.append_inj' heq rfl).1

end Previous

section Checkers

variable [LinearOrder V]

/-! ## By process -/

/-- The last ops of the processes, and the pairs so far. -/
structure Scan (P : Type u) (O : Type v) where
  last : Assoc P O
  errs : List (O × O)

/-- The function that the ops are reduced with. -/
def Scan.step [DecidableEq P] {O : Type v} (process : O → P) (extractor : O → WithBot V)
    (state : Scan P O) (op : O) : Scan P O :=
  match state.last.lookup (process op) with
  | none => { state with last := state.last.insert (process op) op }
  | some prev =>
    if extractor prev = ⊥ ∨ extractor prev ≤ extractor op then
      -- Monotonic
      { state with last := state.last.insert (process op) op }
    else
      -- Non-monotonic!
      { last := state.last.insert (process op) op, errs := state.errs ++ [(prev, op)] }

/-- `non-monotonic-pairs-by-process`, of anything that has a type, a process and a value. -/
def nonMonotonicPairsByProcess [DecidableEq P] {O : Type v} (type : O → OpType)
    (process : O → P) (extractor : O → WithBot V) (history : List O) : List (O × O) :=
  ((history.filter fun op => type op = .ok).foldl (Scan.step process extractor) ⟨∅, []⟩).errs

/-! ## All processes -/

/-- `non-monotonic-pairs`: the successive ops whose values decrease. -/
def nonMonotonicPairs {O : Type v} (extractor : O → WithBot V) (history : List O) :
    List (O × O) :=
  (history.zip history.tail).filter fun pair => ¬ extractor pair.1 ≤ extractor pair.2

/-- The ops that `timestamp-value-checker` looks at. -/
def timestamped (history : List (Op P T V)) : List (Op P T V) :=
  (history.filter fun op => op.type = .ok).filter fun op => op.f = .readAt ∨ op.f = .inc

/-- The errors of `timestamp-value-checker`, which is valid if there are none. -/
def timestampErrs [LinearOrder T] (history : List (Op P T V)) : List (Op P T V × Op P T V) :=
  nonMonotonicPairs (fun op => op.value.2)
    ((timestamped history).insertionSort fun a b => a.value.1 ≤ b.value.1)

/-! ## The plotter -/

/-- Temporal reads, sorted by timestamp. -/
def sortedReads [LinearOrder T] (history : List (Op P T V)) : List (Op P T V) :=
  (history.filter fun op => op.type = .ok ∧ op.f = .readAt).insertionSort
    fun a b => a.value.1 ≤ b.value.1

/-- How many ops there were, the last ones of the processes, and the spots so far. -/
structure Spots (P : Type u) (T : Type v) (V : Type w) where
  i : ℕ
  last : Assoc P (Op P T V)
  spots : List ℕ

/-- Figure out if an op is a spot. -/
def Spots.step [DecidableEq P] (state : Spots P T V) (op : Op P T V) : Spots P T V :=
  let v := ((state.last.lookup op.process).map fun prev => prev.value.2).getD ⊥
  let v' := op.value.2
  { i := state.i + 1
    last := state.last.insert op.process op
    spots :=
      if v = ⊥ ∨ v' ≤ v then
        -- Monotonic
        state.spots
      else
        -- Non-monotonic
        state.spots ++ [state.i] }

/-- The spots that `timestamp-value-plotter` computes. -/
def spots [DecidableEq P] (sorted : List (Op P T V)) : List ℕ :=
  (sorted.foldl Spots.step ⟨0, ∅, []⟩).spots

/-- The positions of the second ops of the pairs that the checker finds. -/
def flagged [DecidableEq P] (sorted : List (Op P T V)) : List ℕ :=
  (nonMonotonicPairsByProcess (fun op => op.1.type) (fun op => op.1.process)
    (fun op => op.1.value.2) sorted.zipIdx).map fun pair => pair.2.2

/-! ## Successive ops stand for all -/

theorem nonMonotonicPairs_eq_nil {O : Type v} {extractor : O → WithBot V} {history : List O} :
    nonMonotonicPairs extractor history = [] ↔
      (history.map extractor).IsChain (· ≤ ·) := by
  rw [nonMonotonicPairs, List.filter_eq_nil_iff]
  induction history with
  | nil => simp
  | cons op history ih =>
    cases history with
    | nil => simp
    | cons op' history =>
      rw [List.tail_cons] at ih
      rw [List.tail_cons, List.zip_cons_cons, List.forall_mem_cons, ih, List.map_cons,
        List.map_cons, List.map_cons, List.isChain_cons_cons]
      simp

theorem nonMonotonicPairs_eq_nil_iff {O : Type v} {extractor : O → WithBot V}
    {history : List O} : nonMonotonicPairs extractor history = [] ↔
      history.Pairwise fun a b => extractor a ≤ extractor b := by
  rw [nonMonotonicPairs_eq_nil, List.isChain_iff_pairwise, List.pairwise_map]

/-- With distinct timestamps, there are no errors if and only if no op has a larger value than an
op with a later timestamp. -/
theorem timestampErrs_eq_nil_iff [LinearOrder T] {history : List (Op P T V)}
    (hdistinct : (timestamped history).Pairwise fun a b => a.value.1 ≠ b.value.1) :
    timestampErrs history = [] ↔ ∀ a ∈ timestamped history, ∀ b ∈ timestamped history,
      a.value.1 < b.value.1 → a.value.2 ≤ b.value.2 := by
  unfold timestampErrs
  rw [nonMonotonicPairs_eq_nil_iff]
  have hperm := List.perm_insertionSort (fun a b : Op P T V => a.value.1 ≤ b.value.1)
    (timestamped history)
  have htotal : Std.Total fun a b : Op P T V => a.value.1 ≤ b.value.1 :=
    ⟨fun a b => le_total a.value.1 b.value.1⟩
  have htrans : IsTrans (Op P T V) fun a b => a.value.1 ≤ b.value.1 :=
    ⟨fun a b c hab hbc => le_trans hab hbc⟩
  have hsorted := List.pairwise_insertionSort (fun a b : Op P T V => a.value.1 ≤ b.value.1)
    (timestamped history)
  generalize (timestamped history).insertionSort (fun a b => a.value.1 ≤ b.value.1) = sorted
    at hperm hsorted
  have hne : sorted.Pairwise fun a b => a.value.1 ≠ b.value.1 :=
    hperm.symm.pairwise hdistinct fun hab => hab.symm
  constructor
  · intro hvalues a ha b hb hlt
    obtain ⟨i, hi, rfl⟩ := List.getElem_of_mem (hperm.mem_iff.mpr ha)
    obtain ⟨j, hj, rfl⟩ := List.getElem_of_mem (hperm.mem_iff.mpr hb)
    rcases lt_trichotomy i j with hij | hij | hij
    · exact List.pairwise_iff_getElem.mp hvalues i j hi hj hij
    · subst hij
      exact le_rfl
    · have hge := List.pairwise_iff_getElem.mp hsorted j i hj hi hij
      exact absurd hlt (not_lt.mpr hge)
  · intro hvalues
    have hstrict := hsorted.and hne
    apply hstrict.imp_of_mem
    intro a b ha hb hab
    exact hvalues a (hperm.mem_iff.mp ha) b (hperm.mem_iff.mp hb) (lt_of_le_of_ne hab.1 hab.2)

variable [DecidableEq P]

/-! ## What a step adds -/

theorem last_step (state : Spots P T V) (op : Op P T V) :
    (state.step op).last = state.last.insert op.process op := rfl

theorem i_step (state : Spots P T V) (op : Op P T V) : (state.step op).i = state.i + 1 := rfl

theorem lookup_last_spots (ops : List (Op P T V)) (process : P) :
    (ops.foldl Spots.step ⟨0, ∅, []⟩).last.lookup process = previous ops process := by
  induction ops using List.reverseRecOn with
  | nil => rfl
  | append_singleton ops op ih =>
    rw [List.foldl_concat, previous_concat]
    rw [last_step, Assoc.lookup_insert_eq_ite, ih]
    exact if_congr eq_comm rfl rfl

theorem i_spots (ops : List (Op P T V)) :
    (ops.foldl Spots.step ⟨0, ∅, []⟩).i = ops.length := by
  induction ops using List.reverseRecOn with
  | nil => rfl
  | append_singleton ops op ih =>
    rw [List.foldl_concat, i_step, ih, List.length_append, List.length_singleton]

/-- An op is a spot if the previous value of its process is smaller. -/
def isSpot (ops : List (Op P T V)) (op : Op P T V) : Prop :=
  ∃ prev, previous ops op.process = some prev ∧ prev.value.2 ≠ ⊥ ∧ prev.value.2 < op.value.2

/-- An op is flagged if the previous value of its process is larger. -/
def isFlagged (ops : List (Op P T V)) (op : Op P T V) : Prop :=
  ∃ prev, previous ops op.process = some prev ∧ prev.value.2 ≠ ⊥ ∧ op.value.2 < prev.value.2

theorem spots_concat (ops : List (Op P T V)) (op : Op P T V) :
    (isSpot ops op ∧ spots (ops ++ [op]) = spots ops ++ [ops.length]) ∨
      (¬ isSpot ops op ∧ spots (ops ++ [op]) = spots ops) := by
  unfold spots isSpot
  rw [List.foldl_concat, Spots.step, lookup_last_spots, i_spots]
  cases hprevious : previous ops op.process with
  | none => exact .inr ⟨by simp, rfl⟩
  | some prev =>
    dsimp only [Option.map_some, Option.getD_some]
    split_ifs with hmonotonic
    · refine .inr ⟨?_, rfl⟩
      rintro ⟨prev', heq, hne, hlt⟩
      cases heq
      cases hmonotonic with
      | inl hbot => exact hne hbot
      | inr hle => exact absurd hlt (not_lt.mpr hle)
    · rw [not_or, not_le] at hmonotonic
      exact .inl ⟨⟨prev, rfl, hmonotonic.1, hmonotonic.2⟩, rfl⟩

theorem last_scan {O : Type v} (process : O → P) (extractor : O → WithBot V) (state : Scan P O)
    (op : O) :
    (state.step process extractor op).last = state.last.insert (process op) op := by
  unfold Scan.step
  cases state.last.lookup (process op) with
  | none => rfl
  | some prev =>
    dsimp only
    split_ifs <;> rfl

/-- The scan of a history, with the positions of the ops. -/
def scanned (ops : List (Op P T V)) : Scan P (Op P T V × ℕ) :=
  ops.zipIdx.foldl (Scan.step (fun op => op.1.process) fun op => op.1.value.2) ⟨∅, []⟩

theorem flagged_eq {ops : List (Op P T V)} (hok : ∀ op ∈ ops, op.type = .ok) :
    flagged ops = (scanned ops).errs.map fun pair => pair.2.2 := by
  unfold flagged nonMonotonicPairsByProcess scanned
  congr 3
  rw [List.filter_eq_self]
  intro op hop
  exact decide_eq_true (hok op.1 (List.fst_mem_of_mem_zipIdx hop))

theorem scanned_concat (ops : List (Op P T V)) (op : Op P T V) :
    scanned (ops ++ [op]) = (scanned ops).step (fun op => op.1.process) (fun op => op.1.value.2)
      (op, ops.length) := by
  unfold scanned
  rw [List.zipIdx_append, List.foldl_append, Nat.zero_add]
  rfl

theorem lookup_last_scanned (ops : List (Op P T V)) (process : P) :
    ((scanned ops).last.lookup process).map Prod.fst = previous ops process := by
  induction ops using List.reverseRecOn with
  | nil => rfl
  | append_singleton ops op ih =>
    rw [scanned_concat, last_scan, previous_concat, Assoc.lookup_insert_eq_ite, ← ih]
    by_cases hprocess : process = op.process
    · rw [if_pos hprocess, if_pos hprocess.symm]
      rfl
    · rw [if_neg hprocess, if_neg (Ne.symm hprocess)]

theorem errs_concat (ops : List (Op P T V)) (op : Op P T V) :
    (isFlagged ops op ∧ (scanned (ops ++ [op])).errs.map (fun pair => pair.2.2) =
        (scanned ops).errs.map (fun pair => pair.2.2) ++ [ops.length]) ∨
      (¬ isFlagged ops op ∧ (scanned (ops ++ [op])).errs = (scanned ops).errs) := by
  have hprevious := lookup_last_scanned ops op.process
  unfold isFlagged
  rw [scanned_concat, Scan.step, ← hprevious]
  cases (scanned ops).last.lookup op.process with
  | none => exact .inr ⟨by simp, rfl⟩
  | some prev =>
    dsimp only [Option.map_some]
    split_ifs with hmonotonic
    · refine .inr ⟨?_, rfl⟩
      rintro ⟨prev', heq, hne, hlt⟩
      cases heq
      cases hmonotonic with
      | inl hbot => exact hne hbot
      | inr hle => exact absurd hlt (not_lt.mpr hle)
    · rw [not_or, not_le] at hmonotonic
      refine .inl ⟨⟨prev.1, rfl, hmonotonic.1, hmonotonic.2⟩, ?_⟩
      rw [List.map_append]
      rfl

/-! ## Spots and flagged ops -/

theorem lt_of_mem_spots {ops : List (Op P T V)} {i : ℕ} (hi : i ∈ spots ops) :
    i < ops.length := by
  induction ops using List.reverseRecOn with
  | nil => exact absurd hi List.not_mem_nil
  | append_singleton ops op ih =>
    rw [List.length_append, List.length_singleton, Nat.lt_succ_iff]
    cases spots_concat ops op with
    | inl hspot =>
      rw [hspot.2] at hi
      cases List.mem_append.mp hi with
      | inl hi => exact (ih hi).le
      | inr hi => exact (List.mem_singleton.mp hi).le
    | inr hnot =>
      rw [hnot.2] at hi
      exact (ih hi).le

theorem lt_of_mem_errs {ops : List (Op P T V)} {i : ℕ}
    (hi : i ∈ (scanned ops).errs.map fun pair => pair.2.2) : i < ops.length := by
  induction ops using List.reverseRecOn with
  | nil => exact absurd hi List.not_mem_nil
  | append_singleton ops op ih =>
    rw [List.length_append, List.length_singleton, Nat.lt_succ_iff]
    cases errs_concat ops op with
    | inl hflagged =>
      rw [hflagged.2] at hi
      cases List.mem_append.mp hi with
      | inl hi => exact (ih hi).le
      | inr hi => exact (List.mem_singleton.mp hi).le
    | inr hnot =>
      rw [hnot.2] at hi
      exact (ih hi).le

/-- A spot is never flagged: only an op whose value stays the same is neither. -/
theorem steadyAfter_iff {ops : List (Op P T V)} {op : Op P T V} :
    SteadyAfter ops op ↔ ¬ isSpot ops op ∧ ¬ isFlagged ops op := by
  constructor
  · intro h
    constructor
    · rintro ⟨prev, hprevious, hne, hlt⟩
      cases h prev hprevious with
      | inl hbot => exact hne hbot
      | inr heq => exact absurd heq hlt.ne
    · rintro ⟨prev, hprevious, hne, hlt⟩
      cases h prev hprevious with
      | inl hbot => exact hne hbot
      | inr heq => exact absurd heq hlt.ne'
  · intro h prev hprevious
    by_contra hnot
    rw [not_or] at hnot
    cases lt_or_gt_of_ne hnot.2 with
    | inl hlt => exact h.1 ⟨prev, hprevious, hnot.1, hlt⟩
    | inr hgt => exact h.2 ⟨prev, hprevious, hnot.1, hgt⟩

theorem not_isSpot_of_isFlagged {ops : List (Op P T V)} {op : Op P T V}
    (hflagged : isFlagged ops op) : ¬ isSpot ops op := by
  obtain ⟨prev, hprevious, -, hlt⟩ := hflagged
  rintro ⟨prev', hprevious', -, hgt⟩
  cases hprevious.symm.trans hprevious'
  exact absurd hlt (not_lt.mpr hgt.le)

/-- The spots of a history are the flagged ops if and only if the values stay the same. -/
theorem spots_eq_errs_iff (ops : List (Op P T V)) :
    spots ops = ((scanned ops).errs.map fun pair => pair.2.2) ↔ Steady ops := by
  induction ops using List.reverseRecOn with
  | nil =>
    refine iff_of_true rfl ?_
    intro before op later heq
    simp at heq
  | append_singleton ops op ih =>
    rw [steady_concat, steadyAfter_iff, ← ih]
    -- Nobody else has the last position.
    have hnot : ∀ l : List ℕ, (∀ i ∈ l, i < ops.length) → ops.length ∉ l :=
      fun l hl hmem => absurd (hl _ hmem) (lt_irrefl _)
    cases spots_concat ops op with
    | inl hspot =>
      refine iff_of_false ?_ fun h => h.2.1 hspot.1
      rw [hspot.2]
      cases errs_concat ops op with
      | inl hflagged => exact absurd hspot.1 (not_isSpot_of_isFlagged hflagged.1)
      | inr hclear =>
        rw [hclear.2]
        intro heq
        apply hnot _ fun i hi => lt_of_mem_errs hi
        rw [← heq]
        exact List.mem_append_right _ List.mem_cons_self
    | inr hnospot =>
      rw [hnospot.2]
      cases errs_concat ops op with
      | inl hflagged =>
        refine iff_of_false ?_ fun h => h.2.2 hflagged.1
        rw [hflagged.2]
        intro heq
        apply hnot _ fun i hi => lt_of_mem_spots hi
        rw [heq]
        exact List.mem_append_right _ List.mem_cons_self
      | inr hclear =>
        rw [hclear.2]
        exact (and_iff_left ⟨hnospot.1, hclear.1⟩).symm

omit [LinearOrder V] [DecidableEq P] in
theorem ok_of_mem_sortedReads [LinearOrder T] {history : List (Op P T V)} {op : Op P T V}
    (hop : op ∈ sortedReads history) : op.type = .ok := by
  have hmem := (List.mem_filter.mp ((List.mem_insertionSort _).mp hop)).2
  exact (of_decide_eq_true hmem).1

/-- The plotter's spots are the ops that the checker flags if and only if no process sees a
value, which is not nil, change: it looks for values that grow. -/
theorem spots_eq_flagged_iff [LinearOrder T] (history : List (Op P T V)) :
    spots (sortedReads history) = flagged (sortedReads history) ↔
      Steady (sortedReads history) := by
  rw [flagged_eq fun op hop => ok_of_mem_sortedReads hop]
  exact spots_eq_errs_iff (sortedReads history)

/-- Two reads of one process that see a value grow. -/
def growing : List (Op ℕ ℕ ℤ) := [⟨0, .ok, .readAt, (1, (5 : ℤ))⟩, ⟨0, .ok, .readAt, (2, (7 : ℤ))⟩]

/-- What is plotted is not what is flagged. -/
theorem growing_not_flagged : spots (sortedReads growing) ≠ flagged (sortedReads growing) := by
  decide

end Checkers

end Jepsen.Faunadb.TimestampValues
