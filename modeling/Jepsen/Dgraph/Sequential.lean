/-
# Plots around the spots of a register

The plotter looks for ops whose process saw a larger value before, and plots what is
around them. Each plot leaves out the last op of the history, since its end, which is
not included, is at most the position of that op.
-/

import Jepsen.Dgraph.MergedWindows
import Jepsen.Generator.TranslationTable
import Jepsen.Library.Assoc
import Jepsen.Library.LastValue

namespace Jepsen.Dgraph

open Jepsen.Generator Jepsen.Library

universe u

/-- The `:type` of an op. -/
inductive OpType
  | invoke | ok | fail | info
  deriving DecidableEq

/-- An op on one register, with the value if a client completed it. -/
structure Op where
  process : Name
  type : OpType
  value : ℤ
  deriving DecidableEq

/-! ## The plotter -/

/-- The ops that are ok, and those of the nemesis. -/
def relevant (history : List Op) : List Op :=
  history.filter fun op => op.type = .ok ∨ op.process = .nemesis

/-- How many ops there were, the last ones of the processes, and the spots so far. -/
structure Spots where
  i : ℕ
  last : Assoc Name Op
  spots : List ℕ

/-- Figure out if an op is a spot. -/
def Spots.step (state : Spots) (op : Op) : Spots :=
  if op.process = .nemesis then
    -- Skip nemesis
    { state with i := state.i + 1 }
  else
    let v := ((state.last.lookup op.process).map Op.value).getD 0
    { i := state.i + 1
      last := state.last.insert op.process op
      spots := if v ≤ op.value then state.spots else state.spots ++ [state.i] }

/-- The spots that the plotter computes. -/
def spots (history : List Op) : List ℕ := (history.foldl Spots.step ⟨0, ∅, []⟩).spots

/-- `subvec`, which throws if the bounds are not within the vector. -/
def subvec {O : Type u} (v : List O) (start stop : ℤ) : Option (List O) :=
  if 0 ≤ start ∧ start ≤ stop ∧ stop ≤ v.length then
    some ((v.drop start.toNat).take (stop - start).toNat)
  else none

/-- What is passed to `plot!`, of a history of anything. -/
def subHistories {O : Type u} (s : ℤ) (spots : List ℕ) (history : List O) :
    List (Option (List O)) :=
  (mergedWindows s (spots.map Nat.cast)).map fun window =>
    subvec history (max window.1 0) (min window.2 (history.length - 1))

/-- The sub-histories of ops with their positions. -/
def plotted (s : ℤ) (history : List Op) : List (Option (List (Op × ℕ))) :=
  subHistories s (spots (relevant history)) (relevant history).zipIdx

/-! ## What it is for -/

/-- The previous op of a process. -/
def previous (ops : List Op) (process : Name) : Option Op :=
  lastValue (ops.map fun op => (op.process, op)) process

/-- A client's op has a value below the previous one of its process. -/
def IsSpot (ops : List Op) (op : Op) : Prop :=
  op.process ≠ .nemesis ∧ ∃ prev, previous ops op.process = some prev ∧ op.value < prev.value

/-- The plotter shows every violation: its windows are sorted, disjoint, and around the spots, it
takes sub-histories within bounds, and each spot is in exactly one of them. -/
structure ShowsAll (s : ℤ) (history : List Op) : Prop where
  areWindows : AreWindows s ((spots (relevant history)).map Nat.cast)
    (mergedWindows s ((spots (relevant history)).map Nat.cast))
  isSome : ∀ sub ∈ plotted s history, sub.isSome
  shown : ∀ ops op later, relevant history = ops ++ op :: later → IsSpot ops op →
    op.type = .ok ∧ ops.length ∈ spots (relevant history) ∧
      (plotted s history).countP (fun sub => decide ((op, ops.length) ∈ sub.getD [])) = 1

/-! ## The spots -/

theorem previous_concat (ops : List Op) (op : Op) (process : Name) :
    previous (ops ++ [op]) process =
      if op.process = process then some op else previous ops process := by
  unfold previous
  rw [List.map_append, List.map_singleton, lastValue_concat]

theorem i_spots (ops : List Op) : (ops.foldl Spots.step ⟨0, ∅, []⟩).i = ops.length := by
  induction ops using List.reverseRecOn with
  | nil => rfl
  | append_singleton ops op ih =>
    rw [List.foldl_concat, List.length_append, List.length_singleton, ← ih, Spots.step]
    split_ifs <;> rfl

/-- Of a client, the last op is known. -/
theorem lookup_last_spots (ops : List Op) {process : Name} (hclient : process ≠ .nemesis) :
    (ops.foldl Spots.step ⟨0, ∅, []⟩).last.lookup process = previous ops process := by
  induction ops using List.reverseRecOn with
  | nil => rfl
  | append_singleton ops op ih =>
    rw [List.foldl_concat, previous_concat, Spots.step]
    split_ifs with hnemesis hprocess hprocess
    · exact absurd (hprocess.symm.trans hnemesis) hclient
    · exact ih
    · dsimp only
      rw [Assoc.lookup_insert_eq_ite, if_pos hprocess.symm]
    · dsimp only
      rw [Assoc.lookup_insert_eq_ite, if_neg (Ne.symm hprocess), ih]

theorem spots_concat (ops : List Op) (op : Op) :
    spots (ops ++ [op]) = spots ops ++
      if op.process ≠ .nemesis ∧ op.value < ((previous ops op.process).map Op.value).getD 0
        then [ops.length] else [] := by
  unfold spots
  rw [List.foldl_concat, Spots.step]
  by_cases hnemesis : op.process = .nemesis
  · simp [hnemesis]
  · rw [if_neg hnemesis, lookup_last_spots ops hnemesis, i_spots]
    dsimp only
    by_cases hle : ((previous ops op.process).map Op.value).getD 0 ≤ op.value
    · rw [if_pos hle, if_neg fun h => absurd hle (not_le.mpr h.2), List.append_nil]
    · rw [if_neg hle, if_pos ⟨hnemesis, not_le.mp hle⟩]

theorem lt_of_mem_spots {ops : List Op} {i : ℕ} (hi : i ∈ spots ops) : i < ops.length := by
  induction ops using List.reverseRecOn with
  | nil => exact absurd hi List.not_mem_nil
  | append_singleton ops op ih =>
    rw [List.length_append, List.length_singleton, Nat.lt_succ_iff]
    rw [spots_concat] at hi
    cases List.mem_append.mp hi with
    | inl hi => exact (ih hi).le
    | inr hi =>
      split_ifs at hi
      · exact (List.mem_singleton.mp hi).le
      · exact absurd hi List.not_mem_nil

theorem spots_append_subset (ops later : List Op) : spots ops ⊆ spots (ops ++ later) := by
  induction later using List.reverseRecOn with
  | nil => simp
  | append_singleton later op ih =>
    rw [← List.append_assoc, spots_concat]
    exact List.subset_append_of_subset_left _ ih

/-- An op with a value below the previous one is a spot. -/
theorem length_mem_spots {ops later : List Op} {op : Op} (hspot : IsSpot ops op) :
    ops.length ∈ spots (ops ++ op :: later) := by
  obtain ⟨hclient, prev, hprevious, hlt⟩ := hspot
  have hassoc : ops ++ op :: later = (ops ++ [op]) ++ later := by simp
  rw [hassoc]
  apply spots_append_subset
  rw [spots_concat, hprevious]
  apply List.mem_append_right
  rw [if_pos ⟨hclient, hlt⟩]
  exact List.mem_cons_self

/-! ## The sub-histories -/

/-- Within bounds, a position is in a slice if it is between these. -/
theorem mem_subvec_zipIdx {ops : List Op} {start stop : ℤ} (hstart : 0 ≤ start)
    (hle : start ≤ stop) (hstop : stop ≤ ops.length) {op : Op} {i : ℕ} (hop : ops[i]? = some op) :
    (op, i) ∈ (subvec ops.zipIdx start stop).getD [] ↔ start ≤ i ∧ (i : ℤ) < stop := by
  unfold subvec
  rw [List.length_zipIdx, if_pos ⟨hstart, hle, hstop⟩, Option.getD_some, List.mem_iff_getElem?]
  constructor
  · intro hexists
    obtain ⟨j, hj⟩ := hexists
    rw [List.getElem?_take] at hj
    split_ifs at hj with hlt
    rw [List.getElem?_drop, List.getElem?_zipIdx, Option.map_eq_some_iff] at hj
    obtain ⟨op', -, heq⟩ := hj
    have hi := (Prod.mk.inj heq).2
    omega
  · intro hbounds
    refine ⟨i - start.toNat, ?_⟩
    rw [List.getElem?_take, if_pos (by omega), List.getElem?_drop, List.getElem?_zipIdx]
    have hi : start.toNat + (i - start.toNat) = i := by omega
    rw [hi, hop]
    simp

/-- A window of the spots gives bounds within the history. -/
theorem bounds_of_mem {s : ℤ} (hs : 1 ≤ s) {ops : List Op} {window : ℤ × ℤ}
    (hwindow : window ∈ mergedWindows s ((spots ops).map Nat.cast)) :
    0 ≤ max window.1 0 ∧ max window.1 0 ≤ min window.2 (ops.length - 1) ∧
      min window.2 ((ops.length : ℤ) - 1) ≤ ops.length := by
  have h := (areWindows_mergedWindows hs ((spots ops).map Nat.cast)).each window hwindow
  have hproper := h.proper
  obtain ⟨p, hp, hlower⟩ := h.lower
  obtain ⟨q, hq, hupper⟩ := h.upper
  obtain ⟨i, hi, rfl⟩ := List.mem_map.mp hp
  obtain ⟨j, -, rfl⟩ := List.mem_map.mp hq
  have hlt := lt_of_mem_spots hi
  refine ⟨le_max_right _ _, ?_, ?_⟩
  · apply max_le
    · exact le_min hproper.le (by omega)
    · exact le_min (by omega) (by omega)
  · exact (min_le_right _ _).trans (by omega)

/-- A position is in the sub-history of a window if it is in the window, and not the last one. -/
theorem mem_subHistory_iff {s : ℤ} (hs : 1 ≤ s) {ops : List Op} {window : ℤ × ℤ}
    (hwindow : window ∈ mergedWindows s ((spots ops).map Nat.cast)) {op : Op} {i : ℕ}
    (hop : ops[i]? = some op) :
    (op, i) ∈ (subvec ops.zipIdx (max window.1 0)
        (min window.2 ((ops.zipIdx.length : ℤ) - 1))).getD [] ↔
      window.1 ≤ i ∧ (i : ℤ) < window.2 ∧ i + 1 < ops.length := by
  obtain ⟨hstart, hle, hstop⟩ := bounds_of_mem hs hwindow
  rw [List.length_zipIdx, mem_subvec_zipIdx hstart hle hstop hop, max_le_iff, lt_min_iff]
  constructor
  · intro h
    exact ⟨h.1.1, h.2.1, by omega⟩
  · intro h
    exact ⟨⟨h.1, Int.natCast_nonneg i⟩, h.2.1, by omega⟩

theorem countP_eq_one {A : Type u} {l : List A} {P : A → Bool} (hexists : ∃ a ∈ l, P a = true)
    (hapart : l.Pairwise fun a b => ¬ (P a = true ∧ P b = true)) : l.countP P = 1 := by
  induction l with
  | nil =>
    obtain ⟨a, ha, -⟩ := hexists
    exact absurd ha List.not_mem_nil
  | cons a l ih =>
    rw [List.pairwise_cons] at hapart
    cases hP : P a with
    | true =>
      rw [List.countP_cons_of_pos hP, Nat.add_eq_right, List.countP_eq_zero]
      exact fun b hb hPb => hapart.1 b hb ⟨hP, hPb⟩
    | false =>
      rw [List.countP_cons_of_neg (Bool.eq_false_iff.mp hP)]
      obtain ⟨b, hb, hPb⟩ := hexists
      cases List.mem_cons.mp hb with
      | inl heq => exact absurd (heq ▸ hPb) (Bool.eq_false_iff.mp hP)
      | inr hb => exact ih ⟨b, hb, hPb⟩ hapart.2

/-- A spot that is not the last op is in one sub-history. -/
theorem countP_plotted {s : ℤ} (hs : 1 ≤ s) {history : List Op} {op : Op} {i : ℕ}
    (hop : (relevant history)[i]? = some op) (hi : i ∈ spots (relevant history))
    (hnext : i + 1 < (relevant history).length) :
    (plotted s history).countP (fun sub => decide ((op, i) ∈ sub.getD [])) = 1 := by
  have hw := areWindows_mergedWindows hs ((spots (relevant history)).map Nat.cast)
  unfold plotted subHistories
  rw [List.countP_map]
  apply countP_eq_one
  · obtain ⟨window, hwindow, haround⟩ := hw.covers i (List.mem_map_of_mem hi)
    have hlower := haround.1
    have hupper := haround.2
    refine ⟨window, hwindow, decide_eq_true ?_⟩
    exact (mem_subHistory_iff hs hwindow hop).mpr ⟨by omega, by omega, hnext⟩
  · apply hw.apart.imp_of_mem
    intro a b ha hb hab hboth
    have hina := (mem_subHistory_iff hs ha hop).mp (of_decide_eq_true hboth.1)
    have hinb := (mem_subHistory_iff hs hb hop).mp (of_decide_eq_true hboth.2)
    omega

/-- The last op is in no sub-history. -/
theorem countP_plotted_last {s : ℤ} (hs : 1 ≤ s) {history ops : List Op} {op : Op}
    (hlast : relevant history = ops ++ [op]) :
    (plotted s history).countP (fun sub => decide ((op, ops.length) ∈ sub.getD [])) = 0 := by
  have hop : (relevant history)[ops.length]? = some op := by
    rw [hlast]
    exact List.getElem?_concat_length
  unfold plotted subHistories
  rw [List.countP_map, List.countP_eq_zero]
  intro window hwindow hin
  have hin := ((mem_subHistory_iff hs hwindow hop).mp (of_decide_eq_true hin)).2.2
  rw [hlast, List.length_append, List.length_singleton] at hin
  exact absurd hin (lt_irrefl _)

/-- The plotter shows every violation if and only if the last op, of those that are ok or of the
nemesis, is not one. -/
theorem showsAll_iff {s : ℤ} (hs : 1 ≤ s) (history : List Op) :
    ShowsAll s history ↔ ∀ ops op, relevant history = ops ++ [op] → ¬ IsSpot ops op := by
  constructor
  · intro h ops op hlast hspot
    have hone := (h.shown ops op [] hlast hspot).2.2
    rw [countP_plotted_last hs hlast] at hone
    exact absurd hone Nat.zero_ne_one
  · intro hnot
    refine ⟨areWindows_mergedWindows hs _, ?_, ?_⟩
    · intro sub hsub
      obtain ⟨window, hwindow, rfl⟩ := List.mem_map.mp hsub
      have hbounds := bounds_of_mem hs hwindow
      unfold subvec
      rw [List.length_zipIdx, if_pos hbounds]
      rfl
    · intro ops op later heq hspot
      have hop : (relevant history)[ops.length]? = some op := by
        rw [heq, List.getElem?_append_right le_rfl, Nat.sub_self]
        rfl
      have hmem : ops.length ∈ spots (relevant history) := by
        rw [heq]
        exact length_mem_spots hspot
      refine ⟨?_, hmem, countP_plotted hs hop hmem ?_⟩
      · have hrelevant := (List.mem_filter.mp (List.mem_of_getElem? hop)).2
        exact (of_decide_eq_true hrelevant).resolve_right hspot.1
      · cases later with
        | nil => exact absurd hspot (hnot ops op heq)
        | cons next later =>
          rw [heq, List.length_append, List.length_cons, List.length_cons]
          omega

/-- A process that sees a register go back, with something after it. -/
theorem wentBack_showsAll : ShowsAll 32 [⟨.int 0, .ok, 5⟩, ⟨.int 0, .ok, 3⟩, ⟨.int 1, .ok, 5⟩] := by
  apply (showsAll_iff (by decide) _).mpr
  intro ops op hlast hspot
  have hrelevant : relevant [⟨.int 0, .ok, 5⟩, ⟨.int 0, .ok, 3⟩, ⟨.int 1, .ok, 5⟩] =
      [⟨.int 0, .ok, 5⟩, ⟨.int 0, .ok, 3⟩] ++ [⟨.int 1, .ok, 5⟩] := by
    decide
  obtain ⟨rfl, hop⟩ := List.append_inj' (hrelevant.symm.trans hlast) rfl
  cases hop
  obtain ⟨-, prev, hprevious, -⟩ := hspot
  cases hprevious

/-- The last op of a history is left out, even if it is a violation. -/
theorem lastSpot_not_showsAll : ¬ ShowsAll 32 [⟨.int 0, .ok, 5⟩, ⟨.int 0, .ok, 3⟩] := by
  intro h
  have hspot : IsSpot [⟨.int 0, .ok, 5⟩] ⟨.int 0, .ok, 3⟩ :=
    ⟨by decide, ⟨.int 0, .ok, 5⟩, by decide, by decide⟩
  have hone := (h.shown [⟨.int 0, .ok, 5⟩] ⟨.int 0, .ok, 3⟩ [] (by decide) hspot).2.2
  exact absurd hone (by decide)

end Jepsen.Dgraph
