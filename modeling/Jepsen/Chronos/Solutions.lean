/-
# Solutions for disjoint targets

Riffling disjoint targets and runs together finds the earliest run of every target. No run is in
two targets then, so that there is a solution exactly if every target has a run.
-/

import Jepsen.Chronos.Checker

namespace Jepsen.Chronos.Checker

open Jepsen.Library

/-! ## What a solution is -/

/-- A run starts in a target's window, its bounds included. -/
def Target.Admits (target : Target) (run : Run) : Prop :=
  target.start ≤ run.start ∧ run.start ≤ target.stop

instance (target : Target) (run : Run) : Decidable (target.Admits run) :=
  inferInstanceAs (Decidable (_ ∧ _))

/-- No instant is in two of the targets, and they are sorted by their start. -/
structure DisjointSorted (targets : List Target) : Prop where
  disjoint : targets.Pairwise fun t t' => Disjoint (Set.Icc t.start t.stop) (Set.Icc t'.start t'.stop)
  sorted : targets.Pairwise fun t t' => t.start ≤ t'.start

/-- Every target is mapped to its earliest run, if it has one. -/
structure Optimal (targets : List Target) (runs : List Run) (m : Solution) : Prop where
  keys : ∀ target, target ∈ m ↔ target ∈ targets
  missed : ∀ target ∈ targets, m.lookup target = some none ↔ ∀ run ∈ runs, ¬ target.Admits run
  earliest : ∀ target run, m.lookup target = some (some run) →
    run ∈ runs ∧ target.Admits run ∧ ∀ run' ∈ runs, target.Admits run' → run.start ≤ run'.start
  once : ∀ target target' run, m.lookup target = some (some run) →
    m.lookup target' = some (some run) → target = target'

/-- An assignment of runs to targets, each run to one target at most. -/
structure Assignment (targets : List Target) (runs : List Run) (assigned : Target → Run) :
    Prop where
  mem : ∀ target ∈ targets, assigned target ∈ runs
  admits : ∀ target ∈ targets, target.Admits (assigned target)
  once : ∀ target ∈ targets, ∀ target' ∈ targets,
    assigned target = assigned target' → target = target'

/-! ## Riffling -/

/-- The targets come one after another. -/
def Consecutive (targets : List Target) : Prop := targets.Pairwise fun t t' => t.stop < t'.start

theorem consecutive_of_disjointSorted {targets : List Target} (h : DisjointSorted targets) :
    Consecutive targets := by
  refine h.disjoint.imp₂ (fun t t' hdisjoint hle => ?_) h.sorted
  by_contra hlt
  exact Set.disjoint_left.mp hdisjoint ⟨hle, not_lt.mp hlt⟩ ⟨le_refl _, t'.le⟩

theorem safe_of_consecutive {target : Target} {targets : List Target}
    (h : Consecutive (target :: targets)) : safe target targets := by
  intro target2 hhead
  exact List.rel_of_pairwise_cons h (List.mem_of_mem_head? hhead)

/-- The first run that a target admits. -/
def firstRun (runs : List Run) (target : Target) : Option Run :=
  runs.find? fun run => target.Admits run

theorem firstRun_cons_of_not {target : Target} {run : Run} (h : ¬ target.Admits run)
    (runs : List Run) : firstRun (run :: runs) target = firstRun runs target :=
  List.find?_cons_of_neg (by rwa [decide_eq_true_eq])

theorem firstRun_cons_of_admits {target : Target} {run : Run} (h : target.Admits run)
    (runs : List Run) : firstRun (run :: runs) target = some run :=
  List.find?_cons_of_pos (decide_eq_true h)

/-- The map, once its targets are done. -/
structure Riffled (m : Solution) (targets : List Target) (runs : List Run) (m' : Solution) :
    Prop where
  done : ∀ target ∈ targets, m'.lookup target = some (firstRun runs target)
  kept : ∀ target ∉ targets, m'.lookup target = m.lookup target

/-- Done with the first target. -/
theorem Riffled.cons {m m' : Solution} {target : Target} {targets : List Target}
    {runs runs' : List Run} {found : Option Run} (hnot : target ∉ targets)
    (hfound : firstRun runs target = found)
    (hsame : ∀ target' ∈ targets, firstRun runs target' = firstRun runs' target')
    (h : Riffled (m.insert target found) targets runs' m') :
    Riffled m (target :: targets) runs m' where
  done := fun target' hmem => by
    cases List.mem_cons.mp hmem with
    | inl heq => rw [heq, h.kept target hnot, AList.lookup_insert, hfound]
    | inr hmem => rw [h.done target' hmem, hsame target' hmem]
  kept := fun target' hnotMem => by
    obtain ⟨hne, hnot'⟩ := not_or.mp (List.mem_cons.not.mp hnotMem)
    rw [h.kept target' hnot', AList.lookup_insert_ne hne]

/-- No target admits a run that started before it began. -/
theorem not_admits_of_lt {target target' : Target} {targets : List Target} {run : Run}
    (h : Consecutive (target :: targets)) (hmem : target' ∈ target :: targets)
    (hlt : run.start < target.start) : ¬ target'.Admits run := by
  rintro ⟨hle, -⟩
  have hle' := target.le
  cases List.mem_cons.mp hmem with
  | inl heq =>
    subst heq
    omega
  | inr hmem =>
    have hapart := List.rel_of_pairwise_cons h hmem
    omega

theorem not_mem_of_consecutive {target : Target} {targets : List Target}
    (h : Consecutive (target :: targets)) : target ∉ targets := by
  intro hmem
  have hlt := List.rel_of_pairwise_cons h hmem
  exact absurd target.le (not_le.mpr hlt)

/-- By induction on the targets and runs that are left: the runs that were dropped are before
all of these targets. -/
theorem riffle_riffled {targets : List Target} {runs : List Run} (m : Solution)
    (hconsecutive : Consecutive targets)
    (hruns : runs.Pairwise fun run run' => run.start ≤ run'.start) :
    ∃ m', riffle m targets runs = some m' ∧ Riffled m targets runs m' := by
  induction m, targets, runs using riffle.induct with
  | case1 m runs =>
    exact ⟨m, by rw [riffle], fun _ h => absurd h List.not_mem_nil, fun _ _ => rfl⟩
  | case2 m target targets hsafe ih =>
    obtain ⟨m', hriffle, hm'⟩ := ih hconsecutive.tail hruns
    refine ⟨m', ?_, hm'.cons (not_mem_of_consecutive hconsecutive) rfl fun _ _ => rfl⟩
    rw [riffle, if_pos hsafe, hriffle]
  | case3 m target targets hunsafe => exact absurd (safe_of_consecutive hconsecutive) hunsafe
  | case4 m target targets run runs hsafe hbefore ih =>
    obtain ⟨m', hriffle, hm'⟩ := ih hconsecutive hruns.tail
    refine ⟨m', ?_, fun target' hmem => ?_, hm'.kept⟩
    · rw [riffle, if_pos hsafe, if_pos hbefore, hriffle]
    · rw [hm'.done target' hmem,
        firstRun_cons_of_not (not_admits_of_lt hconsecutive hmem hbefore)]
  | case5 m target targets run runs hsafe hbefore hafter ih =>
    obtain ⟨m', hriffle, hm'⟩ := ih hconsecutive.tail hruns
    have hmissed : firstRun (run :: runs) target = none := by
      rw [firstRun, List.find?_eq_none]
      intro run' hmem hadmits
      obtain ⟨-, hle⟩ := of_decide_eq_true hadmits
      have hfirst : run.start ≤ run'.start := by
        cases List.mem_cons.mp hmem with
        | inl heq => rw [heq]
        | inr hmem => exact List.rel_of_pairwise_cons hruns hmem
      omega
    refine ⟨m', ?_, hm'.cons (not_mem_of_consecutive hconsecutive) hmissed fun _ _ => rfl⟩
    rw [riffle, if_pos hsafe, if_neg hbefore, if_pos hafter, hriffle]
  | case6 m target targets run runs hsafe hbefore hafter ih =>
    obtain ⟨m', hriffle, hm'⟩ := ih hconsecutive.tail hruns.tail
    have hadmits : target.Admits run := ⟨not_lt.mp hbefore, not_lt.mp hafter⟩
    refine ⟨m', ?_, hm'.cons (not_mem_of_consecutive hconsecutive)
      (firstRun_cons_of_admits hadmits runs) fun target' hmem => firstRun_cons_of_not ?_ runs⟩
    · rw [riffle, if_pos hsafe, if_neg hbefore, if_neg hafter, hriffle]
    · -- The run is in this target, so before the next ones.
      rintro ⟨hle, -⟩
      have hapart := List.rel_of_pairwise_cons hconsecutive hmem
      have hin := hadmits.2
      omega
  | case7 m target targets run runs hunsafe =>
    exact absurd (safe_of_consecutive hconsecutive) hunsafe

/-! ## The solution -/

theorem firstRun_eq_none {runs : List Run} {target : Target} :
    firstRun runs target = none ↔ ∀ run ∈ runs, ¬ target.Admits run := by
  rw [firstRun, List.find?_eq_none]
  exact forall₂_congr fun run _ => by rw [decide_eq_true_eq]

theorem firstRun_eq_some {runs : List Run} {target : Target} {run : Run}
    (hruns : runs.Pairwise fun run run' => run.start ≤ run'.start)
    (h : firstRun runs target = some run) :
    run ∈ runs ∧ target.Admits run ∧ ∀ run' ∈ runs, target.Admits run' → run.start ≤ run'.start := by
  obtain ⟨hadmits, before, after, rfl, hbefore⟩ := List.find?_eq_some_iff_append.mp h
  refine ⟨List.mem_append_right _ List.mem_cons_self, of_decide_eq_true hadmits, ?_⟩
  intro run' hmem hadmits'
  rcases List.mem_append.mp hmem with hmem | hmem
  · have hnot := hbefore run' hmem
    rw [decide_eq_true hadmits'] at hnot
    cases hnot
  · cases List.mem_cons.mp hmem with
    | inl heq => rw [heq]
    | inr hmem =>
      exact List.rel_of_pairwise_cons (List.pairwise_append.mp hruns).2.1 hmem

/-- No run is in two targets. -/
theorem eq_of_admits {targets : List Target} (hconsecutive : Consecutive targets)
    {target target' : Target} (hmem : target ∈ targets) (hmem' : target' ∈ targets) {run : Run}
    (h : target.Admits run) (h' : target'.Admits run) : target = target' := by
  by_contra hne
  have heither : targets.Pairwise fun t t' => t.stop < t'.start ∨ t'.stop < t.start :=
    hconsecutive.imp Or.inl
  have hsymm : Std.Symm fun t t' : Target => t.stop < t'.start ∨ t'.stop < t.start :=
    ⟨fun _ _ => Or.symm⟩
  have hapart := heither.forall hmem hmem' hne
  have hin := h.2
  have hin' := h'.2
  have hle := h.1
  have hle' := h'.1
  omega

theorem Riffled.optimal {targets : List Target} {runs : List Run} {m : Solution}
    (h : Riffled ∅ targets runs m) (hconsecutive : Consecutive targets)
    (hruns : runs.Pairwise fun run run' => run.start ≤ run'.start) : Optimal targets runs m := by
  have hkeys : ∀ target, target ∈ m ↔ target ∈ targets := by
    intro target
    by_cases hmem : target ∈ targets
    · refine iff_of_true ?_ hmem
      rw [← AList.lookup_isSome, h.done target hmem]
      rfl
    · refine iff_of_false ?_ hmem
      rw [← AList.lookup_isSome, h.kept target hmem]
      exact Bool.false_ne_true
  have hfound : ∀ target run, m.lookup target = some (some run) →
      target ∈ targets ∧ firstRun runs target = some run := by
    intro target run hlookup
    have hmem := (hkeys target).mp (AList.lookup_isSome.mp (by rw [hlookup]; rfl))
    rw [h.done target hmem] at hlookup
    exact ⟨hmem, Option.some.inj hlookup⟩
  refine ⟨hkeys, ?_, ?_, ?_⟩
  · intro target hmem
    rw [h.done target hmem, Option.some.injEq]
    exact firstRun_eq_none
  · intro target run hlookup
    exact firstRun_eq_some hruns (hfound target run hlookup).2
  · intro target target' run hlookup hlookup'
    obtain ⟨hmem, hfirst⟩ := hfound target run hlookup
    obtain ⟨hmem', hfirst'⟩ := hfound target' run hlookup'
    exact eq_of_admits hconsecutive hmem hmem' (firstRun_eq_some hruns hfirst).2.1
      (firstRun_eq_some hruns hfirst').2.1

/-- Disjoint targets and runs: nothing is thrown, and every target has its earliest run. -/
theorem disjointJobSolution_optimal {targets : List Target} {runs : List Run}
    (htargets : DisjointSorted targets)
    (hruns : runs.Pairwise fun run run' => run.start ≤ run'.start) :
    ∃ m, disjointJobSolution targets runs = some m ∧ Optimal targets runs m := by
  have hconsecutive := consecutive_of_disjointSorted htargets
  obtain ⟨m, hm, hriffled⟩ := riffle_riffled ∅ hconsecutive hruns
  exact ⟨m, hm, hriffled.optimal hconsecutive hruns⟩

section Example

/-- A target from one second to another. -/
def window (start length : ℕ) : Target where
  start := seconds start
  stop := seconds start + seconds length
  le := by
    unfold seconds
    omega

/-- Two targets, with a run at the end of the first one. -/
theorem missedTarget_optimal :
    ∃ m, disjointJobSolution [window 0 15, window 60 15] [⟨15000, none⟩, ⟨76000, none⟩] = some m ∧
      Optimal [window 0 15, window 60 15] [⟨15000, none⟩, ⟨76000, none⟩] m := by
  refine disjointJobSolution_optimal ⟨?_, ?_⟩ ?_
  · rw [List.pairwise_pair, Set.disjoint_left]
    rintro x ⟨-, hle⟩ ⟨hge, -⟩
    have hlt : (window 0 15).stop < (window 60 15).start := by decide
    omega
  · rw [List.pairwise_pair]
    decide
  · rw [List.pairwise_pair]
    decide

end Example

/-- Every target of the solution has a run if and only if all targets can be met by runs of
their own. -/
theorem all_some_iff_assignment {targets : List Target} {runs : List Run} {m : Solution}
    (hm : Optimal targets runs m) :
    (∀ target ∈ targets, ∃ run, m.lookup target = some (some run)) ↔
      ∃ assigned, Assignment targets runs assigned := by
  constructor
  · intro hall
    choose! assigned hassigned using hall
    refine ⟨assigned, ?_, ?_, ?_⟩
    · exact fun target hmem => (hm.earliest _ _ (hassigned target hmem)).1
    · exact fun target hmem => (hm.earliest _ _ (hassigned target hmem)).2.1
    · intro target hmem target' hmem' heq
      refine hm.once target target' _ (hassigned target hmem) ?_
      rw [heq]
      exact hassigned target' hmem'
  · rintro ⟨assigned, hassigned⟩ target hmem
    have hlookup := AList.lookup_isSome.mpr ((hm.keys target).mpr hmem)
    obtain ⟨found, hfound⟩ := Option.isSome_iff_exists.mp hlookup
    cases found with
    | none =>
      have hmissed := (hm.missed target hmem).mp hfound
      exact absurd (hassigned.admits target hmem) (hmissed _ (hassigned.mem target hmem))
    | some run => exact ⟨run, hfound⟩

end Jepsen.Chronos.Checker
