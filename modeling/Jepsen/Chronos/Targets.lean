/-
# Targets that must have been met

A run may start up to `:epsilon` seconds after its target, and a few more that are forgiven. The
targets are cut off `:epsilon` seconds before the read, without those few. A target whose window
ends in between is demanded too early.
-/

import Jepsen.Chronos.Solutions

namespace Jepsen.Chronos.Checker

open Jepsen.Library

variable {job : Job} {readTime : ℤ}

/-! ## What should be demanded -/

/-- A run that starts in the target's window has completed by the read. -/
def Due (job : Job) (readTime : ℤ) (target : Target) : Prop :=
  ∀ instant, target.start ≤ instant → instant ≤ target.stop →
    instant + seconds job.duration ≤ readTime

/-- `job->targets` demands what must have happened, and all of it. -/
structure Fair (job : Job) (readTime : ℤ) : Prop where
  due : ∀ target ∈ jobTargets readTime job, Due job readTime target
  all : ∀ start ∈ job.starts, Due job readTime (job.target start) →
    job.target start ∈ jobTargets readTime job

/-- The window of a start that is before the cutoff is still open, or its run not completed. -/
structure CutShort (job : Job) (readTime start : ℤ) : Prop where
  cutoff : start + seconds job.epsilon + seconds job.duration < readTime
  late : readTime <
    start + seconds job.epsilon + seconds epsilonForgiveness + seconds job.duration

/-! ## Scheduled starts -/

theorem seconds_nonneg (n : ℕ) : 0 ≤ seconds n := by
  unfold seconds
  omega

theorem due_iff {target : Target} :
    Due job readTime target ↔ target.stop + seconds job.duration ≤ readTime := by
  constructor
  · intro hdue
    exact hdue _ target.le (le_refl _)
  · intro hstop instant _ hle
    omega

/-- The starts come one interval after another. -/
theorem pairwise_iterate (interval : ℕ) (start : ℤ) (count : ℕ) :
    (List.iterate (· + seconds interval) start count).Pairwise fun t t' =>
      t + seconds interval ≤ t' := by
  induction count generalizing start with
  | zero => exact List.Pairwise.nil
  | succ count ih =>
    refine List.Pairwise.cons (fun t ht => ?_) (ih _)
    obtain ⟨i, -, rfl⟩ := List.mem_iterate.mp ht
    clear ht
    induction i with
    | zero => exact le_refl _
    | succ i hle =>
      rw [Function.iterate_succ_apply']
      have hnonneg := seconds_nonneg interval
      dsimp only at hle ⊢
      omega

theorem mem_takeWhile_lt {c t : ℤ} {ts : List ℤ} (hsorted : ts.Pairwise (· ≤ ·)) :
    t ∈ ts.takeWhile (fun t => t < c) ↔ t ∈ ts ∧ t < c := by
  induction ts with
  | nil => simp
  | cons t' ts ih =>
    rw [List.takeWhile_cons]
    by_cases hlt : t' < c
    · rw [if_pos (decide_eq_true hlt), List.mem_cons, List.mem_cons, ih hsorted.of_cons, or_and_right]
      exact or_congr_left (iff_self_and.mpr fun heq => heq ▸ hlt)
    · rw [if_neg (by rwa [decide_eq_true_eq])]
      refine iff_of_false List.not_mem_nil ?_
      rintro ⟨hmem, ht⟩
      have hle : t' ≤ t := by
        cases List.mem_cons.mp hmem with
        | inl heq => exact heq.ge
        | inr hmem => exact List.rel_of_pairwise_cons hsorted hmem
      omega

/-- The targets are those of the starts before the cutoff. -/
theorem mem_jobTargets {target : Target} :
    target ∈ jobTargets readTime job ↔ ∃ start ∈ job.starts,
      start < readTime - seconds job.epsilon - seconds job.duration ∧ job.target start = target := by
  have hsorted : job.starts.Pairwise (· ≤ ·) :=
    (pairwise_iterate job.interval job.start job.count).imp fun h => by
      have hnonneg := seconds_nonneg job.interval
      omega
  rw [jobTargets, List.mem_map]
  constructor
  · rintro ⟨start, hmem, heq⟩
    obtain ⟨hmem, hlt⟩ := (mem_takeWhile_lt hsorted).mp hmem
    exact ⟨start, hmem, hlt, heq⟩
  · rintro ⟨start, hmem, hlt, heq⟩
    exact ⟨start, (mem_takeWhile_lt hsorted).mpr ⟨hmem, hlt⟩, heq⟩

/-- `job->targets` demands what must have happened if and only if no window is cut short. -/
theorem jobTargets_fair_iff (readTime : ℤ) (job : Job) :
    Fair job readTime ↔ ∀ start ∈ job.starts, ¬ CutShort job readTime start := by
  have hstop : ∀ start, (job.target start).stop =
      start + seconds job.epsilon + seconds epsilonForgiveness := fun _ => rfl
  constructor
  · rintro hfair start hmem ⟨hcutoff, hlate⟩
    have hdue := hfair.due _ (mem_jobTargets.mpr ⟨start, hmem, by omega, rfl⟩)
    rw [due_iff, hstop] at hdue
    omega
  · intro hnone
    constructor
    · intro target htarget
      obtain ⟨start, hmem, hlt, rfl⟩ := mem_jobTargets.mp htarget
      rw [due_iff, hstop]
      by_contra hlate
      exact hnone start hmem ⟨by omega, by omega⟩
    · intro start hmem hdue
      rw [due_iff, hstop] at hdue
      have hforgiven : 0 < seconds epsilonForgiveness := by decide
      exact mem_jobTargets.mpr ⟨start, hmem, by omega, rfl⟩

section Example

/-- A job that runs once, within ten seconds. -/
def once : Job := ⟨0, 60, 1, 10, 0⟩

/-- Eleven seconds after the start, the run may still begin. -/
theorem once_not_fair : ¬ Fair once 11000 := by
  intro hfair
  have hmem : once.target 0 ∈ jobTargets 11000 once := by decide
  have hdue := hfair.due _ hmem 15000 (by decide) (by decide)
  exact absurd hdue (by decide)

end Example

/-! ## Job solutions -/

/-- The targets of a job do not overlap if the interval between them is long enough. -/
theorem disjointSorted_jobTargets (hinterval : job.epsilon + epsilonForgiveness < job.interval) :
    DisjointSorted (jobTargets readTime job) := by
  have hstarts := pairwise_iterate job.interval job.start job.count
  have htargets : (jobTargets readTime job).Pairwise fun t t' => t.stop < t'.start := by
    refine List.Pairwise.map _ (fun start start' hle => ?_)
      (hstarts.sublist (List.takeWhile_sublist _))
    change start + seconds job.epsilon + seconds epsilonForgiveness < start'
    unfold seconds at hle ⊢
    omega
  refine ⟨htargets.imp fun {t t'} hlt => ?_, htargets.imp fun {t t'} hlt => ?_⟩
  · rw [Set.disjoint_left]
    rintro x ⟨-, hle⟩ ⟨hge, -⟩
    omega
  · exact t.le.trans hlt.le

theorem pairwise_completeIncompleteRuns (runs : List Run) :
    (completeIncompleteRuns runs).1.Pairwise fun run run' => run.start ≤ run'.start := by
  have hsorted := @List.pairwise_mergeSort Run (fun run run' => decide (run.start ≤ run'.start))
    (fun _ _ _ h h' => decide_eq_true ((of_decide_eq_true h).trans (of_decide_eq_true h')))
    (fun a b => by simpa using le_total a.start b.start)
    (runs.filter fun run => run.stop.isSome)
  exact hsorted.imp of_decide_eq_true

/-- When its targets do not overlap, the solution of a job has a run for each of them if and only
if the complete runs can meet them all. -/
theorem jobSolution_complete (hinterval : job.epsilon + epsilonForgiveness < job.interval)
    (readTime : ℤ) (runs : List Run) :
    ∃ m, disjointJobSolution (jobTargets readTime job) (completeIncompleteRuns runs).1 = some m ∧
      ((∀ target ∈ jobTargets readTime job, ∃ run, m.lookup target = some (some run)) ↔
        ∃ assigned, Assignment (jobTargets readTime job) (completeIncompleteRuns runs).1 assigned) := by
  have hconsecutive := consecutive_of_disjointSorted
    (@disjointSorted_jobTargets job readTime hinterval)
  have hruns := pairwise_completeIncompleteRuns runs
  obtain ⟨m, hm, hriffled⟩ := riffle_riffled ∅ hconsecutive hruns
  exact ⟨m, hm, all_some_iff_assignment (hriffled.optimal hconsecutive hruns)⟩

end Jepsen.Chronos.Checker
