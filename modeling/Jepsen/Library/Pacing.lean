/-
# Pacing

Things that want to happen at times of their own are made to keep some distance: each is as
early as it can be, but not before its own time, nor before some gap after the one in front of
it. The times that result are the least ones of this kind.
-/

import Mathlib.Algebra.Order.Monoid.Unbundled.Basic
import Mathlib.Data.List.Forall2
import Mathlib.Order.Lattice

namespace Jepsen.Library.Pacing

universe u

section Times

variable {T : Type u} [LinearOrder T]

/-- The time of something that wants to happen at `t`, but not before `next`. -/
def timeOf (next : Option T) (t : T) : T := max t (next.getD t)

theorem le_timeOf (next : Option T) (t : T) : t ≤ timeOf next t := le_max_left _ _

theorem next_le_timeOf {next : Option T} {t n : T} (hn : n ∈ next) : n ≤ timeOf next t := by
  cases hn
  exact le_max_right _ _

theorem timeOf_le {next : Option T} {t time : T} (ht : t ≤ time) (hnext : ∀ n ∈ next, n ≤ time) :
    timeOf next t ≤ time := by
  cases next with
  | none => exact max_le ht ht
  | some n => exact max_le ht (hnext n rfl)

end Times

variable {T : Type u} [LinearOrder T] [Add T]

/-- Times for things with their own times and the gaps after them, none before `next`. -/
def pace : Option T → List (T × T) → List T
  | _, [] => []
  | next, (t, gap) :: rest => timeOf next t :: pace (some (timeOf next t + gap)) rest

/-- When the next thing may happen. -/
def nextOf : Option T → List (T × T) → Option T
  | next, [] => next
  | next, (t, gap) :: rest => nextOf (some (timeOf next t + gap)) rest

/-- Times that are not before those of the things themselves, nor before the gaps are over. -/
def Keeps : Option T → List (T × T) → List T → Prop
  | _, [], [] => True
  | next, (t, gap) :: rest, time :: times =>
      t ≤ time ∧ (∀ n ∈ next, n ≤ time) ∧ Keeps (some (time + gap)) rest times
  | _, _, _ => False

theorem nextOf_append (next : Option T) (l l' : List (T × T)) :
    nextOf next (l ++ l') = nextOf (nextOf next l) l' := by
  induction l generalizing next with
  | nil => rfl
  | cons first l ih => exact ih _

theorem exists_nextOf (next : Option T) {l : List (T × T)} (hne : l ≠ []) :
    ∃ n, nextOf next l = some n := by
  induction l generalizing next with
  | nil => exact absurd rfl hne
  | cons first l ih =>
    cases l with
    | nil => exact ⟨_, rfl⟩
    | cons second l => exact ih _ (List.cons_ne_nil second l)

theorem keeps_pace (next : Option T) (l : List (T × T)) : Keeps next l (pace next l) := by
  induction l generalizing next with
  | nil => trivial
  | cons first l ih => exact ⟨le_timeOf _ _, fun n hn => next_le_timeOf hn, ih _⟩

/-- No times of this kind are earlier, even if those start later. -/
theorem pace_le [AddRightMono T] {next next' : Option T} {l : List (T × T)} {times : List T}
    (hnext : ∀ n ∈ next, ∃ n' ∈ next', n ≤ n') (hkeeps : Keeps next' l times) :
    List.Forall₂ (· ≤ ·) (pace next l) times := by
  induction l generalizing next next' times with
  | nil =>
    cases times with
    | nil => exact .nil
    | cons time times => exact hkeeps.elim
  | cons first l ih =>
    cases times with
    | nil => exact hkeeps.elim
    | cons time times =>
      obtain ⟨t, gap⟩ := first
      obtain ⟨hown, hlater, hrest⟩ := hkeeps
      have hle : timeOf next t ≤ time := timeOf_le hown fun n hn => by
        obtain ⟨n', hn', hle⟩ := hnext n hn
        exact hle.trans (hlater n' hn')
      refine .cons hle (ih ?_ hrest)
      rintro n ⟨⟩
      exact ⟨_, rfl, add_le_add_left hle gap⟩

end Jepsen.Library.Pacing
