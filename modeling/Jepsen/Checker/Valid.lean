/-
# Verdicts

What checkers say about a history, and how the verdicts of several checkers are
merged into one: the worst of them wins, and only verdicts that are all true give
true.
-/

import Mathlib

namespace Jepsen.Checker

universe u v

/-- A verdict. -/
inductive Valid
  | true | false | unknown
  deriving DecidableEq

/-- What running checkers on parts of a history may throw. -/
inductive CheckThrown
  | illegalArgument
  | nullPointer
  deriving DecidableEq

/-- `valid-priorities` -/
def Valid.priority : Valid → ℚ
  | .true => 0
  | .false => 1
  | .unknown => 1 / 2

/-- The function that `merge-valid` reduces with; a `:valid?` that is none of the three
throws. -/
def mergeValidStep (v₁ : Valid) (v₂ : Option Valid) : Except CheckThrown Valid :=
  match v₂ with
  | none => .error .illegalArgument
  | some v₂ => .ok (if v₁.priority < v₂.priority then v₂ else v₁)

/-- `merge-valid` -/
def mergeValid (valids : List (Option Valid)) : Except CheckThrown Valid :=
  valids.foldlM mergeValidStep .true

theorem mergeValidStep_eq_true_iff {v₁ : Valid} {v₂ : Option Valid} :
    mergeValidStep v₁ v₂ = .ok .true ↔ v₁ = .true ∧ v₂ = some .true := by
  cases v₂ with
  | none => simp [mergeValidStep]
  | some v₂ => cases v₁ <;> cases v₂ <;> norm_num [mergeValidStep, Valid.priority] <;> nofun

/-- Only true verdicts merge to true. -/
theorem mergeValid_eq_true_iff {valids : List (Option Valid)} :
    mergeValid valids = .ok .true ↔ ∀ v ∈ valids, v = some .true := by
  have hfold : ∀ (valids : List (Option Valid)) (v : Valid),
      valids.foldlM mergeValidStep v = .ok .true ↔ v = .true ∧ ∀ v ∈ valids, v = some .true := by
    intro valids
    induction valids with
    | nil =>
      intro v
      simp [pure, Except.pure]
    | cons v₂ valids ih =>
      intro v
      rw [List.foldlM_cons, List.forall_mem_cons, ← and_assoc, ← mergeValidStep_eq_true_iff]
      cases hstep : mergeValidStep v v₂ with
      | error t => simp [bind, Except.bind]
      | ok w => simp only [bind, Except.bind, ih w, Except.ok.injEq]
  rw [mergeValid, hfold]
  simp

/-- What `check-safe` returns: the map of the checker with its `:valid?`, or `:unknown`
and the exception. -/
inductive SafeResult (R : Type u) (E : Type v)
  | returned (valid : Option Valid) (rest : R)
  | error (e : E)

def SafeResult.valid {R : Type u} {E : Type v} : SafeResult R E → Option Valid
  | .returned valid _ => valid
  | .error _ => some .unknown

/-- `check-safe`, from what the checker returns or throws. -/
def checkSafe {R : Type u} {E : Type v} : Except E (Option Valid × R) → SafeResult R E
  | .ok (valid, rest) => .returned valid rest
  | .error e => .error e

theorem checkSafe_valid_eq_true_iff {R : Type u} {E : Type v}
    {checked : Except E (Option Valid × R)} :
    (checkSafe checked).valid = some .true ↔ ∃ rest, checked = .ok (some .true, rest) := by
  cases checked with
  | error e => simp [checkSafe, SafeResult.valid]
  | ok result =>
    obtain ⟨valid, rest⟩ := result
    simp [checkSafe, SafeResult.valid]

end Jepsen.Checker
