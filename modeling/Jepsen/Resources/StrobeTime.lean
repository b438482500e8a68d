/-
# Strobing the clock

The wall clock is set ahead of the monotonic clock by two offsets in turn, until
a check of the monotonic clock is no longer before the end. An environment gives
the readings of the clocks and says which system calls fail.
-/

import Jepsen.Resources.Timespec

namespace Jepsen.Resources.Clock

/-! ## The program -/

/-- What the system calls return, call by call. Clocks are read within bounds. -/
structure Env where
  wall : Timespec
  monotonic : ℕ → Timespec
  normalized : ∀ i, (monotonic i).Normalized
  settime : ℕ → Bool
  nanosleep : ℕ → Bool

/-- How the program ends. -/
inductive Exit
  /-- Return, after printing the number of adjustments. -/
  | returned (count : ℕ)
  /-- The exit statuses of failed system calls. -/
  | settimeFailed | nanosleepFailed
  deriving DecidableEq

/-- What the loop carries, with the times that the wall clock was set to. -/
structure Strobe where
  weird : Bool
  count : ℕ
  sets : List Timespec

variable (env : Env)

/-- How far ahead of the monotonic clock is wall time? -/
def Env.normalOffset : Timespec := subTimespec env.wall (env.monotonic 0)

def Env.weirdOffset (delta : ℤ) : Timespec :=
  addTimespec env.normalOffset (nanosToTimespec delta)

/-- When should we stop changing the clock? -/
def Env.finish (duration : ℤ) : Timespec :=
  addTimespec (env.monotonic 1) (nanosToTimespec duration)

/-- The reading that a check of the loop compares, after so many adjustments. -/
def Env.check (count : ℕ) : Timespec := env.monotonic (2 * count + 2)

/-- The reading that an adjustment or the reset adds to. -/
def Env.now (count : ℕ) : Timespec := env.monotonic (2 * count + 3)

/-- The loop and the reset, for at most so many checks. -/
def strobe (normal weird finish : Timespec) : ℕ → Strobe → List Timespec × Option Exit
  | 0, s => (s.sets, none)
  | checks + 1, s =>
    if 0 < cmpTimespec (env.check s.count) finish then
      let set := addTimespec (env.now s.count) (if s.weird then normal else weird)
      if !env.settime s.count then (s.sets, some .settimeFailed)
      else if !env.nanosleep s.count then (s.sets ++ [set], some .nanosleepFailed)
      else strobe normal weird finish checks
        { weird := !s.weird, count := s.count + 1, sets := s.sets ++ [set] }
    else
      -- Reset clock and print number of changes
      if !env.settime s.count then (s.sets, some .settimeFailed)
      else (s.sets ++ [addTimespec (env.now s.count) normal], some (.returned s.count))

/-- `main` of `strobe-time`, with its delta and duration in nanoseconds. -/
def strobeTime (delta duration : ℤ) (checks : ℕ) : List Timespec × Option Exit :=
  strobe env env.normalOffset (env.weirdOffset delta) (env.finish duration) checks ⟨false, 0, []⟩

/-! ## What the wall clock is set to -/

/-- What the wall clock is ahead by after an adjustment: the weird offset first, and then in
turn. -/
def Env.ahead (delta : ℤ) (adjustment : ℕ) : ℤ :=
  env.wall.value - (env.monotonic 0).value + if adjustment % 2 = 0 then delta else 0

/-- A setting of the wall clock, ahead of a reading of the monotonic clock. -/
def SetAhead (set reading : Timespec) (offset : ℤ) : Prop :=
  set.Normalized ∧ set.value = reading.value + offset

/-- The settings so far are the adjustments, in turn. -/
def Env.Adjusted (delta : ℤ) (sets : List Timespec) : Prop :=
  ∀ i (hi : i < sets.length), SetAhead sets[i] (env.now i) (env.ahead delta i)

/-- Every check before was before the end. -/
def Env.Early (duration : ℤ) (count : ℕ) : Prop :=
  ∀ i < count, (env.check i).value < (env.monotonic 1).value + duration

/-- What the loop keeps: the mode alternates, and the clock was set once each time. -/
structure Env.Strobing (delta duration : ℤ) (s : Strobe) : Prop where
  weird : s.weird = decide (s.count % 2 = 1)
  length : s.sets.length = s.count
  adjusted : env.Adjusted delta s.sets
  early : env.Early duration s.count

/-- What the program did. -/
def Env.Outcome (delta duration : ℤ) (checks : ℕ) : List Timespec × Option Exit → Prop
  /- Still strobing. -/
  | (sets, none) => env.Adjusted delta sets ∧ env.Early duration checks
  /- Strobed until the first check at or after the end, and reset the clock. -/
  | (sets, some (.returned count)) =>
    ∃ adjustments reset, sets = adjustments ++ [reset] ∧ adjustments.length = count ∧
      env.Adjusted delta adjustments ∧
      SetAhead reset (env.now count) (env.wall.value - (env.monotonic 0).value) ∧
      env.Early duration count ∧
      (env.monotonic 1).value + duration ≤ (env.check count).value
  /- Stopped by a system call. -/
  | (sets, some _) => env.Adjusted delta sets

variable {env}

theorem adjusted_snoc {delta : ℤ} {sets : List Timespec} (h : env.Adjusted delta sets)
    {set : Timespec}
    (hset : SetAhead set (env.now sets.length) (env.ahead delta sets.length)) :
    env.Adjusted delta (sets ++ [set]) := by
  intro i hi
  rw [List.length_append, List.length_singleton] at hi
  by_cases hlt : i < sets.length
  · rw [List.getElem_append_left hlt]
    exact h i hlt
  · have heq : i = sets.length := by omega
    subst heq
    rw [List.getElem_concat_length rfl]
    exact hset

theorem setAhead_normal (reading : Timespec) :
    SetAhead (addTimespec reading env.normalOffset) reading
      (env.wall.value - (env.monotonic 0).value) := by
  refine ⟨normalized_addTimespec _ _, ?_⟩
  rw [value_addTimespec, Env.normalOffset, value_subTimespec]

/-- An adjustment in the mode of its number. -/
theorem setAhead_adjustment (delta : ℤ) (reading : Timespec) {weird : Bool} {count : ℕ}
    (hweird : weird = decide (count % 2 = 1)) :
    SetAhead (addTimespec reading
      (if weird then env.normalOffset else env.weirdOffset delta)) reading
      (env.ahead delta count) := by
  refine ⟨normalized_addTimespec _ _, ?_⟩
  rw [value_addTimespec, hweird]
  unfold Env.ahead
  by_cases hodd : count % 2 = 1
  · rw [if_pos (decide_eq_true hodd), if_neg (by omega), Env.normalOffset, value_subTimespec]
    ring
  · rw [if_neg (by simpa using hodd), if_pos (by omega), Env.weirdOffset, value_addTimespec,
      value_nanosToTimespec, Env.normalOffset, value_subTimespec]

theorem check_iff (duration : ℤ) (count : ℕ) :
    0 < cmpTimespec (env.check count) (env.finish duration) ↔
      (env.check count).value < (env.monotonic 1).value + duration := by
  unfold Env.check Env.finish
  rw [cmpTimespec_pos_iff (env.normalized _) (normalized_addTimespec _ _), value_addTimespec,
    value_nanosToTimespec]

theorem early_succ {duration : ℤ} {count : ℕ} (h : env.Early duration count)
    (hcheck : (env.check count).value < (env.monotonic 1).value + duration) :
    env.Early duration (count + 1) := by
  intro i hi
  rcases Nat.lt_succ_iff_lt_or_eq.mp hi with hlt | rfl
  · exact h i hlt
  · exact hcheck

/-- Whatever the environment, the loop alternates and ends as it should. -/
theorem strobe_outcome {delta duration : ℤ} (checks : ℕ) {s : Strobe}
    (h : env.Strobing delta duration s) :
    env.Outcome delta duration (s.count + checks)
      (strobe env env.normalOffset (env.weirdOffset delta) (env.finish duration) checks s) := by
  induction checks generalizing s with
  | zero => exact ⟨h.adjusted, h.early⟩
  | succ checks ih =>
    rw [strobe]
    by_cases hcheck : 0 < cmpTimespec (env.check s.count) (env.finish duration)
    · rw [if_pos hcheck]
      rw [check_iff] at hcheck
      have hset : SetAhead (addTimespec (env.now s.count)
          (if s.weird then env.normalOffset else env.weirdOffset delta))
          (env.now s.sets.length) (env.ahead delta s.sets.length) := by
        rw [h.length]
        exact setAhead_adjustment delta (env.now s.count) h.weird
      have hadjusted := adjusted_snoc h.adjusted hset
      dsimp only
      cases env.settime s.count with
      | false => exact h.adjusted
      | true =>
        cases env.nanosleep s.count with
        | false => exact hadjusted
        | true =>
          rw [← Nat.add_assoc, Nat.add_right_comm]
          apply @ih ⟨!s.weird, s.count + 1, _⟩
          constructor
          · dsimp only
            rw [h.weird]
            by_cases hodd : s.count % 2 = 1
            · simp [hodd, Nat.add_mod]
            · simp [Nat.add_mod, show s.count % 2 = 0 by omega]
          · simp [h.length]
          · exact hadjusted
          · exact early_succ h.early hcheck
    · rw [if_neg hcheck]
      rw [check_iff, not_lt] at hcheck
      split_ifs
      · exact h.adjusted
      · exact ⟨s.sets, _, rfl, h.length, h.adjusted, setAhead_normal _, h.early, hcheck⟩

/-- Without failing system calls, the loop has returned once a check is at or after the end. -/
theorem strobe_returns {delta duration : ℤ} (hsettime : ∀ i, env.settime i = true)
    (hnanosleep : ∀ i, env.nanosleep i = true) {last : ℕ}
    (hlast : (env.monotonic 1).value + duration ≤ (env.check last).value)
    {checks : ℕ} {s : Strobe} (hcount : s.count ≤ last) (hchecks : last < s.count + checks) :
    ∃ count ≤ last, (strobe env env.normalOffset (env.weirdOffset delta) (env.finish duration)
      checks s).2 = some (.returned count) := by
  induction checks generalizing s with
  | zero => omega
  | succ checks ih =>
    rw [strobe]
    by_cases hcheck : 0 < cmpTimespec (env.check s.count) (env.finish duration)
    · rw [if_pos hcheck]
      rw [check_iff] at hcheck
      have hne : s.count ≠ last := by
        intro heq
        rw [heq] at hcheck
        omega
      rw [hsettime, hnanosleep]
      exact ih (by dsimp only; omega) (by dsimp only; omega)
    · rw [if_neg hcheck, hsettime]
      exact ⟨s.count, hcount, rfl⟩

theorem strobing_start (delta duration : ℤ) : env.Strobing delta duration ⟨false, 0, []⟩ where
  weird := rfl
  length := rfl
  adjusted i hi := absurd hi (Nat.not_lt_zero i)
  early i hi := absurd hi (Nat.not_lt_zero i)

variable (env)

/-- The arithmetic is exact for all timespecs, so that in every environment the strobing sets the
wall clock to what it should be and stops when it should. -/
theorem timespec_exact (delta duration : ℤ) :
    (∀ nanos, (nanosToTimespec nanos).value = nanos) ∧
      (∀ a b, (addTimespec a b).Normalized ∧ (addTimespec a b).value = a.value + b.value) ∧
      (∀ a b, (subTimespec a b).Normalized ∧ (subTimespec a b).value = a.value - b.value) ∧
      (∀ bumped time, (bump bumped time).Normalized ∧
        (bump bumped time).value = time.value + bumped) ∧
      (∀ a b : Timespec, a.Normalized → b.Normalized →
        cmpTimespec a b = (b.value - a.value).sign) ∧
      (∀ checks, env.Outcome delta duration checks (strobeTime env delta duration checks)) ∧
      ((∀ i, env.settime i = true) → (∀ i, env.nanosleep i = true) →
        ∀ last, (env.monotonic 1).value + duration ≤ (env.check last).value →
          ∃ count ≤ last,
            (strobeTime env delta duration (last + 1)).2 = some (.returned count)) := by
  refine ⟨value_nanosToTimespec, ?_, ?_, ?_, ?_, ?_, ?_⟩
  · exact fun a b => ⟨normalized_addTimespec a b, value_addTimespec a b⟩
  · exact fun a b => ⟨normalized_subTimespec a b, value_subTimespec a b⟩
  · exact fun bumped time => ⟨normalized_bump bumped time, value_bump bumped time⟩
  · exact fun a b ha hb => cmpTimespec_eq_sign ha hb
  · intro checks
    have houtcome := strobe_outcome checks (@strobing_start env delta duration)
    rw [Nat.zero_add] at houtcome
    exact houtcome
  · intro hsettime hnanosleep last hlast
    exact strobe_returns hsettime hnanosleep hlast (Nat.zero_le last) (by dsimp only; omega)

end Jepsen.Resources.Clock
