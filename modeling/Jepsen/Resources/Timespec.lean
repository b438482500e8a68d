/-
# Timespec arithmetic

Seconds and nanoseconds, over exact integers. The first loop of the balancing
borrows seconds until there are more than a second's nanoseconds, also where
they were within bounds, and the second carries them back. `value` is the time
that a timespec stands for.
-/

import Mathlib

namespace Jepsen.Resources.Clock

/-- Nanoseconds per second. -/
abbrev nanosPerSec : ℤ := 1000000000

/-- A `struct timespec`. -/
@[ext]
structure Timespec where
  sec : ℤ
  nsec : ℤ
  deriving DecidableEq

/-- The nanoseconds that a timespec stands for. -/
def Timespec.value (t : Timespec) : ℤ := t.sec * nanosPerSec + t.nsec

/-- The nanoseconds are within bounds. -/
def Timespec.Normalized (t : Timespec) : Prop := 0 ≤ t.nsec ∧ t.nsec < nanosPerSec

/-! ## The functions -/

/-- `nanos_to_timespec`; the remainder has the sign of the nanoseconds. -/
def nanosToTimespec (nanos : ℤ) : Timespec :=
  let dnanos := nanos.tmod nanosPerSec
  let dseconds := (nanos - dnanos).tdiv nanosPerSec
  ⟨dseconds, dnanos⟩

/-- The first loop of `balance_timespec_m`. -/
def borrow (t : Timespec) : Timespec :=
  if t.nsec ≤ nanosPerSec then borrow ⟨t.sec - 1, t.nsec + nanosPerSec⟩ else t
termination_by (nanosPerSec + 1 - t.nsec).toNat
decreasing_by
  unfold nanosPerSec at *
  omega

/-- The second loop of `balance_timespec_m`. -/
def carry (t : Timespec) : Timespec :=
  if nanosPerSec ≤ t.nsec then carry ⟨t.sec + 1, t.nsec - nanosPerSec⟩ else t
termination_by t.nsec.toNat
decreasing_by
  unfold nanosPerSec at *
  omega

/-- `balance_timespec_m` -/
def balanceTimespec (t : Timespec) : Timespec := carry (borrow t)

/-- `add_timespec` -/
def addTimespec (a b : Timespec) : Timespec :=
  balanceTimespec ⟨a.sec + b.sec, a.nsec + b.nsec⟩

/-- `sub_timespec` -/
def subTimespec (a b : Timespec) : Timespec :=
  balanceTimespec ⟨a.sec - b.sec, a.nsec - b.nsec⟩

/-- `cmp_timespec` -/
def cmpTimespec (a b : Timespec) : ℤ :=
  if a.sec < b.sec then 1
  else if b.sec < a.sec then -1
  else if a.nsec < b.nsec then 1
  else if b.nsec < a.nsec then -1
  else 0

/-- The adjustment of `bump-time`, whose loops are those of `balance_timespec_m`. -/
def bump (delta : ℤ) (time : Timespec) : Timespec :=
  let deltaNs := delta.tmod nanosPerSec
  let deltaS := (delta - deltaNs).tdiv nanosPerSec
  carry (borrow ⟨time.sec + deltaS, time.nsec + deltaNs⟩)

/-! ## They are exact -/

theorem value_borrow (t : Timespec) : (borrow t).value = t.value := by
  induction t using borrow.induct with
  | case1 t hle ih =>
    rw [borrow, if_pos hle, ih]
    unfold Timespec.value
    dsimp only
    ring
  | case2 t hgt => rw [borrow, if_neg hgt]

theorem nsec_borrow (t : Timespec) : nanosPerSec < (borrow t).nsec := by
  induction t using borrow.induct with
  | case1 t hle ih =>
    rw [borrow, if_pos hle]
    exact ih
  | case2 t hgt =>
    rw [borrow, if_neg hgt]
    exact not_le.mp hgt

theorem value_carry (t : Timespec) : (carry t).value = t.value := by
  induction t using carry.induct with
  | case1 t hle ih =>
    rw [carry, if_pos hle, ih]
    unfold Timespec.value
    dsimp only
    ring
  | case2 t hlt => rw [carry, if_neg hlt]

theorem normalized_carry {t : Timespec} (hnonneg : 0 ≤ t.nsec) : (carry t).Normalized := by
  induction t using carry.induct with
  | case1 t hle ih =>
    rw [carry, if_pos hle]
    apply ih
    exact sub_nonneg.mpr hle
  | case2 t hlt =>
    rw [carry, if_neg hlt]
    exact ⟨hnonneg, not_le.mp hlt⟩

theorem value_balanceTimespec (t : Timespec) : (balanceTimespec t).value = t.value := by
  rw [balanceTimespec, value_carry, value_borrow]

theorem normalized_balanceTimespec (t : Timespec) : (balanceTimespec t).Normalized := by
  have hborrow := nsec_borrow t
  have hnanos : (0 : ℤ) < nanosPerSec := by decide
  exact normalized_carry (hnanos.trans hborrow).le

/-- Truncating towards zero splits any number of nanoseconds, also a negative one. -/
theorem tdiv_add_tmod (nanos : ℤ) :
    (nanos - nanos.tmod nanosPerSec).tdiv nanosPerSec * nanosPerSec + nanos.tmod nanosPerSec =
      nanos := by
  have hsplit := Int.tmod_add_mul_tdiv nanos nanosPerSec
  have hmul : nanos - nanos.tmod nanosPerSec = nanosPerSec * nanos.tdiv nanosPerSec := by
    linarith
  rw [hmul, Int.mul_tdiv_cancel_left _ (by decide)]
  linarith

theorem value_nanosToTimespec (nanos : ℤ) : (nanosToTimespec nanos).value = nanos :=
  tdiv_add_tmod nanos

theorem value_addTimespec (a b : Timespec) : (addTimespec a b).value = a.value + b.value := by
  rw [addTimespec, value_balanceTimespec]
  unfold Timespec.value
  dsimp only
  ring

theorem normalized_addTimespec (a b : Timespec) : (addTimespec a b).Normalized :=
  normalized_balanceTimespec _

theorem value_subTimespec (a b : Timespec) : (subTimespec a b).value = a.value - b.value := by
  rw [subTimespec, value_balanceTimespec]
  unfold Timespec.value
  dsimp only
  ring

theorem normalized_subTimespec (a b : Timespec) : (subTimespec a b).Normalized :=
  normalized_balanceTimespec _

theorem value_bump (delta : ℤ) (time : Timespec) :
    (bump delta time).value = time.value + delta := by
  have hsplit := tdiv_add_tmod delta
  rw [bump, value_carry, value_borrow]
  unfold Timespec.value
  dsimp only
  linarith

theorem normalized_bump (delta : ℤ) (time : Timespec) : (bump delta time).Normalized :=
  normalized_balanceTimespec _

/-- The comparator is the other way around. -/
theorem cmpTimespec_eq_sign {a b : Timespec} (ha : a.Normalized) (hb : b.Normalized) :
    cmpTimespec a b = (b.value - a.value).sign := by
  obtain ⟨ha, ha'⟩ := ha
  obtain ⟨hb, hb'⟩ := hb
  unfold cmpTimespec Timespec.value nanosPerSec at *
  split_ifs with h₁ h₂ h₃ h₄
  · rw [Int.sign_eq_one_of_pos]
    omega
  · rw [Int.sign_eq_neg_one_of_neg]
    omega
  · have heq : a.sec = b.sec := by omega
    rw [heq, Int.sign_eq_one_of_pos]
    omega
  · have heq : a.sec = b.sec := by omega
    rw [heq, Int.sign_eq_neg_one_of_neg]
    omega
  · have heq : a.sec = b.sec := by omega
    have heq' : a.nsec = b.nsec := by omega
    rw [heq, heq', sub_self, Int.sign_zero]

/-- A check passes while the first time is before the second. -/
theorem cmpTimespec_pos_iff {a b : Timespec} (ha : a.Normalized) (hb : b.Normalized) :
    0 < cmpTimespec a b ↔ a.value < b.value := by
  rw [cmpTimespec_eq_sign ha hb, Int.sign_pos_iff, sub_pos]

end Jepsen.Resources.Clock
