/-
# Timestamps as strings

The timestamps of a history are strings of instants, of which the Z at the end is
stripped off: without it, a string with fewer digits of a second comes before the
strings that it starts, as it should.
-/

import Jepsen.Faunadb.TimestampValues
import Jepsen.Library.DateTime

namespace Jepsen.Faunadb.TimestampValues

open Jepsen.Library

universe u w

/-! ## Instants as strings -/

/-- 0, 3, 6 or 9 digits of a second. -/
def fraction (nano : ℕ) : List Char :=
  if nano = 0 then []
  else if nano % 1000000 = 0 then '.' :: pad 3 (nano / 1000000)
  else if nano % 1000 = 0 then '.' :: pad 6 (nano / 1000)
  else '.' :: pad 9 nano

/-- An instant, without the Z. -/
def timeText (t : DateTime) : List Char :=
  pad 4 t.year ++ '-' :: (pad 2 t.month ++ '-' :: (pad 2 t.day ++ 'T' :: (pad 2 t.hour ++
    ':' :: (pad 2 t.minute ++ ':' :: (pad 2 t.second ++ fraction t.nano)))))

/-- `Instant.toString` -/
def instantText (t : DateTime) : List Char := timeText t ++ ['Z']

/-- `strip-time`, of a string; none if there is no Z at the end. -/
def stripTime (s : List Char) : Option (List Char) :=
  if s.getLast? = some 'Z' then some s.dropLast else none

theorem stripTime_instantText (t : DateTime) : stripTime (instantText t) = some (timeText t) := by
  unfold stripTime instantText
  rw [List.getLast?_concat, if_pos rfl, List.dropLast_concat]

/-! ## Their order -/

/-- The groups of digits that are printed. -/
def fractionGroups (nano : ℕ) : List ℕ :=
  if nano % 1000000 = 0 then [nano / 1000000]
  else if nano % 1000 = 0 then [nano / 1000000, nano / 1000 % 1000]
  else [nano / 1000000, nano / 1000 % 1000, nano % 1000]

theorem fraction_eq (nano : ℕ) :
    fraction nano = if nano = 0 then [] else '.' :: padGroups (fractionGroups nano) := by
  have hsix : pad 6 (nano / 1000) = pad 3 (nano / 1000000) ++ pad 3 (nano / 1000 % 1000) := by
    rw [pad_add_three 3, Nat.div_div_eq_div_mul]
  have hnine : pad 9 nano = pad 6 (nano / 1000) ++ pad 3 (nano % 1000) := pad_add_three 6 nano
  unfold fraction fractionGroups padGroups
  split_ifs with hzero hthree hsixdigits
  · rfl
  · simp
  · simp [hsix]
  · simp [hnine, hsix]

theorem lt_of_mem_fractionGroups {nano n : ℕ} (hnano : nano < 1000000000)
    (hn : n ∈ fractionGroups nano) : n < 1000 := by
  unfold fractionGroups at hn
  split_ifs at hn
  · rw [List.mem_singleton] at hn
    omega
  · simp only [List.mem_cons, List.not_mem_nil, or_false] at hn
    omega
  · simp only [List.mem_cons, List.not_mem_nil, or_false] at hn
    omega

theorem fractionGroups_lt_iff {n n' : ℕ} : fractionGroups n < fractionGroups n' ↔ n < n' := by
  unfold fractionGroups
  split_ifs <;>
    simp only [List.cons_lt_cons_iff, List.not_lt_nil, List.nil_lt_cons, and_false, or_false,
      and_true] <;> omega

theorem fraction_lt_iff {n n' : ℕ} (hn : n < 1000000000) (hn' : n' < 1000000000) :
    fraction n < fraction n' ↔ n < n' := by
  rw [fraction_eq, fraction_eq]
  by_cases hzero' : n' = 0
  · rw [if_pos hzero', hzero']
    exact iff_of_false (List.not_lt_nil _) (Nat.not_lt_zero n)
  · rw [if_neg hzero']
    by_cases hzero : n = 0
    · rw [if_pos hzero, hzero]
      exact iff_of_true (List.nil_lt_cons _ _) (Nat.pos_of_ne_zero hzero')
    · rw [if_neg hzero, List.cons_lt_cons_self,
        padGroups_lt_iff (fun _ hm => lt_of_mem_fractionGroups hn hm)
          (fun _ hm => lt_of_mem_fractionGroups hn' hm), fractionGroups_lt_iff]

theorem monthLength_le (leap : Bool) (month : ℕ) : monthLength leap month ≤ 31 := by
  unfold monthLength
  split_ifs <;> decide

/-- Stripped timestamps are ordered like the instants. -/
theorem timeText_lt_iff (t t' : DateTime) :
    timeText t < timeText t' ↔ t.epochNano < t'.epochNano := by
  have hyear := t.year_le
  have hyear' := t'.year_le
  have hmonth := t.month_mem
  have hmonth' := t'.month_mem
  have hday := t.day_mem.2.trans (monthLength_le _ _)
  have hday' := t'.day_mem.2.trans (monthLength_le _ _)
  have hhour := t.hour_lt
  have hhour' := t'.hour_lt
  have hminute := t.minute_lt
  have hminute' := t'.minute_lt
  have hsecond := t.second_lt
  have hsecond' := t'.second_lt
  rw [DateTime.epochNano_lt_iff]
  unfold timeText DateTime.fields
  rw [pad_append_lt_iff (by omega) (by omega), List.cons_lt_cons_self,
    pad_append_lt_iff (by omega) (by omega), List.cons_lt_cons_self,
    pad_append_lt_iff (by omega) (by omega), List.cons_lt_cons_self,
    pad_append_lt_iff (by omega) (by omega), List.cons_lt_cons_self,
    pad_append_lt_iff (by omega) (by omega), List.cons_lt_cons_self,
    pad_append_lt_iff (by omega) (by omega), fraction_lt_iff t.nano_lt t'.nano_lt]
  simp only [List.cons_lt_cons_iff, List.not_lt_nil, and_false, or_false]

/-! ## The checker -/

variable {P : Type u} {V : Type w} [LinearOrder V]

/-- Where the timestamps are the stripped strings of distinct instants, the checker is valid if
and only if values never decrease over time. -/
theorem timestampValueChecker_valid_iff {history : List (Op P (List Char) V)}
    {instant : Op P (List Char) V → DateTime}
    (hrendered : ∀ op ∈ timestamped history,
      stripTime (instantText (instant op)) = some op.value.1)
    (hdistinct : (timestamped history).Pairwise fun a b =>
      (instant a).epochNano ≠ (instant b).epochNano) :
    timestampErrs history = [] ↔ ∀ a ∈ timestamped history, ∀ b ∈ timestamped history,
      (instant a).epochNano < (instant b).epochNano → a.value.2 ≤ b.value.2 := by
  have htext : ∀ op ∈ timestamped history, op.value.1 = timeText (instant op) := by
    intro op hop
    have hsome := hrendered op hop
    rw [stripTime_instantText] at hsome
    exact (Option.some.inj hsome).symm
  have hne : (timestamped history).Pairwise fun a b => a.value.1 ≠ b.value.1 := by
    apply hdistinct.imp_of_mem
    intro a b ha hb hab heq
    rw [htext a ha, htext b hb] at heq
    apply hab
    have hnot := (timeText_lt_iff (instant a) (instant b)).not.mp (heq ▸ lt_irrefl _)
    have hnot' := (timeText_lt_iff (instant b) (instant a)).not.mp (heq ▸ lt_irrefl _)
    exact le_antisymm (not_lt.mp hnot') (not_lt.mp hnot)
  rw [timestampErrs_eq_nil_iff hne]
  constructor
  · intro hvalues a ha b hb hlt
    apply hvalues a ha b hb
    rw [htext a ha, htext b hb]
    exact (timeText_lt_iff _ _).mpr hlt
  · intro hvalues a ha b hb hlt
    apply hvalues a ha b hb
    rw [htext a ha, htext b hb] at hlt
    exact (timeText_lt_iff _ _).mp hlt

/-- 22:15:09 of one day, and some milliseconds. -/
def evening (millis : Fin 1000) : DateTime :=
  ⟨2018, 12, 5, 22, 15, 9, millis * 1000000, by decide, by decide, by decide, by decide,
    by decide, by decide, by omega⟩

/-- Two reads, the later one first. -/
def eveningReads : List (Op ℕ (List Char) ℤ) :=
  [⟨0, .ok, .readAt, (timeText (evening 143), (2 : ℤ))⟩,
    ⟨1, .ok, .inc, (timeText (evening 0), (1 : ℤ))⟩]

/-- When an op of these was. -/
def eveningInstant (op : Op ℕ (List Char) ℤ) : DateTime :=
  evening (if op.process = 0 then 143 else 0)

theorem eveningReads_valid : timestampErrs eveningReads = [] :=
  (timestampValueChecker_valid_iff (by decide : ∀ op ∈ timestamped eveningReads,
    stripTime (instantText (eveningInstant op)) = some op.value.1) (by decide)).mpr (by decide)

end Jepsen.Faunadb.TimestampValues
