/-
# Dates, times and the order of their texts

A date and a time of day are an instant, in a calendar without time zones. Instants
are ordered like their fields, from the year down, and so are texts that have the
fields as padded numbers of the same width.
-/

import Mathlib

namespace Jepsen.Library

/-! ## The calendar -/

/-- Is there a February 29? -/
def isLeapYear (year : ℕ) : Bool :=
  decide (year % 4 = 0 ∧ (year % 100 ≠ 0 ∨ year % 400 = 0))

/-- The days of a month. -/
def monthLength (leap : Bool) (month : ℕ) : ℕ :=
  if month = 2 then if leap then 29 else 28
  else if month ∈ [4, 6, 9, 11] then 30
  else 31

/-- A date and a time of day, of the years that have four digits. -/
structure DateTime where
  year : ℕ
  month : ℕ
  day : ℕ
  hour : ℕ
  minute : ℕ
  second : ℕ
  nano : ℕ
  year_le : year ≤ 9999
  month_mem : 1 ≤ month ∧ month ≤ 12
  day_mem : 1 ≤ day ∧ day ≤ monthLength (isLeapYear year) month
  hour_lt : hour < 24
  minute_lt : minute < 60
  second_lt : second < 60
  nano_lt : nano < 1000000000

/-- The days before a year, since year 0. -/
def daysBeforeYear (year : ℕ) : ℤ :=
  365 * year + (year + 3) / 4 - (year + 99) / 100 + (year + 399) / 400

/-- The days before a month. -/
def daysBeforeMonth (leap : Bool) (month : ℕ) : ℤ :=
  (367 * month - 362) / 12 - (if 2 < month then if leap then 1 else 2 else 0)

namespace DateTime

/-- Days since January 1, 1970. -/
def epochDay (t : DateTime) : ℤ :=
  daysBeforeYear t.year + daysBeforeMonth (isLeapYear t.year) t.month + (t.day - 1) - 719528

/-- Seconds since the start of January 1, 1970. -/
def epochSecond (t : DateTime) : ℤ :=
  t.epochDay * 86400 + t.hour * 3600 + t.minute * 60 + t.second

/-- Nanoseconds since the start of January 1, 1970. -/
def epochNano (t : DateTime) : ℤ := t.epochSecond * 1000000000 + t.nano

/-- The fields, from the year down. -/
def fields (t : DateTime) : List ℕ :=
  [t.year, t.month, t.day, t.hour, t.minute, t.second, t.nano]

end DateTime

theorem daysBeforeYear_succ (year : ℕ) :
    daysBeforeYear (year + 1) = daysBeforeYear year + 365 + if isLeapYear year then 1 else 0 := by
  unfold daysBeforeYear
  cases hleap : isLeapYear year with
  | true =>
    have hrule := of_decide_eq_true hleap
    rw [if_pos rfl]
    push_cast
    omega
  | false =>
    have hrule := of_decide_eq_false hleap
    rw [if_neg Bool.false_ne_true]
    push_cast
    omega

/-- A later year starts after an earlier one is over. -/
theorem daysBeforeYear_lt {year year' : ℕ} (hlt : year < year') :
    daysBeforeYear year + 365 + (if isLeapYear year then 1 else 0) ≤ daysBeforeYear year' := by
  induction year', hlt using Nat.le_induction with
  | base => rw [← daysBeforeYear_succ]
  | succ year' hle ih =>
    rw [daysBeforeYear_succ]
    split_ifs <;> omega

theorem daysBeforeMonth_succ (leap : Bool) {month : ℕ} (hpos : 1 ≤ month) (hlt : month < 12) :
    daysBeforeMonth leap month + monthLength leap month ≤ daysBeforeMonth leap (month + 1) := by
  cases leap with
  | true => interval_cases month <;> decide
  | false => interval_cases month <;> decide

/-- A later month starts after an earlier one is over. -/
theorem daysBeforeMonth_lt (leap : Bool) {month month' : ℕ} (hpos : 1 ≤ month)
    (hlt : month < month') (hle : month' ≤ 12) :
    daysBeforeMonth leap month + monthLength leap month ≤ daysBeforeMonth leap month' := by
  induction month', hlt using Nat.le_induction with
  | base => exact daysBeforeMonth_succ leap hpos (by omega)
  | succ month' hge ih =>
    have hlength : (0 : ℤ) ≤ monthLength leap month' := Int.natCast_nonneg _
    calc daysBeforeMonth leap month + monthLength leap month
        ≤ daysBeforeMonth leap month' := ih (by omega)
      _ ≤ daysBeforeMonth leap month' + monthLength leap month' := by omega
      _ ≤ daysBeforeMonth leap (month' + 1) := daysBeforeMonth_succ leap (by omega) (by omega)

theorem daysBeforeMonth_one (leap : Bool) : daysBeforeMonth leap 1 = 0 := by
  cases leap <;> decide

theorem daysBeforeMonth_twelve (leap : Bool) :
    daysBeforeMonth leap 12 + monthLength leap 12 = 365 + if leap then 1 else 0 := by
  cases leap <;> decide

/-- A day is in its year. -/
theorem day_bounds {leap : Bool} {month day : ℕ} (hmonth : 1 ≤ month ∧ month ≤ 12)
    (hday : 1 ≤ day ∧ day ≤ monthLength leap month) :
    0 ≤ daysBeforeMonth leap month + (day - 1 : ℤ) ∧
      daysBeforeMonth leap month + (day : ℤ) ≤ 365 + if leap then 1 else 0 := by
  have hlength : (0 : ℤ) ≤ monthLength leap 12 := Int.natCast_nonneg _
  have hlength' : (0 : ℤ) ≤ monthLength leap 1 := Int.natCast_nonneg _
  have hone := daysBeforeMonth_one leap
  have htwelve := daysBeforeMonth_twelve leap
  constructor
  · rcases hmonth.1.lt_or_eq with hlt | heq
    · have hle := daysBeforeMonth_lt leap le_rfl hlt hmonth.2
      omega
    · rw [← heq, hone]
      omega
  · rcases hmonth.2.lt_or_eq with hlt | heq
    · have hle := daysBeforeMonth_lt leap hmonth.1 hlt le_rfl
      omega
    · rw [heq] at hday ⊢
      omega

namespace DateTime

/-- Days are ordered like years, months and days. -/
theorem epochDay_lt {t t' : DateTime} (hlt : t.year < t'.year ∨ t.year = t'.year ∧
    (t.month < t'.month ∨ t.month = t'.month ∧ t.day < t'.day)) : t.epochDay < t'.epochDay := by
  have hbounds := day_bounds t.month_mem t.day_mem
  have hbounds' := day_bounds t'.month_mem t'.day_mem
  unfold epochDay
  rcases hlt with hyear | ⟨hyear, hmonth | ⟨hmonth, hday⟩⟩
  · have hle := daysBeforeYear_lt hyear
    omega
  · have hle := daysBeforeMonth_lt (isLeapYear t.year) t.month_mem.1 hmonth
      t'.month_mem.2
    have hday := t.day_mem.2
    have hday' := t'.day_mem.1
    rw [← hyear]
    omega
  · rw [← hyear, ← hmonth]
    omega

theorem epochNano_lt {t t' : DateTime} (hlt : t.fields < t'.fields) :
    t.epochNano < t'.epochNano := by
  simp only [fields, List.cons_lt_cons_iff, List.not_lt_nil, and_false, or_false] at hlt
  have hhour := t.hour_lt
  have hhour' := t'.hour_lt
  have hminute := t.minute_lt
  have hminute' := t'.minute_lt
  have hsecond := t.second_lt
  have hsecond' := t'.second_lt
  have hnano := t.nano_lt
  have hnano' := t'.nano_lt
  by_cases hday : t.year < t'.year ∨ t.year = t'.year ∧
      (t.month < t'.month ∨ t.month = t'.month ∧ t.day < t'.day)
  · have hepoch := epochDay_lt hday
    unfold epochNano epochSecond
    omega
  · -- On one day, the time of day counts.
    have hsame : t.epochDay = t'.epochDay := by
      have hyear : t.year = t'.year := by omega
      have hmonth : t.month = t'.month := by omega
      have hday : t.day = t'.day := by omega
      unfold epochDay
      rw [hyear, hmonth, hday]
    unfold epochNano epochSecond
    rw [hsame]
    omega

/-- Instants are ordered like their fields. -/
theorem epochNano_lt_iff {t t' : DateTime} :
    t.epochNano < t'.epochNano ↔ t.fields < t'.fields := by
  constructor
  · intro hlt
    by_contra hnot
    rcases (not_lt.mp hnot).lt_or_eq with hgt | heq
    · exact absurd (epochNano_lt hgt) (not_lt.mpr hlt.le)
    · simp only [fields, List.cons.injEq, and_true] at heq
      unfold epochNano epochSecond epochDay at hlt
      simp only [heq] at hlt
      exact absurd hlt (lt_irrefl _)
  · exact epochNano_lt

end DateTime

/-! ## Padded numbers -/

/-- A number of some digits, with zeros in front. -/
def pad : ℕ → ℕ → List Char
  | 0, _ => []
  | width + 1, n => pad width (n / 10) ++ [Nat.digitChar (n % 10)]

theorem digitChar_lt_iff {a b : ℕ} (ha : a < 10) (hb : b < 10) :
    Nat.digitChar a < Nat.digitChar b ↔ a < b := by
  interval_cases a <;> interval_cases b <;> decide

theorem digitChar_inj {a b : ℕ} (ha : a < 10) (hb : b < 10) :
    Nat.digitChar a = Nat.digitChar b ↔ a = b := by
  interval_cases a <;> interval_cases b <;> decide

@[simp]
theorem length_pad (width n : ℕ) : (pad width n).length = width := by
  induction width generalizing n with
  | zero => rfl
  | succ width ih => rw [pad, List.length_append, ih, List.length_singleton]

/-- The last three digits. -/
theorem pad_add_three (width n : ℕ) :
    pad (width + 3) n = pad width (n / 1000) ++ pad 3 (n % 1000) := by
  have hthousands : n / 10 / 10 / 10 = n / 1000 := by omega
  have hhundreds : n % 1000 / 10 / 10 % 10 = n / 10 / 10 % 10 := by omega
  have htens : n % 1000 / 10 % 10 = n / 10 % 10 := by omega
  have hones : n % 1000 % 10 = n % 10 := by omega
  simp only [pad, hthousands, hhundreds, htens, hones, List.append_assoc, List.nil_append]

/-- Texts that start with two numbers are ordered like these, and then like what comes after. -/
theorem pad_append_lt_iff {width n n' : ℕ} (hn : n < 10 ^ width) (hn' : n' < 10 ^ width)
    {s s' : List Char} : pad width n ++ s < pad width n' ++ s' ↔ n < n' ∨ n = n' ∧ s < s' := by
  induction width generalizing n n' s s' with
  | zero =>
    rw [Nat.pow_zero, Nat.lt_one_iff] at hn hn'
    subst hn hn'
    simp [pad]
  | succ width ih =>
    rw [pad, pad, List.append_assoc, List.append_assoc, ih (by omega) (by omega)]
    simp only [List.singleton_append, List.cons_lt_cons_iff]
    rw [digitChar_lt_iff (Nat.mod_lt _ (by decide)) (Nat.mod_lt _ (by decide)),
      digitChar_inj (Nat.mod_lt _ (by decide)) (Nat.mod_lt _ (by decide))]
    constructor
    · rintro (hdiv | ⟨hdiv, hmod | ⟨hmod, hs⟩⟩)
      · left; omega
      · left; omega
      · exact .inr ⟨by omega, hs⟩
    · rintro (hlt | ⟨rfl, hs⟩)
      · omega
      · exact .inr ⟨rfl, .inr ⟨rfl, hs⟩⟩

/-- Groups of three digits. -/
def padGroups (groups : List ℕ) : List Char := groups.flatMap (pad 3)

theorem nil_lt_pad_append (width n : ℕ) (s : List Char) : [] < pad (width + 1) n ++ s := by
  cases htext : pad (width + 1) n ++ s with
  | nil =>
    have hlength := congrArg List.length htext
    rw [List.length_append, length_pad, List.length_nil] at hlength
    omega
  | cons c s => exact List.nil_lt_cons c s

theorem padGroups_lt_iff {groups groups' : List ℕ} (hgroups : ∀ n ∈ groups, n < 1000)
    (hgroups' : ∀ n ∈ groups', n < 1000) :
    padGroups groups < padGroups groups' ↔ groups < groups' := by
  induction groups generalizing groups' with
  | nil =>
    cases groups' with
    | nil => simp [padGroups]
    | cons n groups' => exact iff_of_true (nil_lt_pad_append 2 n _) (List.nil_lt_cons n groups')
  | cons n groups ih =>
    cases groups' with
    | nil => exact iff_of_false (List.not_lt_nil _) (List.not_lt_nil _)
    | cons n' groups' =>
      rw [List.forall_mem_cons] at hgroups hgroups'
      unfold padGroups at ih ⊢
      rw [List.flatMap_cons, List.flatMap_cons, pad_append_lt_iff hgroups.1 hgroups'.1,
        ih hgroups.2 hgroups'.2, List.cons_lt_cons_iff]

end Jepsen.Library
