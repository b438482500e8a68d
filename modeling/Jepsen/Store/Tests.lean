/-
# Stored tests in chronological order

Every test is stored in a directory of its name, in one of the local time at which
it started. `all-tests` sorts what it finds by these strings, as pairs with tests
that cannot be compared. Strings of local times are not ordered as the instants
are where the offset from UTC changes.
-/

import Jepsen.Library.ThrowingSort

namespace Jepsen.Store

open Jepsen.Library

/-! ## Start times -/

/-- A local time with the offset of its zone from UTC, in minutes. -/
structure StartTime where
  year : ℕ
  month : ℕ
  day : ℕ
  hour : ℕ
  minute : ℕ
  second : ℕ
  milli : ℕ
  offset : ℤ
  deriving DecidableEq

/-- The last so many decimal digits of a number. -/
def pad (n : ℕ) : ℕ → List Char
  | 0 => []
  | digits + 1 => pad (n / 10) digits ++ [Char.ofNat (48 + n % 10)]

/-- The offset as `Z` or a signed time of day. -/
def offsetText (offset : ℤ) : List Char :=
  if offset = 0 then ['Z']
  else (if 0 < offset then '+' else '-') ::
    (pad (offset.natAbs / 60) 2 ++ pad (offset.natAbs % 60) 2)

/-- `format-local-time` with `:basic-date-time`: yyyyMMdd'T'HHmmss.SSSZ. -/
def StartTime.text (t : StartTime) : List Char :=
  pad t.year 4 ++ pad t.month 2 ++ pad t.day 2 ++ ['T'] ++ pad t.hour 2 ++ pad t.minute 2 ++
    pad t.second 2 ++ ['.'] ++ pad t.milli 3 ++ offsetText t.offset

/-- The number of a day of the Gregorian calendar, from March 1st of the year 0 on. -/
def dayNumber (year month day : ℕ) : ℤ :=
  let y : ℤ := if month ≤ 2 then (year : ℤ) - 1 else year
  let m : ℤ := (month + 9) % 12
  365 * y + y / 4 - y / 100 + y / 400 + (153 * m + 2) / 5 + ((day : ℤ) - 1)

/-- The instant of a start time, in milliseconds. -/
def StartTime.instant (t : StartTime) : ℤ :=
  (((dayNumber t.year t.month t.day * 24 + t.hour) * 60 + t.minute - t.offset) * 60 + t.second) *
    1000 + t.milli

/-! ## Directories -/

/-- A file name. -/
abbrev FileName := List Char

/-- A stored test, with the components of its name as a path. -/
structure StoredTest where
  name : List FileName
  startTime : StartTime
  deriving DecidableEq

/-- `path`, from the base directory on. -/
def StoredTest.path (t : StoredTest) : List FileName := t.name ++ [t.startTime.text]

/-- The directory in a directory that a path goes through. -/
def firstTwo : List FileName → Option (FileName × FileName)
  | name :: run :: _ => some (name, run)
  | _ => none

/-- The directories in directories of the base directory. -/
def runs (stored : List StoredTest) : List (FileName × FileName) :=
  (stored.filterMap fun t => firstTwo t.path).dedup

/-- `all-tests`, with the tests found in this order: each by the path it is loaded from; none if
it throws. -/
def allTests (found : List (FileName × FileName)) : Option (List (List FileName)) :=
  -- Delays cannot be compared
  (throwingSort Prod.snd found).map fun sorted => sorted.map fun run => [run.1, run.2]

/-- `latest`; there is no last of no tests. -/
def latest (found : List (FileName × FileName)) : Option (List FileName) :=
  (throwingSort Prod.snd found).bind fun sorted =>
    sorted.getLast?.map fun run => [run.1, run.2]

/-! ## Chronological order -/

/-- Neither throws, all tests are each test once in the order of their instants, and the latest is
one of the last instant. -/
def Chronological (stored : List StoredTest) : Prop :=
  ∀ found : List (FileName × FileName), found.Perm (runs stored) →
    ∃ tests : List StoredTest, tests.Perm stored ∧
      tests.Pairwise (fun t t' => t.startTime.instant ≤ t'.startTime.instant) ∧
      allTests found = some (tests.map StoredTest.path) ∧
      ∃ last ∈ tests, latest found = some last.path ∧
        ∀ t ∈ tests, t.startTime.instant ≤ last.startTime.instant

/-- Tests that are sorted as they started: some, in directories right in the base directory,
with different start strings that are ordered as the instants are. -/
structure Sortable (stored : List StoredTest) : Prop where
  some : stored ≠ []
  direct : ∀ t ∈ stored, t.name.length = 1
  distinct : (stored.map fun t => t.startTime.text).Nodup
  ordered : ∀ t ∈ stored, ∀ t' ∈ stored, t.startTime.text < t'.startTime.text →
    t.startTime.instant ≤ t'.startTime.instant

theorem path_eq {t : StoredTest} (hdirect : t.name.length = 1) :
    ∃ name, t.name = [name] ∧ t.path = [name, t.startTime.text] := by
  obtain ⟨name, hname⟩ := List.length_eq_one_iff.mp hdirect
  exact ⟨name, hname, by rw [StoredTest.path, hname]; rfl⟩

/-- The directory that a test right in the base directory is found as. -/
def StoredTest.run (t : StoredTest) : FileName × FileName :=
  (t.name.headD [], t.startTime.text)

/-- Where a found directory is loaded from. -/
def loadPath (run : FileName × FileName) : List FileName := [run.1, run.2]

theorem loadPath_run {t : StoredTest} (hdirect : t.name.length = 1) :
    loadPath t.run = t.path := by
  obtain ⟨name, hname, hpath⟩ := path_eq hdirect
  rw [hpath, StoredTest.run, hname]
  rfl

theorem runs_eq {stored : List StoredTest} (hnodup : (stored.map StoredTest.path).Nodup)
    (hdirect : ∀ t ∈ stored, t.name.length = 1) : runs stored = stored.map StoredTest.run := by
  have hrun : ∀ t ∈ stored, firstTwo t.path = some t.run := by
    intro t ht
    rw [← loadPath_run (hdirect t ht)]
    rfl
  have hfilter : (stored.filterMap fun t => firstTwo t.path) = stored.map StoredTest.run := by
    rw [← List.filterMap_eq_map]
    exact List.filterMap_congr hrun
  unfold runs
  rw [hfilter]
  apply List.dedup_eq_self.mpr
  refine List.Nodup.of_map loadPath ?_
  rw [List.map_map]
  have hpath : stored.map (loadPath ∘ StoredTest.run) = stored.map StoredTest.path :=
    List.map_congr_left fun t ht => loadPath_run (hdirect t ht)
  rw [hpath]
  exact hnodup

/-- A permutation of a map is the map of a permutation. -/
theorem exists_map_of_perm {α β : Type*} {f : α → β} {l : List α} {l' : List β}
    (hperm : l'.Perm (l.map f)) : ∃ s : List α, s.Perm l ∧ l' = s.map f := by
  generalize hm : l.map f = m at hperm
  induction hperm generalizing l with
  | nil =>
    rw [List.map_eq_nil_iff] at hm
    exact ⟨[], by rw [hm], rfl⟩
  | cons x _ ih =>
    obtain ⟨a, l, rfl, rfl, hl⟩ := List.map_eq_cons_iff.mp hm
    obtain ⟨s, hs, rfl⟩ := ih hl
    exact ⟨a :: s, hs.cons a, rfl⟩
  | swap x y xs =>
    obtain ⟨a, l, rfl, rfl, hl⟩ := List.map_eq_cons_iff.mp hm
    obtain ⟨b, l, rfl, rfl, rfl⟩ := List.map_eq_cons_iff.mp hl
    exact ⟨b :: a :: l, List.Perm.swap a b l, rfl⟩
  | trans _ _ ih₁ ih₂ =>
    obtain ⟨s, hs, rfl⟩ := ih₂ hm
    obtain ⟨s', hs', rfl⟩ := ih₁ rfl
    exact ⟨s', hs'.trans hs, rfl⟩

/-- What comes before in a list that ascends has the smaller key. -/
theorem rel_of_ascending {α K : Type*} [LinearOrder K] {key : α → K} {l : List α}
    {R : α → α → Prop} (hasc : l.Pairwise fun x y => key x < key y) (hrel : l.Pairwise R)
    {x y : α} (hx : x ∈ l) (hy : y ∈ l) (hlt : key x < key y) : R x y := by
  induction l with
  | nil => exact absurd hx List.not_mem_nil
  | cons z l ih =>
    obtain ⟨hfirst, hasc⟩ := List.pairwise_cons.mp hasc
    obtain ⟨hfirst', hrel⟩ := List.pairwise_cons.mp hrel
    rcases List.mem_cons.mp hx with rfl | hxl
    · rcases List.mem_cons.mp hy with rfl | hyl
      · exact absurd hlt (lt_irrefl _)
      · exact hfirst' y hyl
    · rcases List.mem_cons.mp hy with rfl | hyl
      · exact absurd hlt (hfirst x hxl).asymm
      · exact ih hasc hrel hxl hyl

theorem le_getLast {l : List StoredTest} (hne : l ≠ [])
    (hsorted : l.Pairwise fun t t' => t.startTime.instant ≤ t'.startTime.instant) :
    ∀ t ∈ l, t.startTime.instant ≤ (l.getLast hne).startTime.instant := by
  induction l with
  | nil => exact absurd rfl hne
  | cons x l ih =>
    obtain ⟨hfirst, hrest⟩ := List.pairwise_cons.mp hsorted
    intro t ht
    by_cases hnil : l = []
    · subst hnil
      rw [List.mem_singleton.mp ht, List.getLast_singleton]
    · rw [List.getLast_cons hnil]
      rcases List.mem_cons.mp ht with rfl | ht
      · exact hfirst _ (List.getLast_mem hnil)
      · exact ih hnil hrest t ht

theorem chronological_of_sortable {stored : List StoredTest}
    (hnodup : (stored.map StoredTest.path).Nodup) (h : Sortable stored) :
    Chronological stored := by
  intro found hfound
  rw [runs_eq hnodup h.direct] at hfound
  have hkeys : (found.map Prod.snd).Nodup := by
    rw [(hfound.map Prod.snd).nodup_iff, List.map_map]
    exact h.distinct
  obtain ⟨sorted, hsorted, hperm, hasc⟩ := throwingSort_spec hkeys
  obtain ⟨tests, htests, rfl⟩ := exists_map_of_perm (hperm.trans hfound)
  have hdirect : ∀ t ∈ tests, t.name.length = 1 := fun t ht =>
    h.direct t (htests.mem_iff.mp ht)
  have hinstants : tests.Pairwise
      fun t t' => t.startTime.instant ≤ t'.startTime.instant := by
    unfold Ascending at hasc
    rw [List.pairwise_map] at hasc
    refine hasc.imp_of_mem fun ht ht' hlt => ?_
    exact h.ordered _ (htests.mem_iff.mp ht) _ (htests.mem_iff.mp ht') hlt
  have hne : tests ≠ [] := by
    rintro rfl
    exact h.some (htests.nil_eq).symm
  refine ⟨tests, htests, hinstants, ?_, tests.getLast hne, List.getLast_mem hne, ?_,
    le_getLast hne hinstants⟩
  · have hpath : tests.map (loadPath ∘ StoredTest.run) = tests.map StoredTest.path :=
      List.map_congr_left fun t ht => loadPath_run (hdirect t ht)
    rw [← hpath, ← List.map_map]
    unfold allTests
    rw [hsorted]
    rfl
  · rw [← loadPath_run (hdirect _ (List.getLast_mem hne))]
    unfold latest
    rw [hsorted, Option.bind_some, List.getLast?_map, List.getLast?_eq_some_getLast hne]
    rfl

theorem sortable_of_chronological {stored : List StoredTest}
    (hnodup : (stored.map StoredTest.path).Nodup) (h : Chronological stored) :
    Sortable stored := by
  obtain ⟨tests, htests, hinstants, hall, last, hlast, -⟩ := h _ (List.Perm.refl _)
  unfold allTests at hall
  obtain ⟨sorted, hsorted, hpaths⟩ := Option.map_eq_some_iff.mp hall
  have hdirect : ∀ t ∈ stored, t.name.length = 1 := by
    intro t ht
    have hmem : t.path ∈ sorted.map fun run => [run.1, run.2] := by
      rw [hpaths]
      exact List.mem_map_of_mem (htests.mem_iff.mpr ht)
    obtain ⟨run, -, hrun⟩ := List.mem_map.mp hmem
    have hlength := congrArg List.length hrun
    rw [StoredTest.path, List.length_append] at hlength
    simpa using hlength.symm
  have hkeys := nodup_of_throwingSort hsorted
  rw [runs_eq hnodup hdirect, List.map_map] at hkeys
  obtain ⟨sorted', hsorted', -, hasc⟩ := throwingSort_spec (nodup_of_throwingSort hsorted)
  rw [hsorted] at hsorted'
  cases hsorted'
  have htexts : sorted.map Prod.snd = tests.map fun t => t.startTime.text := by
    have hsnd := congrArg (List.map fun path : List FileName => path.getLastD []) hpaths
    rw [List.map_map, List.map_map] at hsnd
    refine Eq.trans ?_ (hsnd.trans ?_)
    · rfl
    · apply List.map_congr_left
      intro t ht
      rw [Function.comp_apply, StoredTest.path, List.getLastD_concat]
  have hasc' : tests.Pairwise fun t t' => t.startTime.text < t'.startTime.text := by
    unfold Ascending at hasc
    rw [← List.pairwise_map, htexts, List.pairwise_map] at hasc
    exact hasc
  constructor
  · rintro rfl
    rw [htests.eq_nil] at hlast
    exact List.not_mem_nil hlast
  · exact hdirect
  · exact hkeys
  · intro t ht t' ht' hlt
    exact rel_of_ascending hasc' hinstants (htests.mem_iff.mpr ht) (htests.mem_iff.mpr ht') hlt

/-- The tests of a store are found in chronological order exactly if they are sortable. -/
theorem chronological_iff {stored : List StoredTest}
    (hnodup : (stored.map StoredTest.path).Nodup) :
    Chronological stored ↔ Sortable stored :=
  ⟨sortable_of_chronological hnodup, chronological_of_sortable hnodup⟩

/-- A test started at midnight UTC. -/
def midnight (name : FileName) : StoredTest := ⟨[name], ⟨2020, 1, 1, 0, 0, 0, 0, 0⟩⟩

theorem oneTest_chronological : Chronological [midnight ['a']] := by
  refine (chronological_iff (by decide)).mpr ⟨by decide, by decide, by decide, ?_⟩
  intro t ht t' ht' hlt
  rw [List.mem_singleton.mp ht, List.mem_singleton.mp ht'] at hlt
  exact absurd hlt (lt_irrefl _)

/-- Two tests that start at once cannot be sorted. -/
theorem sameStart_not_chronological :
    ([midnight ['a'], midnight ['b']].map StoredTest.path).Nodup ∧
      ¬ Chronological [midnight ['a'], midnight ['b']] := by
  have hnodup : ([midnight ['a'], midnight ['b']].map StoredTest.path).Nodup := by decide
  refine ⟨hnodup, fun h => ?_⟩
  exact absurd (sortable_of_chronological hnodup h).distinct (by decide)

end Jepsen.Store
