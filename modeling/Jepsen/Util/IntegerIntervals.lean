/-
# Sets of integers as intervals

`integer-interval-set-str` goes through a sorted set, puts consecutive integers
into runs, and prints each run as an integer or an interval. What is printed can be
expanded to the set again.
-/

import Jepsen.Util.Strings

namespace Jepsen.Util

/-! ## Runs -/

/-- The runs that are complete, and the start and end of the current one. -/
structure Runs where
  runs : List (ℤ × ℤ)
  current : Option (ℤ × ℤ)

/-- The function that the runs are reduced with. -/
def Runs.step (state : Runs) (cur : ℤ) : Runs :=
  match state.current with
  -- Start new run
  | none => { state with current := some (cur, cur) }
  | some (start, last) =>
    if cur = last + 1 then
      -- Continue run
      { state with current := some (start, cur) }
    else
      -- Break
      { runs := state.runs ++ [(start, last)], current := some (cur, cur) }

/-- The runs with the current one. -/
def Runs.all (state : Runs) : List (ℤ × ℤ) :=
  match state.current with
  | none => state.runs
  | some run => state.runs ++ [run]

/-- The runs of a set. -/
def runsOf (set : Finset ℤ) : List (ℤ × ℤ) :=
  ((set.sort (· ≤ ·)).foldl Runs.step ⟨[], none⟩).all

/-! ## Printing -/

/-- How an integer is printed. -/
def renderInt (n : ℤ) : List Char :=
  if n < 0 then '-' :: Nat.toDigits 10 n.natAbs else Nat.toDigits 10 n.natAbs

/-- How a run is printed. -/
def renderRun (run : ℤ × ℤ) : List Char :=
  if run.1 = run.2 then renderInt run.1
  else renderInt run.1 ++ "..".toList ++ renderInt run.2

/-- `integer-interval-set-str`, of a set without nil. -/
def integerIntervalSetStr (set : Finset ℤ) : List Char :=
  ['#', '\x7b'] ++ join ' ' ((runsOf set).map renderRun) ++ ['\x7d']

/-! ## Expanding -/

/-- Read an integer. -/
def readInt : List Char → ℤ
  | '-' :: digits => -(Nat.ofDigitChars 10 digits 0 : ℤ)
  | digits => Nat.ofDigitChars 10 digits 0

/-- The integers of an interval. -/
def interval (start last : ℤ) : Finset ℤ :=
  ((List.range (last + 1 - start).toNat).map fun k : ℕ => start + k).toFinset

/-- Expand a singleton or an interval. -/
def expandRun (text : List Char) : Finset ℤ :=
  match text.splitOn '.' with
  | [[]] => ∅
  | [n] => {readInt n}
  | [start, _, last] => interval (readInt start) (readInt last)
  | _ => ∅

/-- Expand all that is between the braces. -/
def expand (text : List Char) : Finset ℤ :=
  (((text.drop 2).dropLast.splitOn ' ').map expandRun).foldr (· ∪ ·) ∅

/-! ## The runs are those of the set -/

/-- Runs are sorted, disjoint and not adjacent. -/
structure AreRuns (runs : List (ℤ × ℤ)) : Prop where
  le : ∀ run ∈ runs, run.1 ≤ run.2
  apart : runs.Pairwise fun a b => a.2 + 1 < b.1

/-- An integer is in one of the runs. -/
def Covers (runs : List (ℤ × ℤ)) (n : ℤ) : Prop := ∃ run ∈ runs, run.1 ≤ n ∧ n ≤ run.2

theorem covers_append {runs runs' : List (ℤ × ℤ)} {n : ℤ} :
    Covers (runs ++ runs') n ↔ Covers runs n ∨ Covers runs' n := by
  unfold Covers
  constructor
  · intro hcovers
    obtain ⟨run, hrun, hn⟩ := hcovers
    cases List.mem_append.mp hrun with
    | inl hrun => exact .inl ⟨run, hrun, hn⟩
    | inr hrun => exact .inr ⟨run, hrun, hn⟩
  · intro hor
    cases hor with
    | inl hcovers =>
      obtain ⟨run, hrun, hn⟩ := hcovers
      exact ⟨run, List.mem_append_left _ hrun, hn⟩
    | inr hcovers =>
      obtain ⟨run, hrun, hn⟩ := hcovers
      exact ⟨run, List.mem_append_right _ hrun, hn⟩

theorem covers_singleton {run : ℤ × ℤ} {n : ℤ} : Covers [run] n ↔ run.1 ≤ n ∧ n ≤ run.2 := by
  unfold Covers
  constructor
  · intro hcovers
    obtain ⟨run', hrun', hn⟩ := hcovers
    rw [List.mem_singleton.mp hrun'] at hn
    exact hn
  · exact fun hn => ⟨run, List.mem_singleton_self run, hn⟩

/-- The last run can be longer, or there can be another after it. -/
theorem areRuns_append_iff {runs : List (ℤ × ℤ)} {run : ℤ × ℤ} :
    AreRuns (runs ++ [run]) ↔ AreRuns runs ∧ run.1 ≤ run.2 ∧ ∀ r ∈ runs, r.2 + 1 < run.1 := by
  constructor
  · intro hruns
    have hpairs := List.pairwise_append.mp hruns.apart
    exact ⟨⟨fun r hr => hruns.le r (List.mem_append_left _ hr), hpairs.1⟩,
      hruns.le run (List.mem_append_right _ (List.mem_singleton_self run)),
      fun r hr => hpairs.2.2 r hr run (List.mem_singleton_self run)⟩
  · intro hand
    refine ⟨fun r hr => ?_, List.pairwise_append.mpr ⟨hand.1.apart, List.pairwise_singleton _ _, ?_⟩⟩
    · cases List.mem_append.mp hr with
      | inl hr => exact hand.1.le r hr
      | inr hr =>
        rw [List.mem_singleton.mp hr]
        exact hand.2.1
    · intro r hr r' hr'
      rw [List.mem_singleton.mp hr']
      exact hand.2.2 r hr

/-- What is ahead is greater than the end of the current run. -/
def Ahead (state : Runs) (ahead : List ℤ) : Prop :=
  ∀ start last, state.current = some (start, last) → ∀ n ∈ ahead, last < n

/-- Where there is no current run, there is none before. -/
def Fresh (state : Runs) : Prop := state.current = none → state.runs = []

/-- A step adds an integer to the runs. -/
theorem step_spec {state : Runs} {cur : ℤ} {ahead : List ℤ} (hruns : AreRuns state.all)
    (hfresh : Fresh state) (hahead : Ahead state (cur :: ahead)) (hlt : ∀ n ∈ ahead, cur < n) :
    AreRuns (state.step cur).all ∧ Fresh (state.step cur) ∧ Ahead (state.step cur) ahead ∧
      ∀ n, Covers (state.step cur).all n ↔ Covers state.all n ∨ n = cur := by
  unfold Runs.step
  cases hcurrent : state.current with
  | none =>
    have hnil : state.all = [] := by
      unfold Runs.all
      rw [hcurrent]
      exact hfresh hcurrent
    have hall : Runs.all { state with current := some (cur, cur) } = [(cur, cur)] := by
      change state.runs ++ [(cur, cur)] = _
      rw [hfresh hcurrent]
      rfl
    dsimp only
    rw [hall, hnil]
    refine ⟨⟨fun run hrun => ?_, List.pairwise_singleton _ _⟩, fun hfalse => ?_,
      fun start last hsome n hn => ?_, fun n => ?_⟩
    · rw [List.mem_singleton.mp hrun]
    · cases hfalse
    · cases hsome
      exact hlt n hn
    · rw [covers_singleton]
      constructor
      · intro hn
        exact .inr (le_antisymm hn.2 hn.1)
      · intro hor
        cases hor with
        | inl hfalse =>
          obtain ⟨run, hrun, -⟩ := hfalse
          exact absurd hrun List.not_mem_nil
        | inr heq =>
          rw [heq]
          exact ⟨le_rfl, le_rfl⟩
  | some run =>
    obtain ⟨start, last⟩ := run
    have hall : state.all = state.runs ++ [(start, last)] := by
      unfold Runs.all
      rw [hcurrent]
    rw [hall] at hruns ⊢
    obtain ⟨hbefore, hle, hapart⟩ := areRuns_append_iff.mp hruns
    have hcur : last < cur := hahead start last hcurrent cur List.mem_cons_self
    dsimp only at hle hapart ⊢
    by_cases hnext : cur = last + 1
    · rw [if_pos hnext]
      refine ⟨areRuns_append_iff.mpr ⟨hbefore, ?_, hapart⟩, fun hfalse => ?_,
        fun start' last' hsome n hn => ?_, fun n => ?_⟩
      · change start ≤ cur
        omega
      · cases hfalse
      · cases hsome
        exact hlt n hn
      · change Covers (state.runs ++ [(start, cur)]) n ↔ _
        rw [covers_append, covers_append, covers_singleton, covers_singleton, or_assoc]
        refine or_congr_right ?_
        dsimp only
        omega
    · rw [if_neg hnext]
      refine ⟨areRuns_append_iff.mpr ⟨hruns, le_rfl, fun r hr => ?_⟩, fun hfalse => ?_,
        fun start' last' hsome n hn => ?_, fun n => ?_⟩
      · dsimp only
        cases List.mem_append.mp hr with
        | inl hr =>
          have hr' := hapart r hr
          omega
        | inr hr =>
          rw [List.mem_singleton.mp hr]
          dsimp only
          omega
      · cases hfalse
      · cases hsome
        exact hlt n hn
      · change Covers (state.runs ++ [(start, last)] ++ [(cur, cur)]) n ↔ _
        rw [covers_append, covers_singleton]
        refine or_congr_right ?_
        dsimp only
        omega

/-- All integers end up in the runs. -/
theorem foldl_step_spec {l : List ℤ} (hsorted : l.Pairwise (· < ·)) {state : Runs}
    (hruns : AreRuns state.all) (hfresh : Fresh state) (hahead : Ahead state l) :
    AreRuns (l.foldl Runs.step state).all ∧
      ∀ n, Covers (l.foldl Runs.step state).all n ↔ Covers state.all n ∨ n ∈ l := by
  induction l generalizing state with
  | nil =>
    refine ⟨hruns, fun n => ?_⟩
    rw [List.foldl_nil]
    exact (or_iff_left List.not_mem_nil).symm
  | cons cur l ih =>
    obtain ⟨hlt, htail⟩ := List.pairwise_cons.mp hsorted
    obtain ⟨hruns', hfresh', hahead', hcovers⟩ := step_spec hruns hfresh hahead hlt
    obtain ⟨hall, hcovers'⟩ := ih htail hruns' hfresh' hahead'
    refine ⟨hall, fun n => ?_⟩
    rw [List.foldl_cons, hcovers' n, hcovers n, List.mem_cons, or_assoc]

theorem areRuns_runsOf (set : Finset ℤ) :
    AreRuns (runsOf set) ∧ ∀ n, Covers (runsOf set) n ↔ n ∈ set := by
  have hsorted : (set.sort (· ≤ ·)).Pairwise (· < ·) := (Finset.sortedLT_sort set).pairwise
  have hempty : AreRuns (Runs.all ⟨[], none⟩) :=
    ⟨fun run hrun => absurd hrun List.not_mem_nil, List.Pairwise.nil⟩
  have hahead : Ahead ⟨[], none⟩ (set.sort (· ≤ ·)) := by
    intro start last hfalse
    cases hfalse
  obtain ⟨hruns, hcovers⟩ := foldl_step_spec hsorted hempty (fun _ => rfl) hahead
  refine ⟨hruns, fun n => (hcovers n).trans ?_⟩
  rw [Finset.mem_sort]
  refine or_iff_right ?_
  intro hfalse
  obtain ⟨run, hrun, -⟩ := hfalse
  exact absurd hrun List.not_mem_nil

/-! ## What is printed can be read -/

theorem mem_interval {start last n : ℤ} : n ∈ interval start last ↔ start ≤ n ∧ n ≤ last := by
  unfold interval
  rw [List.mem_toFinset, List.mem_map]
  constructor
  · intro hmem
    obtain ⟨k, hk, rfl⟩ := hmem
    have hlt := List.mem_range.mp hk
    omega
  · intro hn
    exact ⟨(n - start).toNat, List.mem_range.mpr (by omega), by omega⟩

theorem isDigit_of_mem_toDigits {n : ℕ} {c : Char} (hc : c ∈ Nat.toDigits 10 n) :
    c.isDigit = true :=
  Nat.isDigit_of_mem_toDigits (by decide) (by decide) hc

/-- An integer is printed with digits, and a sign if it is negative. -/
theorem mem_renderInt {n : ℤ} {c : Char} (hc : c ∈ renderInt n) : c = '-' ∨ c.isDigit = true := by
  unfold renderInt at hc
  split_ifs at hc
  · cases List.mem_cons.mp hc with
    | inl heq => exact .inl heq
    | inr hc => exact .inr (isDigit_of_mem_toDigits hc)
  · exact .inr (isDigit_of_mem_toDigits hc)

theorem renderInt_ne_nil (n : ℤ) : renderInt n ≠ [] := by
  unfold renderInt
  split_ifs
  · exact List.cons_ne_nil _ _
  · exact Nat.toDigits_ne_nil

theorem dot_notMem_renderInt (n : ℤ) : '.' ∉ renderInt n := by
  intro hmem
  cases mem_renderInt hmem with
  | inl heq => exact absurd heq (by decide)
  | inr hdigit => exact absurd hdigit (by decide)

theorem blank_notMem_renderInt (n : ℤ) : ' ' ∉ renderInt n := by
  intro hmem
  cases mem_renderInt hmem with
  | inl heq => exact absurd heq (by decide)
  | inr hdigit => exact absurd hdigit (by decide)

theorem readInt_of_isDigit {c : Char} {text : List Char} (hc : c.isDigit = true) :
    readInt (c :: text) = Nat.ofDigitChars 10 (c :: text) 0 := by
  unfold readInt
  split
  · rename_i heq
    cases heq
    exact absurd hc (by decide)
  · rfl

theorem readInt_renderInt (n : ℤ) : readInt (renderInt n) = n := by
  unfold renderInt
  split_ifs with hneg
  · change -(Nat.ofDigitChars 10 (Nat.toDigits 10 n.natAbs) 0 : ℤ) = n
    rw [Nat.ofDigitChars_ten_toDigits]
    omega
  · cases hdigits : Nat.toDigits 10 n.natAbs with
    | nil => exact absurd hdigits Nat.toDigits_ne_nil
    | cons c text =>
      have hc : c.isDigit = true := by
        apply isDigit_of_mem_toDigits (n := n.natAbs)
        rw [hdigits]
        exact List.mem_cons_self
      rw [readInt_of_isDigit hc, ← hdigits, Nat.ofDigitChars_ten_toDigits]
      omega

theorem blank_notMem_renderRun (run : ℤ × ℤ) : ' ' ∉ renderRun run := by
  unfold renderRun
  split_ifs
  · exact blank_notMem_renderInt run.1
  · intro hmem
    rcases List.mem_append.mp hmem with hmem | hmem
    · rcases List.mem_append.mp hmem with hmem | hmem
      · exact blank_notMem_renderInt run.1 hmem
      · exact absurd hmem (by decide)
    · exact blank_notMem_renderInt run.2 hmem

/-- A run is expanded to its integers. -/
theorem mem_expandRun {run : ℤ × ℤ} {n : ℤ} :
    n ∈ expandRun (renderRun run) ↔ run.1 ≤ n ∧ n ≤ run.2 := by
  unfold renderRun
  split_ifs with heq
  · have hsplit : (renderInt run.1).splitOn '.' = [renderInt run.1] := by
      have hpieces : ∀ piece ∈ [renderInt run.1], '.' ∉ piece := by
        intro piece hpiece
        rw [List.mem_singleton.mp hpiece]
        exact dot_notMem_renderInt run.1
      have hjoin : join '.' [renderInt run.1] = renderInt run.1 := by
        simp [join, List.intercalate]
      rw [← hjoin, splitOn_join hpieces (List.cons_ne_nil _ _), hjoin]
    unfold expandRun
    rw [hsplit]
    cases hrender : renderInt run.1 with
    | nil => exact absurd hrender (renderInt_ne_nil run.1)
    | cons c text =>
      dsimp only
      rw [← hrender, readInt_renderInt, Finset.mem_singleton, ← heq]
      omega
  · have hsplit : (renderInt run.1 ++ "..".toList ++ renderInt run.2).splitOn '.' =
        [renderInt run.1, [], renderInt run.2] := by
      have hpieces : ∀ piece ∈ [renderInt run.1, [], renderInt run.2], '.' ∉ piece := by
        intro piece hpiece
        rcases List.mem_cons.mp hpiece with rfl | hpiece
        · exact dot_notMem_renderInt run.1
        · rcases List.mem_cons.mp hpiece with rfl | hpiece
          · exact List.not_mem_nil
          · rw [List.mem_singleton.mp hpiece]
            exact dot_notMem_renderInt run.2
      have hjoin : join '.' [renderInt run.1, [], renderInt run.2] =
          renderInt run.1 ++ "..".toList ++ renderInt run.2 := by
        simp [join, List.intercalate]
      rw [← hjoin]
      exact splitOn_join hpieces (List.cons_ne_nil _ _)
    unfold expandRun
    rw [hsplit]
    cases hrender : renderInt run.1 with
    | nil => exact absurd hrender (renderInt_ne_nil run.1)
    | cons c text =>
      change n ∈ interval (readInt (c :: text)) (readInt (renderInt run.2)) ↔ _
      rw [← hrender, readInt_renderInt, readInt_renderInt, mem_interval]

theorem mem_foldr_union {sets : List (Finset ℤ)} {n : ℤ} :
    n ∈ sets.foldr (· ∪ ·) ∅ ↔ ∃ set ∈ sets, n ∈ set := by
  induction sets with
  | nil => simp
  | cons set sets ih =>
    rw [List.foldr_cons, Finset.mem_union, ih]
    constructor
    · intro hor
      cases hor with
      | inl hn => exact ⟨set, List.mem_cons_self, hn⟩
      | inr hn =>
        obtain ⟨set', hset', hn⟩ := hn
        exact ⟨set', List.mem_cons_of_mem set hset', hn⟩
    · intro hn
      obtain ⟨set', hset', hn⟩ := hn
      rcases List.mem_cons.mp hset' with rfl | hset'
      · exact .inl hn
      · exact .inr ⟨set', hset', hn⟩

/-- What is between the braces is split into the runs again. -/
theorem expand_integerIntervalSetStr (set : Finset ℤ) :
    expand (integerIntervalSetStr set) = set := by
  have hcovers := (areRuns_runsOf set).2
  have hbraces : ((integerIntervalSetStr set).drop 2).dropLast =
      join ' ' ((runsOf set).map renderRun) := by
    unfold integerIntervalSetStr
    rw [List.append_assoc]
    exact List.dropLast_concat
  unfold expand
  rw [hbraces]
  ext n
  rw [← hcovers n, mem_foldr_union]
  cases hset : runsOf set with
  | nil =>
    refine iff_of_false ?_ ?_
    · intro hn
      obtain ⟨s, hs, hn⟩ := hn
      have hempty : s = ∅ := by
        rw [List.map_nil] at hs
        exact List.mem_singleton.mp hs
      rw [hempty] at hn
      exact absurd hn (Finset.notMem_empty n)
    · intro hfalse
      obtain ⟨run, hrun, -⟩ := hfalse
      exact absurd hrun List.not_mem_nil
  | cons first rest =>
    rw [← hset]
    have hsplit : (join ' ' ((runsOf set).map renderRun)).splitOn ' ' =
        (runsOf set).map renderRun := by
      apply splitOn_join
      · intro piece hpiece
        obtain ⟨run, -, rfl⟩ := List.mem_map.mp hpiece
        exact blank_notMem_renderRun run
      · rw [hset]
        exact List.cons_ne_nil _ _
    rw [hsplit]
    constructor
    · intro hn
      obtain ⟨s, hs, hn⟩ := hn
      obtain ⟨text, htext, rfl⟩ := List.mem_map.mp hs
      obtain ⟨run, hrun, rfl⟩ := List.mem_map.mp htext
      exact ⟨run, hrun, mem_expandRun.mp hn⟩
    · intro hn
      obtain ⟨run, hrun, hn⟩ := hn
      exact ⟨expandRun (renderRun run), List.mem_map_of_mem (List.mem_map_of_mem hrun),
        mem_expandRun.mpr hn⟩

/-- The runs of a set are sorted, disjoint and not adjacent, and the set can be read off what is
printed, so distinct sets are printed differently. -/
theorem integerIntervalSetStr_lossless :
    (∀ set : Finset ℤ, AreRuns (runsOf set) ∧ (∀ n, Covers (runsOf set) n ↔ n ∈ set) ∧
      expand (integerIntervalSetStr set) = set) ∧
    Function.Injective integerIntervalSetStr := by
  constructor
  · exact fun set => ⟨(areRuns_runsOf set).1, (areRuns_runsOf set).2,
      expand_integerIntervalSetStr set⟩
  · intro set set' heq
    rw [← expand_integerIntervalSetStr set, heq, expand_integerIntervalSetStr]

end Jepsen.Util
