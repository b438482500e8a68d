/-
# Stale reads

A linearizable set is invalid when a read misses an element that was known
before the read was invoked. The checker judges staleness by the stable latency,
which is rounded down to milliseconds: a stable element counts as stale only if
the last read that missed it was invoked a millisecond after it was known.
-/

import Jepsen.Checker.SetFullVerdict

namespace Jepsen.Checker

open Jepsen.History Jepsen.Library

universe u

variable {α : Type u}

/-! ## Staleness -/

/-- Times never go back. -/
def NonDecreasing (history : List (SetOp α)) : Prop :=
  history.Pairwise fun op op' => op.time ≤ op'.time

/-- A read that was invoked after its element was known lacks it. -/
def StaleRead (history : List (SetOp α)) : Prop :=
  ∃ a, ∃ known ∈ clientOps history, known.MakesKnown a ∧
    ∃ op v inv, OkRead history op v inv ∧ a ∉ v ∧ known.index < inv.index

/-- A read that lacks the element was invoked a millisecond after the element was
first known, where the time of the invocation counts in full. -/
def MissedLate (history : List (SetOp α)) (add : SetOp α) (a : α) : Prop :=
  ∃ known, FirstKnown history (Since add) a known ∧
    ∃ op v inv, OkRead history op v inv ∧ a ∉ v ∧ known.time + 999999 ≤ inv.time

/-- The element was first known a millisecond before time 0, it was read since, and
no read missed it. The stable time of such an element is 0. -/
def KnownBeforeStart (history : List (SetOp α)) (add : SetOp α) (a : α) : Prop :=
  ∃ known, FirstKnown history (Since add) a known ∧ known.time ≤ -1000000 ∧
    (∃ op v inv, OkRead history op v inv ∧ Since add op) ∧
    ∀ op v inv, OkRead history op v inv → Since add op → a ∈ v

theorem NonDecreasing.time_le {history : List (SetOp α)} (htimes : NonDecreasing history)
    (hwf : SetHistory history) {op op' : SetOp α} (hop : op ∈ history) (hop' : op' ∈ history)
    (hle : op.index ≤ op'.index) : op.time ≤ op'.time := by
  obtain ⟨i, hi, rfl⟩ := List.mem_iff_getElem.mp hop
  obtain ⟨j, hj, rfl⟩ := List.mem_iff_getElem.mp hop'
  rw [hwf.index i _ (List.getElem?_eq_getElem hi),
    hwf.index j _ (List.getElem?_eq_getElem hj)] at hle
  rcases hle.eq_or_lt with rfl | hlt
  · exact le_rfl
  · exact List.pairwise_iff_getElem.mp htimes i j hi hj hlt

/-! ## The stable latency -/

/-- A latency is positive from a millisecond on. -/
theorem latency_pos_iff (stable known : ℤ) :
    0 < max (stable - known) 0 / 1000000 ↔ known + 1000000 ≤ stable := by
  omega

/-- The time from which on every read sees a stable element. -/
def stableTime (lastAbsent : Option (SetOp α)) : ℤ :=
  lastAbsent.elim 0 fun last => last.time + 1

theorem stableLatency_eq {state : SetFullElement α} {r : ElementResult α} {known : SetOp α}
    (hr : state.setFullElementResults = .ok r) (hstable : state.isStable = true)
    (hknown : state.known = some known) :
    r.stableLatency =
      some (max (stableTime state.lastAbsent - known.time) 0 / 1000000) := by
  have hlost : ∃ y, SetFullElement.latencyWhen state.isLost state.known state.lastPresent =
      .ok y := by
    rw [hknown]
    cases state.isLost <;> exact ⟨_, rfl⟩
  obtain ⟨y, hy⟩ := hlost
  simp only [SetFullElement.setFullElementResults, hy] at hr
  simp only [hstable, hknown, SetFullElement.latencyWhen, SetFullElement.latency, if_true,
    Except.map] at hr
  rw [← Except.ok.inj hr]
  cases state.lastAbsent <;> rfl

section Stale

variable [LinearOrder α] {history : List (SetOp α)} {add : SetOp α} {a : α}
  {r : ElementResult α}

/-- What makes the result of one element an invalid one. -/
def Invalid (r : ElementResult α) : Prop :=
  r.outcome = .lost ∨ r.outcome = .stable ∧ 0 < r.stableLatency.getD 0

/-- A stable element with a positive latency was missed late. -/
theorem ResultOf.late_of_stale (hwf : SetHistory history) (hresult : ResultOf history add a r)
    (hstable : r.outcome = .stable) (hpos : 0 < r.stableLatency.getD 0) :
    MissedLate history add a ∨ KnownBeforeStart history add a := by
  have hclassified := hresult.classified hwf
  obtain ⟨pre, post, state, hsplit, hfollows, hr⟩ := hresult
  have hisStable := hclassified.stable.mp hstable
  have htrue := (isStable_iff hwf hsplit hfollows).mpr hisStable
  have hpresent : state.lastPresent.isSome := by
    unfold SetFullElement.isStable at htrue
    rw [Bool.and_eq_true] at htrue
    exact htrue.1
  obtain ⟨known, hknown⟩ :=
    Option.isSome_iff_exists.mp (known_isSome_of_lastPresent hfollows hpresent)
  have hfirst := (firstKnown_iff hwf hsplit hfollows).mp hknown
  have habsent := hfollows.absent
  rw [stableLatency_eq hr htrue hknown, Option.getD_some, latency_pos_iff] at hpos
  cases hlast : state.lastAbsent with
  | none =>
    rw [hlast] at habsent hpos
    rw [stableTime, Option.elim_none] at hpos
    right
    obtain ⟨op, v, inv, hread, hsince, -, -⟩ := hisStable
    refine ⟨known, hfirst, by omega, ⟨op, v, inv, hread, hsince⟩, ?_⟩
    intro op' v' inv' hread' hsince'
    by_contra hnot
    have hin : inv' ∈ readInvocations history post fun v => decide (a ∉ v) :=
      (mem_readInvocations_iff hwf hsplit).mpr ⟨op', v', hread', hsince', decide_eq_true hnot⟩
    rw [show readInvocations history post _ = [] from habsent] at hin
    cases hin
  | some last =>
    rw [hlast] at habsent hpos
    rw [stableTime, Option.elim_some] at hpos
    left
    obtain ⟨op, v, hread, -, hnot⟩ := (mem_readInvocations_iff hwf hsplit).mp habsent.1
    exact ⟨known, hfirst, op, v, last, hread, of_decide_eq_true hnot, by omega⟩

/-- A read that misses an element late makes it stale, or lost if no later read saw
it again. -/
theorem ResultOf.invalid_of_missedLate (hwf : SetHistory history)
    (htimes : NonDecreasing history) (hresult : ResultOf history add a r)
    (hlate : MissedLate history add a) : Invalid r := by
  have hclassified := hresult.classified hwf
  obtain ⟨pre, post, state, hsplit, hfollows, hr⟩ := hresult
  obtain ⟨known, hfirst, op, v, inv, hread, hnot, htime⟩ := hlate
  have hknown := (firstKnown_iff hwf hsplit hfollows).mpr hfirst
  have hknownMem := (mem_clientOps.mp hfirst.mem).1
  obtain ⟨hinvMem, -, -, hinvOp, -⟩ := hwf.invocation_eq_some hread.invoked
  have hafter : known.index < inv.index := by
    by_contra hle
    have := htimes.time_le hwf hinvMem hknownMem (by omega)
    omega
  have hsince : Since add op := by
    have hscope : add.index < known.index := hfirst.inScope
    unfold Since
    omega
  have hin : inv ∈ readInvocations history post fun v => decide (a ∉ v) :=
    (mem_readInvocations_iff hwf hsplit).mpr ⟨op, v, hread, hsince, decide_eq_true hnot⟩
  have hpresent := hfollows.present
  have habsent := hfollows.absent
  cases hlast : state.lastAbsent with
  | none =>
    rw [hlast] at habsent
    rw [show readInvocations history post _ = [] from habsent] at hin
    cases hin
  | some last =>
    rw [hlast] at habsent
    have hle := habsent.2 inv hin
    obtain ⟨op', v', hread', -, hnot'⟩ := (mem_readInvocations_iff hwf hsplit).mp habsent.1
    have hlastMem := (hwf.invocation_eq_some hread'.invoked).1
    have hlastTime := htimes.time_le hwf hinvMem hlastMem hle
    cases hstable : state.isStable with
    | true =>
      right
      refine ⟨hclassified.stable.mpr ((isStable_iff hwf hsplit hfollows).mp hstable), ?_⟩
      rw [stableLatency_eq hr hstable hknown, Option.getD_some, latency_pos_iff, hlast,
        stableTime, Option.elim_some]
      omega
    | false =>
      left
      apply hclassified.lost.mpr
      apply (isLost_iff hwf hsplit hfollows).mp
      unfold SetFullElement.isLost
      simp only [hknown, hlast, Option.isSome_some, Bool.and_eq_true, decide_eq_true_iff,
        true_and]
      constructor
      · unfold SetFullElement.isStable at hstable
        cases hl : state.lastPresent with
        | none =>
          simp only [indexOr]
          omega
        | some present =>
          rw [hl] at hpresent hstable
          obtain ⟨op'', v'', hread'', -, hmem''⟩ :=
            (mem_readInvocations_iff hwf hsplit).mp hpresent.1
          have hne := hread''.index_ne hwf hread' (of_decide_eq_true hmem'')
            (of_decide_eq_true hnot')
          simp only [hlast, Option.isSome_some, Bool.true_and, decide_eq_false_iff_not,
            indexOr] at hstable
          simp only [indexOr]
          omega
      · simp only [indexOr]
        omega

theorem ResultOf.invalid_of_knownBeforeStart (hwf : SetHistory history)
    (hresult : ResultOf history add a r) (hearly : KnownBeforeStart history add a) :
    Invalid r := by
  have hclassified := hresult.classified hwf
  obtain ⟨pre, post, state, hsplit, hfollows, hr⟩ := hresult
  obtain ⟨known, hfirst, htime, ⟨op, v, inv, hread, hsince⟩, hall⟩ := hearly
  have hknown := (firstKnown_iff hwf hsplit hfollows).mpr hfirst
  have habsent := hfollows.absent
  have hstable : Stable history (Since add) add a := by
    refine ⟨op, v, inv, hread, hsince, hall op v inv hread hsince, ?_⟩
    intro op' v' inv' hread' hsince' hnot
    exact absurd (hall op' v' inv' hread' hsince') hnot
  have htrue := (isStable_iff hwf hsplit hfollows).mpr hstable
  refine Or.inr ⟨hclassified.stable.mpr hstable, ?_⟩
  rw [stableLatency_eq hr htrue hknown, Option.getD_some, latency_pos_iff]
  cases hlast : state.lastAbsent with
  | none =>
    rw [stableTime, Option.elim_none]
    omega
  | some last =>
    rw [hlast] at habsent
    obtain ⟨op', v', hread', hsince', hnot⟩ :=
      (mem_readInvocations_iff hwf hsplit).mp habsent.1
    exact absurd (hall op' v' last hread' hsince') (of_decide_eq_true hnot)

/-- The result of an element is invalid exactly if the element was lost, missed
late, or known before the start. -/
theorem ResultOf.invalid_iff (hwf : SetHistory history) (htimes : NonDecreasing history)
    (hresult : ResultOf history add a r) :
    Invalid r ↔ Lost history (Since add) a ∨ MissedLate history add a ∨
      KnownBeforeStart history add a := by
  constructor
  · rintro (hlost | ⟨hstable, hpos⟩)
    · exact Or.inl ((hresult.classified hwf).lost.mp hlost)
    · exact Or.inr (hresult.late_of_stale hwf hstable hpos)
  · rintro (hlost | hlate | hearly)
    · exact Or.inl ((hresult.classified hwf).lost.mpr hlost)
    · exact hresult.invalid_of_missedLate hwf htimes hlate
    · exact hresult.invalid_of_knownBeforeStart hwf hearly

/-! ## The verdict -/

/-- The verdict on a linearizable set is false exactly if some result is invalid. -/
theorem aggregate_valid_eq_false_iff (rs : List (ElementResult α)) :
    (aggregate true rs).valid = .false ↔ ∃ r ∈ rs, Invalid r := by
  have hlen : ∀ l : List (ElementResult α), 0 < l.length ↔ ∃ r, r ∈ l := by
    intro l
    rw [List.length_pos_iff_exists_mem]
  simp only [aggregate]
  constructor
  · intro hvalid
    split at hvalid
    · rename_i hlost
      obtain ⟨r, hr⟩ := (hlen _).mp hlost
      obtain ⟨hmem, houtcome⟩ := List.mem_filter.mp hr
      exact ⟨r, hmem, Or.inl (of_decide_eq_true houtcome)⟩
    · split at hvalid
      · cases hvalid
      · split at hvalid
        · rename_i hstale
          obtain ⟨r, hr⟩ := (hlen _).mp hstale.2
          obtain ⟨hr', hpos⟩ := List.mem_filter.mp hr
          obtain ⟨hmem, houtcome⟩ := List.mem_filter.mp hr'
          exact ⟨r, hmem, Or.inr ⟨of_decide_eq_true houtcome, of_decide_eq_true hpos⟩⟩
        · cases hvalid
  · rintro ⟨r, hmem, hlost | ⟨hstable, hpos⟩⟩
    · rw [if_pos]
      exact (hlen _).mpr ⟨r, List.mem_filter.mpr ⟨hmem, decide_eq_true hlost⟩⟩
    · have hin : r ∈ rs.filter fun r => decide (r.outcome = .stable) :=
        List.mem_filter.mpr ⟨hmem, decide_eq_true hstable⟩
      have hin' : r ∈ (rs.filter fun r => decide (r.outcome = .stable)).filter
          fun r => decide (0 < r.stableLatency.getD 0) :=
        List.mem_filter.mpr ⟨hin, decide_eq_true hpos⟩
      have hstale := (hlen _).mpr ⟨r, hin'⟩
      have hsome := (hlen _).mpr ⟨r, hin⟩
      split
      · rfl
      · rw [if_neg hsome.ne', if_pos ⟨trivial, hstale⟩]

/-- A history with a stale read is invalid exactly if, since its last add, some
element was lost or was missed by a read invoked a millisecond after it was known;
or was known a millisecond before time 0, though nothing missed it. -/
theorem staleRead_invalid_iff (hwf : SetHistory history) (htimes : NonDecreasing history) :
    ∃ checked, setFull true history = .ok checked ∧
      (StaleRead history → (checked.valid = .false ↔
        ∃ add a, LastAdd history add a ∧ (Lost history (Since add) a ∨
          MissedLate history add a ∨ KnownBeforeStart history add a))) := by
  obtain ⟨rs, -, hadded, hresult, hchecked⟩ := elementResults_eq_ok hwf
  refine ⟨_, hchecked true, fun _ => (aggregate_valid_eq_false_iff rs).trans ?_⟩
  constructor
  · rintro ⟨r, hr, hinvalid⟩
    obtain ⟨add, a, hadd, hresultOf⟩ := hadded r hr
    exact ⟨add, a, hadd, (hresultOf.invalid_iff hwf htimes).mp hinvalid⟩
  · rintro ⟨add, a, hadd, hcases⟩
    obtain ⟨r, hr, hresultOf, -⟩ := hresult add a hadd
    exact ⟨r, hr, (hresultOf.invalid_iff hwf htimes).mpr hcases⟩

end Stale

/-! ## A read that is stale for a moment -/

/-- Process 0 misses element 0 at time 2, after it was known at time 1, and then
reads it. -/
def missedBriefly : List (SetOp ℤ) :=
  [⟨0, 0, .int 1, .invoke, .add 0⟩, ⟨1, 1, .int 1, .ok, .add 0⟩,
    ⟨2, 2, .int 0, .invoke, .read []⟩, ⟨3, 3, .int 0, .ok, .read []⟩,
    ⟨4, 4, .int 0, .invoke, .read []⟩, ⟨5, 5, .int 0, .ok, .read [0]⟩]

/-- Process 0 misses element 0 a millisecond after it was known, and then reads it. -/
def missedLong : List (SetOp ℤ) :=
  [⟨0, 0, .int 1, .invoke, .add 0⟩, ⟨1, 0, .int 1, .ok, .add 0⟩,
    ⟨2, 1000000, .int 0, .invoke, .read []⟩, ⟨3, 1000000, .int 0, .ok, .read []⟩,
    ⟨4, 1000000, .int 0, .invoke, .read []⟩, ⟨5, 1000000, .int 0, .ok, .read [0]⟩]

/-- The second completed read misses element 0 a millisecond after its add. -/
theorem missedLate_missedLong :
    MissedLate missedLong ⟨0, 0, .int 1, .invoke, .add 0⟩ 0 := by
  refine ⟨⟨1, 0, .int 1, .ok, .add 0⟩, ⟨by decide, ⟨rfl, Or.inl rfl⟩, by unfold Since; decide,
    ?_⟩, ⟨3, 1000000, .int 0, .ok, .read []⟩, [], ⟨2, 1000000, .int 0, .invoke, .read []⟩,
    ⟨by decide, rfl, rfl, by decide⟩, List.not_mem_nil, by decide⟩
  intro op _ _ hsince
  exact hsince

theorem staleRead_missedLong : StaleRead missedLong :=
  ⟨0, ⟨1, 0, .int 1, .ok, .add 0⟩, by decide, ⟨rfl, Or.inl rfl⟩,
    ⟨3, 1000000, .int 0, .ok, .read []⟩, [], ⟨2, 1000000, .int 0, .invoke, .read []⟩,
    ⟨by decide, rfl, rfl, by decide⟩, List.not_mem_nil, by decide⟩

theorem lastAdd_missedLong : LastAdd missedLong ⟨0, 0, .int 1, .invoke, .add 0⟩ (0 : ℤ) := by
  refine ⟨by decide, ⟨rfl, rfl⟩, ?_⟩
  intro op hop hadds
  simp only [missedLong, clientOps, List.mem_filter, List.mem_cons, List.not_mem_nil,
    or_false] at hop
  rcases hop.1 with rfl | rfl | rfl | rfl | rfl | rfl
  · exact le_rfl
  · cases hadds.1
  · cases hadds.2
  · cases hadds.1
  · cases hadds.2
  · cases hadds.1

theorem staleRead_invalid_iff_missedLong :
    ∃ checked, setFull true missedLong = .ok checked ∧ checked.valid = .false := by
  have hwf : SetHistory missedLong :=
    (clientHistory_of_checks (by decide) (by decide) (by decide)).toSetHistory
  obtain ⟨checked, hchecked, hiff⟩ :=
    staleRead_invalid_iff hwf (show NonDecreasing missedLong by unfold NonDecreasing; decide)
  exact ⟨checked, hchecked, (hiff staleRead_missedLong).mpr
    ⟨_, 0, lastAdd_missedLong, Or.inr (Or.inl missedLate_missedLong)⟩⟩

/-- The brief absence is a stale read, and the verdict is true. -/
theorem missedBriefly_valid :
    ClientHistory missedBriefly ∧ NonDecreasing missedBriefly ∧ StaleRead missedBriefly ∧
      ∃ checked, setFull true missedBriefly = .ok checked ∧ checked.valid = .true := by
  refine ⟨clientHistory_of_checks (by decide) (by decide) (by decide),
    by unfold NonDecreasing; decide, ?_, _, rfl, rfl⟩
  exact ⟨0, ⟨1, 1, .int 1, .ok, .add 0⟩, by decide, ⟨rfl, Or.inl rfl⟩,
    ⟨3, 3, .int 0, .ok, .read []⟩, [], ⟨2, 2, .int 0, .invoke, .read []⟩,
    ⟨by decide, rfl, rfl, by decide⟩, List.not_mem_nil, by decide⟩

end Jepsen.Checker
