/-
# A fair choice of the soonest operation

Reduced over any number of candidates, `soonest-op-map` draws one of those that are tied at
the soonest time, each with the probability of its share of their weights. The weight that
a step puts on what it returns is what carries this through the reduction: the total weight
at the soonest time never changes, and the weight of any set of candidates does not change
on average.
-/

import Jepsen.Generator.Combinators
import Jepsen.Library.RandInt

noncomputable section

namespace Jepsen.Generator

open Jepsen.History Jepsen.Library

universe u w

variable {V A : Type u}

/-! ## The reduction -/

/-- When a candidate happens, unless it is pending. -/
def Candidate.time? (m : Candidate V A) : Option ℤ :=
  match m.op with
  | .pending => none
  | .op o => some o.time

/-- `(:weight m 1)` -/
def Candidate.weightOrOne (m : Candidate V A) : ℕ := m.weight.getD 1

/-- The argument of the call to `rand-int`, if there is one. -/
def drawBound : Option (Candidate V A) → Option (Candidate V A) → ℕ
  | some m1, some m2 =>
      match m1.op, m2.op with
      | .op op1, .op op2 => if op1.time = op2.time then m1.weightOrOne + m2.weightOrOne else 1
      | _, _ => 1
  | _, _ => 1

/-- `soonest-op-map`, with a draw of its own. -/
def soonest (m1 m2 : Option (Candidate V A)) : PMF (Option (Candidate V A)) :=
  (randInt (drawBound m1 m2)).map fun draw => soonestOpMap draw m1 m2

/-- The reduction of some candidates, from the one chosen before them. -/
def reduceSoonest : List (Option (Candidate V A)) → Option (Candidate V A) →
    PMF (Option (Candidate V A))
  | [], m => PMF.pure m
  | candidate :: candidates, m => (soonest m candidate).bind (reduceSoonest candidates)

/-! ## Weights at a time -/

/-- The weight of a candidate, if it happens at the time and its payload is in the set. -/
def share (t : ℤ) (S : Set A) [DecidablePred (· ∈ S)] : Option (Candidate V A) → ℕ
  | none => 0
  | some m => if m.time? = some t ∧ m.payload ∈ S then m.weightOrOne else 0

/-- The weights of the candidates that happen at the time and whose payload is in the set. -/
def weightAt (t : ℤ) (S : Set A) [DecidablePred (· ∈ S)]
    (candidates : List (Option (Candidate V A))) : ℕ :=
  (candidates.map (share t S)).sum

/-- No candidate happens before the time. -/
def NotBefore (t : ℤ) (candidates : List (Option (Candidate V A))) : Prop :=
  ∀ m, some m ∈ candidates → ∀ t', m.time? = some t' → t ≤ t'

/-- The time is the soonest of those at which a candidate happens. -/
def IsSoonest (t : ℤ) (candidates : List (Option (Candidate V A))) : Prop :=
  (∃ m, some m ∈ candidates ∧ m.time? = some t) ∧ NotBefore t candidates

/-- Weights are positive. -/
def Weighted (candidates : List (Option (Candidate V A))) : Prop :=
  ∀ m, some m ∈ candidates → 0 < m.weightOrOne

section Shares

variable {t : ℤ} {S : Set A} [DecidablePred (· ∈ S)]

theorem weightAt_cons (m : Option (Candidate V A)) (candidates : List (Option (Candidate V A))) :
    weightAt t S (m :: candidates) = share t S m + weightAt t S candidates := by
  rw [weightAt, List.map_cons, List.sum_cons, weightAt]

theorem weightAt_singleton (m : Option (Candidate V A)) : weightAt t S [m] = share t S m := by
  rw [weightAt, List.map_singleton, List.sum_singleton]

theorem share_of_time_ne {m : Candidate V A} (htime : m.time? ≠ some t) :
    share t S (some m) = 0 :=
  if_neg fun h => htime h.1

theorem share_pos_iff {m : Candidate V A} (hweight : 0 < m.weightOrOne) :
    0 < share t Set.univ (some m) ↔ m.time? = some t := by
  by_cases htime : m.time? = some t
  · rw [share, if_pos ⟨htime, Set.mem_univ _⟩]
    exact iff_of_true hweight htime
  · rw [share_of_time_ne htime]
    exact iff_of_false (lt_irrefl 0) htime

/-- Somebody's weight at the soonest time is positive. -/
theorem weightAt_pos {candidates : List (Option (Candidate V A))}
    (hsoonest : IsSoonest t candidates) (hweighted : Weighted candidates) :
    0 < weightAt t Set.univ candidates := by
  obtain ⟨m, hm, htime⟩ := hsoonest.1
  have hpos := (share_pos_iff (hweighted m hm)).mpr htime
  exact hpos.trans_le (List.le_sum_of_mem (List.mem_map_of_mem hm))

end Shares

/-! ## One step -/

section Step

variable {m1 m2 : Candidate V A}

/-- The two candidates are tied. -/
def Tied (m1 m2 : Option (Candidate V A)) : Prop :=
  ∃ c1 c2 t, m1 = some c1 ∧ m2 = some c2 ∧ c1.time? = some t ∧ c2.time? = some t

theorem tied_some_iff : Tied (some m1) (some m2) ↔ ∃ t, m1.time? = some t ∧ m2.time? = some t := by
  constructor
  · intro htied
    obtain ⟨c1, c2, t, h1, h2, ht1, ht2⟩ := htied
    rw [Option.some.inj h1, Option.some.inj h2]
    exact ⟨t, ht1, ht2⟩
  · intro htied
    obtain ⟨t, ht1, ht2⟩ := htied
    exact ⟨m1, m2, t, rfl, rfl, ht1, ht2⟩

/-- In a tie, the draw decides, and the weights are added. -/
theorem soonestOpMap_of_tied {t : ℤ} (h1 : m1.time? = some t) (h2 : m2.time? = some t)
    (draw : ℕ) :
    soonestOpMap draw (some m1) (some m2) =
      some { (if draw % (m1.weightOrOne + m2.weightOrOne) < m1.weightOrOne then m1 else m2) with
        weight := some (m1.weightOrOne + m2.weightOrOne) } := by
  obtain ⟨op1, weight1, payload1⟩ := m1
  obtain ⟨op2, weight2, payload2⟩ := m2
  cases op1 with
  | pending => cases h1
  | op o1 =>
    cases op2 with
    | pending => cases h2
    | op o2 =>
      have heq : o1.time = o2.time := (Option.some.inj h1).trans (Option.some.inj h2).symm
      exact if_pos heq

theorem drawBound_of_tied {t : ℤ} (h1 : m1.time? = some t) (h2 : m2.time? = some t) :
    drawBound (some m1) (some m2) = m1.weightOrOne + m2.weightOrOne := by
  obtain ⟨op1, weight1, payload1⟩ := m1
  obtain ⟨op2, weight2, payload2⟩ := m2
  cases op1 with
  | pending => cases h1
  | op o1 =>
    cases op2 with
    | pending => cases h2
    | op o2 =>
      have heq : o1.time = o2.time := (Option.some.inj h1).trans (Option.some.inj h2).symm
      exact if_pos heq

/-- Out of two, the one that happens sooner is chosen, and a pending one happens later. -/
theorem soonestOpMap_of_not_tied (htied : ¬ Tied (some m1) (some m2)) (draw : ℕ) :
    (soonestOpMap draw (some m1) (some m2) = some m2 ∧
        ∀ t1, m1.time? = some t1 → ∃ t2, m2.time? = some t2 ∧ t2 < t1) ∨
      (soonestOpMap draw (some m1) (some m2) = some m1 ∧
        ∀ t2, m2.time? = some t2 → ∃ t1, m1.time? = some t1 ∧ t1 < t2) := by
  rw [tied_some_iff] at htied
  obtain ⟨op1, weight1, payload1⟩ := m1
  obtain ⟨op2, weight2, payload2⟩ := m2
  cases op1 with
  | pending => exact Or.inl ⟨rfl, fun t1 h1 => nomatch h1⟩
  | op o1 =>
    cases op2 with
    | pending => exact Or.inr ⟨rfl, fun t2 h2 => nomatch h2⟩
    | op o2 =>
      have hne : o1.time ≠ o2.time := fun heq => htied ⟨o2.time, congrArg some heq, rfl⟩
      have hchoice : soonestOpMap draw (some ⟨.op o1, weight1, payload1⟩)
          (some ⟨.op o2, weight2, payload2⟩) = if o1.time < o2.time then
            some ⟨.op o1, weight1, payload1⟩ else some ⟨.op o2, weight2, payload2⟩ :=
        if_neg hne
      by_cases hlt : o1.time < o2.time
      · rw [hchoice, if_pos hlt]
        refine Or.inr ⟨rfl, fun t2 h2 => ⟨o1.time, rfl, ?_⟩⟩
        rwa [← Option.some.inj h2]
      · rw [hchoice, if_neg hlt]
        refine Or.inl ⟨rfl, fun t1 h1 => ⟨o2.time, rfl, ?_⟩⟩
        rw [← Option.some.inj h1]
        exact lt_of_le_of_ne (not_lt.mp hlt) hne.symm

end Step

section Shares

variable {t : ℤ} {S : Set A} [DecidablePred (· ∈ S)] {m1 m2 : Option (Candidate V A)}

/-- Out of two that are not tied, the one that is left out does not happen at the soonest
time. -/
theorem share_soonestOpMap_of_not_tied (hbefore : NotBefore t [m1, m2]) (htied : ¬ Tied m1 m2)
    (draw : ℕ) : share t S (soonestOpMap draw m1 m2) = share t S m1 + share t S m2 := by
  cases m1 with
  | none => rw [soonestOpMap, share, Nat.zero_add]
  | some c1 =>
    cases m2 with
    | none => rfl
    | some c2 =>
      cases soonestOpMap_of_not_tied htied draw with
      | inl hsecond =>
        have hnot : c1.time? ≠ some t := by
          intro htime
          obtain ⟨t2, ht2, hlt⟩ := hsecond.2 t htime
          exact absurd (hbefore c2 (by simp) t2 ht2) (not_le.mpr hlt)
        rw [hsecond.1, share_of_time_ne hnot, Nat.zero_add]
      | inr hfirst =>
        have hnot : c2.time? ≠ some t := by
          intro htime
          obtain ⟨t1, ht1, hlt⟩ := hfirst.2 t htime
          exact absurd (hbefore c1 (by simp) t1 ht1) (not_le.mpr hlt)
        rw [hfirst.1, share_of_time_ne hnot, Nat.add_zero]

/-- In a tie, what is returned has the weight of both. -/
theorem share_soonestOpMap_of_tied {c1 c2 : Candidate V A} {t' : ℤ} (h1 : c1.time? = some t')
    (h2 : c2.time? = some t') {draw : ℕ} (hdraw : draw < c1.weightOrOne + c2.weightOrOne) :
    share t S (soonestOpMap draw (some c1) (some c2)) =
      if t' = t ∧ (if draw < c1.weightOrOne then c1 else c2).payload ∈ S then
        c1.weightOrOne + c2.weightOrOne
      else 0 := by
  rw [soonestOpMap_of_tied h1 h2, Nat.mod_eq_of_lt hdraw]
  have htime : ∀ c : Candidate V A, c.time? = some t' →
      (c.time? = some t ↔ t' = t) := fun c hc => by rw [hc, Option.some.injEq]
  by_cases hlt : draw < c1.weightOrOne
  · rw [if_pos hlt]
    exact if_congr (and_congr_left' (htime c1 h1)) rfl rfl
  · rw [if_neg hlt]
    exact if_congr (and_congr_left' (htime c2 h2)) rfl rfl

/-- The total weight at the soonest time never changes. -/
theorem share_univ_soonestOpMap (hbefore : NotBefore t [m1, m2]) {draw : ℕ}
    (hdraw : draw < drawBound m1 m2) :
    share t Set.univ (soonestOpMap draw m1 m2) = share t Set.univ m1 + share t Set.univ m2 := by
  by_cases htied : Tied m1 m2
  · obtain ⟨c1, c2, t', rfl, rfl, h1, h2⟩ := htied
    rw [drawBound_of_tied h1 h2] at hdraw
    rw [share_soonestOpMap_of_tied h1 h2 hdraw, share, share, h1, h2]
    by_cases heq : t' = t <;> simp [heq]
  · exact share_soonestOpMap_of_not_tied hbefore htied draw

/-- The weight of a set at the soonest time does not change on average. -/
theorem sum_share_soonestOpMap (hbefore : NotBefore t [m1, m2]) :
    ∑ draw ∈ Finset.range (drawBound m1 m2), share t S (soonestOpMap draw m1 m2) =
      drawBound m1 m2 * (share t S m1 + share t S m2) := by
  by_cases htied : Tied m1 m2
  · obtain ⟨c1, c2, t', rfl, rfl, h1, h2⟩ := htied
    rw [drawBound_of_tied h1 h2]
    have hshare : ∀ draw ∈ Finset.range (c1.weightOrOne + c2.weightOrOne),
        share t S (soonestOpMap draw (some c1) (some c2)) =
          if t' = t ∧ (if draw < c1.weightOrOne then c1 else c2).payload ∈ S then
            c1.weightOrOne + c2.weightOrOne
          else 0 :=
      fun draw hdraw => share_soonestOpMap_of_tied h1 h2 (Finset.mem_range.mp hdraw)
    rw [Finset.sum_congr rfl hshare, Finset.sum_range_add]
    have hfirst : ∀ draw ∈ Finset.range c1.weightOrOne,
        (if t' = t ∧ (if draw < c1.weightOrOne then c1 else c2).payload ∈ S then
          c1.weightOrOne + c2.weightOrOne else 0) =
        if t' = t ∧ c1.payload ∈ S then c1.weightOrOne + c2.weightOrOne else 0 := by
      intro draw hdraw
      rw [if_pos (Finset.mem_range.mp hdraw)]
    have hsecond : ∀ draw ∈ Finset.range c2.weightOrOne,
        (if t' = t ∧ (if c1.weightOrOne + draw < c1.weightOrOne then c1 else c2).payload ∈ S then
          c1.weightOrOne + c2.weightOrOne else 0) =
        if t' = t ∧ c2.payload ∈ S then c1.weightOrOne + c2.weightOrOne else 0 := by
      intro draw _
      rw [if_neg (Nat.not_lt.mpr (Nat.le_add_right _ _))]
    rw [Finset.sum_congr rfl hfirst, Finset.sum_congr rfl hsecond, Finset.sum_const,
      Finset.sum_const, Finset.card_range, Finset.card_range, share, share, h1, h2,
      smul_eq_mul, smul_eq_mul]
    simp only [Option.some.injEq]
    split_ifs <;> ring
  · rw [Finset.sum_congr rfl fun draw _ => share_soonestOpMap_of_not_tied hbefore htied draw,
      Finset.sum_const, Finset.card_range, smul_eq_mul]

/-- What a step returns is one of the two, up to its weight, which stays positive. -/
theorem soonestOpMap_weighted (hweighted : Weighted [m1, m2]) {draw : ℕ}
    {m : Candidate V A} (hm : soonestOpMap draw m1 m2 = some m) : 0 < m.weightOrOne := by
  by_cases htied : Tied m1 m2
  · obtain ⟨c1, c2, t', rfl, rfl, h1, h2⟩ := htied
    rw [soonestOpMap_of_tied h1 h2] at hm
    rw [← Option.some.inj hm]
    exact Nat.add_pos_left (hweighted c1 (by simp)) _
  · cases m1 with
    | none => exact hweighted m (hm ▸ by simp [soonestOpMap])
    | some c1 =>
      cases m2 with
      | none => exact hweighted m (hm ▸ by simp [soonestOpMap])
      | some c2 =>
        cases soonestOpMap_of_not_tied htied draw with
        | inl hsecond => exact hweighted m (by rw [← hm, hsecond.1]; simp)
        | inr hfirst => exact hweighted m (by rw [← hm, hfirst.1]; simp)

end Shares

/-- The candidates that are left after a step, with what it returned, happen no earlier, are
weighted, and have the same total weight at the soonest time. -/
theorem step_soonestOpMap {t : ℤ} {m1 m2 : Option (Candidate V A)}
    {candidates : List (Option (Candidate V A))} (hbefore : NotBefore t (m1 :: m2 :: candidates))
    (hweighted : Weighted (m1 :: m2 :: candidates)) {draw : ℕ} (hdraw : draw < drawBound m1 m2) :
    NotBefore t (soonestOpMap draw m1 m2 :: candidates) ∧
      Weighted (soonestOpMap draw m1 m2 :: candidates) ∧
      weightAt t Set.univ (soonestOpMap draw m1 m2 :: candidates) =
        weightAt t Set.univ (m1 :: m2 :: candidates) := by
  have hpair : [m1, m2] ⊆ m1 :: m2 :: candidates := by simp
  have hrest : candidates ⊆ m1 :: m2 :: candidates := by simp
  refine ⟨fun m hm t' ht' => ?_, fun m hm => ?_, ?_⟩
  · cases List.mem_cons.mp hm with
    | inl heq =>
      obtain ⟨c, hc, hop, -⟩ := soonestOpMap_eq_some heq.symm
      have hmem : some c ∈ m1 :: m2 :: candidates := by
        cases hc with
        | inl h1 => simp [h1]
        | inr h2 => simp [h2]
      refine hbefore c hmem t' ?_
      rwa [Candidate.time?, ← hop]
    | inr htail => exact hbefore m (hrest htail) t' ht'
  · cases List.mem_cons.mp hm with
    | inl heq => exact soonestOpMap_weighted (fun c hc => hweighted c (hpair hc)) heq.symm
    | inr htail => exact hweighted m (hrest htail)
  · rw [weightAt_cons, weightAt_cons, weightAt_cons,
      share_univ_soonestOpMap (fun c hc => hbefore c (hpair hc)) hdraw, Nat.add_assoc]

theorem drawBound_pos {m1 m2 : Option (Candidate V A)}
    {candidates : List (Option (Candidate V A))} (hweighted : Weighted (m1 :: m2 :: candidates)) :
    0 < drawBound m1 m2 := by
  unfold drawBound
  split
  · rename_i c1 c2
    split
    · split_ifs
      · exact Nat.add_pos_left (hweighted c1 (by simp)) _
      · exact Nat.one_pos
    · exact Nat.one_pos
  · exact Nat.one_pos

/-! ## The whole reduction -/

/-- A payload of the set is chosen. -/
def Chosen (S : Set A) : Set (Option (Candidate V A)) := { r | ∃ m, r = some m ∧ m.payload ∈ S }

/-- A set of candidates is chosen with the probability of its share of the weight at the
soonest time. -/
theorem toOuterMeasure_reduceSoonest {t : ℤ} {S : Set A} [DecidablePred (· ∈ S)]
    {candidates : List (Option (Candidate V A))} {m : Option (Candidate V A)}
    (hbefore : NotBefore t (m :: candidates)) (hweighted : Weighted (m :: candidates))
    (hpos : 0 < weightAt t Set.univ (m :: candidates)) :
    (reduceSoonest candidates m).toOuterMeasure (Chosen S) =
      weightAt t S (m :: candidates) / weightAt t Set.univ (m :: candidates) := by
  induction candidates generalizing m with
  | nil =>
    rw [weightAt_singleton] at hpos
    rw [weightAt_singleton, weightAt_singleton, reduceSoonest, PMF.toOuterMeasure_pure_apply]
    cases m with
    | none => exact absurd hpos (lt_irrefl 0)
    | some c =>
      have htime : c.time? = some t := (share_pos_iff (hweighted c (by simp))).mp hpos
      have hchosen : some c ∈ Chosen (V := V) S ↔ c.payload ∈ S := by simp [Chosen]
      have huniv : share t Set.univ (some c) = c.weightOrOne := if_pos ⟨htime, Set.mem_univ _⟩
      rw [huniv] at hpos ⊢
      by_cases hS : c.payload ∈ S
      · rw [if_pos (hchosen.mpr hS), share, if_pos ⟨htime, hS⟩,
          ENNReal.div_self (Nat.cast_ne_zero.mpr hpos.ne') (ENNReal.natCast_ne_top _)]
      · rw [if_neg (fun h => hS (hchosen.mp h)), share, if_neg (fun h => hS h.2), Nat.cast_zero,
          ENNReal.zero_div]
  | cons candidate candidates ih =>
    have hpair : NotBefore t [m, candidate] := fun c hc => hbefore c (by
      have hsub : [m, candidate] ⊆ m :: candidate :: candidates := by simp
      exact hsub hc)
    have hbound : 0 < drawBound m candidate := drawBound_pos hweighted
    set n := drawBound m candidate
    set total := weightAt t Set.univ (m :: candidate :: candidates)
    have hafter : ∀ draw ∈ Finset.range n,
        (reduceSoonest candidates (soonestOpMap draw m candidate)).toOuterMeasure (Chosen S) =
          (weightAt t S (soonestOpMap draw m candidate :: candidates) : ℕ) / total := by
      intro draw hdraw
      obtain ⟨hbefore', hweighted', htotal⟩ :=
        step_soonestOpMap hbefore hweighted (Finset.mem_range.mp hdraw)
      rw [ih hbefore' hweighted' (htotal ▸ hpos), htotal]
    -- the weight of the set is kept on average over the draws
    have hsum : ∑ draw ∈ Finset.range n,
        weightAt t S (soonestOpMap draw m candidate :: candidates) =
          n * weightAt t S (m :: candidate :: candidates) := by
      simp only [weightAt_cons]
      rw [Finset.sum_add_distrib, sum_share_soonestOpMap hpair, Finset.sum_const,
        Finset.card_range, smul_eq_mul]
      ring
    have hne : (n : ENNReal) ≠ 0 := Nat.cast_ne_zero.mpr hbound.ne'
    calc (reduceSoonest (candidate :: candidates) m).toOuterMeasure (Chosen S)
        = (∑ draw ∈ Finset.range n,
            (reduceSoonest candidates (soonestOpMap draw m candidate)).toOuterMeasure
              (Chosen S)) / n := by
          rw [reduceSoonest, soonest, PMF.bind_map, toOuterMeasure_randInt_bind hbound]
          rfl
      _ = (∑ draw ∈ Finset.range n,
            (weightAt t S (soonestOpMap draw m candidate :: candidates) : ENNReal)) /
              total / n := by
          rw [Finset.sum_congr rfl hafter]
          simp only [div_eq_mul_inv, Finset.sum_mul]
      _ = n * weightAt t S (m :: candidate :: candidates) / n / total := by
          rw [← Nat.cast_sum, hsum, Nat.cast_mul, div_eq_mul_inv, div_eq_mul_inv, div_eq_mul_inv,
            div_eq_mul_inv, mul_right_comm]
      _ = weightAt t S (m :: candidate :: candidates) / total := by
          rw [mul_comm, ENNReal.mul_div_cancel_right hne (ENNReal.natCast_ne_top _)]

/-- What is chosen happens at the soonest time, and is one of the candidates up to its
weight. -/
theorem mem_support_reduceSoonest {t : ℤ} {candidates : List (Option (Candidate V A))}
    {m r : Option (Candidate V A)} (hbefore : NotBefore t (m :: candidates))
    (hweighted : Weighted (m :: candidates)) (hpos : 0 < weightAt t Set.univ (m :: candidates))
    (hr : r ∈ (reduceSoonest candidates m).support) :
    ∃ c, r = some c ∧ c.time? = some t ∧
      ∃ c', some c' ∈ m :: candidates ∧ c.op = c'.op ∧ c.payload = c'.payload := by
  induction candidates generalizing m with
  | nil =>
    rw [reduceSoonest, PMF.mem_support_pure_iff] at hr
    rw [weightAt_singleton] at hpos
    cases m with
    | none => exact absurd hpos (lt_irrefl 0)
    | some c =>
      have htime := (share_pos_iff (hweighted c (by simp))).mp hpos
      exact ⟨c, hr, htime, c, List.mem_cons_self, rfl, rfl⟩
  | cons candidate candidates ih =>
    rw [reduceSoonest, PMF.mem_support_bind_iff] at hr
    obtain ⟨m', hm', hr⟩ := hr
    rw [soonest, PMF.mem_support_map_iff] at hm'
    obtain ⟨draw, hdraw, rfl⟩ := hm'
    have hlt := lt_of_mem_support_randInt (drawBound_pos hweighted) hdraw
    obtain ⟨hbefore', hweighted', htotal⟩ := step_soonestOpMap hbefore hweighted hlt
    obtain ⟨c, rfl, htime, c', hc', hop, hpayload⟩ :=
      ih hbefore' hweighted' (htotal ▸ hpos) hr
    refine ⟨c, rfl, htime, ?_⟩
    cases List.mem_cons.mp hc' with
    | inr htail =>
      exact ⟨c', List.mem_cons_of_mem _ (List.mem_cons_of_mem _ htail), hop, hpayload⟩
    | inl hhead =>
      obtain ⟨c'', hc'', hop', hpayload'⟩ := soonestOpMap_eq_some hhead.symm
      refine ⟨c'', ?_, hop.trans hop', hpayload.trans hpayload'⟩
      cases hc'' with
      | inl hfirst => simp [hfirst]
      | inr hsecond => simp [hsecond]

/-! ## Candidates by their position -/

theorem drawBound_withPayload {B : Type u} (f : A → B) (m1 m2 : Option (Candidate V A)) :
    drawBound (m1.map (·.withPayload f)) (m2.map (·.withPayload f)) = drawBound m1 m2 := by
  cases m1 with
  | none => cases m2 <;> rfl
  | some c1 => cases m2 <;> rfl

/-- The reduction does not look at payloads. -/
theorem reduceSoonest_withPayload {B : Type u} (f : A → B)
    (candidates : List (Option (Candidate V A))) (m : Option (Candidate V A)) :
    reduceSoonest (candidates.map (Option.map (·.withPayload f))) (m.map (·.withPayload f)) =
      (reduceSoonest candidates m).map (Option.map (·.withPayload f)) := by
  induction candidates generalizing m with
  | nil => rw [List.map_nil, reduceSoonest, reduceSoonest, PMF.pure_map]
  | cons candidate candidates ih =>
    rw [List.map_cons, reduceSoonest, reduceSoonest, soonest, soonest, drawBound_withPayload,
      PMF.bind_map, PMF.bind_map, PMF.map_bind]
    congr 1
    funext draw
    rw [Function.comp_apply, Function.comp_apply, soonestOpMap_withPayload, ih]

/-- The candidates, each with its position, counted from `i`. -/
def positioned : ℕ → List (Option (Candidate V A)) → List (Option (Candidate V (A × ℕ)))
  | _, [] => []
  | i, m :: candidates =>
      m.map (·.withPayload fun payload => (payload, i)) :: positioned (i + 1) candidates

theorem positioned_map_fst (i : ℕ) (candidates : List (Option (Candidate V A))) :
    (positioned i candidates).map (Option.map (·.withPayload Prod.fst)) = candidates := by
  induction candidates generalizing i with
  | nil => rfl
  | cons m candidates ih =>
    rw [positioned, List.map_cons, ih]
    cases m <;> rfl

theorem mem_positioned {i : ℕ} {candidates : List (Option (Candidate V A))}
    {c : Candidate V (A × ℕ)} (hc : some c ∈ positioned i candidates) :
    ∃ (j : ℕ) (c' : Candidate V A), candidates[j]? = some (some c') ∧
      c = c'.withPayload fun payload => (payload, i + j) := by
  induction candidates generalizing i with
  | nil => cases hc
  | cons m candidates ih =>
    cases List.mem_cons.mp hc with
    | inl heq =>
      obtain ⟨c', rfl, hc'⟩ := Option.map_eq_some_iff.mp heq.symm
      exact ⟨0, c', rfl, hc'.symm⟩
    | inr htail =>
      obtain ⟨j, c', hj, rfl⟩ := ih htail
      refine ⟨j + 1, c', hj, ?_⟩
      rw [Nat.add_right_comm, Nat.add_assoc]

theorem share_positioned_univ (t : ℤ) (i : ℕ) (m : Option (Candidate V A)) :
    share t Set.univ (m.map (·.withPayload fun payload => (payload, i))) =
      share t Set.univ m := by
  cases m <;> rfl

theorem weightAt_positioned_univ (t : ℤ) (i : ℕ) (candidates : List (Option (Candidate V A))) :
    weightAt t Set.univ (positioned i candidates) = weightAt t Set.univ candidates := by
  induction candidates generalizing i with
  | nil => rfl
  | cons m candidates ih =>
    rw [positioned, weightAt_cons, weightAt_cons, ih, share_positioned_univ]

/-- The weight at a position is that of the candidate there. -/
theorem weightAt_positioned (t : ℤ) (i j : ℕ) (candidates : List (Option (Candidate V A))) :
    weightAt t { p | p.2 = j } (positioned i candidates) =
      if i ≤ j then share t Set.univ (candidates[j - i]?.join) else 0 := by
  induction candidates generalizing i with
  | nil => simp [positioned, weightAt, share]
  | cons m candidates ih =>
    rw [positioned, weightAt_cons, ih]
    have hshare : share t { p | p.2 = j }
        (m.map (·.withPayload fun payload => (payload, i))) =
          if i = j then share t Set.univ m else 0 := by
      cases m with
      | none => simp [share]
      | some c =>
        by_cases heq : i = j
        · simp [share, Candidate.withPayload, Candidate.time?, Candidate.weightOrOne, heq]
        · simp [share, Candidate.withPayload, heq]
    rw [hshare]
    rcases lt_trichotomy i j with hlt | heq | hgt
    · obtain ⟨k, rfl⟩ : ∃ k, j = i + 1 + k := ⟨j - (i + 1), by omega⟩
      have hsub : i + 1 + k - i = k + 1 := by omega
      rw [if_neg hlt.ne, if_pos (by omega), if_pos hlt.le, Nat.zero_add, Nat.add_sub_cancel_left,
        hsub, List.getElem?_cons_succ]
    · rw [if_pos heq, if_neg (by omega), if_pos heq.le, Nat.add_zero, heq, Nat.sub_self,
        List.getElem?_cons_zero, Option.join_some]
    · rw [if_neg hgt.ne', if_neg (by omega), if_neg (by omega)]

/-! ## Fairness -/

/-- Some time is the soonest, if something happens at all. -/
theorem exists_isSoonest {candidates : List (Option (Candidate V A))} {m : Candidate V A}
    (hm : some m ∈ candidates) (hop : m.op ≠ .pending) : ∃ t, IsSoonest t candidates := by
  have htimes : ∀ t, t ∈ candidates.reduceOption.filterMap Candidate.time? ↔
      ∃ c, some c ∈ candidates ∧ c.time? = some t := by
    intro t
    rw [List.mem_filterMap]
    simp only [List.reduceOption_mem_iff]
  obtain ⟨time, htime⟩ : ∃ time, m.time? = some time := by
    obtain ⟨op, weight, payload⟩ := m
    cases op with
    | pending => exact absurd rfl hop
    | op o => exact ⟨o.time, rfl⟩
  have hne : (candidates.reduceOption.filterMap Candidate.time?) ≠ [] :=
    List.ne_nil_of_mem ((htimes time).mpr ⟨m, hm, htime⟩)
  obtain ⟨t, hmin⟩ := Option.isSome_iff_exists.mp (List.isSome_min?_of_ne_nil hne)
  obtain ⟨hmem, hle⟩ := List.min?_eq_some_iff.mp hmin
  exact ⟨t, (htimes t).mp hmem, fun c hc t' ht' => hle t' ((htimes t').mpr ⟨c, hc, ht'⟩)⟩

/-- If a candidate is not pending, the reduction returns one that happens at the soonest time,
each of those with the probability of its share of their weights. -/
theorem reduceSoonest_fair (candidates : List (Option (Candidate V A)))
    (hweighted : ∀ m, some m ∈ candidates → 0 < m.weightOrOne)
    (hop : ∃ m, some m ∈ candidates ∧ m.op ≠ .pending) :
    reduceSoonest candidates none =
        (reduceSoonest (positioned 0 candidates) none).map (Option.map (·.withPayload Prod.fst)) ∧
      ∃ t, IsSoonest t candidates ∧
        (∀ r ∈ (reduceSoonest (positioned 0 candidates) none).support, ∃ m i c,
          r = some m ∧ candidates[i]? = some (some c) ∧ c.time? = some t ∧
            m.op = c.op ∧ m.payload = (c.payload, i)) ∧
        ∀ i c, candidates[i]? = some (some c) → c.time? = some t →
          (reduceSoonest (positioned 0 candidates) none).toOuterMeasure (Chosen { p | p.2 = i }) =
            c.weightOrOne / weightAt t Set.univ candidates := by
  obtain ⟨m, hm, hpending⟩ := hop
  obtain ⟨t, hsoonest⟩ := exists_isSoonest hm hpending
  have hmem : ∀ {i : ℕ} {c : Candidate V A}, candidates[i]? = some (some c) →
      some c ∈ candidates := fun hi => List.mem_of_getElem? hi
  have hpositioned : ∀ c, some c ∈ none :: positioned 0 candidates → ∃ (i : ℕ) (c' : Candidate V A),
      candidates[i]? = some (some c') ∧ c = c'.withPayload fun payload => (payload, i) := by
    intro c hc
    cases List.mem_cons.mp hc with
    | inl heq => cases heq
    | inr htail => simpa only [Nat.zero_add] using mem_positioned htail
  have hbefore : NotBefore t (none :: positioned 0 candidates) := by
    intro c hc t' ht'
    obtain ⟨i, c', hi, rfl⟩ := hpositioned c hc
    exact hsoonest.2 c' (hmem hi) t' ht'
  have hweighted' : Weighted (none :: positioned 0 candidates) := by
    intro c hc
    obtain ⟨i, c', hi, rfl⟩ := hpositioned c hc
    exact hweighted c' (hmem hi)
  have htotal : weightAt t Set.univ (none :: positioned 0 candidates) =
      weightAt t Set.univ candidates := by
    rw [weightAt_cons, weightAt_positioned_univ, share, Nat.zero_add]
  have hpos : 0 < weightAt t Set.univ (none :: positioned 0 candidates) :=
    htotal ▸ weightAt_pos hsoonest hweighted
  refine ⟨?_, t, hsoonest, fun r hr => ?_, fun i c hi htime => ?_⟩
  · rw [← reduceSoonest_withPayload, positioned_map_fst]
    rfl
  · obtain ⟨c, rfl, htime, c', hc', hop, hpayload⟩ :=
      mem_support_reduceSoonest hbefore hweighted' hpos hr
    obtain ⟨i, c'', hi, rfl⟩ := hpositioned c' hc'
    refine ⟨c, i, c'', rfl, hi, ?_, hop, hpayload⟩
    rw [Candidate.time?, hop] at htime
    exact htime
  · rw [toOuterMeasure_reduceSoonest hbefore hweighted' hpos, htotal, weightAt_cons,
      weightAt_positioned, if_pos (Nat.zero_le i), Nat.sub_zero, hi, share, Nat.zero_add]
    rw [Option.join_some, share, if_pos ⟨htime, Set.mem_univ _⟩]

/-- An invocation at a time, with a weight. -/
def weighing (weight : Option ℕ) (time : ℤ) : Option (Candidate ℕ ℕ) :=
  some { op := .op ⟨0, time, .invoke, .int 0, none, 0, false, none⟩, weight := weight, payload := 0 }

/-- Two candidates of weights 2 and 1 at one time, a later one, one that is pending and a missing
one: the first is chosen two times out of three. -/
theorem twoTied_fair :
    (reduceSoonest (positioned 0 [none, weighing (some 2) 5, weighing (some 7) 6,
        some { op := .pending, weight := none, payload := 0 }, weighing none 5]) none).toOuterMeasure
      (Chosen { p | p.2 = 1 }) = 2 / 3 := by
  obtain ⟨-, t, hsoonest, -, hfair⟩ := reduceSoonest_fair [none, weighing (some 2) 5,
    weighing (some 7) 6, some { op := .pending, weight := none, payload := 0 }, weighing none 5]
    (by simp [weighing, Candidate.weightOrOne]) (by simp [weighing])
  have ht : t = 5 := by
    obtain ⟨⟨m, hm, htime⟩, hbefore⟩ := hsoonest
    have hle : t ≤ 5 := hbefore _ (List.mem_cons_of_mem _ List.mem_cons_self) 5 rfl
    have htimes : ∀ m', some m' ∈ [none, weighing (some 2) 5, weighing (some 7) 6,
        some { op := .pending, weight := none, payload := 0 }, weighing none 5] →
        m'.time? = none ∨ m'.time? = some 5 ∨ m'.time? = some 6 := by
      simp [weighing, Candidate.time?]
    rcases htimes m hm with h | h | h
    · rw [h] at htime
      cases htime
    · exact (Option.some.inj (h.symm.trans htime)).symm
    · have hsix := Option.some.inj (h.symm.trans htime)
      omega
  subst ht
  rw [hfair 1 _ rfl rfl]
  simp [weightAt, share, weighing, Candidate.time?, Candidate.weightOrOne]

end Jepsen.Generator

end
