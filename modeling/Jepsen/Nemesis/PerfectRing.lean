/-
# The exact ring of up to five nodes

Each node is the middle of one majority of the ring and snubs the nodes outside
it. Majorities of an odd size reach equally far to both sides, so that the snubs
are mutual; three nodes have majorities of two, and there each snubs the next.
-/

import Jepsen.Nemesis.MajoritiesRing

namespace Jepsen.Nemesis

open Jepsen.Library

universe u

variable {Node : Type u} [DecidableEq Node]

/-- A node in the middle of a majority of the ring snubs the nodes outside it. -/
theorem mem_snubs_foldl {nodes : List Node} {ring : List (Node × List Node)}
    (hmiddle : ∀ p ∈ ring, p.2[p.2.length / 2]? = some p.1)
    (hnodup : (ring.map Prod.fst).Nodup) (grudge : Grudge Node) (x y : Node) :
    y ∈ Grudge.snubs ((ring.map Prod.snd).foldl (dropOutside nodes) grudge) x ↔
      (∃ p ∈ ring, x = p.1 ∧ y ∈ nodes ∧ y ∉ p.2) ∨
        x ∉ ring.map Prod.fst ∧ y ∈ grudge.snubs x := by
  induction ring generalizing grudge with
  | nil => simp
  | cons p ring ih =>
    rw [List.map_cons, List.nodup_cons] at hnodup
    have hhead : dropOutside nodes grudge p.2 =
        grudge.insert p.1 (nodes.toFinset \ p.2.toFinset) := by
      unfold dropOutside
      rw [hmiddle p List.mem_cons_self]
    rw [List.map_cons, List.foldl_cons, hhead,
      ih (fun p hp => hmiddle p (List.mem_cons_of_mem _ hp)) hnodup.2]
    unfold Grudge.snubs
    rw [Assoc.lookup_insert_eq_ite]
    by_cases heq : x = p.1
    · subst heq
      have hnot : ∀ q ∈ ring, p.1 ≠ q.1 := fun q hq heq =>
        hnodup.1 (List.mem_map.mpr ⟨q, hq, heq.symm⟩)
      have hnone : ¬ ∃ q ∈ ring, p.1 = q.1 ∧ y ∈ nodes ∧ y ∉ q.2 := by
        rintro ⟨q, hq, heq, -⟩
        exact hnot q hq heq
      simp only [hnone, false_or, List.mem_cons, exists_eq_or_imp, if_pos]
      simp [hnodup.1]
    · simp [heq]

/-- The snubs of a ring whose majorities are listed with their middles. -/
theorem mem_snubs_perfect {nodes shuffled : List Node} {ring : List (Node × List Node)}
    (hring : ringMajorities shuffled = ring.map Prod.snd)
    (hmiddle : ∀ p ∈ ring, p.2[p.2.length / 2]? = some p.1)
    (hnodup : (ring.map Prod.fst).Nodup) (x y : Node) :
    y ∈ (majoritiesRingPerfect nodes shuffled).snubs x ↔
      ∃ p ∈ ring, x = p.1 ∧ y ∈ nodes ∧ y ∉ p.2 := by
  have hempty : Grudge.snubs (∅ : Grudge Node) x = ∅ := by
    unfold Grudge.snubs
    rw [AList.lookup_empty, Option.getD_none]
  unfold majoritiesRingPerfect
  rw [hring, mem_snubs_foldl hmiddle hnodup, hempty]
  simp

theorem mem_snubs_two {nodes : List Node} {a b : Node} (hnodup : [a, b].Nodup)
    (hmem : ∀ x, x ∈ nodes ↔ x ∈ [a, b]) (x y : Node) :
    y ∉ (majoritiesRingPerfect nodes [a, b]).snubs x := by
  have hring : ringMajorities [a, b] = [(b, [a, b]), (a, [b, a])].map Prod.snd := by
    simp [ringMajorities, majority, List.range_succ, List.rotate]
  rw [List.nodup_cons, List.mem_singleton] at hnodup
  rw [mem_snubs_perfect hring (by simp) (by simp [Ne.symm hnodup.1])]
  simp only [hmem]
  simp
  grind

theorem mem_snubs_three {nodes : List Node} {a b c : Node} (hnodup : [a, b, c].Nodup)
    (hmem : ∀ x, x ∈ nodes ↔ x ∈ [a, b, c]) (x y : Node) :
    y ∈ (majoritiesRingPerfect nodes [a, b, c]).snubs x ↔
      x = a ∧ y = b ∨ x = b ∧ y = c ∨ x = c ∧ y = a := by
  have hring : ringMajorities [a, b, c] =
      [(b, [a, b]), (c, [b, c]), (a, [c, a])].map Prod.snd := by
    simp [ringMajorities, majority, List.range_succ, List.rotate]
  simp only [List.nodup_cons, List.mem_cons, List.not_mem_nil, or_false, not_or] at hnodup
  rw [mem_snubs_perfect hring (by simp) (by simp; grind)]
  simp only [hmem]
  simp
  grind

theorem mem_snubs_four {nodes : List Node} {a b c d : Node} (hnodup : [a, b, c, d].Nodup)
    (hmem : ∀ x, x ∈ nodes ↔ x ∈ [a, b, c, d]) (x y : Node) :
    y ∈ (majoritiesRingPerfect nodes [a, b, c, d]).snubs x ↔
      x = a ∧ y = c ∨ x = b ∧ y = d ∨ x = c ∧ y = a ∨ x = d ∧ y = b := by
  have hring : ringMajorities [a, b, c, d] =
      [(b, [a, b, c]), (c, [b, c, d]), (d, [c, d, a]), (a, [d, a, b])].map Prod.snd := by
    simp [ringMajorities, majority, List.range_succ, List.rotate]
  simp only [List.nodup_cons, List.mem_cons, List.not_mem_nil, or_false, not_or] at hnodup
  rw [mem_snubs_perfect hring (by simp) (by simp; grind)]
  simp only [hmem]
  simp
  grind

theorem mem_snubs_five {nodes : List Node} {a b c d e : Node} (hnodup : [a, b, c, d, e].Nodup)
    (hmem : ∀ x, x ∈ nodes ↔ x ∈ [a, b, c, d, e]) (x y : Node) :
    y ∈ (majoritiesRingPerfect nodes [a, b, c, d, e]).snubs x ↔
      x = a ∧ (y = c ∨ y = d) ∨ x = b ∧ (y = d ∨ y = e) ∨ x = c ∧ (y = a ∨ y = e) ∨
        x = d ∧ (y = a ∨ y = b) ∨ x = e ∧ (y = b ∨ y = c) := by
  have hring : ringMajorities [a, b, c, d, e] =
      [(b, [a, b, c]), (c, [b, c, d]), (d, [c, d, e]), (e, [d, e, a]),
        (a, [e, a, b])].map Prod.snd := by
    simp [ringMajorities, majority, List.range_succ, List.rotate]
  simp only [List.nodup_cons, List.mem_cons, List.not_mem_nil, or_false, not_or] at hnodup
  rw [mem_snubs_perfect hring (by simp) (by simp; grind)]
  simp only [hmem]
  simp
  grind

/-- With two, four or five nodes, the snubs of the exact ring are mutual. -/
theorem majoritiesRingPerfect_symmetric {nodes shuffled : List Node} (hnodup : nodes.Nodup)
    (hperm : shuffled.Perm nodes) (hmany : 2 ≤ nodes.length) (hfew : nodes.length ≤ 5)
    (hthree : nodes.length ≠ 3) : (majoritiesRingPerfect nodes shuffled).Symmetric := by
  have hnodup' : shuffled.Nodup := hperm.nodup_iff.mpr hnodup
  have hmem : ∀ x, x ∈ nodes ↔ x ∈ shuffled := fun x => hperm.mem_iff.symm
  rw [← hperm.length_eq] at hmany hfew hthree
  intro x y
  match shuffled, hnodup', hmem with
  | [a, b], hnodup', hmem =>
    intro h
    exact absurd h (mem_snubs_two hnodup' hmem x y)
  | [a, b, c, d], hnodup', hmem =>
    rw [mem_snubs_four hnodup' hmem, mem_snubs_four hnodup' hmem]
    grind
  | [a, b, c, d, e], hnodup', hmem =>
    rw [mem_snubs_five hnodup' hmem, mem_snubs_five hnodup' hmem]
    grind
  | [], _, _ | [_], _, _ => simp at hmany
  | [_, _, _], _, _ => simp at hthree
  | _ :: _ :: _ :: _ :: _ :: _ :: _, _, _ =>
    simp only [List.length_cons] at hfew
    omega

/-- With three nodes they never are. -/
theorem majoritiesRingPerfect_not_symmetric {nodes shuffled : List Node} (hnodup : nodes.Nodup)
    (hperm : shuffled.Perm nodes) (hthree : nodes.length = 3) :
    ¬ (majoritiesRingPerfect nodes shuffled).Symmetric := by
  have hnodup' : shuffled.Nodup := hperm.nodup_iff.mpr hnodup
  have hmem : ∀ x, x ∈ nodes ↔ x ∈ shuffled := fun x => hperm.mem_iff.symm
  obtain ⟨a, b, c, rfl⟩ := List.length_eq_three.mp (hperm.length_eq.trans hthree)
  intro hsymm
  have hback := hsymm a b ((mem_snubs_three hnodup' hmem a b).mpr (Or.inl ⟨rfl, rfl⟩))
  rw [mem_snubs_three hnodup' hmem] at hback
  simp only [List.nodup_cons, List.mem_cons, List.not_mem_nil, or_false, not_or] at hnodup'
  grind

end Jepsen.Nemesis
