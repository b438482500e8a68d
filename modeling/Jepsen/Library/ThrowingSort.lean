/-
# Sorting with a comparator that throws

Insertion sort by a key, where comparing two elements with equal keys throws.
Any two elements that a sort leaves next to each other were compared, so that it
throws for equal keys in whatever order it compares; without them there is one
sorted order, and every sort finds it.
-/

import Mathlib

namespace Jepsen.Library

universe u v

variable {α : Type u} {K : Type v} [LinearOrder K]

/-- Insert an element before the first one with a larger key; none if a key is equal. -/
def throwingInsert (key : α → K) (x : α) : List α → Option (List α)
  | [] => some [x]
  | y :: ys =>
    match compare (key x) (key y) with
    | .lt => some (x :: y :: ys)
    | .eq => none
    | .gt => (throwingInsert key x ys).map (y :: ·)

/-- Sort by a key; none if two elements have equal keys. -/
def throwingSort (key : α → K) : List α → Option (List α)
  | [] => some []
  | x :: xs => (throwingSort key xs).bind (throwingInsert key x)

/-- The keys ascend. -/
def Ascending (key : α → K) (l : List α) : Prop := l.Pairwise fun x y => key x < key y

theorem throwingInsert_spec {key : α → K} {x : α} {l : List α} (hl : Ascending key l)
    (hnew : ∀ y ∈ l, key y ≠ key x) :
    ∃ l', throwingInsert key x l = some l' ∧ l'.Perm (x :: l) ∧ Ascending key l' := by
  induction l with
  | nil => exact ⟨[x], rfl, List.Perm.refl _, List.pairwise_singleton _ _⟩
  | cons y ys ih =>
    obtain ⟨hfirst, hrest⟩ := List.pairwise_cons.mp hl
    rw [throwingInsert]
    rcases lt_trichotomy (key x) (key y) with hlt | heq | hgt
    · rw [compare_lt_iff_lt.mpr hlt]
      refine ⟨x :: y :: ys, rfl, List.Perm.refl _, List.pairwise_cons.mpr ⟨?_, hl⟩⟩
      intro z hz
      rcases List.mem_cons.mp hz with rfl | hz
      · exact hlt
      · exact hlt.trans (hfirst z hz)
    · exact absurd heq.symm (hnew y List.mem_cons_self)
    · rw [compare_gt_iff_gt.mpr hgt]
      obtain ⟨l', hl', hperm, hasc⟩ := ih hrest fun z hz => hnew z (List.mem_cons_of_mem y hz)
      refine ⟨y :: l', ?_, ?_, List.pairwise_cons.mpr ⟨?_, hasc⟩⟩
      · dsimp only
        rw [hl', Option.map_some]
      · exact (hperm.cons y).trans (List.Perm.swap x y ys)
      · intro z hz
        rcases List.mem_cons.mp (hperm.mem_iff.mp hz) with rfl | hz
        · exact hgt
        · exact hfirst z hz

theorem throwingInsert_eq_none {key : α → K} {x : α} {l : List α} (hl : Ascending key l) {y : α}
    (hy : y ∈ l) (heq : key y = key x) : throwingInsert key x l = none := by
  induction l with
  | nil => exact absurd hy List.not_mem_nil
  | cons z zs ih =>
    obtain ⟨hfirst, hrest⟩ := List.pairwise_cons.mp hl
    rw [throwingInsert]
    rcases List.mem_cons.mp hy with rfl | hy
    · rw [compare_eq_iff_eq.mpr heq.symm]
    · rw [compare_gt_iff_gt.mpr (heq ▸ hfirst y hy)]
      dsimp only
      rw [ih hrest hy, Option.map_none]

/-- Distinct keys are sorted, to the one ascending order. -/
theorem throwingSort_spec {key : α → K} {l : List α} (hl : (l.map key).Nodup) :
    ∃ l', throwingSort key l = some l' ∧ l'.Perm l ∧ Ascending key l' := by
  induction l with
  | nil => exact ⟨[], rfl, List.Perm.refl _, List.Pairwise.nil⟩
  | cons x xs ih =>
    rw [List.map_cons, List.nodup_cons] at hl
    obtain ⟨sorted, hsorted, hperm, hasc⟩ := ih hl.2
    obtain ⟨l', hl', hperm', hasc'⟩ := throwingInsert_spec (x := x) hasc fun y hy heq =>
      hl.1 (heq ▸ List.mem_map_of_mem (hperm.mem_iff.mp hy))
    refine ⟨l', ?_, hperm'.trans (hperm.cons x), hasc'⟩
    rw [throwingSort, hsorted, Option.bind_some, hl']

/-- Equal keys make the sort throw. -/
theorem nodup_of_throwingSort {key : α → K} {l l' : List α} (hsort : throwingSort key l = some l') :
    (l.map key).Nodup := by
  induction l generalizing l' with
  | nil => exact List.nodup_nil
  | cons x xs ih =>
    rw [throwingSort] at hsort
    obtain ⟨sorted, hsorted, hinsert⟩ := Option.bind_eq_some_iff.mp hsort
    have hnodup := ih hsorted
    obtain ⟨sorted', hsorted', hperm, hasc⟩ := throwingSort_spec hnodup
    rw [hsorted] at hsorted'
    cases hsorted'
    rw [List.map_cons, List.nodup_cons]
    refine ⟨fun hmem => ?_, hnodup⟩
    obtain ⟨y, hy, heq⟩ := List.mem_map.mp hmem
    rw [throwingInsert_eq_none hasc (hperm.mem_iff.mpr hy) heq] at hinsert
    cases hinsert

end Jepsen.Library
