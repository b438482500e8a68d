/-
# Chunked folds

A fold over a long list may reduce pieces of it on their own and combine what
they give. What such a fold returns should not depend on how the list was cut or
in which order the pieces were combined. The plan of a fold is a tree; a fold
collects facts when its state can be observed as a set that a reduction step and
a combination only ever add to.
-/

import Mathlib

namespace Jepsen.Library

universe u v w

/-- A fold whose steps only add facts ends with the facts of all its elements. -/
theorem mem_observe_foldl {A : Type u} {S : Type v} {F : Type w} {reduce : S → A → S}
    {observe : S → Set F} {facts : A → Set F}
    (hreduce : ∀ s a, observe (reduce s a) = observe s ∪ facts a) (elements : List A) (s : S)
    (x : F) :
    x ∈ observe (elements.foldl reduce s) ↔ x ∈ observe s ∨ ∃ a ∈ elements, x ∈ facts a := by
  induction elements generalizing s with
  | nil => simp
  | cons a elements ih =>
    rw [List.foldl_cons, ih, hreduce, Set.mem_union, or_assoc]
    simp only [List.mem_cons, exists_eq_or_imp]

/-- How the elements of a fold are cut into chunks, and how these are combined. -/
inductive FoldPlan (A : Type u)
  | chunk (elements : List A)
  | combine (left right : FoldPlan A)

/-- A chunk is reduced from the initial state; two states are combined into one. -/
structure Folder (A : Type u) (S : Type v) where
  init : S
  reduce : S → A → S
  combine : S → S → S

namespace FoldPlan

variable {A : Type u}

/-- All elements of a plan, chunk by chunk. -/
def elements : FoldPlan A → List A
  | .chunk elements => elements
  | .combine left right => left.elements ++ right.elements

end FoldPlan

namespace Folder

variable {A : Type u} {S : Type v} {F : Type w} (folder : Folder A S)

/-- Carry out a plan. -/
def run : FoldPlan A → S
  | .chunk elements => elements.foldl folder.reduce folder.init
  | .combine left right => folder.combine (run left) (run right)

/-- Every state a fold passes through satisfies `P`. -/
structure Keeps (P : S → Prop) : Prop where
  init : P folder.init
  reduce : ∀ {s} a, P s → P (folder.reduce s a)
  combine : ∀ {s t}, P s → P t → P (folder.combine s t)

/-- The facts observed of a state are those of the elements it was built from. -/
structure Collects (observe : S → Set F) (facts : A → Set F) : Prop where
  init : observe folder.init = ∅
  reduce : ∀ s a, observe (folder.reduce s a) = observe s ∪ facts a
  combine : ∀ s t, observe (folder.combine s t) = observe s ∪ observe t

variable {folder}

theorem Keeps.run {P : S → Prop} (hkeeps : folder.Keeps P) (plan : FoldPlan A) :
    P (folder.run plan) := by
  induction plan with
  | chunk elements =>
    exact List.foldlRecOn elements folder.reduce hkeeps.init fun s hs a _ => hkeeps.reduce a hs
  | combine left right ihl ihr => exact hkeeps.combine ihl ihr

namespace Collects

variable {observe : S → Set F} {facts : A → Set F}

/-- What a fold collects does not depend on its plan, only on the elements. -/
theorem mem_run (hcollects : folder.Collects observe facts) (plan : FoldPlan A) (x : F) :
    x ∈ observe (folder.run plan) ↔ ∃ a ∈ plan.elements, x ∈ facts a := by
  induction plan with
  | chunk elements =>
    have hfold := mem_observe_foldl hcollects.reduce elements folder.init x
    rw [hcollects.init, Set.mem_empty_iff_false, false_or] at hfold
    exact hfold
  | combine left right ihl ihr =>
    have hcombine : x ∈ observe (folder.run (.combine left right)) ↔
        x ∈ observe (folder.run left) ∨ x ∈ observe (folder.run right) := by
      rw [Folder.run, hcollects.combine, Set.mem_union]
    rw [hcombine, ihl, ihr, FoldPlan.elements]
    simp only [List.mem_append, or_and_right, exists_or]

end Collects

/-- What a state says of the elements it was built from, in their order. -/
structure Tracks (folder : Folder A S) (P : List A → S → Prop) : Prop where
  init : P [] folder.init
  reduce : ∀ {l s} a, P l s → P (l ++ [a]) (folder.reduce s a)
  combine : ∀ {l l' s s'}, P l s → P l' s' → P (l ++ l') (folder.combine s s')

/-- A fold tracks its elements, whatever the chunks, as long as they are combined in
order. -/
theorem Tracks.run {P : List A → S → Prop} (htracks : folder.Tracks P) (plan : FoldPlan A) :
    P plan.elements (folder.run plan) := by
  induction plan with
  | chunk elements =>
    rw [FoldPlan.elements, Folder.run]
    induction elements using List.reverseRecOn with
    | nil => exact htracks.init
    | append_singleton elements a ih =>
      rw [List.foldl_append]
      exact htracks.reduce a ih
  | combine left right ihl ihr => exact htracks.combine ihl ihr

end Folder

end Jepsen.Library
