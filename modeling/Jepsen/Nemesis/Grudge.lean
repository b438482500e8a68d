/-
# Components and the grudges between them

A grudge maps each node to the nodes it is to snub. A complete grudge is built
from components, so that no node talks to any node outside its own; an inverted
one from the nodes each node should be connected to. The sizes by which clusters
are cut are here too, with the inequalities their names promise.
-/

import Jepsen.Library.Assoc

namespace Jepsen.Nemesis

open Jepsen.Library

universe u

variable {Node : Type u} [DecidableEq Node]

/-! ## Sizes -/

/-- `util/majority`: the smallest integer strictly greater than half. -/
def majority (n : ℕ) : ℕ := n / 2 + 1

/-- `util/minority-third`: the largest integer strictly less than a third. -/
def minorityThird (n : ℕ) : ℕ := (n - 1) / 3

theorem majority_gt_half (n : ℕ) : n < 2 * majority n := by
  unfold majority
  omega

theorem majority_le {n : ℕ} (hpos : 0 < n) : majority n ≤ n := by
  unfold majority
  omega

theorem minorityThird_lt_third {n : ℕ} (hpos : 0 < n) : 3 * minorityThird n < n := by
  unfold minorityThird
  omega

/-- One less than a majority is a minority exactly when no half is a whole number. -/
theorem pred_majority_lt_half_iff (n : ℕ) : 2 * (majority n - 1) < n ↔ n % 2 = 1 := by
  unfold majority
  omega

/-! ## Cutting a list of nodes -/

/-- `bisect`: the smaller half first. -/
def bisect (coll : List Node) : List (List Node) :=
  [coll.take (coll.length / 2), coll.drop (coll.length / 2)]

/-- `split-one` -/
def splitOne (loner : Node) (coll : List Node) : List (List Node) :=
  [[loner], coll.filter (· ≠ loner)]

/-! ## Grudges -/

/-- Each node with the nodes it snubs. -/
abbrev Grudge (Node : Type u) := Assoc Node (Finset Node)

/-- The nodes that a node snubs. -/
def Grudge.snubs (grudge : Grudge Node) (node : Node) : Finset Node :=
  (grudge.lookup node).getD ∅

/-- Whoever is snubbed snubs back. -/
def Grudge.Symmetric (grudge : Grudge Node) : Prop :=
  ∀ a b, b ∈ grudge.snubs a → a ∈ grudge.snubs b

/-- Neither of two nodes snubs the other. -/
def Grudge.Connected (grudge : Grudge Node) (a b : Node) : Prop :=
  b ∉ grudge.snubs a ∧ a ∉ grudge.snubs b

/-- `complete-grudge` -/
def completeGrudge (components : List (List Node)) : Grudge Node :=
  let everyone := components.flatten.toFinset
  components.foldl (fun grudge component =>
    Assoc.insertAll component.dedup (everyone \ component.toFinset) grudge) ∅

/-- `invert-grudge` -/
def invertGrudge (nodes : List Node) (conns : Assoc Node (Finset Node)) : Grudge Node :=
  nodes.dedup.foldl (fun grudge a =>
    grudge.insert a (nodes.toFinset \ (conns.lookup a).getD ∅)) ∅

/-! ## Complete grudges -/

/-- Two components are the same nodes or share none. -/
def Separate (components : List (List Node)) : Prop :=
  ∀ c ∈ components, ∀ c' ∈ components, ∀ node, node ∈ c → node ∈ c' →
    c.toFinset = c'.toFinset

theorem lookup_foldl_insertAll (snubbed : List Node → Finset Node)
    (components : List (List Node)) (grudge : Grudge Node) (a : Node) :
    (components.foldl (fun grudge c => Assoc.insertAll c.dedup (snubbed c) grudge)
      grudge).lookup a = grudge.lookup a ∧ (∀ c ∈ components, a ∉ c) ∨
    ∃ c ∈ components, a ∈ c ∧
      (components.foldl (fun grudge c => Assoc.insertAll c.dedup (snubbed c) grudge)
        grudge).lookup a = some (snubbed c) := by
  induction components generalizing grudge with
  | nil =>
    left
    exact ⟨rfl, fun c hc => absurd hc List.not_mem_nil⟩
  | cons c components ih =>
    rw [List.foldl_cons]
    rcases ih (Assoc.insertAll c.dedup (snubbed c) grudge) with ⟨hlookup, hnone⟩ | ⟨c', hc', hmem, hlookup⟩
    · rw [hlookup, Assoc.lookup_insertAll]
      by_cases hmem : a ∈ c
      · right
        refine ⟨c, List.mem_cons_self, hmem, ?_⟩
        rw [if_pos (List.mem_dedup.mpr hmem)]
      · left
        refine ⟨if_neg (fun h => hmem (List.mem_dedup.mp h)), fun c' hc' => ?_⟩
        rcases List.mem_cons.mp hc' with rfl | htail
        · exact hmem
        · exact hnone c' htail
    · right
      exact ⟨c', List.mem_cons_of_mem c hc', hmem, hlookup⟩

/-- A node of some component snubs everyone outside it, and other nodes snub nobody. -/
theorem snubs_completeGrudge {components : List (List Node)} (hseparate : Separate components)
    (a b : Node) :
    b ∈ (completeGrudge components).snubs a ↔
      ∃ c ∈ components, a ∈ c ∧ b ∉ c ∧ ∃ c' ∈ components, b ∈ c' := by
  unfold Grudge.snubs completeGrudge
  rcases lookup_foldl_insertAll (fun c => components.flatten.toFinset \ c.toFinset)
    components ∅ a with ⟨hlookup, hnone⟩ | ⟨c, hc, hmem, hlookup⟩
  · rw [hlookup, AList.lookup_empty]
    simp only [Option.getD_none, Finset.notMem_empty, false_iff]
    rintro ⟨c, hc, hmem, -⟩
    exact hnone c hc hmem
  · rw [hlookup]
    simp only [Option.getD_some, Finset.mem_sdiff, List.mem_toFinset, List.mem_flatten]
    constructor
    · rintro ⟨hb, hnot⟩
      exact ⟨c, hc, hmem, hnot, hb⟩
    · rintro ⟨c', hc', hmem', hnot, hb⟩
      refine ⟨hb, ?_⟩
      have hsame : c.toFinset = c'.toFinset := hseparate c hc c' hc' a hmem hmem'
      rwa [← List.mem_toFinset, hsame, List.mem_toFinset]

theorem completeGrudge_symmetric {components : List (List Node)}
    (hseparate : Separate components) : (completeGrudge components).Symmetric := by
  intro a b hsnub
  rw [snubs_completeGrudge hseparate] at hsnub ⊢
  obtain ⟨c, hc, ha, hb, c', hc', hb'⟩ := hsnub
  refine ⟨c', hc', hb', fun ha' => hb ?_, c, hc, ha⟩
  rw [← List.mem_toFinset, hseparate c hc c' hc' a ha ha', List.mem_toFinset]
  exact hb'

/-- No node is isolated from its own component. -/
theorem completeGrudge_connected {components : List (List Node)}
    (hseparate : Separate components) {c : List Node} (hc : c ∈ components) {a b : Node}
    (ha : a ∈ c) (hb : b ∈ c) : (completeGrudge components).Connected a b := by
  have hnot : ∀ {x y : Node}, x ∈ c → y ∈ c → y ∉ (completeGrudge components).snubs x := by
    intro x y hx hy hsnub
    rw [snubs_completeGrudge hseparate] at hsnub
    obtain ⟨c', hc', hx', hy', -⟩ := hsnub
    apply hy'
    rw [← List.mem_toFinset, ← hseparate c hc c' hc' x hx hx', List.mem_toFinset]
    exact hy
  exact ⟨hnot ha hb, hnot hb ha⟩

/-! ## Inverted grudges -/

theorem lookup_invertGrudge (nodes : List Node) (conns : Assoc Node (Finset Node)) (a : Node) :
    (invertGrudge nodes conns).lookup a =
      if a ∈ nodes then some (nodes.toFinset \ (conns.lookup a).getD ∅) else none := by
  have hfold : ∀ (l : List Node) (grudge : Grudge Node),
      (l.foldl (fun grudge a =>
        grudge.insert a (nodes.toFinset \ (conns.lookup a).getD ∅)) grudge).lookup a =
      if a ∈ l then some (nodes.toFinset \ (conns.lookup a).getD ∅) else grudge.lookup a := by
    intro l
    induction l with
    | nil =>
      intro grudge
      simp
    | cons x l ih =>
      intro grudge
      rw [List.foldl_cons, ih, Assoc.lookup_insert_eq_ite]
      by_cases hmem : a ∈ l
      · simp [hmem]
      · by_cases heq : a = x
        · subst heq
          simp
        · simp [hmem, heq]
  unfold invertGrudge
  rw [hfold]
  simp

theorem snubs_invertGrudge {nodes : List Node} {conns : Assoc Node (Finset Node)} {a b : Node} :
    b ∈ (invertGrudge nodes conns).snubs a ↔
      a ∈ nodes ∧ b ∈ nodes ∧ b ∉ (conns.lookup a).getD ∅ := by
  unfold Grudge.snubs
  rw [lookup_invertGrudge]
  by_cases ha : a ∈ nodes <;> simp [ha]

end Jepsen.Nemesis
