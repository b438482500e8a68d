/-
# Short node names

The clock plot drops the common end of its nodes' names, label by label.
-/

import Jepsen.Util.CommonPrefix
import Jepsen.Util.Strings

namespace Jepsen.Checker.Clock

open Jepsen.Util

universe u

/-- `short-node-names` -/
def shortNodeNames (nodes : List (List Char)) : List (List Char) :=
  ((dropCommonProperPrefix ((nodes.map (split '.')).map List.reverse)).map List.reverse).map
    (join '.')

/-- A hostname has labels that are not empty, with dots between them. -/
def IsHostname (node : List Char) : Prop := ∀ label ∈ node.splitOn '.', label ≠ []

/-- The name of a node without a number of labels at its end. -/
def withoutLabels (n : ℕ) (node : List Char) : List Char :=
  join '.' ((((split '.' node).reverse).drop n).reverse)

theorem shortNodeNames_eq (nodes : List (List Char)) :
    shortNodeNames nodes = nodes.map
      (withoutLabels (properPrefix ((nodes.map (split '.')).map List.reverse)).length) := by
  unfold shortNodeNames
  rw [dropCommonProperPrefix_eq, List.map_map, List.map_map, List.map_map, List.map_map]
  rfl

section

variable {nodes : List (List Char)}

theorem split_ne_nil {node : List Char} (hnode : IsHostname node) : split '.' node ≠ [] := by
  rw [split_eq_splitOn hnode]
  exact List.splitOn_ne_nil '.' node

theorem mem_labels {node : List Char} (hmem : node ∈ nodes) :
    (split '.' node).reverse ∈ (nodes.map (split '.')).map List.reverse :=
  List.mem_map_of_mem (List.mem_map_of_mem hmem)

/-- Some label is left of each hostname. -/
theorem left_ne_nil {node : List Char} (hmem : node ∈ nodes) (hnode : IsHostname node) :
    (((split '.' node).reverse).drop
      (properPrefix ((nodes.map (split '.')).map List.reverse)).length).reverse ≠ [] := by
  intro hnil
  exact drop_ne_nil (mem_labels hmem) (fun hrev => split_ne_nil hnode (List.reverse_eq_nil_iff.mp hrev))
    (List.reverse_eq_nil_iff.mp hnil)

theorem mem_split_of_mem_left {node label : List Char} {n : ℕ}
    (hlabel : label ∈ (((split '.' node).reverse).drop n).reverse) : label ∈ split '.' node :=
  List.mem_reverse.mp (List.mem_of_mem_drop (List.mem_reverse.mp hlabel))

/-- Hostnames that differ have names that differ. -/
theorem withoutLabels_inj {a b : List Char} (hmema : a ∈ nodes) (hmemb : b ∈ nodes)
    (ha : IsHostname a) (hb : IsHostname b)
    (heq : withoutLabels (properPrefix ((nodes.map (split '.')).map List.reverse)).length a =
      withoutLabels (properPrefix ((nodes.map (split '.')).map List.reverse)).length b) : a = b := by
  have hfree : ∀ (node : List Char) (n : ℕ),
      ∀ label ∈ (((split '.' node).reverse).drop n).reverse, '.' ∉ label :=
    fun node n label hlabel => notMem_of_mem_split (mem_split_of_mem_left hlabel)
  have hleft := List.reverse_injective (join_inj (hfree a _) (hfree b _) (left_ne_nil hmema ha)
    (left_ne_nil hmemb hb) heq)
  have hlabels := List.reverse_injective (drop_inj (mem_labels hmema) (mem_labels hmemb) hleft)
  rw [split_eq_splitOn ha, split_eq_splitOn hb] at hlabels
  rw [← join_splitOn '.' a, hlabels, join_splitOn]

theorem withoutLabels_ne_nil {node : List Char} (hmem : node ∈ nodes) (hnode : IsHostname node) :
    withoutLabels (properPrefix ((nodes.map (split '.')).map List.reverse)).length node ≠ [] := by
  intro hnil
  have hone := eq_singleton_nil_of_join
    (fun label hlabel => notMem_of_mem_split (mem_split_of_mem_left hlabel))
    (left_ne_nil hmem hnode) hnil
  have hin : [] ∈ split '.' node := mem_split_of_mem_left (hone ▸ List.mem_singleton_self [])
  rw [split_eq_splitOn hnode] at hin
  exact hnode [] hin rfl

/-- Hostnames get names that are not empty, and differ where they do. -/
theorem shortNodeNames_distinct (hnodes : ∀ node ∈ nodes, IsHostname node) :
    KeepsDistinct nodes (shortNodeNames nodes) ∧ ∀ name ∈ shortNodeNames nodes, name ≠ [] := by
  rw [shortNodeNames_eq]
  constructor
  · exact keepsDistinct_map fun a ha b hb => withoutLabels_inj ha hb (hnodes a ha) (hnodes b hb)
  · intro name hname
    obtain ⟨node, hnode, rfl⟩ := List.mem_map.mp hname
    exact withoutLabels_ne_nil hnode (hnodes node hnode)

end

/-- The longest common proper prefix is dropped without making sequences equal, and so short node
names tell the nodes apart. -/
theorem dropCommonProperPrefix_spec {α : Type u} [DecidableEq α] :
    (∀ cs : List (List α), (∀ c ∈ cs, c ≠ []) →
      (∃ pre, DropsLongest cs (dropCommonProperPrefix cs) pre) ∧
        KeepsDistinct cs (dropCommonProperPrefix cs)) ∧
    ∀ nodes : List (List Char), (∀ node ∈ nodes, IsHostname node) →
      KeepsDistinct nodes (shortNodeNames nodes) ∧ ∀ name ∈ shortNodeNames nodes, name ≠ [] :=
  ⟨fun cs hne => ⟨⟨properPrefix cs, dropsLongest hne⟩, keepsDistinct cs⟩,
    fun _ hnodes => shortNodeNames_distinct hnodes⟩

/-- What is dropped of two sequences, and of the names of two nodes. -/
theorem twoSequences_spec :
    (∃ pre, DropsLongest [[1, 3, 4], [1, 5, 6]] (dropCommonProperPrefix [[1, 3, 4], [1, 5, 6]]) pre) ∧
    KeepsDistinct ["n1.lan".toList, "n2.lan".toList]
      (shortNodeNames ["n1.lan".toList, "n2.lan".toList]) :=
  ⟨(dropCommonProperPrefix_spec.1 [[1, 3, 4], [1, 5, 6]] (by decide)).1,
    ((dropCommonProperPrefix_spec (α := ℕ)).2 ["n1.lan".toList, "n2.lan".toList] (by
      unfold IsHostname
      decide)).1⟩

example : shortNodeNames ["n1.lan".toList, "n2.lan".toList] = ["n1".toList, "n2".toList] := by
  decide

end Jepsen.Checker.Clock
