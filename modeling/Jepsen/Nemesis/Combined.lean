/-
# Targeting nodes by name

A node specification names how many of a cluster's nodes an operation is to hit,
and a partition specification how the cluster is to be cut. Majorities and
thirds are what their names say. A minority is one node less than a majority,
which is half of the cluster when the number of nodes is even.
-/

import Jepsen.Nemesis.OverlappingMajorities
import Jepsen.Nemesis.PerfectRing

namespace Jepsen.Nemesis

open Jepsen.Library

universe u

variable {Node : Type u} [DecidableEq Node]

/-! ## Random choices -/

/-- The outcomes of the random choices of one call. -/
structure Random (Node : Type u) [DecidableEq Node] where
  shuffle : List Node → List Node
  perm : ∀ coll, (shuffle coll).Perm coll
  randInt : ℕ → ℕ
  randInt_lt : ∀ n, 0 < n → randInt n < n
  /-- The shuffles of sets, round by round. -/
  orders : ℕ → SetOrder Node

variable (random : Random Node)

/-- `rand-nth`, which throws for no elements. -/
def randNth (coll : List Node) : Option Node := coll[random.randInt coll.length]?

/-- `random-nonempty-subset`, with nil as no elements. -/
def randomNonemptySubset (coll : List Node) : List Node :=
  if coll = [] then [] else (random.shuffle coll).take (random.randInt coll.length + 1)

/-! ## Nodes -/

/-- A specification of nodes. -/
inductive NodeSpec (Node : Type u)
  /-- The specification nil. -/
  | some
  | one | minority | majority | minorityThird | primaries | all
  | nodes (nodes : List Node)

/-- `db-nodes` of a test with these nodes and a DB with these primaries. -/
def dbNodes (nodes primaries : List Node) : NodeSpec Node → Option (List Node)
  | .some => Option.some (randomNonemptySubset random nodes)
  | .one => (randNth random nodes).map fun node => [node]
  | .minority => Option.some ((random.shuffle nodes).take (majority nodes.length - 1))
  | .majority => Option.some ((random.shuffle nodes).take (majority nodes.length))
  | .minorityThird => Option.some ((random.shuffle nodes).take (minorityThird nodes.length))
  | .primaries => Option.some (randomNonemptySubset random primaries)
  | .all => Option.some nodes
  | .nodes nodes => Option.some nodes

/-! ## Grudges -/

/-- `majorities-ring`; none if it throws. -/
def majoritiesRing (nodes : List Node) : Option (Grudge Node) :=
  if nodes.length ≤ 5 then
    some (majoritiesRingPerfect nodes (random.shuffle nodes))
  else
    match majoritiesRingStochastic nodes random.orders with
    | .returned grudge => some grudge
    | _ => none

/-- A specification of a partition. -/
inductive PartitionSpec (Node : Type u) [DecidableEq Node]
  | one | majority | majoritiesRing | minorityThird | primaries
  | grudge (grudge : Grudge Node)

/-- `grudge` -/
def grudge (nodes primaries : List Node) : PartitionSpec Node → Option (Grudge Node)
  | .one => (randNth random nodes).map fun loner => completeGrudge (splitOne loner nodes)
  | .majority => some (completeGrudge (bisect (random.shuffle nodes)))
  | .majoritiesRing => Nemesis.majoritiesRing random nodes
  | .minorityThird =>
    some (completeGrudge [(random.shuffle nodes).take (minorityThird nodes.length),
      (random.shuffle nodes).drop (minorityThird nodes.length)])
  | .primaries =>
    -- Put each in its own singleton list
    some (completeGrudge (nodes.filter (· ∉ primaries) ::
      (randomNonemptySubset random primaries).map fun node => [node]))
  | .grudge grudge => some grudge

/-! ## Components -/

theorem separate_cut {nodes : List Node} (hnodup : nodes.Nodup) (n : ℕ) :
    Separate [nodes.take n, nodes.drop n] := by
  have hdisjoint : List.Disjoint (nodes.take n) (nodes.drop n) := by
    rw [← List.take_append_drop n nodes] at hnodup
    exact List.disjoint_of_nodup_append hnodup
  intro c hc c' hc' node hmem hmem'
  simp only [List.mem_cons, List.not_mem_nil, or_false] at hc hc'
  rcases hc with rfl | rfl
  · rcases hc' with rfl | rfl
    · rfl
    · exact absurd hmem' (hdisjoint hmem)
  · rcases hc' with rfl | rfl
    · exact absurd hmem (hdisjoint hmem')
    · rfl

theorem separate_splitOne (loner : Node) (nodes : List Node) :
    Separate (splitOne loner nodes) := by
  unfold splitOne
  intro c hc c' hc' node hmem hmem'
  simp only [List.mem_cons, List.not_mem_nil, or_false] at hc hc'
  rcases hc with rfl | rfl
  · rcases hc' with rfl | rfl
    · rfl
    · simp_all
  · rcases hc' with rfl | rfl
    · simp_all
    · rfl

theorem separate_primaries {primaries chosen : List Node}
    (hchosen : ∀ node ∈ chosen, node ∈ primaries) (nodes : List Node) :
    Separate (nodes.filter (· ∉ primaries) :: chosen.map fun node => [node]) := by
  intro c hc c' hc' node hmem hmem'
  rcases List.mem_cons.mp hc with rfl | hc
  · rcases List.mem_cons.mp hc' with rfl | hc'
    · rfl
    · obtain ⟨p, hp, rfl⟩ := List.mem_map.mp hc'
      rw [List.mem_singleton] at hmem'
      subst hmem'
      have hnot := (List.mem_filter.mp hmem).2
      exact absurd (hchosen node hp) (by simpa using hnot)
  · obtain ⟨p, hp, rfl⟩ := List.mem_map.mp hc
    rw [List.mem_singleton] at hmem
    subst hmem
    rcases List.mem_cons.mp hc' with rfl | hc'
    · have hnot := (List.mem_filter.mp hmem').2
      exact absurd (hchosen node hp) (by simpa using hnot)
    · obtain ⟨p', -, rfl⟩ := List.mem_map.mp hc'
      rw [List.mem_singleton] at hmem'
      subst hmem'
      rfl

theorem mem_of_mem_randomNonemptySubset {coll : List Node} {node : Node}
    (hmem : node ∈ randomNonemptySubset random coll) : node ∈ coll := by
  unfold randomNonemptySubset at hmem
  split_ifs at hmem with hempty
  · exact absurd hmem List.not_mem_nil
  · exact (random.perm coll).mem_iff.mp (List.mem_of_mem_take hmem)

theorem exists_randNth {coll : List Node} (hne : coll ≠ []) :
    ∃ node ∈ coll, randNth random coll = some node := by
  have hlt := random.randInt_lt coll.length (List.length_pos_iff.mpr hne)
  exact ⟨coll[random.randInt coll.length], List.getElem_mem hlt,
    List.getElem?_eq_getElem hlt⟩

/-! ## What the names promise -/

/-- The selected nodes are as many as their specification says. -/
structure SelectsBySize (nodes : List Node) : Prop where
  minority : ∀ (random : Random Node) primaries selected,
    dbNodes random nodes primaries .minority = some selected →
      2 * selected.length < nodes.length
  majority : ∀ (random : Random Node) primaries selected,
    dbNodes random nodes primaries .majority = some selected →
      nodes.length < 2 * selected.length
  minorityThird : ∀ (random : Random Node) primaries selected,
    dbNodes random nodes primaries .minorityThird = some selected →
      3 * selected.length < nodes.length

/-- Under the grudge these nodes are connected to each other and to nobody else. -/
def Grudge.Component (grudge : Grudge Node) (nodes : List Node) (component : Finset Node) :
    Prop :=
  component ⊆ nodes.toFinset ∧
    (∀ a ∈ component, ∀ b ∈ component, grudge.Connected a b) ∧
    ∀ a ∈ component, ∀ b ∈ nodes, b ∉ component → b ∈ grudge.snubs a

/-- The partitions into components. -/
def PartitionSpec.byComponents : PartitionSpec Node → Bool
  | .one | .majority | .minorityThird | .primaries => true
  | .majoritiesRing | .grudge _ => false

/-- A clean majority, clean thirds, and only mutual snubs between components. -/
structure CutsByName (nodes : List Node) : Prop where
  majority : ∀ (random : Random Node) primaries, ∃ g component,
    grudge random nodes primaries .majority = some g ∧ g.Component nodes component ∧
      nodes.length < 2 * component.card
  minorityThird : ∀ (random : Random Node) primaries, ∃ g component,
    grudge random nodes primaries .minorityThird = some g ∧ g.Component nodes component ∧
      2 * nodes.length < 3 * component.card
  components : ∀ (random : Random Node) primaries (spec : PartitionSpec Node),
    spec.byComponents = true → ∃ components,
      grudge random nodes primaries spec = some (completeGrudge components) ∧
        (completeGrudge components).Symmetric ∧
        ∀ c ∈ components, ∀ a ∈ c, ∀ b ∈ c, (completeGrudge components).Connected a b

/-- Selections and, where there is something to cut, grudges match their names. -/
def NamesMatch (nodes : List Node) : Prop :=
  SelectsBySize nodes ∧ (nodes.Nodup → 2 ≤ nodes.length → CutsByName nodes)

/-- The ring, which has no components, is symmetric. -/
def RingSymmetric (nodes : List Node) : Prop :=
  nodes.Nodup → 2 ≤ nodes.length → ∀ (random : Random Node) primaries, ∃ g,
    grudge random nodes primaries .majoritiesRing = some g ∧ g.Symmetric

/-! ## How many are selected -/

theorem length_take_shuffle (nodes : List Node) {n : ℕ} (hle : n ≤ nodes.length) :
    ((random.shuffle nodes).take n).length = n := by
  rw [List.length_take, (random.perm nodes).length_eq, min_eq_left hle]

/-- Some choice of the random outcomes. -/
theorem exists_random : Nonempty (Random Node) := by
  refine ⟨{ shuffle := id, perm := List.Perm.refl, randInt := fun _ => 0
            randInt_lt := fun _ hpos => hpos, orders := fun _ => ?_ }⟩
  exact { walk := Finset.toList
          mem_walk := Finset.mem_toList
          nodup_walk := Finset.nodup_toList }

theorem selectsBySize_iff {nodes : List Node} (hne : nodes ≠ []) :
    SelectsBySize nodes ↔ nodes.length % 2 = 1 := by
  have hpos : 0 < nodes.length := List.length_pos_iff.mpr hne
  have hmajority := majority_le hpos
  constructor
  · intro h
    obtain ⟨random⟩ := @exists_random Node _
    have hminority := h.minority random [] _ rfl
    rw [length_take_shuffle random nodes (by omega)] at hminority
    exact (pred_majority_lt_half_iff nodes.length).mp hminority
  · intro hodd
    constructor
    · intro random primaries selected hselected
      cases hselected
      rw [length_take_shuffle random nodes (by omega)]
      exact (pred_majority_lt_half_iff nodes.length).mpr hodd
    · intro random primaries selected hselected
      cases hselected
      rw [length_take_shuffle random nodes hmajority]
      exact majority_gt_half nodes.length
    · intro random primaries selected hselected
      cases hselected
      have hthird := minorityThird_lt_third hpos
      rw [length_take_shuffle random nodes (by omega)]
      exact hthird

/-! ## How the cluster is cut -/

/-- The second part of a cut is a component of the grudge between the parts. -/
theorem component_drop {nodes shuffled : List Node} (hnodup : nodes.Nodup)
    (hperm : shuffled.Perm nodes) (n : ℕ) :
    (completeGrudge [shuffled.take n, shuffled.drop n]).Component nodes
        (shuffled.drop n).toFinset ∧
      (shuffled.drop n).toFinset.card = nodes.length - n := by
  have hnodup' : shuffled.Nodup := hperm.nodup_iff.mpr hnodup
  have hseparate := separate_cut hnodup' n
  refine ⟨⟨?_, ?_, ?_⟩, ?_⟩
  · intro a ha
    rw [List.mem_toFinset] at ha ⊢
    exact hperm.mem_iff.mp (List.mem_of_mem_drop ha)
  · intro a ha b hb
    rw [List.mem_toFinset] at ha hb
    exact completeGrudge_connected hseparate (by simp) ha hb
  · intro a ha b hb hnot
    rw [List.mem_toFinset] at ha hnot
    have htake : b ∈ shuffled.take n := by
      have hmem := hperm.mem_iff.mpr hb
      rw [← List.take_append_drop n shuffled, List.mem_append] at hmem
      exact hmem.resolve_right hnot
    rw [snubs_completeGrudge hseparate]
    exact ⟨shuffled.drop n, by simp, ha, hnot, shuffled.take n, by simp, htake⟩
  · rw [List.toFinset_card_of_nodup (hnodup'.sublist (List.drop_sublist n shuffled)),
      List.length_drop, hperm.length_eq]

/-- Every partition by components is a complete grudge between separate ones. -/
theorem grudge_byComponents {nodes : List Node} (hnodup : nodes.Nodup) (hne : nodes ≠ [])
    (primaries : List Node) {spec : PartitionSpec Node} (hspec : spec.byComponents = true) :
    ∃ components, grudge random nodes primaries spec = some (completeGrudge components) ∧
      Separate components := by
  have hnodup' : (random.shuffle nodes).Nodup := (random.perm nodes).nodup_iff.mpr hnodup
  cases spec with
  | one =>
    obtain ⟨loner, -, hloner⟩ := exists_randNth random hne
    refine ⟨splitOne loner nodes, ?_, separate_splitOne loner nodes⟩
    rw [grudge, hloner, Option.map_some]
  | majority => exact ⟨_, rfl, separate_cut hnodup' _⟩
  | minorityThird => exact ⟨_, rfl, separate_cut hnodup' _⟩
  | primaries =>
    exact ⟨_, rfl, separate_primaries
      (fun node hnode => mem_of_mem_randomNonemptySubset random hnode) nodes⟩
  | majoritiesRing => cases hspec
  | grudge g => cases hspec

theorem cutsByName_of_odd {nodes : List Node} (hnodup : nodes.Nodup)
    (hmany : 2 ≤ nodes.length) (hodd : nodes.length % 2 = 1) : CutsByName nodes where
  majority random primaries := by
    obtain ⟨hcomponent, hcard⟩ := component_drop hnodup (random.perm nodes)
      ((random.shuffle nodes).length / 2)
    refine ⟨_, _, rfl, hcomponent, ?_⟩
    rw [hcard, (random.perm nodes).length_eq]
    omega
  minorityThird random primaries := by
    obtain ⟨hcomponent, hcard⟩ := component_drop hnodup (random.perm nodes)
      (minorityThird nodes.length)
    have hthird := minorityThird_lt_third (n := nodes.length) (by omega)
    refine ⟨_, _, rfl, hcomponent, ?_⟩
    rw [hcard]
    omega
  components random primaries spec hspec := by
    have hne : nodes ≠ [] := List.ne_nil_of_length_pos (by omega)
    obtain ⟨components, hgrudge, hseparate⟩ :=
      grudge_byComponents random hnodup hne primaries hspec
    exact ⟨components, hgrudge, completeGrudge_symmetric hseparate,
      fun c hc a ha b hb => completeGrudge_connected hseparate hc ha hb⟩

/-- The snubs of the ring are mutual unless there are three nodes. -/
theorem ringSymmetric_iff (nodes : List Node) :
    RingSymmetric nodes ↔ (nodes.Nodup → nodes.length ≠ 3) := by
  constructor
  · intro hring hnodup hthree
    obtain ⟨random⟩ := @exists_random Node _
    obtain ⟨g, hgrudge, hsymm⟩ := hring hnodup (by omega) random []
    rw [grudge, majoritiesRing, if_pos (by omega)] at hgrudge
    cases hgrudge
    exact majoritiesRingPerfect_not_symmetric hnodup (random.perm nodes) hthree hsymm
  · intro hthree hnodup hmany random primaries
    rw [grudge, majoritiesRing]
    by_cases hfew : nodes.length ≤ 5
    · rw [if_pos hfew]
      exact ⟨_, rfl, majoritiesRingPerfect_symmetric hnodup (random.perm nodes) hmany hfew
        (hthree hnodup)⟩
    · have hne : nodes ≠ [] := List.ne_nil_of_length_pos (by omega)
      obtain ⟨g, heq, hg, hmaj⟩ := majoritiesRingStochastic_eq hnodup hne random.orders
      rw [if_neg hfew, heq]
      exact ⟨_, rfl, (invertGrudge_leavesMajorities hg hmaj).symmetric⟩

/-- Selections and grudges match their names exactly for an odd number of nodes; counting the
ring, also not for three. -/
theorem namesMatch_iff {nodes : List Node} (hne : nodes ≠ []) :
    (NamesMatch nodes ↔ nodes.length % 2 = 1) ∧
      (NamesMatch nodes ∧ RingSymmetric nodes ↔
        nodes.length % 2 = 1 ∧ (nodes.Nodup → nodes.length ≠ 3)) := by
  have hnames : NamesMatch nodes ↔ nodes.length % 2 = 1 := by
    constructor
    · intro h
      exact (selectsBySize_iff hne).mp h.1
    · intro hodd
      exact ⟨(selectsBySize_iff hne).mpr hodd,
        fun hnodup hmany => cutsByName_of_odd hnodup hmany hodd⟩
  exact ⟨hnames, and_congr hnames (ringSymmetric_iff nodes)⟩

theorem fiveNodes_namesMatch :
    [0, 1, 2, 3, 4] ≠ [] ∧ NamesMatch [0, 1, 2, 3, 4] ∧ RingSymmetric [0, 1, 2, 3, 4] := by
  have hne : [0, 1, 2, 3, 4] ≠ [] := by decide
  exact ⟨hne, (namesMatch_iff hne).2.mpr (by decide)⟩

/-- A minority of four nodes is two of them. -/
theorem fourNodes_not_namesMatch : ¬ NamesMatch [0, 1, 2, 3] := by
  intro h
  obtain ⟨random⟩ := @exists_random ℕ _
  have hminority := h.1.minority random [] _ rfl
  rw [length_take_shuffle random _ (by decide)] at hminority
  exact absurd hminority (by decide)

end Jepsen.Nemesis
