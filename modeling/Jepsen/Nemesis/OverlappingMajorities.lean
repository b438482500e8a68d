/-
# Every node sees a majority

Whatever the shuffles, the connection graph is finished after fewer rounds than
there are pairs of nodes, and the grudge made of it leaves every node connected
to a majority. Without any nodes there is no degree to compare, and the loop
throws.
-/

import Jepsen.Nemesis.MajoritiesRing

namespace Jepsen.Nemesis

open Jepsen.Library

universe u

variable {Node : Type u} [DecidableEq Node]

/-- A grudge of every node under which each, itself included, sees a majority. -/
structure Grudge.LeavesMajorities (nodes : List Node) (grudge : Grudge Node) : Prop where
  covers : ∀ a, (grudge.lookup a).isSome ↔ a ∈ nodes
  symmetric : grudge.Symmetric
  irreflexive : ∀ a, a ∉ grudge.snubs a
  majority : ∀ a ∈ nodes, majority nodes.length ≤ (nodes.toFinset \ grudge.snubs a).card

theorem sdiff_snubs_invertGrudge {nodes : List Node} {g : Graph Node} (hg : g.Consistent nodes)
    {a : Node} (ha : a ∈ nodes) :
    nodes.toFinset \ (invertGrudge nodes g.conns).snubs a = g.connections a := by
  have hamong := hg.among a
  apply Finset.ext
  intro b
  rw [Finset.mem_sdiff, snubs_invertGrudge, List.mem_toFinset]
  constructor
  · rintro ⟨hb, hnot⟩
    by_contra hconn
    exact hnot ⟨ha, hb, hconn⟩
  · intro hconn
    refine ⟨List.mem_toFinset.mp (hamong hconn), ?_⟩
    rintro ⟨-, -, hnot⟩
    exact hnot hconn

theorem invertGrudge_leavesMajorities {nodes : List Node} {g : Graph Node}
    (hg : g.Consistent nodes) (hmaj : ∀ x ∈ nodes, majority nodes.length ≤ g.degree x) :
    (invertGrudge nodes g.conns).LeavesMajorities nodes where
  covers a := by
    rw [lookup_invertGrudge]
    by_cases ha : a ∈ nodes <;> simp [ha]
  symmetric a b hsnub := by
    rw [snubs_invertGrudge] at hsnub ⊢
    obtain ⟨ha, hb, hnot⟩ := hsnub
    exact ⟨hb, ha, fun hconn => hnot (hg.symm b a hconn)⟩
  irreflexive a hsnub := by
    rw [snubs_invertGrudge] at hsnub
    exact hsnub.2.2 (hg.self a hsnub.1)
  majority a ha := by
    rw [sdiff_snubs_invertGrudge hg ha]
    exact hmaj a ha

/-- The stochastic ring is always finished, from a graph in which every node has a majority. -/
theorem majoritiesRingStochastic_eq {nodes : List Node} (hnodup : nodes.Nodup)
    (hne : nodes ≠ []) (orders : ℕ → SetOrder Node) :
    ∃ g : Graph Node, majoritiesRingStochastic nodes orders =
        .returned (invertGrudge nodes g.conns) ∧
      g.Consistent nodes ∧ ∀ x ∈ nodes, majority nodes.length ≤ g.degree x := by
  rcases loop_spec hnodup hne (nodes.length * nodes.length + 1) (start_consistent nodes)
    orders with ⟨g, -, hg, htotal⟩ | hdone
  · have hle := total_le hnodup hg
    omega
  · exact hdone

/-- For all distinct nodes and all shuffles the loop returns a grudge that leaves majorities, and
in every round before, the nodes are kept by their true degree and a node of minimal degree below
majority has some other node it is not connected to. -/
theorem majoritiesRingStochastic_spec {nodes : List Node} (hnodup : nodes.Nodup)
    (hne : nodes ≠ []) (orders : ℕ → SetOrder Node) :
    (∃ grudge, majoritiesRingStochastic nodes orders = .returned grudge ∧
      grudge.LeavesMajorities nodes) ∧
    ∀ rounds g, (Graph.start nodes).loop nodes orders rounds = .recur g →
      (∀ degree x, x ∈ g.bucket degree ↔ x ∈ nodes ∧ g.degree x = degree) ∧
      ∀ a ∈ nodes, (∀ x ∈ nodes, g.degree a ≤ g.degree x) →
        g.degree a < majority nodes.length → ∃ b ∈ nodes, b ≠ a ∧ b ∉ g.connections a := by
  constructor
  · obtain ⟨g, heq, hg, hmaj⟩ := majoritiesRingStochastic_eq hnodup hne orders
    exact ⟨_, heq, invertGrudge_leavesMajorities hg hmaj⟩
  · intro rounds g hloop
    rcases loop_spec hnodup hne rounds (start_consistent nodes) orders with
      ⟨g', hloop', hg', -⟩ | ⟨g', hloop', -⟩
    · rw [hloop] at hloop'
      cases hloop'
      exact ⟨hg'.bucket, fun a ha _ hbelow => exists_unconnected hnodup hg' ha hbelow⟩
    · rw [hloop] at hloop'
      cases hloop'

theorem threeNodes_spec :
    [0, 1, 2].Nodup ∧ ∃ grudge, majoritiesRingStochastic [0, 1, 2] (fun _ => .ascending ℕ) =
      .returned grudge ∧ grudge.LeavesMajorities [0, 1, 2] := by
  have hnodup : [0, 1, 2].Nodup := by decide
  exact ⟨hnodup, (majoritiesRingStochastic_spec hnodup (by decide) fun _ => .ascending ℕ).1⟩

/-- Without nodes the loop compares nil with the majority. -/
theorem round_start_nil (order : SetOrder Node) :
    (Graph.start ([] : List Node)).round [] order = .threw := by
  have hdns : (Graph.start ([] : List Node)).dns order = [] := by
    apply List.eq_nil_iff_forall_not_mem.mpr
    intro dn hmem
    exact List.not_mem_nil ((mem_dns_iff (start_consistent []) order).mp hmem).1
  unfold Graph.round
  rw [hdns]

theorem noNodes_threw :
    ([] : List ℕ).Nodup ∧ ∃ orders : ℕ → SetOrder ℕ,
      ∀ grudge, majoritiesRingStochastic [] orders ≠ .returned grudge := by
  refine ⟨List.nodup_nil, fun _ => .ascending ℕ, fun grudge heq => ?_⟩
  unfold majoritiesRingStochastic at heq
  rw [Graph.loop, round_start_nil] at heq
  cases heq

end Jepsen.Nemesis
