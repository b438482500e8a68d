/-
# Overlapping majorities in a ring

Up to five nodes are set in an exact ring. For more, a connection graph grows by
linking a node of minimal degree to another it is not yet connected to, until
every node is connected to a majority. The graph is kept twice, as the
connections of each node and as the nodes of each degree.
-/

import Jepsen.Library.Multimap
import Jepsen.Nemesis.Grudge

namespace Jepsen.Nemesis

open Jepsen.Library

universe u

variable {Node : Type u} [DecidableEq Node]

/-! ## The exact ring -/

/-- The overlapping majorities of the shuffled nodes in a ring, one per node. -/
def ringMajorities (shuffled : List Node) : List (List Node) :=
  (List.range shuffled.length).map fun i =>
    (shuffled.rotate i).take (majority shuffled.length)

/-- The middle of a majority drops its connections to the nodes outside. -/
def dropOutside (nodes : List Node) (grudge : Grudge Node) (maj : List Node) : Grudge Node :=
  match maj[maj.length / 2]? with
  | some middle => grudge.insert middle (nodes.toFinset \ maj.toFinset)
  | none => grudge

/-- `majorities-ring-perfect`, of the nodes as they are shuffled. -/
def majoritiesRingPerfect (nodes shuffled : List Node) : Grudge Node :=
  (ringMajorities shuffled).foldl (dropOutside nodes) ∅

/-! ## The connection graph -/

/-- What the loop carries: `conns` and `by-degree`, whose keys are walked in order. -/
structure Graph (Node : Type u) where
  conns : Assoc Node (Finset Node)
  byDegree : Assoc ℕ (Finset Node)

/-- The connection set of a node. -/
def Graph.connections (g : Graph Node) (node : Node) : Finset Node :=
  (g.conns.lookup node).getD ∅

/-- The nodes kept under a degree. -/
def Graph.bucket (g : Graph Node) (degree : ℕ) : Finset Node :=
  (g.byDegree.lookup degree).getD ∅

/-- Every node is connected to itself. -/
def Graph.start (nodes : List Node) : Graph Node where
  conns := nodes.foldl (fun conns node => conns.insert node {node}) ∅
  byDegree := (∅ : Assoc ℕ (Finset Node)).insert 1 nodes.toFinset

/-- `dns`: a list of degrees and nodes in the order of the degrees, with the nodes of each degree
shuffled to an order of this round. -/
def Graph.dns (g : Graph Node) (order : SetOrder Node) : List (ℕ × Node) :=
  (g.byDegree.keys.mergeSort).flatMap fun degree =>
    (order.walk (g.bucket degree)).map fun node => (degree, node)

/-- `conj-set` -/
def conjSet (s : Option (Finset Node)) (x : Node) : Finset Node :=
  match s with
  | some s => insert x s
  | none => {x}

/-- Link `a` to `b`, and increment their counts. -/
def Graph.link (g : Graph Node) (aDegree : ℕ) (a : Node) (bDegree : ℕ) (b : Node) :
    Graph Node where
  conns := (g.conns.alter a fun s => insert b (s.getD ∅)).alter b fun s => insert a (s.getD ∅)
  byDegree := (((g.byDegree.alter aDegree fun s => (s.getD ∅).erase a).alter
    bDegree fun s => (s.getD ∅).erase b).alter
    (aDegree + 1) fun s => conjSet s a).alter
    (bDegree + 1) fun s => conjSet s b

/-- What a round comes to. -/
inductive Round (Node : Type u)
  | recur (g : Graph Node)
  | returned (grudge : Grudge Node)
  /-- A comparison or increment of nil. -/
  | threw

/-- One round of the loop. -/
def Graph.round (nodes : List Node) (order : SetOrder Node) (g : Graph Node) : Round Node :=
  match g.dns order with
  | [] => .threw
  | (aDegree, a) :: _ =>
    if majority nodes.length ≤ aDegree then
      -- Every node has a majority
      .returned (invertGrudge nodes g.conns)
    else
      match (g.dns order).find? fun dn => dn.2 ∉ g.connections a with
      | none => .threw
      | some (bDegree, b) => .recur (g.link aDegree a bDegree b)

/-- At most so many rounds of the loop. -/
def Graph.loop (nodes : List Node) (orders : ℕ → SetOrder Node) :
    ℕ → Graph Node → Round Node
  | 0, g => .recur g
  | rounds + 1, g =>
    match g.round nodes (orders 0) with
    | .recur g' => loop nodes (fun i => orders (i + 1)) rounds g'
    | outcome => outcome

/-! ## What linking does -/

theorem connections_link (g : Graph Node) {aDegree bDegree : ℕ} {a b : Node} (hne : a ≠ b)
    (x : Node) :
    (g.link aDegree a bDegree b).connections x =
      if x = b then insert a (g.connections b)
      else if x = a then insert b (g.connections a) else g.connections x := by
  unfold Graph.connections Graph.link
  dsimp only
  rw [Assoc.lookup_alter]
  by_cases hb : x = b
  · rw [if_pos hb, if_pos hb, Option.getD_some, Assoc.lookup_alter_of_ne hne.symm]
  · rw [if_neg hb, if_neg hb, Assoc.lookup_alter]
    by_cases ha : x = a
    · rw [if_pos ha, if_pos ha, Option.getD_some]
    · rw [if_neg ha, if_neg ha]

theorem mem_conjSet (s : Option (Finset Node)) (x y : Node) :
    y ∈ conjSet s x ↔ y = x ∨ y ∈ s.getD ∅ := by
  cases s <;> simp [conjSet]

omit [DecidableEq Node] in
theorem getD_ite (p : Prop) [Decidable p] (s t : Option (Finset Node)) :
    (if p then s else t).getD ∅ = if p then s.getD ∅ else t.getD ∅ := by
  split <;> rfl

theorem mem_bucket_link (g : Graph Node) {aDegree bDegree : ℕ} {a b : Node} (hne : a ≠ b)
    (degree : ℕ) (x : Node) :
    x ∈ (g.link aDegree a bDegree b).bucket degree ↔
      x = b ∧ degree = bDegree + 1 ∨ x = a ∧ degree = aDegree + 1 ∨
        x ∈ g.bucket degree ∧ ¬ (x = a ∧ degree = aDegree) ∧ ¬ (x = b ∧ degree = bDegree) := by
  unfold Graph.bucket Graph.link
  simp only [Assoc.lookup_alter, getD_ite, Option.getD_some]
  by_cases hb : x = b
  · subst hb
    grind [mem_conjSet]
  · grind [mem_conjSet]

/-! ## The order of a round -/

omit [DecidableEq Node] in
theorem mem_dns {g : Graph Node} {order : SetOrder Node} {degree : ℕ} {x : Node} :
    (degree, x) ∈ g.dns order ↔ x ∈ g.bucket degree := by
  unfold Graph.dns
  simp only [List.mem_flatMap, List.mem_mergeSort, List.mem_map, Prod.mk.injEq, order.mem_walk]
  constructor
  · rintro ⟨degree', -, x', hmem, rfl, rfl⟩
    exact hmem
  · intro hmem
    refine ⟨degree, ?_, x, hmem, rfl, rfl⟩
    apply AList.mem_keys.mp
    rw [← AList.lookup_isSome]
    unfold Graph.bucket at hmem
    cases hlookup : g.byDegree.lookup degree with
    | none =>
      rw [hlookup] at hmem
      exact absurd hmem (Finset.notMem_empty x)
    | some s => rfl

omit [DecidableEq Node] in
/-- The first pair of a round has minimal degree. -/
theorem pairwise_dns (g : Graph Node) (order : SetOrder Node) :
    (g.dns order).Pairwise fun p q => p.1 ≤ q.1 := by
  unfold Graph.dns
  rw [List.pairwise_flatMap]
  constructor
  · intro degree _
    rw [List.pairwise_map]
    exact List.pairwise_of_forall fun _ _ => le_rfl
  · have hsorted : g.byDegree.keys.mergeSort.Pairwise (· ≤ ·) :=
      List.pairwise_mergeSort' (· ≤ ·) _
    refine hsorted.imp fun hle p hp q hq => ?_
    obtain ⟨x, -, rfl⟩ := List.mem_map.mp hp
    obtain ⟨y, -, rfl⟩ := List.mem_map.mp hq
    exact hle

/-! ## The two structures agree -/

/-- The true size of a connection set. -/
def Graph.degree (g : Graph Node) (node : Node) : ℕ := (g.connections node).card

/-- Connections are mutual and among the nodes, and each node is kept under the true size of its
connection set. -/
structure Graph.Consistent (nodes : List Node) (g : Graph Node) : Prop where
  self : ∀ a ∈ nodes, a ∈ g.connections a
  symm : ∀ a b, b ∈ g.connections a → a ∈ g.connections b
  among : ∀ a, g.connections a ⊆ nodes.toFinset
  bucket : ∀ degree x, x ∈ g.bucket degree ↔ x ∈ nodes ∧ g.degree x = degree

theorem connections_start (nodes : List Node) (x : Node) :
    (Graph.start nodes).connections x = if x ∈ nodes then {x} else ∅ := by
  have hfold : ∀ (l : List Node) (conns : Assoc Node (Finset Node)),
      (l.foldl (fun conns node => conns.insert node {node}) conns).lookup x =
        if x ∈ l then some {x} else conns.lookup x := by
    intro l
    induction l with
    | nil =>
      intro conns
      simp
    | cons y l ih =>
      intro conns
      rw [List.foldl_cons, ih, Assoc.lookup_insert_eq_ite]
      by_cases hmem : x ∈ l
      · simp [hmem]
      · by_cases heq : x = y
        · subst heq
          simp
        · simp [hmem, heq]
  unfold Graph.connections Graph.start
  dsimp only
  rw [hfold]
  by_cases hmem : x ∈ nodes <;> simp [hmem]

theorem start_consistent (nodes : List Node) : (Graph.start nodes).Consistent nodes where
  self a ha := by simp [connections_start, ha]
  symm a b hb := by
    rw [connections_start] at hb
    split_ifs at hb with ha
    · rw [Finset.mem_singleton.mp hb, connections_start, if_pos ha]
      exact Finset.mem_singleton_self a
    · exact absurd hb (Finset.notMem_empty b)
  among a b hb := by
    rw [connections_start] at hb
    split_ifs at hb with ha
    · rw [Finset.mem_singleton.mp hb]
      exact List.mem_toFinset.mpr ha
    · exact absurd hb (Finset.notMem_empty b)
  bucket degree x := by
    have hbucket : (Graph.start nodes).bucket degree =
        if degree = 1 then nodes.toFinset else ∅ := by
      unfold Graph.bucket Graph.start
      dsimp only
      rw [Assoc.lookup_insert_eq_ite]
      by_cases hone : degree = 1 <;> simp [hone]
    rw [hbucket, Graph.degree, connections_start]
    by_cases hx : x ∈ nodes
    · by_cases hone : degree = 1
      · simp [hx, hone]
      · simp [hx, hone, Ne.symm hone]
    · by_cases hone : degree = 1 <;> simp [hx, hone]

/-- Linking two unconnected nodes adds one to the degree of each. -/
theorem degree_link {nodes : List Node} {g : Graph Node} (hg : g.Consistent nodes)
    {aDegree bDegree : ℕ} {a b : Node} (hne : a ≠ b) (hnot : b ∉ g.connections a) (x : Node) :
    (g.link aDegree a bDegree b).degree x =
      if x = b ∨ x = a then g.degree x + 1 else g.degree x := by
  unfold Graph.degree
  rw [connections_link g hne]
  by_cases hb : x = b
  · subst hb
    have hnot' : a ∉ g.connections x := fun h => hnot (hg.symm x a h)
    rw [if_pos rfl, if_pos (Or.inl rfl), Finset.card_insert_of_notMem hnot']
  · by_cases ha : x = a
    · subst ha
      rw [if_neg hb, if_pos rfl, if_pos (Or.inr rfl), Finset.card_insert_of_notMem hnot]
    · rw [if_neg hb, if_neg ha, if_neg (not_or.mpr ⟨hb, ha⟩)]

theorem link_consistent {nodes : List Node} {g : Graph Node} (hg : g.Consistent nodes)
    {a b : Node} (ha : a ∈ nodes) (hb : b ∈ nodes) (hnot : b ∉ g.connections a) :
    (g.link (g.degree a) a (g.degree b) b).Consistent nodes := by
  have hne : a ≠ b := by
    rintro rfl
    exact hnot (hg.self a ha)
  have hmem : ∀ x y, y ∈ (g.link (g.degree a) a (g.degree b) b).connections x ↔
      y ∈ g.connections x ∨ x = b ∧ y = a ∨ x = a ∧ y = b := by
    intro x y
    rw [connections_link g hne]
    by_cases hxb : x = b
    · subst hxb
      simp [hne.symm, or_comm]
    · by_cases hxa : x = a <;> simp [hxb, hxa, hne, or_comm]
  constructor
  · intro x hx
    exact (hmem x x).mpr (Or.inl (hg.self x hx))
  · intro x y hy
    rw [hmem] at hy ⊢
    rcases hy with hy | ⟨hx, hy⟩ | ⟨hx, hy⟩
    · exact Or.inl (hg.symm x y hy)
    · exact Or.inr (Or.inr ⟨hy, hx⟩)
    · exact Or.inr (Or.inl ⟨hy, hx⟩)
  · intro x y hy
    rw [hmem] at hy
    rcases hy with hy | ⟨-, rfl⟩ | ⟨-, rfl⟩
    · exact hg.among x hy
    · exact List.mem_toFinset.mpr ha
    · exact List.mem_toFinset.mpr hb
  · intro degree x
    rw [mem_bucket_link g hne, degree_link hg hne hnot, hg.bucket]
    by_cases hxb : x = b
    · subst hxb
      grind
    · by_cases hxa : x = a
      · subst hxa
        grind
      · simp [hxb, hxa]

/-! ## Every round links or returns -/

/-- Some node is not connected to a node below majority. -/
theorem exists_unconnected {nodes : List Node} (hnodup : nodes.Nodup) {g : Graph Node}
    (hg : g.Consistent nodes) {a : Node} (ha : a ∈ nodes)
    (hbelow : g.degree a < majority nodes.length) :
    ∃ b ∈ nodes, b ≠ a ∧ b ∉ g.connections a := by
  have hle : majority nodes.length ≤ nodes.length := majority_le (List.length_pos_of_mem ha)
  have hcard : (g.connections a).card < nodes.toFinset.card := by
    rw [List.toFinset_card_of_nodup hnodup]
    exact lt_of_lt_of_le hbelow hle
  obtain ⟨b, hb, hnot⟩ := Finset.exists_mem_notMem_of_card_lt_card hcard
  refine ⟨b, List.mem_toFinset.mp hb, ?_, hnot⟩
  rintro rfl
  exact hnot (hg.self b ha)

/-- The round walks every node under its degree. -/
theorem mem_dns_iff {nodes : List Node} {g : Graph Node} (hg : g.Consistent nodes)
    (order : SetOrder Node) {degree : ℕ} {x : Node} :
    (degree, x) ∈ g.dns order ↔ x ∈ nodes ∧ g.degree x = degree :=
  mem_dns.trans (hg.bucket degree x)

/-- A round returns once every node has a majority; else it links a node of minimal degree to a
node of minimal degree among those it is not connected to. -/
theorem round_spec {nodes : List Node} (hnodup : nodes.Nodup) (hne : nodes ≠ [])
    {g : Graph Node} (hg : g.Consistent nodes) (order : SetOrder Node) :
    (g.round nodes order = .returned (invertGrudge nodes g.conns) ∧
      ∀ x ∈ nodes, majority nodes.length ≤ g.degree x) ∨
    ∃ a ∈ nodes, ∃ b ∈ nodes, b ∉ g.connections a ∧
      (∀ x ∈ nodes, g.degree a ≤ g.degree x) ∧
      (∀ x ∈ nodes, x ∉ g.connections a → g.degree b ≤ g.degree x) ∧
      g.round nodes order = .recur (g.link (g.degree a) a (g.degree b) b) := by
  cases hdns : g.dns order with
  | nil =>
    obtain ⟨x, hx⟩ := List.exists_mem_of_ne_nil nodes hne
    have hmem := (mem_dns_iff hg order).mpr ⟨hx, rfl⟩
    rw [hdns] at hmem
    exact absurd hmem List.not_mem_nil
  | cons first rest =>
    obtain ⟨aDegree, a⟩ := first
    have hpairs := pairwise_dns g order
    rw [hdns] at hpairs
    have hfirst : (aDegree, a) ∈ g.dns order := by
      rw [hdns]
      exact List.mem_cons_self
    obtain ⟨ha, rfl⟩ := (mem_dns_iff hg order).mp hfirst
    have hmin : ∀ x ∈ nodes, g.degree a ≤ g.degree x := by
      intro x hx
      have hmem := (mem_dns_iff hg order).mpr ⟨hx, rfl⟩
      rw [hdns] at hmem
      rcases List.mem_cons.mp hmem with heq | htail
      · exact le_of_eq (congrArg Prod.fst heq).symm
      · exact (List.pairwise_cons.mp hpairs).1 _ htail
    by_cases hmaj : majority nodes.length ≤ g.degree a
    · left
      refine ⟨?_, fun x hx => hmaj.trans (hmin x hx)⟩
      unfold Graph.round
      rw [hdns]
      exact if_pos hmaj
    · right
      obtain ⟨b', hb', -, hnot'⟩ := exists_unconnected hnodup hg ha (not_le.mp hmaj)
      cases hfind : (g.dns order).find? fun dn => dn.2 ∉ g.connections a with
      | none =>
        have hall := List.find?_eq_none.mp hfind _ ((mem_dns_iff hg order).mpr ⟨hb', rfl⟩)
        exact absurd hnot' (by simpa using hall)
      | some found =>
        obtain ⟨bDegree, b⟩ := found
        obtain ⟨hnot, before, after, heq, hbefore⟩ := List.find?_eq_some_iff_append.mp hfind
        have hmem : (bDegree, b) ∈ g.dns order := by
          rw [heq]
          simp
        obtain ⟨hb, rfl⟩ := (mem_dns_iff hg order).mp hmem
        refine ⟨a, ha, b, hb, by simpa using hnot, hmin, fun x hx hxnot => ?_, ?_⟩
        · have hx' := (mem_dns_iff hg order).mpr ⟨hx, rfl⟩
          have hsorted := pairwise_dns g order
          rw [heq] at hx' hsorted
          rcases List.mem_append.mp hx' with hin | hin
          · exact absurd hxnot (by simpa using hbefore _ hin)
          · rcases List.mem_cons.mp hin with hsame | hlater
            · exact le_of_eq (congrArg Prod.fst hsame).symm
            · exact (List.pairwise_cons.mp (List.pairwise_append.mp hsorted).2.1).1 _ hlater
        · rw [hdns] at hfind
          unfold Graph.round
          rw [hdns]
          dsimp only
          rw [if_neg hmaj, hfind]

/-! ## The loop ends -/

/-- How much has been linked so far. -/
def Graph.total (nodes : List Node) (g : Graph Node) : ℕ :=
  ∑ x ∈ nodes.toFinset, g.degree x

theorem total_link {nodes : List Node} {g : Graph Node} (hg : g.Consistent nodes)
    {a b : Node} (ha : a ∈ nodes) (hb : b ∈ nodes) (hnot : b ∉ g.connections a) :
    (g.link (g.degree a) a (g.degree b) b).total nodes = g.total nodes + 2 := by
  have hne : a ≠ b := by
    rintro rfl
    exact hnot (hg.self a ha)
  have hpair : ({a, b} : Finset Node) ⊆ nodes.toFinset := by
    intro x hx
    rcases Finset.mem_insert.mp hx with rfl | hx
    · exact List.mem_toFinset.mpr ha
    · rw [Finset.mem_singleton.mp hx]
      exact List.mem_toFinset.mpr hb
  have hdegree : ∀ x, (g.link (g.degree a) a (g.degree b) b).degree x =
      g.degree x + if x ∈ ({a, b} : Finset Node) then 1 else 0 := by
    intro x
    rw [degree_link hg hne hnot]
    by_cases hxb : x = b
    · simp [hxb]
    · by_cases hxa : x = a <;> simp [hxb, hxa]
  unfold Graph.total
  simp only [hdegree]
  rw [Finset.sum_add_distrib, Finset.sum_ite_mem, Finset.inter_eq_right.mpr hpair,
    Finset.sum_const, Finset.card_pair hne, smul_eq_mul, mul_one]

theorem total_le {nodes : List Node} (hnodup : nodes.Nodup) {g : Graph Node}
    (hg : g.Consistent nodes) : g.total nodes ≤ nodes.length * nodes.length := by
  have hcard := List.toFinset_card_of_nodup hnodup
  have hdegree : ∀ x ∈ nodes.toFinset, g.degree x ≤ nodes.length := by
    intro x _
    rw [← hcard]
    exact Finset.card_le_card (hg.among x)
  have hsum := Finset.sum_le_card_nsmul nodes.toFinset _ _ hdegree
  rwa [hcard, smul_eq_mul] at hsum

/-- After some rounds the loop goes on with a consistent graph, or has returned where every node
has a majority. -/
theorem loop_spec {nodes : List Node} (hnodup : nodes.Nodup) (hne : nodes ≠ [])
    (rounds : ℕ) {g : Graph Node} (hg : g.Consistent nodes) (orders : ℕ → SetOrder Node) :
    (∃ g' : Graph Node, g.loop nodes orders rounds = .recur g' ∧ g'.Consistent nodes ∧
      g'.total nodes = g.total nodes + 2 * rounds) ∨
    ∃ g' : Graph Node, g.loop nodes orders rounds = .returned (invertGrudge nodes g'.conns) ∧
      g'.Consistent nodes ∧ ∀ x ∈ nodes, majority nodes.length ≤ g'.degree x := by
  induction rounds generalizing g orders with
  | zero =>
    left
    exact ⟨g, rfl, hg, rfl⟩
  | succ rounds ih =>
    rcases round_spec hnodup hne hg (orders 0) with
      ⟨hround, hmaj⟩ | ⟨a, ha, b, hb, hnot, -, -, hround⟩
    · right
      refine ⟨g, ?_, hg, hmaj⟩
      rw [Graph.loop, hround]
    · have hnext := link_consistent hg ha hb hnot
      rw [Graph.loop, hround]
      rcases ih hnext (fun i => orders (i + 1)) with
        ⟨g', hloop, hg', htotal⟩ | ⟨g', hloop, hg', hmaj⟩
      · left
        refine ⟨g', hloop, hg', ?_⟩
        rw [htotal, total_link hg ha hb hnot]
        omega
      · right
        exact ⟨g', hloop, hg', hmaj⟩

/-- `majorities-ring-stochastic`; the loop never takes as many rounds as there are pairs. -/
def majoritiesRingStochastic (nodes : List Node) (orders : ℕ → SetOrder Node) : Round Node :=
  (Graph.start nodes).loop nodes orders (nodes.length * nodes.length + 1)

end Jepsen.Nemesis
