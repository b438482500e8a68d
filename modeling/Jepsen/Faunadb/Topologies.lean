/-
# Topologies

The assignment of nodes to replicas, and random transitions between topologies. A
node that is removed stays in the topology, as one that is being removed, so that it
is neither added nor removed again.
-/

import Jepsen.Library.Multimap

namespace Jepsen.Faunadb.Topologies

open Jepsen.Library

universe u

variable {N : Type u} [DecidableEq N]

/-! ## Topologies -/

/-- The `:state` of a node. -/
inductive State
  | active | removing
  deriving DecidableEq

/-- A node of a topology. -/
structure Node (N : Type u) where
  node : N
  state : State
  replica : String
  logPart : Option ℕ := none
  deriving DecidableEq

/-- The nodes, and how many replicas they are assigned to. -/
structure Topology (N : Type u) where
  replicaCount : ℕ
  nodes : List (Node N)
  deriving DecidableEq

/-- The nodes of a test, and the number of its replicas. -/
structure Test (N : Type u) where
  nodes : List N
  replicas : ℕ

/-- Constructs a replica name for a given replica number. -/
def replicaName (n : ℕ) : String := "replica-" ++ toString n

/-- `initial-topology`; none if nodes are assigned to no replicas. -/
def initialTopology (test : Test N) : Option (Topology N) :=
  if test.replicas = 0 ∧ test.nodes ≠ [] then none
  else some
    { replicaCount := test.replicas
      nodes := test.nodes.zipIdx.map fun p =>
        { node := p.1, state := .active, replica := replicaName (p.2 % test.replicas) } }

/-! ## Nodes and replicas -/

/-- The names of the nodes. -/
def names (topo : Topology N) : List N := topo.nodes.map Node.node

/-- `get-node` -/
def getNode (topo : Topology N) (name : N) : Option (Node N) :=
  topo.nodes.find? fun node => node.node = name

/-- `assoc-node` -/
def assocNode (topo : Topology N) (name : N) (v : Node N) : Topology N :=
  { topo with nodes := topo.nodes.map fun node => if node.node = name then v else node }

/-- `update-node`; there is nothing to replace without a node of that name. -/
def updateNode (topo : Topology N) (name : N) (f : Node N → Node N) : Topology N :=
  match getNode topo name with
  | some node => assocNode topo name (f node)
  | none => topo

/-- The set of all replicas in a topology. -/
def replicas (topo : Topology N) : List String := (List.range topo.replicaCount).map replicaName

/-- `replica` -/
def replica (topo : Topology N) (name : N) : Option String :=
  (getNode topo name).map Node.replica

/-- `nodes-by-replica` -/
def nodesByReplica (topo : Topology N) : Assoc (Option String) (List N) :=
  Assoc.groupBy (replica topo) (names topo)

/-- `only-active` -/
def onlyActive (topo : Topology N) : Topology N :=
  { topo with nodes := topo.nodes.filter fun node => node.state = .active }

/-! ## State transitions -/

/-- A transition. -/
inductive Op (N : Type u)
  | addNode (node join : N)
  | removeNode (node : N)
  | removeLogNode (node : N)
  deriving DecidableEq

/-- The draws of a transition: for each node that could be added the one that it joins, which add
and which remove operation, which of these two, and the replica of a new node. -/
structure Choice (N : Type u) where
  join : N → ℕ
  add : ℕ
  remove : ℕ
  first : ℕ
  replica : ℕ

/-- `rand-nth-empty`, with the number drawn. -/
def randNthEmpty {A : Type u} (draw : ℕ) (coll : List A) : Option A := coll[draw % coll.length]?

/-- `add-ops` -/
def addOps (test : Test N) (topo : Topology N) (join : N → ℕ) : List (Op N) :=
  let active := names topo
  if active = [] then []
  else
    (test.nodes.dedup.filter fun node => node ∉ active).filterMap fun node =>
      (randNthEmpty (join node) active).map (Op.addNode node)

/-- The nodes that could be removed. -/
def candidates (topo : Topology N) : List N :=
  -- We need to make sure not to empty a replica
  (((nodesByReplica (onlyActive topo)).entries.map Sigma.snd).filter
    fun nodes => 1 < nodes.length).flatten.dedup

/-- `remove-ops` -/
def removeOps (topo : Topology N) : List (Op N) := (candidates topo).map Op.removeNode

/-- `rand-op`, with the numbers drawn: the first after a shuffle is any of them. -/
def randOp (test : Test N) (topo : Topology N) (choice : Choice N) : Option (Op N) :=
  randNthEmpty choice.first
    ([randNthEmpty choice.add (addOps test topo choice.join),
      randNthEmpty choice.remove (removeOps topo)].filterMap id)

/-- `apply-op`, with the number drawn for a replica. -/
def applyOp (topo : Topology N) (draw : ℕ) : Op N → Topology N
  | .removeLogNode node => updateNode topo node fun node => { node with logPart := none }
  | .addNode node _ =>
    { topo with
      nodes :=
        { node := node, state := .active, replica := replicaName (draw % topo.replicaCount) } ::
          topo.nodes }
  | .removeNode node => updateNode topo node fun node => { node with state := .removing }

/-- A random transition, if there is one. -/
def step (test : Test N) (topo : Topology N) (choice : Choice N) : Topology N :=
  match randOp test topo choice with
  | some op => applyOp topo choice.replica op
  | none => topo

/-- Transitions, one after another. -/
def run (test : Test N) (topo : Topology N) (choices : List (Choice N)) : Topology N :=
  choices.foldl (step test) topo

/-! ## Safe topologies -/

/-- Every replica has a node that fulfils a condition. -/
def EachReplica (topo : Topology N) (P : Node N → Prop) : Prop :=
  ∀ r ∈ replicas topo, ∃ node ∈ topo.nodes, node.replica = r ∧ P node

/-- Names are distinct and within the test's nodes, and every replica keeps an active node. -/
structure Safe (test : Test N) (topo : Topology N) : Prop where
  nodup : (names topo).Nodup
  within : ∀ name ∈ names topo, name ∈ test.nodes
  active : EachReplica topo fun node => node.state = .active

/-- The node of that name is active. -/
def IsActive (topo : Topology N) (name : N) : Prop :=
  ∃ node ∈ topo.nodes, node.node = name ∧ node.state = .active

/-- The node was removed: it is in the topology, but not active. -/
def IsRemoved (topo : Topology N) (name : N) : Prop := name ∈ names topo ∧ ¬ IsActive topo name

omit [DecidableEq N] in
theorem eq_of_node_eq {topo : Topology N} (hnodup : (names topo).Nodup) {node node' : Node N}
    (hnode : node ∈ topo.nodes) (hnode' : node' ∈ topo.nodes) (heq : node.node = node'.node) :
    node = node' :=
  List.inj_on_of_nodup_map hnodup hnode hnode' heq

theorem getNode_eq_some {topo : Topology N} (hnodup : (names topo).Nodup) {node : Node N}
    (hnode : node ∈ topo.nodes) : getNode topo node.node = some node := by
  unfold getNode
  cases hfind : topo.nodes.find? fun node' => node'.node = node.node with
  | none =>
    have hnone := List.find?_eq_none.mp hfind node hnode
    exact absurd (decide_eq_true rfl) hnone
  | some node' =>
    have hname : node'.node = node.node := by simpa using List.find?_some hfind
    rw [eq_of_node_eq hnodup (List.mem_of_find?_eq_some hfind) hnode hname]

/-- An update changes the nodes of that name. -/
theorem nodes_updateNode {topo : Topology N} (hnodup : (names topo).Nodup) (name : N)
    (f : Node N → Node N) :
    (updateNode topo name f).nodes =
      topo.nodes.map fun node => if node.node = name then f node else node := by
  unfold updateNode
  cases hget : getNode topo name with
  | none =>
    have hnone := List.find?_eq_none.mp hget
    have hself : ∀ node ∈ topo.nodes, (if node.node = name then f node else node) = node := by
      intro node hnode
      rw [if_neg fun heq => hnone node hnode (decide_eq_true heq)]
    rw [List.map_congr_left hself, List.map_id']
  | some node =>
    unfold assocNode
    apply List.map_congr_left
    intro node' hnode'
    by_cases hname : node'.node = name
    · rw [if_pos hname, if_pos hname]
      subst hname
      rw [getNode_eq_some hnodup hnode'] at hget
      rw [Option.some.inj hget]
    · rw [if_neg hname, if_neg hname]

theorem replicaCount_updateNode (topo : Topology N) (name : N) (f : Node N → Node N) :
    (updateNode topo name f).replicaCount = topo.replicaCount := by
  unfold updateNode
  cases getNode topo name with
  | none => rfl
  | some node => rfl

theorem names_updateNode {topo : Topology N} (hnodup : (names topo).Nodup) (name : N)
    {f : Node N → Node N} (hf : ∀ node, (f node).node = node.node) :
    names (updateNode topo name f) = names topo := by
  unfold names
  rw [nodes_updateNode hnodup, List.map_map]
  apply List.map_congr_left
  intro node _
  rw [Function.comp_apply]
  split_ifs
  · exact hf node
  · rfl

/-! ## What is drawn -/

theorem mem_of_randNthEmpty {A : Type u} {draw : ℕ} {coll : List A} {a : A}
    (hdraw : randNthEmpty draw coll = some a) : a ∈ coll :=
  List.mem_of_getElem? hdraw

/-- A random operation is one of those that could be applied. -/
theorem mem_of_randOp {test : Test N} {topo : Topology N} {choice : Choice N} {op : Op N}
    (hop : randOp test topo choice = some op) :
    op ∈ addOps test topo choice.join ∨ op ∈ removeOps topo := by
  have hmem := mem_of_randNthEmpty hop
  obtain ⟨drawn, hdrawn, hsome⟩ := List.mem_filterMap.mp hmem
  rw [id_eq] at hsome
  subst hsome
  rcases List.mem_cons.mp hdrawn with hadd | hdrawn
  · exact .inl (mem_of_randNthEmpty hadd.symm)
  · exact .inr (mem_of_randNthEmpty (List.mem_singleton.mp hdrawn).symm)

/-- An add operation adds a node of the test that is absent, and joins it through one that is
there. -/
theorem mem_addOps {test : Test N} {topo : Topology N} {join : N → ℕ} {op : Op N}
    (hop : op ∈ addOps test topo join) :
    ∃ node through, op = .addNode node through ∧ node ∈ test.nodes ∧ node ∉ names topo ∧
      through ∈ names topo := by
  unfold addOps at hop
  dsimp only at hop
  split_ifs at hop with hnil
  · exact absurd hop List.not_mem_nil
  · obtain ⟨node, hnode, hmap⟩ := List.mem_filterMap.mp hop
    obtain ⟨through, hthrough, heq⟩ := Option.map_eq_some_iff.mp hmap
    have hfilter := List.mem_filter.mp hnode
    exact ⟨node, through, heq.symm, List.mem_dedup.mp hfilter.1, of_decide_eq_true hfilter.2,
      mem_of_randNthEmpty hthrough⟩

/-- A candidate for removal is active, and not the only active node of its replica. -/
theorem mem_candidates {topo : Topology N} (hnodup : (names topo).Nodup) {name : N}
    (hname : name ∈ candidates topo) :
    ∃ node ∈ topo.nodes, node.node = name ∧ node.state = .active ∧
      ∃ other ∈ topo.nodes, other.node ≠ name ∧ other.state = .active ∧
        other.replica = node.replica := by
  have hsublist : (names (onlyActive topo)).Sublist (names topo) :=
    List.Sublist.map _ List.filter_sublist
  have hactive := hnodup.sublist hsublist
  unfold candidates at hname
  obtain ⟨nodes, hnodes, hmem⟩ := List.mem_flatten.mp (List.mem_dedup.mp hname)
  obtain ⟨hvalue, hlength⟩ := List.mem_filter.mp hnodes
  obtain ⟨entry, hentry, rfl⟩ := List.mem_map.mp hvalue
  have hlookup := Assoc.mem_entries_iff.mp hentry
  unfold nodesByReplica at hlookup
  rw [Assoc.lookup_groupBy] at hlookup
  split_ifs at hlookup
  have hgroup := Option.some.inj hlookup
  have hin : ∀ n ∈ entry.2, ∃ node ∈ topo.nodes, node.node = n ∧ node.state = .active ∧
      some node.replica = entry.1 := by
    intro n hn
    rw [← hgroup] at hn
    obtain ⟨hn, hreplica⟩ := List.mem_filter.mp hn
    obtain ⟨node, hnode, rfl⟩ := List.mem_map.mp hn
    have hfilter := List.mem_filter.mp hnode
    have hreplica := of_decide_eq_true hreplica
    unfold replica at hreplica
    rw [getNode_eq_some hactive hnode] at hreplica
    exact ⟨node, hfilter.1, rfl, of_decide_eq_true hfilter.2, hreplica⟩
  obtain ⟨node, hnode, hnodename, hstate, hreplica⟩ := hin name hmem
  have hgroupNodup : entry.2.Nodup := hgroup ▸ hactive.filter _
  have hcard : 1 < entry.2.toFinset.card := by
    rw [List.toFinset_card_of_nodup hgroupNodup]
    exact of_decide_eq_true hlength
  obtain ⟨n, hn, hne⟩ := Finset.exists_mem_ne hcard name
  obtain ⟨other, hother, rfl, hotherstate, hotherreplica⟩ := hin n (List.mem_toFinset.mp hn)
  exact ⟨node, hnode, hnodename, hstate, other, hother, hne, hotherstate,
    Option.some.inj (hotherreplica.trans hreplica.symm)⟩

/-! ## Safe transitions -/

/-- Adding an absent node, joined through whatever node, is safe. -/
theorem Safe.addNode {test : Test N} {topo : Topology N} (h : Safe test topo) {node : N}
    (htest : node ∈ test.nodes) (habsent : node ∉ names topo) (draw : ℕ) (join : N) :
    Safe test (applyOp topo draw (.addNode node join)) where
  nodup := List.nodup_cons.mpr ⟨habsent, h.nodup⟩
  within := List.forall_mem_cons.mpr ⟨htest, h.within⟩
  active r hr :=
    let ⟨node, hnode, hreplica⟩ := h.active r hr
    ⟨node, List.mem_cons_of_mem _ hnode, hreplica⟩

/-- Removing a candidate leaves an active node in each replica. -/
theorem Safe.removeNode {test : Test N} {topo : Topology N} (h : Safe test topo) {name : N}
    (hname : name ∈ candidates topo) (draw : ℕ) :
    Safe test (applyOp topo draw (.removeNode name)) := by
  have hnames : names (applyOp topo draw (.removeNode name)) = names topo :=
    names_updateNode h.nodup name fun _ => rfl
  refine ⟨hnames ▸ h.nodup, hnames ▸ h.within, ?_⟩
  have hkept : ∀ node ∈ topo.nodes, node.node ≠ name →
      node ∈ (applyOp topo draw (.removeNode name)).nodes := by
    intro node hnode hne
    unfold applyOp
    rw [nodes_updateNode h.nodup, List.mem_map]
    exact ⟨node, hnode, if_neg hne⟩
  obtain ⟨removed, hremoved, hremovedName, -, other, hother, hne, hstate, hreplica⟩ :=
    mem_candidates h.nodup hname
  intro r hr
  unfold replicas applyOp at hr
  rw [replicaCount_updateNode] at hr
  obtain ⟨node, hnode, hnodeReplica, hactive⟩ := h.active r hr
  by_cases hself : node.node = name
  · -- The other one stays in the replica.
    have heq := eq_of_node_eq h.nodup hnode hremoved (hself.trans hremovedName.symm)
    subst heq
    exact ⟨other, hkept other hother hne, hreplica.trans hnodeReplica, hstate⟩
  · exact ⟨node, hkept node hnode hself, hnodeReplica, hactive⟩

/-- What a transition does. -/
theorem step_cases (test : Test N) (topo : Topology N) (choice : Choice N) :
    step test topo choice = topo ∨
      (∃ node join, node ∈ test.nodes ∧ node ∉ names topo ∧
        step test topo choice = applyOp topo choice.replica (.addNode node join)) ∨
      ∃ node ∈ candidates topo,
        step test topo choice = applyOp topo choice.replica (.removeNode node) := by
  unfold step
  cases hop : randOp test topo choice with
  | none => exact .inl rfl
  | some op =>
    cases mem_of_randOp hop with
    | inl hadd =>
      obtain ⟨node, join, rfl, htest, habsent, -⟩ := mem_addOps hadd
      exact .inr (.inl ⟨node, join, htest, habsent, rfl⟩)
    | inr hremove =>
      obtain ⟨node, hnode, rfl⟩ := List.mem_map.mp hremove
      exact .inr (.inr ⟨node, hnode, rfl⟩)

theorem Safe.step {test : Test N} {topo : Topology N} (h : Safe test topo) (choice : Choice N) :
    Safe test (step test topo choice) := by
  rcases step_cases test topo choice with hsame | ⟨node, join, htest, habsent, hadd⟩ |
    ⟨node, hnode, hremove⟩
  · rw [hsame]
    exact h
  · rw [hadd]
    exact h.addNode htest habsent choice.replica join
  · rw [hremove]
    exact h.removeNode hnode choice.replica

theorem Safe.run {test : Test N} {topo : Topology N} (h : Safe test topo)
    (choices : List (Choice N)) : Safe test (run test topo choices) := by
  induction choices generalizing topo with
  | nil => exact h
  | cons choice choices ih => exact ih (h.step choice)

/-! ## Removed nodes -/

theorem isRemoved_removeNode {topo : Topology N} (hnodup : (names topo).Nodup) {name : N}
    (hname : name ∈ names topo) (draw : ℕ) :
    IsRemoved (applyOp topo draw (.removeNode name)) name := by
  have hnames : names (applyOp topo draw (.removeNode name)) = names topo :=
    names_updateNode hnodup name fun _ => rfl
  refine ⟨hnames ▸ hname, ?_⟩
  rintro ⟨node, hnode, hnodeName, hactive⟩
  unfold applyOp at hnode
  rw [nodes_updateNode hnodup] at hnode
  obtain ⟨node', -, rfl⟩ := List.mem_map.mp hnode
  by_cases hself : node'.node = name
  · rw [if_pos hself] at hactive
    cases hactive
  · rw [if_neg hself] at hnodeName
    exact hself hnodeName

/-- A removed node stays removed. -/
theorem IsRemoved.step {test : Test N} {topo : Topology N} {name : N}
    (h : IsRemoved topo name) (hsafe : Safe test topo) (choice : Choice N) :
    IsRemoved (step test topo choice) name := by
  rcases step_cases test topo choice with hsame | ⟨node, join, htest, habsent, hadd⟩ |
    ⟨node, hnode, hremove⟩
  · rw [hsame]
    exact h
  · rw [hadd]
    refine ⟨List.mem_cons_of_mem _ h.1, ?_⟩
    rintro ⟨node', hnode', hname, hactive⟩
    cases List.mem_cons.mp hnode' with
    | inl heq =>
      have hself : node = name := by rw [← hname, heq]
      rw [hself] at habsent
      exact habsent h.1
    | inr hnode' => exact h.2 ⟨node', hnode', hname, hactive⟩
  · rw [hremove]
    have hnames : names (applyOp topo choice.replica (.removeNode node)) = names topo :=
      names_updateNode hsafe.nodup node fun _ => rfl
    refine ⟨hnames ▸ h.1, ?_⟩
    rintro ⟨node', hnode', hname, hactive⟩
    unfold applyOp at hnode'
    rw [nodes_updateNode hsafe.nodup] at hnode'
    obtain ⟨before, hbefore, rfl⟩ := List.mem_map.mp hnode'
    by_cases hself : before.node = node
    · rw [if_pos hself] at hactive
      cases hactive
    · rw [if_neg hself] at hname hactive
      exact h.2 ⟨before, hbefore, hname, hactive⟩

theorem IsRemoved.run {test : Test N} {topo : Topology N} {name : N}
    (h : IsRemoved topo name) (hsafe : Safe test topo) (choices : List (Choice N)) :
    IsRemoved (run test topo choices) name := by
  induction choices generalizing topo with
  | nil => exact h
  | cons choice choices ih => exact ih (h.step hsafe choice) (hsafe.step choice)

theorem IsRemoved.notMem_candidates {topo : Topology N} {name : N} (h : IsRemoved topo name)
    (hnodup : (names topo).Nodup) : name ∉ candidates topo := by
  intro hname
  obtain ⟨node, hnode, hnodeName, hactive, -⟩ := mem_candidates hnodup hname
  exact h.2 ⟨node, hnode, hnodeName, hactive⟩

/-! ## Added nodes -/

/-- Nodes are not taken out of a topology. -/
theorem names_subset_step {test : Test N} {topo : Topology N} (hsafe : Safe test topo)
    (choice : Choice N) : names topo ⊆ names (step test topo choice) := by
  rcases step_cases test topo choice with hsame | ⟨node, join, -, -, hadd⟩ |
    ⟨node, -, hremove⟩
  · rw [hsame]
    exact List.Subset.refl _
  · rw [hadd]
    exact List.subset_cons_self _ _
  · rw [hremove]
    have hnames : names (applyOp topo choice.replica (.removeNode node)) = names topo :=
      names_updateNode hsafe.nodup node fun _ => rfl
    rw [hnames]
    exact List.Subset.refl _

theorem names_subset_run {test : Test N} {topo : Topology N} (hsafe : Safe test topo)
    (choices : List (Choice N)) : names topo ⊆ names (run test topo choices) := by
  induction choices generalizing topo with
  | nil => exact List.Subset.refl _
  | cons choice choices ih =>
    exact List.Subset.trans (names_subset_step hsafe choice) (ih (hsafe.step choice))

/-- With all nodes of the test in it, nothing can be added to a topology. -/
theorem addOps_eq_nil {test : Test N} {topo : Topology N} (hall : test.nodes ⊆ names topo)
    (join : N → ℕ) : addOps test topo join = [] := by
  rw [List.eq_nil_iff_forall_not_mem]
  intro op hop
  obtain ⟨node, through, -, htest, habsent, -⟩ := mem_addOps hop
  exact habsent (hall htest)

/-- Where no node is being removed, a new node joins through an active one. -/
theorem isActive_of_mem_addOps {test : Test N} {topo : Topology N} {join : N → ℕ}
    (hactive : ∀ node ∈ topo.nodes, node.state = .active) {node through : N}
    (hop : .addNode node through ∈ addOps test topo join) : IsActive topo through := by
  obtain ⟨node', through', heq, -, -, hthrough⟩ := mem_addOps hop
  cases heq
  obtain ⟨found, hfound, rfl⟩ := List.mem_map.mp hthrough
  exact ⟨found, hfound, rfl, hactive found hfound⟩

/-! ## Runs from the initial topology -/

omit [DecidableEq N] in
theorem names_initialTopology {test : Test N} {topo : Topology N}
    (hinitial : initialTopology test = some topo) : names topo = test.nodes := by
  unfold initialTopology at hinitial
  split_ifs at hinitial
  cases hinitial
  unfold names
  rw [List.map_map]
  exact List.zipIdx_map_fst 0 test.nodes

omit [DecidableEq N] in
theorem active_initialTopology {test : Test N} {topo : Topology N}
    (hinitial : initialTopology test = some topo) {node : Node N} (hnode : node ∈ topo.nodes) :
    node.state = .active := by
  unfold initialTopology at hinitial
  split_ifs at hinitial
  cases hinitial
  obtain ⟨p, -, rfl⟩ := List.mem_map.mp hnode
  rfl

omit [DecidableEq N] in
theorem safe_initialTopology {test : Test N} {topo : Topology N} (hnodes : test.nodes.Nodup)
    (hinitial : initialTopology test = some topo) (heach : EachReplica topo fun _ => True) :
    Safe test topo := by
  have hnames := names_initialTopology hinitial
  refine ⟨hnames ▸ hnodes, fun name hname => hnames ▸ hname, ?_⟩
  intro r hr
  obtain ⟨node, hnode, hreplica, -⟩ := heach r hr
  exact ⟨node, hnode, hreplica, active_initialTopology hinitial hnode⟩

/-- In every run from an initial topology that gives each replica a node, names are distinct and
within the test's nodes, every replica has an active node, a node that is added is absent and
joins through an active one, and a removed node is never a candidate for removal again. -/
theorem transitions_safe {test : Test N} {topo : Topology N} (hnodes : test.nodes.Nodup)
    (hinitial : initialTopology test = some topo) (heach : EachReplica topo fun _ => True)
    (choices : List (Choice N)) :
    Safe test (run test topo choices) ∧
      (∀ choice node join,
        randOp test (run test topo choices) choice = some (.addNode node join) →
          node ∉ names (run test topo choices) ∧ IsActive (run test topo choices) join) ∧
      ∀ before choice after node, choices = before ++ choice :: after →
        randOp test (run test topo before) choice = some (.removeNode node) →
          node ∉ candidates (run test topo choices) := by
  have hsafe := safe_initialTopology hnodes hinitial heach
  refine ⟨hsafe.run choices, ?_, ?_⟩
  · intro choice node join hop
    have hall : test.nodes ⊆ names (run test topo choices) :=
      names_initialTopology hinitial ▸ names_subset_run hsafe choices
    cases mem_of_randOp hop with
    | inl hadd =>
      -- All nodes are in the topology from the start.
      rw [addOps_eq_nil hall] at hadd
      exact absurd hadd List.not_mem_nil
    | inr hremove =>
      obtain ⟨other, -, heq⟩ := List.mem_map.mp hremove
      cases heq
  · rintro before choice after node rfl hop
    have hbefore := hsafe.run before
    have hstep : step test (run test topo before) choice =
        applyOp (run test topo before) choice.replica (.removeNode node) := by
      unfold step
      rw [hop]
    have hname : node ∈ names (run test topo before) := by
      cases mem_of_randOp hop with
      | inl hadd =>
        obtain ⟨other, join, heq, -⟩ := mem_addOps hadd
        cases heq
      | inr hremove =>
        obtain ⟨other, hother, heq⟩ := List.mem_map.mp hremove
        cases heq
        obtain ⟨found, hfound, rfl, -⟩ := mem_candidates hbefore.nodup hother
        exact List.mem_map_of_mem hfound
    have hremoved : IsRemoved (step test (run test topo before) choice) node := by
      rw [hstep]
      exact isRemoved_removeNode hbefore.nodup hname choice.replica
    have hrun : run test topo (before ++ choice :: after) =
        run test (step test (run test topo before) choice) after := by
      unfold run
      rw [List.foldl_append, List.foldl_cons]
    have hlater := hremoved.run (hbefore.step choice) after
    rw [hrun]
    exact hlater.notMem_candidates ((hbefore.step choice).run after).nodup

/-- Three nodes, of which the first is removed. -/
theorem threeNodes_safe : 0 ∉ candidates
    (run ⟨[0, 1, 2], 2⟩ (⟨2, [⟨0, .active, replicaName 0, none⟩, ⟨1, .active, replicaName 1, none⟩,
      ⟨2, .active, replicaName 0, none⟩]⟩ : Topology ℕ) [⟨fun _ => 0, 0, 0, 0, 0⟩]) := by
  have hsafe := transitions_safe
    (by decide : (⟨[0, 1, 2], 2⟩ : Test ℕ).nodes.Nodup) rfl (by unfold EachReplica; decide)
    [⟨fun _ => 0, 0, 0, 0, 0⟩]
  exact hsafe.2.2 [] _ [] 0 rfl (by decide)

end Jepsen.Faunadb.Topologies
