/-
# The TiDB nemesis and its recovery

One table says which faults each option mixes in and which operation ends them; another
says which operations end all faults for the final reads. The tables agree about
processes and schedulers. The final recovery does not heal the network when the PD leader
is all that is to be isolated, and it resets the clocks of no nodes.
-/

import Jepsen.Library.Runs

namespace Jepsen.Tidb

open Jepsen.Library

universe u

/-! ## Options -/

/-- The processes of a node. -/
inductive Process
  | pd | kv | db
  deriving DecidableEq

inductive Scheduler
  | shuffleLeader | shuffleRegion | randomMerge
  deriving DecidableEq

/-- The `:partition-type` of a partition. -/
inductive PartitionType
  | singleNode | pdLeader | half | ring
  deriving DecidableEq

/-- A key of the nemesis options. -/
inductive Opt
  | killProcess (process : Process)
  | pauseProcess (process : Process)
  | scheduler (scheduler : Scheduler)
  | partitionType (type : PartitionType)
  | clockSkew
  /-- `:stop-pd`, which `expand-options` sets and nothing reads. -/
  | stopPd
  | kill | stop | pause | schedules | partition
  deriving DecidableEq

/-- The options, up to truthiness. -/
abbrev Options := Opt → Bool

/-- An assoc of some options to true. -/
def Options.assoc (n : Options) (options : List Opt) : Options :=
  fun option => decide (option ∈ options) || n option

/-- `expand-options` -/
def expandOptions (n : Options) : Options :=
  let n₁ := if n .kill then
    n.assoc [.killProcess .pd, .killProcess .kv, .killProcess .db] else n
  let n₂ := if n .stop then n₁.assoc [.stopPd, .killProcess .kv, .killProcess .db] else n₁
  let n₃ := if n .pause then
    n₂.assoc [.pauseProcess .pd, .pauseProcess .kv, .pauseProcess .db] else n₂
  let n₄ := if n .schedules then
    n₃.assoc [.scheduler .shuffleLeader, .scheduler .shuffleRegion, .scheduler .randomMerge]
    else n₃
  if n .partition then
    n₄.assoc [.partitionType .singleNode, .partitionType .pdLeader, .partitionType .half,
      .partitionType .ring]
  else n₄

/-! ## Operations and their effects -/

/-- The `:f` of a nemesis operation. -/
inductive F
  | start (process : Process) | kill (process : Process)
  | pause (process : Process) | resume (process : Process)
  | add (scheduler : Scheduler) | del (scheduler : Scheduler)
  | startPartition (type : PartitionType) | stopPartition
  | resetClock | strobeClock | checkClockOffsets | bumpClock
  deriving DecidableEq

/-- A nemesis operation, with the nodes its `:value` names. The grudge of a
`:start-partition` is left out. -/
structure Op (Node : Type u) where
  f : F
  value : Option (List Node) := none

/-- The nodes of a test. -/
structure Nodes (Node : Type u) where
  nodes : List Node
  nonempty : nodes ≠ []

/-- What can be wrong with a cluster. -/
inductive Fault (Node : Type u)
  | killed (process : Process) (node : Node)
  | paused (process : Process) (node : Node)
  | added (scheduler : Scheduler)
  | partitioned
  | skewed (node : Node)

/-- The faults in force. -/
abbrev Cluster (Node : Type u) := Fault Node → Bool

variable {Node : Type u} [DecidableEq Node]

/-- The nodes `process-nemesis` acts on, given a random subset of the test's nodes. -/
def processNodes (test : Nodes Node) (subset : List Node) (op : Op Node) : List Node :=
  op.value.getD
    (match op.f with
    | .resume _ | .start _ => test.nodes
    | _ => subset)

/-- The operation brings about the fault. -/
def causes (test : Nodes Node) (subset : List Node) (op : Op Node) : Fault Node → Bool
  | .killed process node =>
      decide (op.f = .kill process) && decide (node ∈ processNodes test subset op)
  | .paused process node =>
      decide (op.f = .pause process) && decide (node ∈ processNodes test subset op)
  | .added scheduler => decide (op.f = .add scheduler)
  | .partitioned =>
      match op.f with
      | .startPartition _ => true
      | _ => false
  | .skewed node =>
      (decide (op.f = .strobeClock) || decide (op.f = .bumpClock)) &&
        decide (node ∈ op.value.getD [])

/-- The operation ends the fault. -/
def cures (test : Nodes Node) (subset : List Node) (op : Op Node) : Fault Node → Bool
  | .killed process node =>
      decide (op.f = .start process) && decide (node ∈ processNodes test subset op)
  | .paused process node =>
      decide (op.f = .resume process) && decide (node ∈ processNodes test subset op)
  | .added scheduler => decide (op.f = .del scheduler)
  | .partitioned => decide (op.f = .stopPartition)
  | .skewed node => decide (op.f = .resetClock) && decide (node ∈ op.value.getD [])

/-- `invoke!`, given a random subset of the test's nodes. -/
def invoke (test : Nodes Node) (subset : List Node) (cluster : Cluster Node) (op : Op Node) :
    Cluster Node :=
  fun fault => causes test subset op fault || (cluster fault && !cures test subset op fault)

/-- A result of `random-nonempty-subset`. -/
def RandomSubset (test : Nodes Node) (subset : List Node) : Prop :=
  subset ≠ [] ∧ subset ⊆ test.nodes

/-- An operation takes the cluster from one state to another. -/
def Invokes (test : Nodes Node) (cluster : Cluster Node) (op : Op Node)
    (cluster' : Cluster Node) : Prop :=
  ∃ subset, RandomSubset test subset ∧ cluster' = invoke test subset cluster op

/-! ## Generators -/

/-- A generator that is part of the mix. -/
inductive Gen
  /-- `flip-flop` between a mix and its recovery, and whether the recovery is next. -/
  | flipFlop (mix : List F) (recovery : F) (recover : Bool)
  /-- `clock-gen`, and whether it has checked the offsets. -/
  | clock (checked : Bool)

/-- What a generator can emit, and the generator from then on. -/
inductive Emits (test : Nodes Node) : Gen → Op Node → Gen → Prop
  | fault {mix : List F} {recovery f : F} (hf : f ∈ mix) :
      Emits test (.flipFlop mix recovery false) { f := f } (.flipFlop mix recovery true)
  | recovery {mix : List F} {recovery : F} :
      Emits test (.flipFlop mix recovery true) { f := recovery } (.flipFlop mix recovery false)
  | check : Emits test (.clock false) { f := .checkClockOffsets } (.clock true)
  | clock {f : F} {subset : List Node} (hf : f ∈ [F.resetClock, .bumpClock, .strobeClock])
      (hsubset : RandomSubset test subset) :
      Emits test (.clock true) { f := f, value := some subset } (.clock true)

/-- A mix lets any of its generators emit. -/
def MixEmits (test : Nodes Node) (gens : List Gen) (op : Op Node) (gens' : List Gen) : Prop :=
  ∃ before gen after gen', gens = before ++ gen :: after ∧ Emits test gen op gen' ∧
    gens' = before ++ gen' :: after

/-- `opt-mix` -/
def optMix {G : Type*} (n : Options) (possibleGens : List (Opt × G)) : Option (List G) :=
  let gens := (possibleGens.filter fun e => n e.1).map Prod.snd
  if gens.isEmpty then none else some gens

/-- The shorthand of `mixed-generator`: a mix of faults with a single recovery. -/
def o (n : Options) (possibleGens : List (Opt × F)) (recovery : F) : Option Gen :=
  (optMix n possibleGens).map fun mix => .flipFlop mix recovery false

/-- The partitions, with the options for them. -/
def partitionGens : List (Opt × F) :=
  [(.partitionType .singleNode, .startPartition .singleNode),
    (.partitionType .pdLeader, .startPartition .pdLeader),
    (.partitionType .half, .startPartition .half),
    (.partitionType .ring, .startPartition .ring)]

/-- The flip-flops of `mixed-generator`, where their options are present. -/
def flipFlops (n : Options) : List (Option Gen) :=
  [o n [(.killProcess .pd, .kill .pd)] (.start .pd),
    o n [(.killProcess .kv, .kill .kv)] (.start .kv),
    o n [(.killProcess .db, .kill .db)] (.start .db),
    o n [(.pauseProcess .pd, .pause .pd)] (.resume .pd),
    o n [(.pauseProcess .kv, .pause .kv)] (.resume .kv),
    o n [(.pauseProcess .db, .pause .db)] (.resume .db),
    o n [(.scheduler .shuffleLeader, .add .shuffleLeader)] (.del .shuffleLeader),
    o n [(.scheduler .shuffleRegion, .add .shuffleRegion)] (.del .shuffleRegion),
    o n [(.scheduler .randomMerge, .add .randomMerge)] (.del .randomMerge),
    o n partitionGens .stopPartition]

/-- The generators that `mixed-generator` mixes. A mix of just `clock-gen` is that. -/
def mixedGenerator (n : Options) : List Gen :=
  (flipFlops n).filterMap id ++ (optMix n [(.clockSkew, Gen.clock false)]).getD []

/-- `final-generator` -/
def finalGenerator (n : Options) : List (Op Node) :=
  ((if n .clockSkew then [F.resetClock] else []) ++
    (if n (.pauseProcess .pd) then [F.resume .pd] else []) ++
    (if n (.pauseProcess .kv) then [F.resume .kv] else []) ++
    (if n (.pauseProcess .db) then [F.resume .db] else []) ++
    (if n (.killProcess .pd) then [F.start .pd] else []) ++
    (if n (.killProcess .kv) then [F.start .kv] else []) ++
    (if n (.killProcess .db) then [F.start .db] else []) ++
    (if n (.scheduler .shuffleLeader) then [F.del .shuffleLeader] else []) ++
    (if n (.scheduler .shuffleRegion) then [F.del .shuffleRegion] else []) ++
    (if n (.scheduler .randomMerge) then [F.del .randomMerge] else []) ++
    (if [Opt.partitionType .singleNode, .partitionType .half, .partitionType .ring].any n then
      [F.stopPartition] else [])).map fun f => { f := f }

/-! ## Recovery -/

/-- Nothing is wrong with the nodes of the test. -/
def Clean (test : Nodes Node) (cluster : Cluster Node) : Prop :=
  (∀ process, ∀ node ∈ test.nodes,
    cluster (.killed process node) = false ∧ cluster (.paused process node) = false) ∧
  (∀ scheduler, cluster (.added scheduler) = false) ∧
  cluster .partitioned = false ∧
  ∀ node ∈ test.nodes, cluster (.skewed node) = false

/-- Whatever the mix emits to a healthy cluster, the final operations leave it clean. -/
def RecoveryComplete (test : Nodes Node) (n : Options) : Prop :=
  ∀ ops gens cluster cluster', Run (MixEmits test) (mixedGenerator n) ops gens →
    Run (Invokes test) (fun _ => false) ops cluster →
    Run (Invokes test) cluster (finalGenerator n) cluster' → Clean test cluster'

/-- The clocks are left alone, and if the PD leader is to be isolated, so are others. -/
def Recoverable (n : Options) : Prop :=
  n .clockSkew = false ∧
    (n (.partitionType .pdLeader) = true → n .partition = true ∨
      n (.partitionType .singleNode) = true ∨ n (.partitionType .half) = true ∨
      n (.partitionType .ring) = true)

/-! ## What the mix can do -/

/-- The options under which the mix emits an operation that brings about a fault. -/
def F.Permitted (n : Options) : F → Prop
  | .kill process => n (.killProcess process) = true
  | .pause process => n (.pauseProcess process) = true
  | .add scheduler => n (.scheduler scheduler) = true
  | .startPartition type => n (.partitionType type) = true
  | .strobeClock | .bumpClock => n .clockSkew = true
  | _ => True

/-- A generator emits what the options permit. -/
def Gen.Permitted (n : Options) : Gen → Prop
  | .flipFlop mix recovery _ => (∀ f ∈ mix, f.Permitted n) ∧ recovery.Permitted n
  | .clock _ => n .clockSkew = true

/-- An option permits the fault. -/
def Fault.Permitted (n : Options) : Fault Node → Prop
  | .killed process _ => n (.killProcess process) = true
  | .paused process _ => n (.pauseProcess process) = true
  | .added scheduler => n (.scheduler scheduler) = true
  | .partitioned => ∃ type, n (.partitionType type) = true
  | .skewed _ => n .clockSkew = true

theorem mem_of_optMix_eq_some {G : Type*} {n : Options} {possibleGens : List (Opt × G)}
    {mix : List G} (hmix : optMix n possibleGens = some mix) {g : G} (hg : g ∈ mix) :
    ∃ option, (option, g) ∈ possibleGens ∧ n option = true := by
  unfold optMix at hmix
  dsimp only at hmix
  split_ifs at hmix
  obtain rfl := Option.some.inj hmix
  obtain ⟨e, he, rfl⟩ := List.mem_map.mp hg
  exact ⟨e.1, (List.mem_filter.mp he).1, (List.mem_filter.mp he).2⟩

theorem optMix_of_mem {G : Type*} {n : Options} {possibleGens : List (Opt × G)} {option : Opt}
    {g : G} (hmem : (option, g) ∈ possibleGens) (hoption : n option = true) :
    ∃ mix, optMix n possibleGens = some mix ∧ g ∈ mix := by
  have hg : g ∈ (possibleGens.filter fun e => n e.1).map Prod.snd :=
    List.mem_map.mpr ⟨_, List.mem_filter.mpr ⟨hmem, hoption⟩, rfl⟩
  refine ⟨_, if_neg fun hempty => ?_, hg⟩
  rw [List.isEmpty_iff.mp hempty] at hg
  exact List.not_mem_nil hg

theorem permitted_of_o {n : Options} {possibleGens : List (Opt × F)} {recovery : F}
    (hfault : ∀ e ∈ possibleGens, n e.1 = true → e.2.Permitted n)
    (hrecovery : recovery.Permitted n) : ∀ gen ∈ o n possibleGens recovery, gen.Permitted n := by
  intro gen hgen
  obtain ⟨mix, hmix, rfl⟩ := Option.map_eq_some_iff.mp hgen
  refine ⟨fun f hf => ?_, hrecovery⟩
  obtain ⟨option, hmem, hoption⟩ := mem_of_optMix_eq_some hmix hf
  exact hfault _ hmem hoption

theorem permitted_flipFlops (n : Options) :
    ∀ flipFlop ∈ flipFlops n, ∀ gen ∈ flipFlop, gen.Permitted n := by
  unfold flipFlops
  simp only [List.forall_mem_cons, List.not_mem_nil, IsEmpty.forall_iff, implies_true, and_true]
  refine ⟨?_, ?_, ?_, ?_, ?_, ?_, ?_, ?_, ?_, ?_⟩ <;>
    exact permitted_of_o (by simp [partitionGens, F.Permitted]) trivial

theorem permitted_mixedGenerator (n : Options) : ∀ gen ∈ mixedGenerator n, gen.Permitted n := by
  intro gen hgen
  cases List.mem_append.mp hgen with
  | inl hflip =>
    obtain ⟨flipFlop, hmem, hsome⟩ := List.mem_filterMap.mp hflip
    exact permitted_flipFlops n flipFlop hmem gen hsome
  | inr hclock =>
    cases hmix : optMix n [(Opt.clockSkew, Gen.clock false)] with
    | none =>
      rw [hmix] at hclock
      cases hclock
    | some mix =>
      rw [hmix] at hclock
      obtain ⟨option, hmem, hoption⟩ := mem_of_optMix_eq_some hmix hclock
      obtain ⟨rfl, rfl⟩ := Prod.mk.inj (List.mem_singleton.mp hmem)
      exact hoption

omit [DecidableEq Node] in
theorem Emits.permitted {n : Options} {test : Nodes Node} {gen gen' : Gen} {op : Op Node}
    (hemits : Emits test gen op gen') (hgen : gen.Permitted n) :
    op.f.Permitted n ∧ gen'.Permitted n := by
  cases hemits with
  | fault hf => exact ⟨hgen.1 _ hf, hgen⟩
  | recovery => exact ⟨hgen.2, hgen⟩
  | check => exact ⟨trivial, hgen⟩
  | clock hf hsubset =>
    refine ⟨?_, hgen⟩
    simp only [List.mem_cons, List.not_mem_nil, or_false] at hf
    rcases hf with rfl | rfl | rfl
    · exact trivial
    · exact hgen
    · exact hgen

omit [DecidableEq Node] in
/-- Every operation the mix emits is one the options permit. -/
theorem permitted_of_run {n : Options} {test : Nodes Node} {gens gens' : List Gen}
    {ops : List (Op Node)} (hrun : Run (MixEmits test) gens ops gens')
    (hgens : ∀ gen ∈ gens, gen.Permitted n) :
    (∀ gen ∈ gens', gen.Permitted n) ∧ ∀ op ∈ ops, op.f.Permitted n := by
  induction hrun with
  | nil => exact ⟨hgens, fun _ hop => nomatch hop⟩
  | @snoc ops s t op hprior hlast ih =>
    obtain ⟨before, gen, after, gen', rfl, hemits, rfl⟩ := hlast
    obtain ⟨hprior, hops⟩ := ih
    rw [List.forall_mem_append, List.forall_mem_cons] at hprior ⊢
    obtain ⟨hop, hgen'⟩ := hemits.permitted hprior.2.1
    refine ⟨⟨hprior.1, hgen', hprior.2.2⟩, List.forall_mem_append.mpr ⟨hops, ?_⟩⟩
    exact List.forall_mem_singleton.mpr hop

/-- A fault that an operation brings about is permitted with it. -/
theorem permitted_of_causes {n : Options} {test : Nodes Node} {subset : List Node} {op : Op Node}
    (hop : op.f.Permitted n) {fault : Fault Node} (hcauses : causes test subset op fault = true) :
    fault.Permitted n := by
  cases fault with
  | killed process node =>
    rw [causes, Bool.and_eq_true, decide_eq_true_iff] at hcauses
    rw [hcauses.1] at hop
    exact hop
  | paused process node =>
    rw [causes, Bool.and_eq_true, decide_eq_true_iff] at hcauses
    rw [hcauses.1] at hop
    exact hop
  | added scheduler =>
    rw [causes, decide_eq_true_iff] at hcauses
    rw [hcauses] at hop
    exact hop
  | partitioned =>
    rw [causes] at hcauses
    cases hf : op.f with
    | startPartition type =>
      rw [hf] at hop
      exact ⟨type, hop⟩
    | _ =>
      rw [hf] at hcauses
      cases hcauses
  | skewed node =>
    rw [causes, Bool.and_eq_true, Bool.or_eq_true, decide_eq_true_iff, decide_eq_true_iff]
      at hcauses
    cases hcauses.1 with
    | inl hstrobe =>
      rw [hstrobe] at hop
      exact hop
    | inr hbump =>
      rw [hbump] at hop
      exact hop

/-! ## What the final operations do -/

section Execution

variable {test : Nodes Node} {cluster cluster' : Cluster Node} {ops : List (Op Node)}
  {fault : Fault Node}

/-- From a healthy cluster, operations that are permitted bring about what is permitted. -/
theorem permitted_of_invokes {n : Options}
    (hrun : Run (Invokes test) (fun _ => false) ops cluster)
    (hops : ∀ op ∈ ops, op.f.Permitted n) (hfault : cluster fault = true) :
    fault.Permitted n := by
  induction hrun with
  | nil => cases hfault
  | @snoc ops s t op hprior hlast ih =>
    obtain ⟨subset, -, rfl⟩ := hlast
    rw [List.forall_mem_append, List.forall_mem_singleton] at hops
    cases Bool.or_eq_true_iff.mp hfault with
    | inl hcauses => exact permitted_of_causes hops.2 hcauses
    | inr hbefore => exact ih hops.1 (Bool.and_eq_true_iff.mp hbefore).1

/-- After operations that do not bring it about, a fault is one from before that none of
them ended. -/
theorem uncured_of_fault (hrun : Run (Invokes test) cluster ops cluster')
    (hquiet : ∀ op ∈ ops, ∀ subset, causes test subset op fault = false)
    (hfault : cluster' fault = true) :
    cluster fault = true ∧ ∀ op ∈ ops, ∃ subset, cures test subset op fault = false := by
  induction hrun with
  | nil => exact ⟨hfault, fun _ hop => nomatch hop⟩
  | @snoc ops s t op hprior hlast ih =>
    obtain ⟨subset, -, rfl⟩ := hlast
    rw [List.forall_mem_append, List.forall_mem_singleton] at hquiet ⊢
    rw [invoke, hquiet.2 subset, Bool.false_or, Bool.and_eq_true, Bool.not_eq_true'] at hfault
    obtain ⟨hbefore, huncured⟩ := ih hquiet.1 hfault.1
    exact ⟨hbefore, huncured, subset, hfault.2⟩

/-- A fault that no operation ends stays. -/
theorem fault_of_uncured (hrun : Run (Invokes test) cluster ops cluster')
    (huncured : ∀ op ∈ ops, ∀ subset, cures test subset op fault = false)
    (hfault : cluster fault = true) : cluster' fault = true := by
  induction hrun with
  | nil => exact hfault
  | @snoc ops s t op hprior hlast ih =>
    obtain ⟨subset, -, rfl⟩ := hlast
    rw [List.forall_mem_append, List.forall_mem_singleton] at huncured
    rw [invoke, ih huncured.1, huncured.2 subset]
    exact Bool.or_true _

/-- Operations can always be executed. -/
theorem exists_invokes (test : Nodes Node) (cluster : Cluster Node) (ops : List (Op Node)) :
    ∃ cluster', Run (Invokes test) cluster ops cluster' := by
  induction ops using List.reverseRecOn with
  | nil => exact ⟨cluster, .nil⟩
  | append_singleton ops op ih =>
    obtain ⟨cluster', hprior⟩ := ih
    have hall : RandomSubset test test.nodes := ⟨test.nonempty, List.Subset.refl _⟩
    exact ⟨_, hprior.snoc ⟨test.nodes, hall, rfl⟩⟩

end Execution

omit [DecidableEq Node] in
/-- The final operations are recoveries without nodes of their own, and a partition is
stopped only if there are others than that of the PD leader. -/
theorem of_mem_finalGenerator {n : Options} {op : Op Node} (hop : op ∈ finalGenerator n) :
    op.value = none ∧
      (op.f = .resetClock ∨ (∃ process, op.f = .resume process) ∨
        (∃ process, op.f = .start process) ∨ (∃ scheduler, op.f = .del scheduler) ∨
        op.f = .stopPartition ∧ ∃ type, type ≠ .pdLeader ∧ n (.partitionType type) = true) := by
  obtain ⟨f, hf, rfl⟩ := List.mem_map.mp hop
  refine ⟨rfl, ?_⟩
  simp only [List.mem_append, List.mem_ite_nil_right, List.mem_singleton] at hf
  cases hf with
  | inl hrecovery =>
    rcases hrecovery with (((((((((⟨-, rfl⟩ | ⟨-, rfl⟩) | ⟨-, rfl⟩) | ⟨-, rfl⟩) | ⟨-, rfl⟩) | ⟨-, rfl⟩) | ⟨-, rfl⟩) | ⟨-, rfl⟩) | ⟨-, rfl⟩) | ⟨-, rfl⟩) <;> simp
  | inr hstop =>
    obtain ⟨hany, rfl⟩ := hstop
    obtain ⟨option, hmem, hoption⟩ := List.any_eq_true.mp hany
    simp only [List.mem_cons, List.not_mem_nil, or_false] at hmem
    refine Or.inr (Or.inr (Or.inr (Or.inr ⟨rfl, ?_⟩)))
    rcases hmem with rfl | rfl | rfl
    · exact ⟨.singleNode, PartitionType.noConfusion, hoption⟩
    · exact ⟨.half, PartitionType.noConfusion, hoption⟩
    · exact ⟨.ring, PartitionType.noConfusion, hoption⟩

theorem finalGenerator_causes {n : Options} {op : Op Node} (hop : op ∈ finalGenerator n)
    (test : Nodes Node) (subset : List Node) (fault : Fault Node) :
    causes test subset op fault = false := by
  obtain ⟨-, hf⟩ := of_mem_finalGenerator hop
  rcases hf with hf | ⟨_, hf⟩ | ⟨_, hf⟩ | ⟨_, hf⟩ | ⟨hf, -⟩ <;> cases fault <;> simp [causes, hf]

omit [DecidableEq Node] in
/-- The final operations have the recovery from every fault that an option permits, but
only from partitions other than that of the PD leader. -/
theorem mem_finalGenerator (Node : Type u) (n : Options) :
    (∀ process, n (.killProcess process) = true →
      ({ f := .start process } : Op Node) ∈ finalGenerator n) ∧
    (∀ process, n (.pauseProcess process) = true →
      ({ f := .resume process } : Op Node) ∈ finalGenerator n) ∧
    (∀ scheduler, n (.scheduler scheduler) = true →
      ({ f := .del scheduler } : Op Node) ∈ finalGenerator n) ∧
    ∀ type, type ≠ .pdLeader → n (.partitionType type) = true →
      ({ f := .stopPartition } : Op Node) ∈ finalGenerator n := by
  refine ⟨fun process hon => ?_, fun process hon => ?_, fun scheduler hon => ?_,
    fun type htype hon => ?_⟩
  · cases process <;> simp [finalGenerator, hon]
  · cases process <;> simp [finalGenerator, hon]
  · cases scheduler <;> simp [finalGenerator, hon]
  · cases type with
    | pdLeader => exact absurd rfl htype
    | _ => simp [finalGenerator, hon]

/-! ## When recovery is complete -/

theorem ite_assoc (b : Bool) (n : Options) (options : List Opt) (option : Opt) :
    (if b then n.assoc options else n) option = ((b && decide (option ∈ options)) || n option) := by
  cases b <;> rfl

theorem expandOptions_clockSkew (n : Options) : expandOptions n .clockSkew = n .clockSkew := by
  simp [expandOptions, ite_assoc]

theorem expandOptions_partitionType (n : Options) (type : PartitionType) :
    expandOptions n (.partitionType type) = (n .partition || n (.partitionType type)) := by
  cases type <;> simp [expandOptions, ite_assoc]

/-- The final operations end what an option permits, if it can be recovered from. -/
theorem recoveryComplete_of_recoverable {test : Nodes Node} {n : Options} (h : Recoverable n) :
    RecoveryComplete test (expandOptions n) := by
  intro ops gens cluster cluster' hmix hexecuted hfinal
  obtain ⟨hclock, hleader⟩ := h
  obtain ⟨hstart, hresume, hdel, hstop⟩ := mem_finalGenerator Node (expandOptions n)
  have hfault : ∀ fault, cluster' fault = true → fault.Permitted (expandOptions n) ∧
      ∀ op ∈ finalGenerator (expandOptions n), ∃ subset, cures test subset op fault = false := by
    intro fault hfault
    obtain ⟨hbefore, huncured⟩ := uncured_of_fault hfinal
      (fun op hop subset => finalGenerator_causes hop test subset fault) hfault
    have hpermitted := (permitted_of_run hmix (permitted_mixedGenerator _)).2
    exact ⟨permitted_of_invokes hexecuted hpermitted hbefore, huncured⟩
  refine ⟨fun process node hnode => ⟨?_, ?_⟩, fun scheduler => ?_, ?_, fun node hnode => ?_⟩
  · by_contra hkilled
    obtain ⟨hon, huncured⟩ := hfault _ (Bool.not_eq_false _ ▸ hkilled)
    obtain ⟨subset, hcures⟩ := huncured _ (hstart process hon)
    simp [cures, processNodes, hnode] at hcures
  · by_contra hpaused
    obtain ⟨hon, huncured⟩ := hfault _ (Bool.not_eq_false _ ▸ hpaused)
    obtain ⟨subset, hcures⟩ := huncured _ (hresume process hon)
    simp [cures, processNodes, hnode] at hcures
  · by_contra hadded
    obtain ⟨hon, huncured⟩ := hfault _ (Bool.not_eq_false _ ▸ hadded)
    obtain ⟨subset, hcures⟩ := huncured _ (hdel scheduler hon)
    simp [cures] at hcures
  · by_contra hpartitioned
    obtain ⟨⟨type, hon⟩, huncured⟩ := hfault _ (Bool.not_eq_false _ ▸ hpartitioned)
    -- another partition than that of the PD leader is an option, too
    have hother : ∃ type', type' ≠ .pdLeader ∧
        expandOptions n (.partitionType type') = true := by
      by_cases htype : type = .pdLeader
      · subst htype
        simp only [expandOptions_partitionType, Bool.or_eq_true] at hon ⊢
        have hany : n .partition = true ∨ n (.partitionType .singleNode) = true ∨
            n (.partitionType .half) = true ∨ n (.partitionType .ring) = true :=
          hon.elim Or.inl hleader
        rcases hany with hall | hone | hhalf | hring
        · exact ⟨.ring, PartitionType.noConfusion, Or.inl hall⟩
        · exact ⟨.singleNode, PartitionType.noConfusion, Or.inr hone⟩
        · exact ⟨.half, PartitionType.noConfusion, Or.inr hhalf⟩
        · exact ⟨.ring, PartitionType.noConfusion, Or.inr hring⟩
      · exact ⟨type, htype, hon⟩
    obtain ⟨type', htype', hon'⟩ := hother
    obtain ⟨subset, hcures⟩ := huncured _ (hstop type' htype' hon')
    simp [cures] at hcures
  · by_contra hskewed
    have hon := (hfault _ (Bool.not_eq_false _ ▸ hskewed)).1
    rw [Fault.Permitted, expandOptions_clockSkew, hclock] at hon
    cases hon

/-- Where recovery is complete, a final operation ends what the mix has just brought about. -/
theorem RecoveryComplete.exists_cures {test : Nodes Node} {n : Options}
    (h : RecoveryComplete test n) {ops : List (Op Node)} {gens gens' : List Gen} {op : Op Node}
    (hmix : Run (MixEmits test) (mixedGenerator n) ops gens) (hlast : MixEmits test gens op gens')
    (fault : Fault Node) (hcauses : causes test test.nodes op fault = true)
    (hclean : ∀ cluster, Clean test cluster → cluster fault = false) :
    ∃ op' ∈ finalGenerator n, ∃ subset, cures test subset op' fault = true := by
  by_contra hnone
  obtain ⟨cluster, hprior⟩ := exists_invokes test (fun _ => false) ops
  have hall : RandomSubset test test.nodes := ⟨test.nonempty, List.Subset.refl _⟩
  have hexecuted := hprior.snoc (l := op) ⟨test.nodes, hall, rfl⟩
  obtain ⟨cluster', hfinal⟩ :=
    exists_invokes test (invoke test test.nodes cluster op) (finalGenerator n)
  have hfault : invoke test test.nodes cluster op fault = true := by
    rw [invoke, hcauses, Bool.true_or]
  have hstays : cluster' fault = true := fault_of_uncured hfinal
    (fun op' hop' subset => Bool.eq_false_iff.mpr fun hcures => hnone ⟨op', hop', subset, hcures⟩)
    hfault
  rw [hclean cluster' (h _ _ _ _ (hmix.snoc hlast) hexecuted hfinal)] at hstays
  cases hstays

/-- The final operations do not end a clock skew. -/
theorem clockSkew_of_recoveryComplete {test : Nodes Node} {n : Options}
    (h : RecoveryComplete test n) : n .clockSkew = false := by
  by_contra hskew
  have hon : n .clockSkew = true := Bool.eq_true_of_not_eq_false hskew
  have hclock : mixedGenerator n = (flipFlops n).filterMap id ++ [.clock false] := by
    simp [mixedGenerator, optMix, hon]
  obtain ⟨node, hnode⟩ := List.exists_mem_of_ne_nil _ test.nonempty
  have hsubset : RandomSubset test [node] :=
    ⟨List.cons_ne_nil _ _, List.cons_subset.mpr ⟨hnode, List.nil_subset _⟩⟩
  have hcheck : MixEmits test (mixedGenerator n) { f := .checkClockOffsets }
      ((flipFlops n).filterMap id ++ [.clock true]) :=
    ⟨_, _, [], _, hclock, .check, rfl⟩
  have hbump : MixEmits test ((flipFlops n).filterMap id ++ [.clock true])
      { f := .bumpClock, value := some [node] } ((flipFlops n).filterMap id ++ [.clock true]) :=
    ⟨_, _, [], _, rfl, .clock (by simp) hsubset, rfl⟩
  obtain ⟨op, hop, subset, hcures⟩ := h.exists_cures (Run.nil.snoc hcheck) hbump
    (.skewed node) (by simp [causes]) fun cluster hclean => hclean.2.2.2 node hnode
  rw [cures, (of_mem_finalGenerator hop).1] at hcures
  simp at hcures

/-- The final operations heal the network only if others than the PD leader are to be
isolated. -/
theorem exists_of_recoveryComplete {test : Nodes Node} {n : Options}
    (h : RecoveryComplete test n) (hleader : n (.partitionType .pdLeader) = true) :
    ∃ type, type ≠ .pdLeader ∧ n (.partitionType type) = true := by
  obtain ⟨mix, hflip, hmem⟩ : ∃ mix, some (Gen.flipFlop mix .stopPartition false) ∈ flipFlops n ∧
      F.startPartition .pdLeader ∈ mix := by
    have hgens : (Opt.partitionType .pdLeader, F.startPartition .pdLeader) ∈ partitionGens := by
      simp [partitionGens]
    obtain ⟨mix, hmix, hmem⟩ := optMix_of_mem hgens hleader
    refine ⟨mix, ?_, hmem⟩
    simp [flipFlops, o, hmix]
  have hgen : Gen.flipFlop mix .stopPartition false ∈ mixedGenerator n :=
    List.mem_append_left _ (List.mem_filterMap.mpr ⟨_, hflip, id_eq _⟩)
  obtain ⟨before, after, hgens⟩ := List.append_of_mem hgen
  have hstart : MixEmits test (mixedGenerator n) { f := .startPartition .pdLeader }
      (before ++ Gen.flipFlop mix .stopPartition true :: after) :=
    ⟨before, _, after, _, hgens, .fault hmem, rfl⟩
  obtain ⟨op, hop, subset, hcures⟩ := h.exists_cures .nil hstart .partitioned rfl
    fun cluster hclean => hclean.2.2.1
  obtain ⟨-, hf⟩ := of_mem_finalGenerator hop
  rw [cures, decide_eq_true_iff] at hcures
  simpa [hcures] using hf

/-- The final operations leave the cluster clean after whatever the mix emitted, if and only
if the options can be recovered from. -/
theorem recoveryComplete_iff (test : Nodes Node) (n : Options) :
    RecoveryComplete test (expandOptions n) ↔ Recoverable n := by
  refine ⟨fun h => ⟨?_, fun hleader => ?_⟩, recoveryComplete_of_recoverable⟩
  · rw [← expandOptions_clockSkew n]
    exact clockSkew_of_recoveryComplete h
  · have hexpanded : expandOptions n (.partitionType .pdLeader) = true := by
      rw [expandOptions_partitionType, hleader, Bool.or_true]
    obtain ⟨type, htype, hon⟩ := exists_of_recoveryComplete h hexpanded
    rw [expandOptions_partitionType, Bool.or_eq_true] at hon
    refine hon.imp_right fun hon => ?_
    cases type with
    | pdLeader => exact absurd rfl htype
    | singleNode => exact Or.inl hon
    | half => exact Or.inr (Or.inl hon)
    | ring => exact Or.inr (Or.inr hon)

/-- Two nodes. -/
def twoNodes : Nodes ℕ := ⟨[1, 2], List.cons_ne_nil _ _⟩

/-- Neither a partition of the PD leader alone nor a clock skew is recovered from. -/
theorem pdLeader_not_recovered :
    ¬ RecoveryComplete twoNodes
        (expandOptions fun option => decide (option = .partitionType .pdLeader)) ∧
      ¬ RecoveryComplete twoNodes (expandOptions fun option => decide (option = .clockSkew)) := by
  refine ⟨fun h => ?_, fun h => ?_⟩
  · obtain ⟨type, htype, hon⟩ := exists_of_recoveryComplete h rfl
    cases type with
    | pdLeader => exact htype rfl
    | _ => cases hon
  · cases clockSkew_of_recoveryComplete h

end Jepsen.Tidb
