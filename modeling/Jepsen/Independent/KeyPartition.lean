/-
# Every key has one group

Positions of the key sequence are handed out in order, each to one group, and
what is emitted for a position is a run of that position's own generator: an
offer that was not the soonest leaves no trace. That the operations are also
performed by the position's group needs the key's generator to name processes of
the threads it was asked about, which nothing enforces.
-/

import Jepsen.Independent.TracedInvariant

namespace Jepsen.Independent

open Jepsen.Generator Jepsen.Generator.Context Jepsen.Generator.Interpreter
open Jepsen.History Jepsen.Library
open Stream' (Seq)

universe u v w

/-! ## Generators that stay on their threads -/

/-- However it is driven, the generator only emits operations for processes of
threads in the context it is asked in. -/
def NamesOwnThreads {γ : Type w} {V : Type u} [Protocol γ V] (gen : Option γ) : Prop :=
  ∀ drives gen', Run Driven gen drives gen' →
    ∀ oracle c ctx (o : Op V) next, WellFormed c ctx →
      op oracle gen' ctx = .ok (some (.op o, next)) →
      ∃ thread ∈ ctx.allThreads, ctx.threadToProcess thread = some o.process

/-- A map that leaves `:process` out is given a free one. -/
theorem OpMap.namesOwnThreads {V : Type u} {gen : OpMap V} (hprocess : gen.process = none) :
    NamesOwnThreads (some gen) := by
  intro drives gen' hrun oracle c ctx o next hwf hop
  have hstays : gen' = some gen ∨ gen' = none := by
    refine hrun.invariant (fun gen' => gen' = some gen ∨ gen' = none) (Or.inl rfl) ?_
    intro s l t hs hdriven
    cases hdriven with
    | discard => exact hs
    | emit oracle hoffered =>
      rcases hs with rfl | rfl
      · change OpMap.op oracle gen _ = _ at hoffered
        unfold OpMap.op at hoffered
        split at hoffered <;> cases hoffered
        exact Or.inr rfl
      · cases hoffered
    | event hupdated =>
      rcases hs with rfl | rfl <;> cases hupdated
      · exact Or.inl rfl
      · exact Or.inr rfl
  rcases hstays with rfl | rfl
  · change OpMap.op oracle gen ctx = _ at hop
    unfold OpMap.op OpMap.fillInOp at hop
    cases hfree : ctx.someFreeProcess with
    | none =>
      rw [hfree] at hop
      cases hop
    | some p =>
      rw [hfree] at hop
      cases hop
      obtain ⟨thread, hthread, hexecutes, -⟩ := hwf.someFreeProcess_first hfree
      obtain ⟨hmem, hbit⟩ := hwf.mem_freeThreads_iff.mp hthread
      refine ⟨thread, hwf.mem_allThreads_iff.mpr ⟨hmem, hwf.free_subset hbit⟩, ?_⟩
      rw [hexecutes, hprocess]
      rfl
  · cases hop

theorem namesOwnThreads_nil {γ : Type w} {V : Type u} [Protocol γ V] :
    NamesOwnThreads (none : Option γ) := by
  intro drives gen' hrun oracle c ctx o next _ hop
  have hnil : gen' = none := by
    refine hrun.invariant (fun gen' => gen' = none) rfl ?_
    rintro s l t rfl hdriven
    cases hdriven with
    | discard => rfl
    | emit oracle hoffered => cases hoffered
    | event hupdated =>
      cases hupdated
      rfl
  rw [hnil] at hop
  cases hop

variable {K : Type u} {A : Type v} {γ : Type w} [Protocol γ (Value K A)]

/-- Under the lifting of its values, a key's generator makes a run of its own. -/
theorem exists_run_of_tupleGen {k : K} {gen : Option γ} {drives : List (Drive (Value K A))}
    {lifted : Option (Map γ (Value K A))} (hrun : Run Driven (tupleGen k gen) drives lifted) :
    lifted = none ∨ ∃ gen' drives', lifted = some ⟨liftOp k, gen'⟩ ∧
      Run Driven gen drives' gen' := by
  induction hrun with
  | nil =>
    cases gen with
    | none => exact Or.inl rfl
    | some g => exact Or.inr ⟨some g, [], rfl, .nil⟩
  | snoc _ hlast ih =>
    rcases ih with rfl | ⟨gen', drives', rfl, hrun'⟩
    · cases hlast with
      | discard => exact Or.inl rfl
      | emit oracle hoffered => cases hoffered
      | event hupdated =>
        cases hupdated
        exact Or.inl rfl
    · cases hlast with
      | discard => exact Or.inr ⟨gen', drives', rfl, hrun'⟩
      | emit oracle hoffered =>
        obtain ⟨o₀, gen₀, hgen, -, rfl⟩ := Map.op_eq_ok hoffered
        exact Or.inr ⟨gen₀, _, rfl, .snoc hrun' (.emit oracle hgen)⟩
      | @event _ ctx o hupdated =>
        change Map.update ⟨liftOp k, gen'⟩ ctx o = _ at hupdated
        unfold Map.update at hupdated
        split at hupdated
        · cases hupdated
        · rename_i gen₀ hgen
          cases hupdated
          exact Or.inr ⟨gen₀, _, rfl, .snoc hrun' (.event hgen)⟩

/-- What a key's generator offers is lifted to the key. -/
theorem Progress.offer {fgen : K → Option γ} {k : K} {emitted : List (Op (Value K A))}
    {gen next : Option (Map γ (Value K A))} {oracle : Oracle} {ctx : Context}
    {o : Op (Value K A)} (hprogress : Progress fgen k emitted gen)
    (hop : op oracle gen ctx = .ok (some (.op o, next))) :
    (o.type = .invoke → ∃ v, o.value = .tuple k v) ∧
      (NamesOwnThreads (fgen k) → ∀ c, WellFormed c ctx →
        ∃ thread ∈ ctx.allThreads, ctx.threadToProcess thread = some o.process) := by
  obtain ⟨drives, hrun, -⟩ := hprogress
  rcases exists_run_of_tupleGen hrun with rfl | ⟨gen', drives', rfl, hrun'⟩
  · cases hop
  · obtain ⟨o₀, gen₀, hgen, rfl, -⟩ := Map.op_eq_ok hop
    constructor
    · intro hinvoke
      exact ⟨o₀.value, liftOp_value k o₀ ctx (by simpa using hinvoke)⟩
    · intro hown c hwf
      rw [liftOp_process]
      exact hown drives' gen' hrun' oracle c ctx o₀ gen₀ hwf hgen

/-! ## Notes and labels -/

/-- The emissions in the notes. -/
def emissions {V : Type u} (notes : List (Note V)) : List (ℕ × Name × Op V) :=
  notes.filterMap fun
    | .emitted position thread o => some (position, thread, o)
    | _ => none

/-- The operations the interpreter dispatched, with their threads. -/
def dispatchedOps {V : Type u} (labels : List (Label V)) : List (Name × Op V) :=
  labels.filterMap fun
    | .dispatched thread _ o => some (thread, o)
    | _ => none

@[simp]
theorem emissions_append {V : Type u} (notes notes' : List (Note V)) :
    emissions (notes ++ notes') = emissions notes ++ emissions notes' :=
  List.filterMap_append

@[simp]
theorem emissions_map_took {V : Type u} (taken : List ℕ) :
    emissions (taken.map .took : List (Note V)) = [] := by
  induction taken with
  | nil => rfl
  | cons group taken ih => exact ih

section Deliveries

omit [Protocol γ (Value K A)]

@[simp]
theorem emissions_deliveries (gen : ConcurrentGenerator K A γ)
    (notes : List (Note (Value K A))) (thread : Name) (event : Op (Value K A)) :
    emissions (gen.deliveries notes thread event) = [] := by
  unfold ConcurrentGenerator.deliveries
  repeat' split
  all_goals rfl

@[simp]
theorem given_deliveries (gen : ConcurrentGenerator K A γ)
    (notes : List (Note (Value K A))) (thread : Name) (event : Op (Value K A)) :
    given (gen.deliveries notes thread event) = [] := by
  unfold ConcurrentGenerator.deliveries
  repeat' split
  all_goals rfl

end Deliveries

/-- A position stays with its group. -/
theorem getElem?_given_append {V : Type u} {notes : List (Note V)} {position group : ℕ}
    (hgiven : (given notes)[position]? = some group) (new : List (Note V)) :
    (given (notes ++ new))[position]? = some group := by
  rw [given_append, List.getElem?_append_left (List.getElem?_eq_some_iff.mp hgiven).1]
  exact hgiven

section Runs

variable {c n : ℕ} {n_pos : 0 < n} {keys : Seq K} {fgen : K → Option γ}
  {env : Env (Value K A)}

/-- Every dispatch is an emission, in the same order. -/
theorem dispatchedOps_eq {labels : List (Label (Value K A))} {t : Traced K A γ}
    (hrun : Run (TracedStep env) (.init c n n_pos keys fgen) labels t) :
    dispatchedOps labels = (emissions t.notes).map Prod.snd := by
  induction hrun with
  | nil => rfl
  | @snoc labels t t' l _ hlast ih =>
    have happend : dispatchedOps (labels ++ [l]) = dispatchedOps labels ++ dispatchedOps [l] :=
      List.filterMap_append
    rw [happend, ih]
    cases hlast with
    | quiet step hquiet =>
      have hnone : dispatchedOps [l] = [] := by
        cases l with
        | completed => cases hquiet
        | dispatched => cases hquiet
        | _ => rfl
      rw [hnone, List.append_nil]
    | completed step executes receives holds =>
      rw [emissions_append, emissions_deliveries, List.append_nil]
      exact List.append_nil _
    | dispatched step passes emits receives holds =>
      cases emits with
      | intro =>
        simp only [emissions_append, emissions_deliveries, emissions_map_took, List.append_nil,
          List.nil_append, List.map_append]
        rfl

/-! ## Emissions come from the group's own threads -/

/-- An emission for a position of the notes: tagged with its key, and performed
by a thread of the group that was given the position. -/
structure FromGroup (c n : ℕ) (keys : Seq K) (notes : List (Note (Value K A)))
    (position : ℕ) (thread : Name) (o : Op (Value K A)) : Prop where
  tagged : ∃ k, keys.get? position = some k ∧
    (o.type = .invoke → ∃ v, o.value = .tuple k v)
  performed : ∃ i < c, thread = .int i ∧ (given notes)[position]? = some (i / n)

theorem FromGroup.append {notes : List (Note (Value K A))} {position : ℕ} {thread : Name}
    {o : Op (Value K A)} (hfrom : FromGroup c n keys notes position thread o)
    (new : List (Note (Value K A))) : FromGroup c n keys (notes ++ new) position thread o := by
  obtain ⟨i, hi, hthread, hgiven⟩ := hfrom.performed
  exact ⟨hfrom.tagged, i, hi, hthread, getElem?_given_append hgiven new⟩

omit [Protocol γ (Value K A)] in
/-- The thread of a process a group's generator may name. -/
theorem thread_of_group (hn : 0 < n) {groups : Groups K A γ}
    (hgrouped : Grouped n (clientThreads c) groups) {ctx : Context} (hwhole : Whole c ctx)
    {group : ℕ} {contextFilter : Context → Context}
    (hview : groups.groupToContextFilter[group]? = some contextFilter) :
    WellFormed c (contextFilter (clientView ctx)) ∧
      ∀ thread ∈ (contextFilter (clientView ctx)).allThreads,
        (contextFilter (clientView ctx)).threadToProcess thread = ctx.threadToProcess thread ∧
          ∃ i < c, thread = .int i ∧ i / n = group := by
  rw [hgrouped.groupToContextFilter, List.getElem?_map, Option.map_eq_some_iff] at hview
  obtain ⟨part, hpart, rfl⟩ := hview
  have hwf := (wellFormed_clientView hwhole).makeThreadFilter
    (fun thread => decide (thread ∈ part)) (clientView ctx)
  refine ⟨hwf, ?_⟩
  intro thread hthread
  refine ⟨rfl, ?_⟩
  obtain ⟨hmem, hbit⟩ := hwf.mem_allThreads_iff.mp hthread
  obtain ⟨hpartBit, -⟩ := Finset.mem_inter.mp hbit
  have hpred := (Finset.mem_filter.mp hpartBit).2
  have hname : (clientView ctx).translationTable.indexToName
      ((testTable c).nameToIndex (some thread)) = some thread := by
    have htable : (clientView ctx).translationTable = testTable c := hwhole.wf.table
    rw [htable]
    exact indexToName_testTable_iff.mpr ⟨hmem, rfl⟩
  rw [hname] at hpred
  have hin : thread ∈ part := by simpa using hpred
  obtain ⟨i, hi, hgroup⟩ := (mem_of_getElem?_partition hn hpart).mp hin
  obtain ⟨hlt, rfl⟩ := getElem?_clientThreads.mp hi
  exact ⟨i, hlt, rfl, hgroup⟩

/-- The emission that a call adds to the notes. -/
theorem Accounts.fromGroup {gen gen' : ConcurrentGenerator K A γ}
    {notes new : List (Note (Value K A))} {ctx : Context} {thread : Name}
    {o : Op (Value K A)} (hacc : Accounts c n fgen keys gen notes) (hwhole : Whole c ctx)
    (hown : ∀ k, NamesOwnThreads (fgen k))
    (hexecutes : ctx.processToThread o.process = some thread)
    (hemits : gen.Emits notes (clientView ctx) thread o gen' new) :
    ∃ position, emissions new = [(position, thread, o)] ∧
      FromGroup c n keys (notes ++ new) position thread o := by
  have hn : 0 < n := hacc.size ▸ gen.n_pos
  cases hemits with
  | @intro groups taken keys' gens' offers offer position hasked hmade hworking =>
    obtain ⟨hgrouped, hserved, rest, order, hnodup, -, hwalk⟩ := hacc.asked hwhole hasked
    obtain ⟨sub, contextFilter, oracle, -, hcurrent, hview, hanswer⟩ :=
      hwalk.offer hnodup hmade
    have hposition : positionOf
        (given (notes ++ (gen.initial groups ++ taken).map .took)) offer.group =
          some position := by
      rw [given_append, given_map_took, ← List.append_assoc]
      exact hworking
    have hgiven := getElem?_of_positionOf hposition
    obtain ⟨k, sub', hk, hprogress, hstate⟩ := hserved.progress position offer.group hgiven
    have hsub : sub' = sub := by
      rcases hstate with ⟨-, hnone⟩ | ⟨-, hlive⟩
      · rw [hnone hposition] at hcurrent
        obtain rfl := Option.some.inj hcurrent
        cases hanswer
      · exact Option.some.inj (hlive.symm.trans hcurrent)
    rw [hsub] at hprogress
    obtain ⟨htagged, hnames⟩ := hprogress.offer hanswer
    obtain ⟨hwf, hthreads⟩ := thread_of_group hn hgrouped hwhole hview
    obtain ⟨t, ht, hprocess⟩ := hnames (hown k) c hwf
    obtain ⟨hsame, i, hi, rfl, hgroup⟩ := hthreads t ht
    rw [hsame] at hprocess
    have hthread : thread = .int i := by
      have hmem : Name.int i ∈ (testTable c).allNames :=
        mem_testTable_allNames.mpr (Or.inl ⟨i, hi, rfl⟩)
      exact Option.some.inj (hexecutes.symm.trans ((hwhole.wf.inverse _ _).mpr ⟨hmem, hprocess⟩))
    refine ⟨position, ?_, ⟨k, hk, htagged⟩, i, hi, hthread, ?_⟩
    · simp only [emissions_append, emissions_map_took, List.nil_append]
      rfl
    · rw [← List.append_assoc]
      apply getElem?_given_append
      rw [hgroup]
      exact hgiven

theorem fromGroup_of_run (hown : ∀ k, NamesOwnThreads (fgen k))
    {labels : List (Label (Value K A))} {t : Traced K A γ}
    (hrun : Run (TracedStep env) (.init c n n_pos keys fgen) labels t) {position : ℕ}
    {thread : Name} {o : Op (Value K A)} (hemission : (position, thread, o) ∈ emissions t.notes) :
    FromGroup c n keys t.notes position thread o := by
  induction hrun with
  | nil => cases hemission
  | snoc hprior hlast ih =>
    have hcons := Traced.consistent_of_run hprior
    cases hlast with
    | quiet step hquiet => exact ih hemission
    | completed step executes receives holds =>
      rw [emissions_append, emissions_deliveries, List.append_nil] at hemission
      exact (ih hemission).append _
    | @dispatched time o' thread' s' gen₁ gen' new step passes emits receives holds =>
      have hexecutes := step.thread_of_dispatched
      obtain ⟨position', hnew, hfrom⟩ :=
        hcons.accounts.fromGroup (hcons.whole.withTime time) hown hexecutes emits
      rw [emissions_append, emissions_deliveries, List.append_nil, emissions_append, hnew,
        List.mem_append, List.mem_singleton] at hemission
      rcases hemission with hold | heq
      · rw [List.append_assoc]
        exact (ih hold).append _
      · cases heq
        exact hfrom.append _

/-! ## The partition of the keys -/

/-- What the notes `notes` of a run say about its labels, and about the generator
`gen` it leads to. -/
structure Partitioned (c n : ℕ) (keys : Seq K) (fgen : K → Option γ)
    (labels : List (Label (Value K A))) (gen : ConcurrentGenerator K A γ)
    (notes : List (Note (Value K A))) : Prop where
  /-- Every dispatched operation was emitted for one position. -/
  dispatched : dispatchedOps labels = (emissions notes).map Prod.snd
  /-- The positions given away are the first ones of the sequence. -/
  remaining : gen.keys = keys.drop (given notes).length
  fromGroup : ∀ position thread o, (position, thread, o) ∈ emissions notes →
    FromGroup c n keys notes position thread o
  /-- What was emitted for a position is what its own generator produced. -/
  progress : ∀ position group, (given notes)[position]? = some group →
    ∃ k sub, keys.get? position = some k ∧ Progress fgen k (emittedBy position notes) sub
  /-- A group holds the generator of the last position it was given. -/
  current : ∀ groups group sub, gen.groups = some groups →
    groups.gens[group]? = some (some sub) →
    ∃ position k, positionOf (given notes) group = some position ∧
      keys.get? position = some k ∧ Progress fgen k (emittedBy position notes) (some sub)

theorem Accounts.current {gen : ConcurrentGenerator K A γ} {notes : List (Note (Value K A))}
    (hacc : Accounts c n fgen keys gen notes) {groups : Groups K A γ} {group : ℕ}
    {sub : Map γ (Value K A)} (hgroups : gen.groups = some groups)
    (hcurrent : groups.gens[group]? = some (some sub)) :
    ∃ position k, positionOf (given notes) group = some position ∧
      keys.get? position = some k ∧ Progress fgen k (emittedBy position notes) (some sub) := by
  rcases hacc.groups with ⟨hnone, -, -⟩ | ⟨groups', hgroups', -, hserved⟩
  · rw [hnone] at hgroups
    cases hgroups
  · obtain rfl := Option.some.inj (hgroups'.symm.trans hgroups)
    obtain ⟨position, hposition⟩ := hserved.owned _ _ hcurrent
    obtain ⟨k, sub', hk, hprogress, hstate⟩ :=
      hserved.progress position group (getElem?_of_positionOf hposition)
    refine ⟨position, k, hposition, hk, ?_⟩
    rcases hstate with ⟨-, hnone⟩ | ⟨-, hlive⟩
    · rw [hnone hposition] at hcurrent
      cases hcurrent
    · rw [Option.some.inj (hcurrent.symm.trans hlive)]
      exact hprogress

/-- In every run, keys go to one group each, in order, and the operations tagged
with a key are performed by its group and are a run of its own generator. -/
theorem concurrentGenerator_partitioned (hown : ∀ k, NamesOwnThreads (fgen k))
    {labels : List (Label (Value K A))}
    {s : State (OnThreads (ConcurrentGenerator K A γ)) (Value K A)}
    (hrun : Run (Step env) (State.init c (concurrentGenerator n n_pos keys fgen)) labels s) :
    ∃ gen notes, s.gen = wrapped gen ∧
      Run (TracedStep env) (.init c n n_pos keys fgen) labels ⟨s, gen, notes⟩ ∧
      Partitioned c n keys fgen labels gen notes := by
  obtain ⟨⟨s', gen, notes⟩, rfl, htraced⟩ := exists_traced hrun
  have hcons := Traced.consistent_of_run htraced
  refine ⟨gen, notes, hcons.holds, htraced, ?_⟩
  constructor
  · exact dispatchedOps_eq htraced
  · rcases hcons.accounts.groups with ⟨-, hkeys, hnotes⟩ | ⟨groups, -, -, hserved⟩
    · rw [hkeys, show notes = [] from hnotes]
      rfl
    · exact hserved.rest
  · intro position thread o hemission
    exact fromGroup_of_run hown htraced hemission
  · intro position group hgiven
    rcases hcons.accounts.groups with ⟨-, -, hnotes⟩ | ⟨groups, -, -, hserved⟩
    · rw [show notes = [] from hnotes] at hgiven
      cases hgiven
    · obtain ⟨k, sub, hk, hprogress, -⟩ := hserved.progress position group hgiven
      exact ⟨k, sub, hk, hprogress⟩
  · intro groups group sub hgroups hcurrent
    exact hcons.accounts.current hgroups hcurrent

end Runs

/-- A map that reads, for the process given. -/
def reads {K : Type u} {A : Type v} (process : Option Name) : OpMap (Value K A) :=
  { f := some "read", value := .nil, process := process }

/-- One client reads the only key. -/
theorem concurrentGenerator_partitioned_reads :
    ∃ labels s gen notes, labels.length = 1 ∧ s.gen = wrapped gen ∧
      Run (TracedStep (Env.returns : Env (Value ℕ ℕ)))
        (.init 1 1 Nat.one_pos (Seq.ofList [7]) fun _ => some (reads none)) labels
        ⟨s, gen, notes⟩ ∧
      Partitioned 1 1 (Seq.ofList [7]) (fun _ => some (reads none)) labels gen notes := by
  have hrun : ∃ (labels : List (Label (Value ℕ ℕ)))
      (s : State (OnThreads (ConcurrentGenerator ℕ ℕ (OpMap (Value ℕ ℕ)))) (Value ℕ ℕ)),
      labels.length = 1 ∧
      Run (Step Env.returns) (State.init 1 (concurrentGenerator 1 Nat.one_pos (Seq.ofList [7])
        fun _ => some (reads none))) labels s := by
    refine ⟨_, _, ?length, .snoc .nil (.dispatch ⟨1, fun _ => 0⟩ 0 rfl rfl)⟩
    case length => rfl
  obtain ⟨labels, s, hlength, hrun⟩ := hrun
  obtain ⟨gen, notes, hgen, htraced, hpartitioned⟩ :=
    concurrentGenerator_partitioned (fun _ => OpMap.namesOwnThreads rfl) hrun
  exact ⟨labels, s, gen, notes, hlength, hgen, htraced, hpartitioned⟩

/-- The generator of key 7 names process 1. Its operation is performed by thread
1, which is in the other group, the one that was given key 8. -/
theorem read_by_other_group :
    ∃ (o : Op (Value ℕ ℕ))
      (s : State (OnThreads (ConcurrentGenerator ℕ ℕ (OpMap (Value ℕ ℕ)))) (Value ℕ ℕ))
      (gen : ConcurrentGenerator ℕ ℕ (OpMap (Value ℕ ℕ)))
      (groups : Groups ℕ ℕ (OpMap (Value ℕ ℕ))),
      Run (Step Env.returns) (State.init 2 (concurrentGenerator 1 Nat.one_pos
        (Seq.ofList [7, 8]) fun _ => some (reads (some (.int 1)))))
        [.dispatched (.int 1) 0 o] s ∧
      o.value = .tuple 7 .nil ∧ s.gen = wrapped gen ∧ gen.groups = some groups ∧
      groups.gens = [some ⟨liftOp 7, none⟩, some ⟨liftOp 8, some (reads (some (.int 1)))⟩] ∧
      groups.threadToGroup = [(.int 0, 0), (.int 1, 1)] := by
  refine ⟨_, _, _, _, .snoc .nil (.dispatch ⟨2, fun _ => 0⟩ 0 rfl rfl), ?_, rfl, rfl, ?_, ?_⟩
  · rfl
  · rfl
  · rfl

end Jepsen.Independent
