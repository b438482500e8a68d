/-
# Phases

`phases` gives the operations of one generator, then those of the next. Each of its generators
waits until all threads are free. A run of the interpreter therefore falls into segments, one for
each generator: what is dispatched in one segment completes in it, unless it is the last.
-/

import Jepsen.Generator.Limits

namespace Jepsen.Generator

open Jepsen.History Jepsen.Library
open Jepsen.Generator.Context Jepsen.Generator.Interpreter

universe u v

variable {γ : Type v} {V : Type u}

/-! ## The generators -/

/-- A generator that waits for all threads, `(defrecord Synchronize [gen])`, or the generator that
has replaced it. -/
inductive Synchronized (γ : Type v)
  | synchronize (gen : Option γ)
  | begun (gen : γ)

/-- The generator that waits or has begun. -/
def Synchronized.inner : Option (Synchronized γ) → Option γ
  | none => none
  | some (.synchronize gen) => gen
  | some (.begun gen) => some gen

/-- A generator as it comes, behind the one that waits. -/
def waiting (gen : γ) : Option (Synchronized γ) := some (.synchronize (some gen))

/-- A sequence of generators. A sequence of one acts as that one. -/
structure Sequence (γ : Type v) where
  gens : List (Option γ)

/-- `(phases & gens)` -/
def phases (gens : List (Option γ)) : Option (Sequence (Synchronized γ)) :=
  match gens.reduceOption with
  | [] => none
  | gens => some ⟨gens.map waiting⟩

section Protocols

variable [Protocol γ V]

/-- `Synchronize.op`, and `op` of what replaced it. -/
def Synchronized.op (oracle : Oracle) (this : Synchronized γ) (ctx : Context) :
    Except Thrown (Option (Answer V × Option (Synchronized γ))) :=
  let ask (gen : Option γ) := match Generator.op oracle gen ctx with
    | .error t => .error t
    | .ok none => .ok none
    | .ok (some (answer, gen')) => .ok (some (answer, gen'.map Synchronized.begun))
  match this with
  | .synchronize gen =>
      -- We're ready, replace ourselves with the generator
      if ctx.freeThreadCount = ctx.allThreadCount then ask gen
      -- Not yet
      else .ok (some (.pending, some this))
  | .begun gen => ask (some gen)

/-- `Synchronize.update`, and `update` of what replaced it. -/
def Synchronized.update (this : Synchronized γ) (ctx : Context) (event : Op V) :
    Except Thrown (Option (Synchronized γ)) :=
  match this with
  | .synchronize gen => passUpdate gen ctx event Synchronized.synchronize
  | .begun gen =>
      match Generator.update (some gen) ctx event with
      | .error t => .error t
      | .ok gen' => .ok (gen'.map Synchronized.begun)

instance : Protocol (Synchronized γ) V where
  op := Synchronized.op
  update := Synchronized.update

/-- Ask the generators of a sequence in turn for an operation. -/
def Sequence.ask (oracle : Oracle) (ctx : Context) : List (Option γ) →
    Except Thrown (Option (Answer V × Option (Sequence γ)))
  | [] => .ok none
  | gen :: rest =>
      match Generator.op (oracle.sub 0) gen ctx with
      | .error t => .error t
      -- This generator is exhausted; move on
      | .ok none => Sequence.ask (oracle.sub 1) ctx rest
      | .ok (some (answer, gen')) => .ok (some (answer, some ⟨gen' :: rest⟩))

/-- Updates are passed to the first generator in the sequence. -/
def Sequence.update (this : Sequence γ) (ctx : Context) (event : Op V) :
    Except Thrown (Option (Sequence γ)) :=
  match this.gens with
  | [] => .ok none
  | gen :: rest => passUpdate gen ctx event fun gen' => ⟨gen' :: rest⟩

instance : Protocol (Sequence γ) V where
  op oracle this ctx := Sequence.ask oracle ctx this.gens
  update := Sequence.update

/-! ## What each of them does -/

theorem Synchronized.op_eq_op {oracle : Oracle} {this next : Option (Synchronized γ)}
    {ctx : Context} {o : Op V}
    (hop : Generator.op oracle this ctx = .ok (some (.op o, next))) :
    Generator.op oracle (inner this) ctx = .ok (some (.op o, inner next)) ∧
      ∀ gen, this = some (.synchronize gen) → ctx.freeThreadCount = ctx.allThreadCount := by
  have hinner : ∀ gen' : Option γ, inner (gen'.map Synchronized.begun) = gen' := fun gen' => by
    cases gen' <;> rfl
  cases this with
  | none => cases hop
  | some this =>
    change Synchronized.op oracle this ctx = _ at hop
    cases this with
    | synchronize gen =>
      simp only [Synchronized.op] at hop
      split_ifs at hop with hfree
      · refine ⟨?_, fun _ _ => hfree⟩
        split at hop
        · cases hop
        · cases hop
        · rename_i answer gen' hgen
          cases hop
          rw [hinner]
          exact hgen
      · cases hop
    | begun gen =>
      simp only [Synchronized.op] at hop
      refine ⟨?_, fun gen hgen => by cases hgen⟩
      split at hop
      · cases hop
      · cases hop
      · rename_i answer gen' hgen
        cases hop
        rw [hinner]
        exact hgen

theorem Synchronized.update_eq_ok {this next : Option (Synchronized γ)} {ctx : Context}
    {event : Op V} (hupdate : Generator.update this ctx event = .ok next) :
    Generator.update (inner this) ctx event = .ok (inner next) := by
  cases this with
  | none =>
    cases hupdate
    rfl
  | some this =>
    change Synchronized.update this ctx event = _ at hupdate
    cases this with
    | synchronize gen =>
      obtain ⟨gen', hgen, rfl⟩ := passUpdate_eq_ok hupdate
      exact hgen
    | begun gen =>
      simp only [Synchronized.update] at hupdate
      split at hupdate
      · cases hupdate
      · rename_i gen' hgen
        cases hupdate
        refine hgen.trans (congrArg Except.ok ?_)
        cases gen' <;> rfl

/-- An operation of a sequence is that of its first generator that is not exhausted. -/
theorem Sequence.op_eq_op {oracle : Oracle} {gens : List (Option γ)} {ctx : Context} {o : Op V}
    {next : Option (Sequence γ)}
    (hop : Generator.op oracle (some (⟨gens⟩ : Sequence γ)) ctx = .ok (some (.op o, next))) :
    ∃ oracle' skipped gen rest gen', gens = skipped ++ gen :: rest ∧
      Generator.op oracle' gen ctx = .ok (some (.op o, gen')) ∧ next = some ⟨gen' :: rest⟩ := by
  change Sequence.ask oracle ctx gens = _ at hop
  induction gens generalizing oracle with
  | nil => cases hop
  | cons gen rest ih =>
    unfold Sequence.ask at hop
    split at hop
    · cases hop
    · obtain ⟨oracle', skipped, gen', rest', gen'', rfl, hgen, hnext⟩ := ih hop
      exact ⟨oracle', gen :: skipped, gen', rest', gen'', rfl, hgen, hnext⟩
    · rename_i answer gen' hgen
      cases hop
      exact ⟨_, [], gen, rest, gen', rfl, hgen, rfl⟩

theorem Sequence.update_eq_ok {gen : Option γ} {rest : List (Option γ)} {ctx : Context}
    {event : Op V} {next : Option (Sequence γ)}
    (hupdate : Generator.update (some (⟨gen :: rest⟩ : Sequence γ)) ctx event = .ok next) :
    ∃ gen', Generator.update gen ctx event = .ok gen' ∧ next = some ⟨gen' :: rest⟩ :=
  passUpdate_eq_ok hupdate

end Protocols

/-! ## Segments of a run -/

/-- The completion that a step polled. -/
def Interpreter.Label.completion : Label V → Option (Op V)
  | .completed _ o => some o
  | _ => none

/-- As many completions were polled as operations were dispatched. -/
def Settled (segment : List (Label V)) : Prop :=
  (segment.filterMap Label.dispatch).length = (segment.filterMap Label.completion).length

theorem settled_append {first second : List (Label V)} (hfirst : Settled first) :
    Settled (first ++ second) ↔ Settled second := by
  unfold Settled at hfirst ⊢
  rw [List.filterMap_append, List.filterMap_append, List.length_append, List.length_append, hfirst]
  exact Nat.add_left_cancel_iff

theorem settled_flatten {segments : List (List (Label V))}
    (hsegments : ∀ segment ∈ segments, Settled segment) : Settled segments.flatten := by
  induction segments with
  | nil => rfl
  | cons segment segments ih =>
    obtain ⟨hfirst, hrest⟩ := List.forall_mem_cons.mp hsegments
    exact (settled_append hfirst).mpr (ih hrest)

variable [Protocol γ V]

/-- What is dispatched is what a drive of the generator emits. -/
def Yields (gen : γ) (segment : List (Label V)) : Prop :=
  ∃ own t, Run Driven (some gen) own t ∧ Drive.emitted own = segment.filterMap Label.dispatch

omit [Protocol γ V] in
/-- Generators that have not begun have empty segments. -/
theorem eq_nil_of_mem_map {gens : List γ} {segment : List (Label V)}
    (hsegment : segment ∈ gens.map fun _ => ([] : List (Label V))) : segment = [] := by
  obtain ⟨_, -, rfl⟩ := List.mem_map.mp hsegment
  rfl

theorem forall₂_yields_nil (gens : List γ) :
    List.Forall₂ Yields gens (gens.map fun _ => ([] : List (Label V))) :=
  List.forall₂_map_right_iff.mpr
    (List.forall₂_same.mpr fun gen _ => ⟨[], some gen, .nil, rfl⟩)

namespace Interpreter

variable {env : Env V} {n : ℕ}

/-- What is outstanding has been dispatched and not been polled. -/
theorem outstanding_run {gen : Option γ} {labels : List (Label V)} {s : State γ V}
    (hrun : Run (Step env) (State.init n gen) labels s) :
    s.outstanding = ((labels.filterMap Label.dispatch).length : ℤ) -
      (labels.filterMap Label.completion).length := by
  induction hrun with
  | nil => rfl
  | snoc _ hlast ih =>
    rw [List.filterMap_append, List.filterMap_append, filterMap_singleton, filterMap_singleton,
      List.length_append, List.length_append, Nat.cast_add, Nat.cast_add, ← sub_add_sub_comm, ← ih]
    cases hlast with
    | take thread hqueued hidle => exact (add_zero _).symm
    | finish thread hbusy houtcome => exact (add_zero _).symm
    | complete time hpolled hcomplete =>
      obtain ⟨thread, gen, ctx, -, -, -, rfl⟩ := State.complete_eq_ok hcomplete
      rfl
    | wait oracle time hwait =>
      rw [State.generate_eq_waiting hwait]
      exact (add_zero _).symm
    | dispatch oracle time hdispatch hexecutes =>
      obtain ⟨gen', -, -, hnext⟩ := State.generate_eq_dispatched hdispatch
      obtain ⟨thread, gen, -, -, rfl⟩ := State.dispatch_eq_ok hnext
      rfl

/-- A point of a run: some generators are done, one is at work, the others have not begun. -/
structure Phased (gens : List γ) (labels : List (Label V))
    (s : State (Sequence (Synchronized γ)) V) (finished : List γ) (past : List (List (Label V)))
    (gen : γ) (current : List (Label V)) (this : Option (Synchronized γ)) (todo : List γ) :
    Prop where
  gens : gens = finished ++ gen :: todo
  labels : labels = past.flatten ++ current
  state : core s.gen = some ⟨this :: todo.map waiting⟩
  finished : List.Forall₂ Yields finished past
  settled : ∀ segment ∈ past, Settled segment
  current : ∃ own, Run Driven (some gen) own (Synchronized.inner this) ∧
    Drive.emitted own = current.filterMap Label.dispatch

/-- A step that does something to the generator at work, or nothing. -/
theorem Phased.extend {gens : List γ} {labels : List (Label V)}
    {s s' : State (Sequence (Synchronized γ)) V} {finished : List γ}
    {past : List (List (Label V))} {gen : γ} {current : List (Label V)}
    {this this' : Option (Synchronized γ)} {todo : List γ}
    (h : Phased gens labels s finished past gen current this todo) {l : Label V}
    {more : List (Drive V)} (hstate : core s'.gen = some ⟨this' :: todo.map waiting⟩)
    (hmore : Run Driven (Synchronized.inner this) more (Synchronized.inner this'))
    (hemitted : Drive.emitted more = l.dispatch.toList) :
    Phased gens (labels ++ [l]) s' finished past gen (current ++ [l]) this' todo where
  gens := h.gens
  labels := by rw [h.labels, List.append_assoc]
  state := hstate
  finished := h.finished
  settled := h.settled
  current := by
    obtain ⟨own, hown, hdispatched⟩ := h.current
    refine ⟨own ++ more, hown.trans hmore, ?_⟩
    rw [Drive.emitted_append, List.filterMap_append, hdispatched, hemitted, filterMap_singleton]

/-- With nothing in flight a later generator may begin. -/
theorem Phased.begin {gens : List γ} {labels : List (Label V)}
    {s s' : State (Sequence (Synchronized γ)) V} {finished : List γ}
    {past : List (List (Label V))} {gen : γ} {current : List (Label V)}
    {this this' : Option (Synchronized γ)} {skipped : List γ} {next : γ} {todo : List γ}
    (h : Phased gens labels s finished past gen current this (skipped ++ next :: todo))
    (hsettled : Settled labels) {l : Label V} {own : List (Drive V)}
    (hstate : core s'.gen = some ⟨this' :: todo.map waiting⟩)
    (hown : Run Driven (some next) own (Synchronized.inner this'))
    (hemitted : Drive.emitted own = l.dispatch.toList) :
    Phased gens (labels ++ [l]) s' (finished ++ gen :: skipped)
      (past ++ current :: skipped.map fun _ => []) next [l] this' todo where
  gens := by rw [h.gens, List.append_assoc, List.cons_append]
  labels := by
    have hnone : (skipped.map fun _ => ([] : List (Label V))).flatten = [] :=
      List.flatten_eq_nil_iff.mpr fun _ => eq_nil_of_mem_map
    rw [h.labels, List.flatten_append, List.flatten_cons, hnone, List.append_nil]
  state := hstate
  finished := by
    obtain ⟨own, hown, hdispatched⟩ := h.current
    exact List.rel_append h.finished (.cons ⟨own, _, hown, hdispatched⟩ (forall₂_yields_nil _))
  settled := by
    intro segment hsegment
    rcases List.mem_append.mp hsegment with hpast | hlater
    · exact h.settled segment hpast
    · rcases List.mem_cons.mp hlater with rfl | hskipped
      · rw [h.labels] at hsettled
        exact (settled_append (settled_flatten h.settled)).mp hsettled
      · rw [eq_nil_of_mem_map hskipped]
        rfl
  current := ⟨own, hown, by rw [filterMap_singleton, hemitted]⟩

/-- The generator at work goes on, or nothing is in flight and a later one begins. -/
theorem Phased.step {gens : List γ} {labels : List (Label V)}
    {s s' : State (Sequence (Synchronized γ)) V} {finished : List γ}
    {past : List (List (Label V))} {gen : γ} {current : List (Label V)}
    {this : Option (Synchronized γ)} {todo : List γ} {l : Label V}
    (h : Phased gens labels s finished past gen current this todo) (htr : Tracked n s)
    (hsettled : s.outstanding = 0 → Settled labels) (hstep : Step env s l s') :
    ∃ finished past gen current this todo,
      Phased gens (labels ++ [l]) s' finished past gen current this todo := by
  cases hstep with
  | take thread hqueued hidle => exact ⟨_, _, _, _, _, _, h.extend h.state .nil rfl⟩
  | finish thread hbusy houtcome => exact ⟨_, _, _, _, _, _, h.extend h.state .nil rfl⟩
  | wait oracle time hwait =>
    rw [State.generate_eq_waiting hwait]
    exact ⟨_, _, _, _, _, _, h.extend h.state .nil rfl⟩
  | complete time hpolled hcomplete =>
    obtain ⟨thread, gen, ctx, -, hupdate, -, rfl⟩ := State.complete_eq_ok hcomplete
    have hcore := update_core hupdate
    rw [h.state] at hcore
    obtain ⟨this', hthis, hstate⟩ := Sequence.update_eq_ok hcore
    exact ⟨_, _, _, _, _, _,
      h.extend hstate (Run.single (.event (Synchronized.update_eq_ok hthis))) rfl⟩
  | dispatch oracle time hdispatch hexecutes =>
    obtain ⟨gen', hop, -, hnext⟩ := State.generate_eq_dispatched hdispatch
    obtain ⟨thread, gen, -, hupdate, rfl⟩ := State.dispatch_eq_ok hnext
    have hcore := op_core hop
    rw [h.state] at hcore
    obtain ⟨oracle', skipped, asked, rest, offered, hgens, hasked, hstate⟩ :=
      Sequence.op_eq_op hcore
    have htold := update_core hupdate
    rw [hstate] at htold
    obtain ⟨told, htold, hstate'⟩ := Sequence.update_eq_ok htold
    obtain ⟨hinner, hwaits⟩ := Synchronized.op_eq_op hasked
    have hmore := (Run.single (Driven.emit oracle' hinner)).trans
      (Run.single (Driven.event (Synchronized.update_eq_ok htold)))
    cases skipped with
    | nil =>
      -- The generator at work has an operation.
      obtain ⟨rfl, rfl⟩ := List.cons.inj hgens
      exact ⟨_, _, _, _, _, _, h.extend hstate' hmore rfl⟩
    | cons first skipped =>
      -- It is exhausted: the generator that has an operation has waited for all threads.
      obtain ⟨-, hlater⟩ := List.cons.inj hgens
      obtain ⟨before, after, rfl, rfl, hafter⟩ := List.map_eq_append_iff.mp hlater
      obtain ⟨next, todo, rfl, rfl, rfl⟩ := List.map_eq_cons_iff.mp hafter
      have hquiet : s.outstanding = 0 := by
        rw [htr.outstanding_eq time, hwaits _ rfl, sub_self]
      exact ⟨_, _, _, _, _, _, h.begin (hsettled hquiet) hstate' hmore rfl⟩

theorem phased_run {gen : γ} {gens : List γ} {labels : List (Label V)}
    {s : State (Sequence (Synchronized γ)) V}
    (hrun : Run (Step env)
      (State.init n (some ⟨waiting gen :: gens.map waiting⟩)) labels s) :
    ∃ finished past current' current this todo,
      Phased (gen :: gens) labels s finished past current' current this todo := by
  induction hrun with
  | nil =>
    exact ⟨[], [], gen, [], waiting gen, gens, rfl, rfl, core_init _ _, .nil,
      fun segment hsegment => absurd hsegment List.not_mem_nil, [], .nil, rfl⟩
  | snoc hprior hlast ih =>
    obtain ⟨finished, past, current', current, this, todo, h⟩ := ih
    refine h.step (tracked_run hprior) (fun hquiet => ?_) hlast
    rw [outstanding_run hprior, sub_eq_zero, Nat.cast_inj] at hquiet
    exact hquiet

/-- Nothing happens in a run without a generator. -/
theorem labels_eq_nil {labels : List (Label V)} {s : State γ V}
    (hrun : Run (Step env) (State.init n (none : Option γ)) labels s) : labels = [] := by
  have hinit : labels = [] ∧ s = State.init n none := by
    induction hrun with
    | nil => exact ⟨rfl, rfl⟩
    | snoc _ hlast ih =>
      obtain ⟨-, rfl⟩ := ih
      cases hlast with
      | take thread hqueued hidle => cases hqueued
      | finish thread hbusy houtcome => cases hbusy
      | complete time hpolled hcomplete => cases hpolled
      | wait oracle time hwait => cases hwait
      | dispatch oracle time hdispatch hexecutes => cases hdispatch
  exact hinit.1

end Interpreter

end Jepsen.Generator
