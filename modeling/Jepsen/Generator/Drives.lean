/-
# Whole drives

What an environment does to a generator, one step after another. The interpreter is such an
environment: in each of its runs, whatever the interleaving, the generator it was given is
driven, and the operations that are adopted are those that the workers get.
-/

import Jepsen.Generator.Interpreter

namespace Jepsen.Generator

open Jepsen.History Jepsen.Library

universe u v

variable {γ : Type v} {V : Type u}

theorem Drive.emitted_append (drives drives' : List (Drive V)) :
    emitted (drives ++ drives') = emitted drives ++ emitted drives' := List.filterMap_append

@[simp]
theorem Drive.emitted_emit (drives : List (Drive V)) (ctx : Context) (o : Op V) :
    emitted (drives ++ [.emit ctx o]) = emitted drives ++ [o] := emitted_append _ _

@[simp]
theorem Drive.emitted_discard (drives : List (Drive V)) (ctx : Context) :
    emitted (drives ++ [.discard ctx]) = emitted drives :=
  (emitted_append _ _).trans (List.append_nil _)

@[simp]
theorem Drive.emitted_event (drives : List (Drive V)) (ctx : Context) (event : Op V) :
    emitted (drives ++ [.event ctx event]) = emitted drives :=
  (emitted_append _ _).trans (List.append_nil _)

/-- Nothing is adopted from an exhausted generator, and it stays exhausted. -/
theorem run_driven_none [Protocol γ V] {drives : List (Drive V)} {gen : Option γ}
    (hrun : Run Driven (none : Option γ) drives gen) : gen = none ∧ Drive.emitted drives = [] := by
  induction hrun with
  | nil => exact ⟨rfl, rfl⟩
  | snoc _ hlast ih =>
    obtain ⟨rfl, hnone⟩ := ih
    cases hlast with
    | emit oracle hoffered => cases hoffered
    | discard oracle hasked => exact ⟨rfl, (Drive.emitted_discard _ _).trans hnone⟩
    | event hupdated =>
      cases hupdated
      exact ⟨rfl, (Drive.emitted_event _ _ _).trans hnone⟩

/-- A generator that passes on the operations of another one, where `R` relates what was adopted
from the two and their states, has its drives answered by drives of the other. -/
theorem run_passes {ω : Type*} [Protocol ω V] [Protocol γ V]
    (R : List (Op V) → Option ω → List (Op V) → Option γ → Prop) {start : Option ω}
    {start' : Option γ} (hstart : R [] start [] start')
    (hop : ∀ {ops s own t oracle ctx o s'}, R ops s own t →
      op oracle s ctx = .ok (some (.op o, s')) →
      ∃ oracle' o' t', op oracle' t ctx = .ok (some (.op o', t')) ∧
        R (ops ++ [o]) s' (own ++ [o']) t')
    (hupdate : ∀ {ops s own t ctx event s'}, R ops s own t → update s ctx event = .ok s' →
      ∃ t', update t ctx event = .ok t' ∧ R ops s' own t')
    {drives : List (Drive V)} {s : Option ω} (hrun : Run Driven start drives s) :
    ∃ own t, Run Driven start' own t ∧ R (Drive.emitted drives) s (Drive.emitted own) t := by
  refine hrun.simulates (fun drives s own t => R (Drive.emitted drives) s (Drive.emitted own) t)
    hstart fun {drives s own t d s'} hR hstep => ?_
  cases hstep with
  | emit oracle hoffered =>
    obtain ⟨oracle', o', t', hoffered', hR'⟩ := hop hR hoffered
    refine ⟨_, t', Run.single (.emit oracle' hoffered'), ?_⟩
    rw [Drive.emitted_emit, Drive.emitted_emit]
    exact hR'
  | discard oracle hasked =>
    refine ⟨[], t, .nil, ?_⟩
    rw [Drive.emitted_discard, List.append_nil]
    exact hR
  | event hupdated =>
    obtain ⟨t', hupdated', hR'⟩ := hupdate hR hupdated
    refine ⟨_, t', Run.single (.event hupdated'), ?_⟩
    rw [Drive.emitted_event, Drive.emitted_event]
    exact hR'

namespace Interpreter

/-- A generator without the wrappers of the interpreter. -/
def core (gen : Option (Validate (FriendlyExceptions γ))) : Option γ :=
  (gen.bind Validate.gen).bind FriendlyExceptions.gen

/-- The operation that a step dispatched. -/
def Label.dispatch : Label V → Option (Op V)
  | .dispatched _ _ o => some o
  | _ => none

section Core

variable [Protocol γ V] {gen gen' : Option (Validate (FriendlyExceptions γ))} {ctx : Context}
  {o : Op V}

theorem op_core {oracle : Oracle} (hop : op oracle gen ctx = .ok (some (.op o, gen'))) :
    op oracle (core gen) ctx = .ok (some (.op o, core gen')) := by
  cases gen with
  | none => cases hop
  | some validated =>
    obtain ⟨friendly', hfriendly, rfl, -⟩ := Validate.op_eq_op hop
    obtain ⟨friendly⟩ := validated
    cases friendly with
    | none => cases hfriendly
    | some friendly =>
      obtain ⟨gen', hgen, rfl⟩ := FriendlyExceptions.op_eq_some hfriendly
      exact hgen

theorem update_core (hupdate : update gen ctx o = .ok gen') :
    update (core gen) ctx o = .ok (core gen') := by
  cases gen with
  | none =>
    cases hupdate
    rfl
  | some validated =>
    obtain ⟨friendly', hfriendly, rfl⟩ := Validate.update_eq_ok hupdate
    obtain ⟨friendly⟩ := validated
    cases friendly with
    | none =>
      cases hfriendly
      rfl
    | some friendly =>
      obtain ⟨gen', hgen, rfl⟩ := FriendlyExceptions.update_eq_ok hfriendly
      cases gen' with
      | none => exact hgen
      | some gen' => exact hgen

omit [Protocol γ V] in
theorem core_init (n : ℕ) (gen : Option γ) : core (State.init n gen : State γ V).gen = gen := by
  cases gen with
  | none => rfl
  | some gen => rfl

end Core

variable [Protocol γ V] {env : Env V} {s s' : State γ V}

theorem filterMap_singleton {α β : Type*} (f : α → Option β) (a : α) :
    [a].filterMap f = (f a).toList := by
  cases hf : f a with
  | none => exact List.filterMap_cons_none hf
  | some b => exact List.filterMap_cons_some hf

/-- A step of the interpreter does something to its generator, or nothing. -/
theorem Step.driven {l : Label V} (hstep : Step env s l s') :
    ∃ drives, Run Driven (core s.gen) drives (core s'.gen) ∧
      Drive.emitted drives = l.dispatch.toList := by
  cases hstep with
  | take thread hqueued hidle => exact ⟨[], .nil, rfl⟩
  | finish thread hbusy houtcome => exact ⟨[], .nil, rfl⟩
  | complete time hpolled hcomplete =>
    obtain ⟨thread, gen, ctx, -, hupdate, -, rfl⟩ := State.complete_eq_ok hcomplete
    exact ⟨_, Run.single (.event (update_core hupdate)), rfl⟩
  | wait oracle time hwait =>
    rw [State.generate_eq_waiting hwait]
    exact ⟨[], .nil, rfl⟩
  | dispatch oracle time hdispatch hexecutes =>
    obtain ⟨gen', hop, -, hnext⟩ := State.generate_eq_dispatched hdispatch
    obtain ⟨thread, gen, -, hupdate, rfl⟩ := State.dispatch_eq_ok hnext
    exact ⟨_, (Run.single (.emit oracle (op_core hop))).trans
      (Run.single (.event (update_core hupdate))), rfl⟩

/-- In every run of the interpreter its generator is driven, and what is adopted is what is
dispatched. -/
theorem run_driven {n : ℕ} {gen : Option γ} {labels : List (Label V)}
    (hrun : Run (Step env) (State.init n gen) labels s) :
    ∃ drives, Run Driven gen drives (core s.gen) ∧
      Drive.emitted drives = labels.filterMap Label.dispatch := by
  obtain ⟨drives, t, hdriven, rfl, hemitted⟩ := hrun.simulates
    (fun labels s drives t => t = core s.gen ∧
      Drive.emitted drives = labels.filterMap Label.dispatch)
    ⟨(core_init n gen).symm, rfl⟩ fun ⟨ht, hemitted⟩ hstep => by
      subst ht
      obtain ⟨more, hmore, hdispatch⟩ := Step.driven hstep
      refine ⟨more, _, hmore, rfl, ?_⟩
      rw [Drive.emitted_append, List.filterMap_append, hemitted, hdispatch, filterMap_singleton]
  exact ⟨drives, hdriven, hemitted⟩

end Interpreter

end Jepsen.Generator
