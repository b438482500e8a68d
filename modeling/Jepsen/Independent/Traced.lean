/-
# Runs with notes

A run of the interpreter whose generator is a `concurrent-generator`, together
with the notes of what happened to each key position. The notes are an auxiliary
variable: every run has them (`exists_traced`), and no step reads them.
-/

import Jepsen.Independent.ClientView
import Jepsen.Independent.Ledger

namespace Jepsen.Independent

open Jepsen.Generator Jepsen.Generator.Context Jepsen.Generator.Interpreter
open Jepsen.History Jepsen.Library
open Stream' (Seq)

universe u v w

variable {K : Type u} {A : Type v} {γ : Type w}

/-! ## Through the wrappers -/

/-- The generator as the interpreter holds it. -/
def wrapped (gen : ConcurrentGenerator K A γ) :
    Option (Validate (FriendlyExceptions (OnThreads (ConcurrentGenerator K A γ)))) :=
  some ⟨some ⟨some ⟨allBut .nemesis, some gen⟩⟩⟩

namespace ConcurrentGenerator

/-- The groups that are given keys when the fields are initialised. -/
def initial (this : ConcurrentGenerator K A γ) (groups : Groups K A γ) : List ℕ :=
  match this.groups with
  | some _ => []
  | none => List.range (this.keys.take groups.gens.length).length

/-- What the generator of the thread's group receives when the generator is told
of an event of `thread`. -/
def deliveries (this : ConcurrentGenerator K A γ) (notes : List (Note (Value K A)))
    (thread : Name) (event : Op (Value K A)) : List (Note (Value K A)) :=
  match this.groups with
  | none => []
  | some groups =>
      match groups.threadToGroup.lookup thread with
      | none => []
      | some group =>
          match groups.gens[group]?, positionOf (given notes) group with
          | some (some _), some position => [.delivered position thread event]
          | _, _ => []

variable [Protocol γ (Value K A)]

/-- An adopted operation, and the notes of the call that offered it. -/
inductive Emits (this : ConcurrentGenerator K A γ) (notes : List (Note (Value K A)))
    (ctx : Context) (thread : Name) (o : Op (Value K A)) :
    ConcurrentGenerator K A γ → List (Note (Value K A)) → Prop
  | intro {groups : Groups K A γ} {taken : List ℕ} {keys' : Seq K} {gens' : Gens K A γ}
      {offers : List (Answer (Value K A) × Offer K A γ)} {offer : Offer K A γ} {position : ℕ}
      (asked : this.Asked ctx groups taken keys' gens' offers)
      (made : (Answer.op o, offer) ∈ offers)
      (working : positionOf (given notes ++ this.initial groups ++ taken) offer.group =
        some position) :
      Emits this notes ctx thread o
        { this with
          groups := some { groups with gens := gens'.set offer.group offer.gen' }
          keys := keys' }
        ((this.initial groups ++ taken).map .took ++ [.emitted position thread o])

/-- `clients` passes on the events of client threads. -/
def Receives (this : ConcurrentGenerator K A γ) (ctx : Context) (thread : Name)
    (event : Op (Value K A)) (this' : ConcurrentGenerator K A γ) : Prop :=
  if thread = .nemesis then this' = this
  else this.update (clientView ctx) event = .ok (some this')

theorem update_eq_ok {this : ConcurrentGenerator K A γ} {ctx : Context}
    {event : Op (Value K A)} {next : Option (ConcurrentGenerator K A γ)}
    (hupdate : this.update ctx event = .ok next) :
    ∃ groups thread group v gen gen', this.groups = some groups ∧
      ctx.processToThread event.process = some thread ∧
      groups.threadToGroup.lookup thread = some group ∧ event.value.val = .ok v ∧
      groups.gens[group]? = some gen ∧
      Generator.update gen ctx { event with value := v } = .ok gen' ∧
      next = some { this with
        groups := some { groups with gens := groups.gens.set group gen' } } := by
  unfold update at hupdate
  split at hupdate
  · cases hupdate
  · rename_i groups hgroups
    simp only at hupdate
    split at hupdate
    · cases hupdate
    · rename_i v hv
      split at hupdate
      · cases hupdate
      · rename_i group hgroup
        obtain ⟨thread, hthread, hlookup⟩ := Option.bind_eq_some_iff.mp hgroup
        split at hupdate
        · cases hupdate
        · rename_i gen hgen
          split at hupdate
          · cases hupdate
          · rename_i gen' hgen'
            exact ⟨groups, thread, group, v, gen, gen', hgroups, hthread, hlookup, hv, hgen,
              hgen', (Except.ok.inj hupdate).symm⟩

end ConcurrentGenerator

variable [Protocol γ (Value K A)]

/-- The wrappers offer what the generator offers in the clients' context. -/
theorem op_wrapped {oracle : Oracle} {gen : ConcurrentGenerator K A γ} {ctx : Context}
    {o : Op (Value K A)}
    {next : Option (Validate (FriendlyExceptions (OnThreads (ConcurrentGenerator K A γ))))}
    (hop : op oracle (wrapped gen) ctx = .ok (some (.op o, next))) :
    ∃ gen', gen.op oracle (clientView ctx) = .ok (some (.op o, some gen')) ∧
      next = wrapped gen' ∧ Validate.problems ctx o = [] := by
  obtain ⟨next₁, hfriendly, rfl, hproblems⟩ := Validate.op_eq_op hop
  obtain ⟨next₂, hthreads, rfl⟩ := FriendlyExceptions.op_eq_some hfriendly
  obtain ⟨next₃, hgen, rfl⟩ := OnThreads.op_eq_some hthreads
  obtain ⟨groups, taken, keys', gens', offers, offer, -, -, rfl⟩ :=
    ConcurrentGenerator.op_eq_op hgen
  exact ⟨_, hgen, rfl, hproblems⟩

/-- The wrappers answer `nil` when the generator does. -/
theorem op_wrapped_nil {oracle : Oracle} {gen : ConcurrentGenerator K A γ} {ctx : Context}
    (hop : op oracle (wrapped gen) ctx = .ok none) :
    gen.op oracle (clientView ctx) = .ok none :=
  OnThreads.op_eq_none (FriendlyExceptions.op_eq_none (Validate.op_eq_none hop))

/-- The wrappers hand client events on. -/
theorem update_wrapped {gen : ConcurrentGenerator K A γ} {ctx : Context}
    {event : Op (Value K A)} {thread : Name}
    {next : Option (Validate (FriendlyExceptions (OnThreads (ConcurrentGenerator K A γ))))}
    (hthread : ctx.processToThread event.process = some thread)
    (hupdate : update (wrapped gen) ctx event = .ok next) :
    ∃ gen', gen.Receives ctx thread event gen' ∧ next = wrapped gen' := by
  obtain ⟨next₁, hfriendly, rfl⟩ := Validate.update_eq_ok hupdate
  obtain ⟨next₂, hthreads, rfl⟩ := FriendlyExceptions.update_eq_ok hfriendly
  unfold ConcurrentGenerator.Receives
  rcases OnThreads.update_eq_ok hthread hthreads with ⟨hf, rfl⟩ | ⟨hf, next₃, hgen, rfl⟩
  · have hnemesis : thread = .nemesis := by simpa [allBut] using hf
    exact ⟨gen, (if_pos hnemesis).mpr rfl, rfl⟩
  · have hclient : thread ≠ .nemesis := by simpa [allBut] using hf
    obtain ⟨groups, t, group, v, sub, sub', -, -, -, -, -, -, rfl⟩ :=
      ConcurrentGenerator.update_eq_ok hgen
    exact ⟨_, (if_neg hclient).mpr hgen, rfl⟩

/-! ## Steps with notes -/

/-- A state of the interpreter, the generator in it, and the notes so far. -/
structure Traced (K : Type u) (A : Type v) (γ : Type w) where
  state : State (OnThreads (ConcurrentGenerator K A γ)) (Value K A)
  gen : ConcurrentGenerator K A γ
  notes : List (Note (Value K A))

/-- The labels of steps that do not touch the generator. -/
def Quiet {V : Type u} : Label V → Prop
  | .completed _ _ => False
  | .dispatched _ _ _ => False
  | _ => True

/-- One step of the interpreter, with what it adds to the notes. -/
inductive TracedStep (env : Env (Value K A)) :
    Traced K A γ → Label (Value K A) → Traced K A γ → Prop
  | quiet {t : Traced K A γ} {l : Label (Value K A)}
      {s' : State (OnThreads (ConcurrentGenerator K A γ)) (Value K A)}
      (step : Step env t.state l s') (quiet : Quiet l) :
      TracedStep env t l { t with state := s' }
  | completed {t : Traced K A γ} {time : ℤ} {o : Op (Value K A)} {thread : Name}
      {s' : State (OnThreads (ConcurrentGenerator K A γ)) (Value K A)}
      {gen' : ConcurrentGenerator K A γ}
      (step : Step env t.state (.completed time o) s')
      (executes : t.state.ctx.processToThread o.process = some thread)
      (receives : t.gen.Receives (t.state.ctx.freeThread time thread) thread
        (t.state.stamp time o) gen') (holds : s'.gen = wrapped gen') :
      TracedStep env t (.completed time o)
        ⟨s', gen', t.notes ++ t.gen.deliveries t.notes thread o⟩
  | dispatched {t : Traced K A γ} {time : ℤ} {o : Op (Value K A)} {thread : Name}
      {s' : State (OnThreads (ConcurrentGenerator K A γ)) (Value K A)}
      {gen₁ gen' : ConcurrentGenerator K A γ} {new : List (Note (Value K A))}
      (step : Step env t.state (.dispatched thread time o) s')
      (passes : Validate.problems (t.state.ctx.withTime time) o = [])
      (emits : t.gen.Emits t.notes (clientView (t.state.ctx.withTime time)) thread o gen₁ new)
      (receives : gen₁.Receives ((t.state.ctx.withTime time).busyThread o.time thread) thread
        (t.state.indexed o) gen') (holds : s'.gen = wrapped gen') :
      TracedStep env t (.dispatched thread time o)
        ⟨s', gen', t.notes ++ new ++ gen₁.deliveries (t.notes ++ new) thread o⟩

/-- Where a run with notes starts. -/
def Traced.init (c n : ℕ) (n_pos : 0 < n) (keys : Seq K) (fgen : K → Option γ) :
    Traced K A γ :=
  ⟨State.init c (concurrentGenerator n n_pos keys fgen), .init n n_pos keys fgen, []⟩

theorem TracedStep.step {env : Env (Value K A)} {t t' : Traced K A γ}
    {l : Label (Value K A)} (hstep : TracedStep env t l t') : Step env t.state l t'.state := by
  cases hstep with
  | quiet step => exact step
  | completed step => exact step
  | dispatched step => exact step

end Jepsen.Independent
