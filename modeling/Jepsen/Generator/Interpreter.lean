/-
# The interpreter

`run!` is one loop and one worker per thread. The loop hands invocations to
workers through their in-queues and takes completions from one shared queue;
each worker takes an operation from its in-queue, carries it out and puts the
completion on the shared queue. A step of the system is a step of the loop or of
one worker, so a run is an arbitrary interleaving of them.

The queues are unbounded here. That the source's bounded queues never fill up is
a theorem, not an assumption.
-/

import Jepsen.Generator.Validate

namespace Jepsen.Generator.Interpreter

open Jepsen.History Jepsen.Library

universe u v

/-- Which of the two calls to `append-to-big-vector-block!` journaled an
operation. -/
inductive Role
  | invocation
  | completion
  deriving DecidableEq

/-- A journaled operation. -/
structure Entry (V : Type u) where
  role : Role
  op : Op V
  deriving DecidableEq

/-- `goes-in-history?` -/
def goesInHistory {V : Type u} (o : Op V) : Bool :=
  match o.type with
  | .sleep => false
  | .log => false
  | _ => true

/-! ## Workers -/

/-- What decides whether the two operations a worker carries out by itself
return: whether `(Thread/sleep (long (* 1000 v)))` does, and whether `(info v)`
does. -/
structure Env (V : Type u) where
  sleeps : V → Bool
  logs : V → Bool

/-- Every sleep and every log message returns. -/
def Env.returns {V : Type u} : Env V := ⟨fun _ => true, fun _ => true⟩

/-- The crash handler's completion. -/
def crash {V : Type u} (o : Op V) (message : String) : Op V :=
  { o with type := .info, error := some ("indeterminate: " ++ message) }

/-- The completion of a client that could not be opened. -/
def noClient {V : Type u} (o : Op V) (message : String) : Op V :=
  { o with type := .fail, error := some message }

/-- Completion types the client and nemesis validators accept. -/
def completionTypes : Name → List OpType
  | .int _ => [.ok, .info, .fail]
  | .keyword _ => [.info]

/-- `spawn-worker`: the completions a worker may put on the queue for an
operation it took. -/
inductive Outcome {V : Type u} (env : Env V) (thread : Name) (o : Op V) : Op V → Prop
  | slept (type : o.type = .sleep) (returns : env.sleeps o.value = true) :
      Outcome env thread o o
  | sleepCrashed (type : o.type = .sleep) (throws : env.sleeps o.value = false)
      (message : String) : Outcome env thread o (crash o message)
  | logged (type : o.type = .log) (returns : env.logs o.value = true) :
      Outcome env thread o o
  | logCrashed (type : o.type = .log) (throws : env.logs o.value = false)
      (message : String) : Outcome env thread o (crash o message)
  | invoked {o' : Op V} (handled : o.type ∉ [OpType.sleep, .log, .exit])
      (type : o'.type ∈ completionTypes thread) (process : o'.process = o.process)
      (f : o'.f = o.f) : Outcome env thread o o'
  | notOpened (handled : o.type ∉ [OpType.sleep, .log, .exit])
      (client : thread.isInteger = true) (message : String) :
      Outcome env thread o (noClient o message)
  | crashed (handled : o.type ∉ [OpType.sleep, .log, .exit]) (message : String) :
      Outcome env thread o (crash o message)

/-! ## The loop -/

/-- The loop's variables, the queues, and what each worker is carrying out. -/
structure State (γ : Type v) (V : Type u) where
  ctx : Context
  gen : Option (Validate (FriendlyExceptions γ))
  /-- Index of the next op in the history. -/
  opIndex : ℕ
  /-- Number of in-flight ops. -/
  outstanding : ℤ
  invocations : Name → List (Op V)
  working : Name → Option (Op V)
  completions : List (Op V)
  history : List (Entry V)

variable {γ : Type v} {V : Type u}

/-- The state in which the loop starts. -/
def State.init (concurrency : ℕ) (gen : Option γ) : State γ V where
  ctx := Context.context concurrency
  gen := validate (friendlyExceptions gen)
  opIndex := 0
  outstanding := 0
  invocations := fun _ => []
  working := fun _ => none
  completions := []
  history := []

/-- Append an operation to the history if it goes there. -/
def journal (role : Role) (o : Op V) (history : List (Entry V)) : List (Entry V) :=
  if goesInHistory o then history ++ [⟨role, o⟩] else history

/-- The index of the operation after `o`. -/
def nextIndex (o : Op V) (opIndex : ℕ) : ℕ :=
  if goesInHistory o then opIndex + 1 else opIndex

/-- The process of a crashed thread, or of one that asks for a new process, is
replaced. -/
def replaceProcess (ctx : Context) (thread : Name) (o : Op V) : Option Context :=
  if thread ≠ .nemesis ∧ (o.type = .info ∨ o.endProcess = true) then
    ctx.withNextProcess thread
  else some ctx

/-- The operation the loop journals for a completion it polled. -/
def State.stamp (s : State γ V) (time : ℤ) (polled : Op V) : Op V :=
  { polled with index := s.opIndex, time := time }

/-- The invocation the loop journals for an operation it was offered. -/
def State.indexed (s : State γ V) (o : Op V) : Op V := { o with index := s.opIndex }

@[simp] theorem State.stamp_process (s : State γ V) (time : ℤ) (o : Op V) :
    (s.stamp time o).process = o.process := rfl

@[simp] theorem goesInHistory_stamp (s : State γ V) (time : ℤ) (o : Op V) :
    goesInHistory (s.stamp time o) = goesInHistory o := rfl

@[simp] theorem State.indexed_process (s : State γ V) (o : Op V) :
    (s.indexed o).process = o.process := rfl

@[simp] theorem goesInHistory_indexed (s : State γ V) (o : Op V) :
    goesInHistory (s.indexed o) = goesInHistory o := rfl

theorem State.stamp_thread {s : State γ V} {time : ℤ} {o : Op V} {thread other : Name}
    (hexecutes : s.ctx.processToThread o.process = some thread) :
    (s.ctx.freeThread time other).processToThread (s.stamp time o).process = some thread :=
  hexecutes

theorem State.indexed_thread {s : State γ V} {time : ℤ} {o : Op V} {thread other : Name}
    (hexecutes : s.ctx.processToThread o.process = some thread) :
    ((s.ctx.withTime time).busyThread o.time other).processToThread (s.indexed o).process =
      some thread :=
  hexecutes

/-- The `recur` after a completion. -/
def State.afterCompletion (s : State γ V) (o : Op V) (rest : List (Op V)) (ctx : Context)
    (gen : Option (Validate (FriendlyExceptions γ))) : State γ V :=
  { s with
    ctx := ctx
    gen := gen
    opIndex := nextIndex o s.opIndex
    outstanding := s.outstanding - 1
    completions := rest
    history := journal .completion o s.history }

/-- The `recur` after a dispatch. -/
def State.afterDispatch (s : State γ V) (o : Op V) (thread : Name) (ctx : Context)
    (gen : Option (Validate (FriendlyExceptions γ))) : State γ V :=
  { s with
    ctx := ctx
    gen := gen
    opIndex := nextIndex o s.opIndex
    outstanding := s.outstanding + 1
    invocations := Function.update s.invocations thread (s.invocations thread ++ [o])
    history := journal .invocation o s.history }

variable [Protocol γ V]

/-- The branch of the loop that polled a completion. -/
def State.complete (s : State γ V) (time : ℤ) (polled : Op V) (rest : List (Op V)) :
    Except Thrown (State γ V) :=
  match s.ctx.processToThread polled.process with
  | none => .error .nullPointer
  | some thread =>
      let o := s.stamp time polled
      let ctx := s.ctx.freeThread time thread
      match update s.gen ctx o with
      | .error t => .error t
      | .ok gen =>
          match replaceProcess ctx thread o with
          | none => .error .indexOutOfBounds
          | some ctx => .ok (s.afterCompletion o rest ctx gen)

/-- How the branch of the loop that asks the generator ends. -/
inductive Turn (γ : Type v) (V : Type u)
  /-- Exhausted with nothing outstanding: the workers are told to exit. -/
  | done
  /-- Nothing to do until a completion arrives or time passes. -/
  | waiting (next : State γ V)
  | dispatched (op : Op V) (next : State γ V)

/-- Journal an invocation, hand it to its worker, and tell the generator. -/
def State.dispatch (s : State γ V) (ctx : Context) (o : Op V)
    (gen' : Option (Validate (FriendlyExceptions γ))) : Except Thrown (State γ V) :=
  match ctx.processToThread o.process with
  | none => .error .nullPointer
  | some thread =>
      let o := s.indexed o
      let ctx := ctx.busyThread o.time thread
      match update gen' ctx o with
      | .error t => .error t
      | .ok gen => .ok (s.afterDispatch o thread ctx gen)

/-- The branch of the loop that found no completion and asks the generator. -/
def State.generate (s : State γ V) (oracle : Oracle) (time : ℤ) :
    Except Thrown (Turn γ V) :=
  let ctx := s.ctx.withTime time
  match op oracle s.gen ctx with
  | .error t => .error t
  | .ok none =>
      if 0 < s.outstanding then .ok (.waiting { s with ctx := ctx }) else .ok .done
  | .ok (some (.pending, _)) => .ok (.waiting { s with ctx := ctx })
  | .ok (some (.op o, gen')) =>
      -- An op from the future: neither it nor the next generator is kept.
      if time < o.time then .ok (.waiting { s with ctx := ctx })
      else
        match s.dispatch ctx o gen' with
        | .error t => .error t
        | .ok next => .ok (.dispatched o next)

/-! ## Steps -/

/-- What a step did. -/
inductive Label (V : Type u)
  | taken (thread : Name) (op : Op V)
  | finished (thread : Name) (op completion : Op V)
  | completed (time : ℤ) (op : Op V)
  | waited
  | dispatched (thread : Name) (time : ℤ) (op : Op V)

/-- One step of the loop or of one worker. The generator is asked whenever the
loop likes, which covers a poll that timed out just before a completion
arrived. -/
inductive Step (env : Env V) : State γ V → Label V → State γ V → Prop
  | take {s : State γ V} (thread : Name) {o : Op V} {rest : List (Op V)}
      (queued : s.invocations thread = o :: rest) (idle : s.working thread = none) :
      Step env s (.taken thread o) { s with
        invocations := Function.update s.invocations thread rest
        working := Function.update s.working thread (some o) }
  | finish {s : State γ V} (thread : Name) {o o' : Op V}
      (busy : s.working thread = some o) (outcome : Outcome env thread o o') :
      Step env s (.finished thread o o') { s with
        working := Function.update s.working thread none
        completions := s.completions ++ [o'] }
  | complete {s s' : State γ V} (time : ℤ) {o : Op V} {rest : List (Op V)}
      (polled : s.completions = o :: rest) (completes : s.complete time o rest = .ok s') :
      Step env s (.completed time o) s'
  | wait {s s' : State γ V} (oracle : Oracle) (time : ℤ)
      (waits : s.generate oracle time = .ok (.waiting s')) : Step env s .waited s'
  | dispatch {s s' : State γ V} {thread : Name} {o : Op V} (oracle : Oracle) (time : ℤ)
      (dispatches : s.generate oracle time = .ok (.dispatched o s'))
      (executes : s.ctx.processToThread o.process = some thread) :
      Step env s (.dispatched thread time o) s'

/-! ## What one step of the loop can do -/

theorem Step.thread_of_dispatched {env : Env V} {s s' : State γ V} {thread : Name} {time : ℤ}
    {o : Op V} (hstep : Step env s (.dispatched thread time o) s') :
    s.ctx.processToThread o.process = some thread := by
  cases hstep with
  | dispatch oracle _ hdispatch hexecutes => exact hexecutes

/-- A completion frees its thread, tells the generator, replaces the process if
it must, and journals. -/
theorem State.complete_eq_ok {s s' : State γ V} {time : ℤ} {polled : Op V}
    {rest : List (Op V)} (hcomplete : s.complete time polled rest = .ok s') :
    ∃ thread gen ctx,
      s.ctx.processToThread polled.process = some thread ∧
      update s.gen (s.ctx.freeThread time thread) (s.stamp time polled) = .ok gen ∧
      replaceProcess (s.ctx.freeThread time thread) thread (s.stamp time polled) = some ctx ∧
      s' = s.afterCompletion (s.stamp time polled) rest ctx gen := by
  unfold State.complete at hcomplete
  cases hthread : s.ctx.processToThread polled.process with
  | none => simp [hthread] at hcomplete
  | some thread =>
      simp only [hthread] at hcomplete
      split at hcomplete
      · cases hcomplete
      · rename_i gen hgen
        split at hcomplete
        · cases hcomplete
        · rename_i ctx hctx
          cases hcomplete
          exact ⟨thread, gen, ctx, rfl, hgen, hctx, rfl⟩

/-- A dispatch marks the thread busy, tells the generator it was asked with, and
journals. -/
theorem State.dispatch_eq_ok {s s' : State γ V} {ctx : Context} {o : Op V}
    {gen' : Option (Validate (FriendlyExceptions γ))}
    (hdispatch : s.dispatch ctx o gen' = .ok s') :
    ∃ thread gen,
      ctx.processToThread o.process = some thread ∧
      update gen' (ctx.busyThread o.time thread) (s.indexed o) = .ok gen ∧
      s' = s.afterDispatch (s.indexed o) thread
        (ctx.busyThread o.time thread) gen := by
  unfold State.dispatch at hdispatch
  cases hthread : ctx.processToThread o.process with
  | none => simp [hthread] at hdispatch
  | some thread =>
      simp only [hthread] at hdispatch
      split at hdispatch
      · cases hdispatch
      · rename_i gen hgen
        cases hdispatch
        exact ⟨thread, gen, rfl, hgen, rfl⟩

/-- Waiting only moves the clock. -/
theorem State.generate_eq_waiting {s s' : State γ V} {oracle : Oracle} {time : ℤ}
    (hwait : s.generate oracle time = .ok (.waiting s')) :
    s' = { s with ctx := s.ctx.withTime time } := by
  unfold State.generate at hwait
  simp only at hwait
  split at hwait
  · cases hwait
  · split at hwait <;> cases hwait
    rfl
  · cases hwait
    rfl
  · split at hwait
    · cases hwait
      rfl
    · split at hwait <;> cases hwait

/-- A dispatched operation was offered by the generator, is due, and passed
validation. -/
theorem State.generate_eq_dispatched {s s' : State γ V} {oracle : Oracle} {time : ℤ}
    {o : Op V} (hdispatch : s.generate oracle time = .ok (.dispatched o s')) :
    ∃ gen', op oracle s.gen (s.ctx.withTime time) = .ok (some (.op o, gen')) ∧
      o.time ≤ time ∧ s.dispatch (s.ctx.withTime time) o gen' = .ok s' := by
  unfold State.generate at hdispatch
  simp only at hdispatch
  split at hdispatch
  · cases hdispatch
  · split at hdispatch <;> cases hdispatch
  · cases hdispatch
  · rename_i o' gen' hop
    split at hdispatch
    · cases hdispatch
    · rename_i hdue
      split at hdispatch
      · cases hdispatch
      · rename_i next hnext
        cases hdispatch
        exact ⟨gen', hop, not_lt.mp hdue, hnext⟩

end Jepsen.Generator.Interpreter
