/-
# A copy for every process

`each-process` keeps a copy of one generator for every process. It holds the copies by thread,
and remembers for which process of the thread a copy is; a process whose thread holds no copy
of it is asked for an operation with a fresh copy. An event goes to the copy of its thread,
whichever process that is for.
-/

import Jepsen.Generator.Combinators
import Jepsen.Generator.ContextHistory

namespace Jepsen.Generator

open Jepsen.History Jepsen.Library

universe u v

/-- `(defrecord EachProcess [fresh-gen context-filters extant gens])`. The context filters are
those of single threads. -/
structure EachProcess (γ : Type v) where
  /-- A fresh copy of the generator we start with for each process. -/
  freshGen : γ
  /-- A map of thread to process for processes that are currently initialized and running. -/
  extant : Name → Option Name
  /-- A map of threads to generators; a generator in it may be `nil`. -/
  gens : Name → Option (Option γ)

/-- `(each-process gen)` -/
def eachProcess {γ : Type v} (gen : γ) : EachProcess γ := ⟨gen, fun _ => none, fun _ => none⟩

namespace EachProcess

variable {γ : Type v} {V : Type u}

/-- What `op` knows of an operation it was offered. -/
structure Offer (γ : Type v) where
  gen' : Option γ
  thread : Name
  extant' : Name → Option Name

/-- `(@context-filters thread)` applied to the context; there is a filter for each of the
context's threads. -/
def threadContext (ctx : Context) (thread : Name) : Option Context :=
  if thread ∈ ctx.allThreads then
    some (Context.lazyThreadFilter (fun name => decide (name = thread)) ctx)
  else none

/-- The generator a process is asked with, on the thread that executes it. -/
def copyOf (this : EachProcess γ) (thread process : Name) : Option γ :=
  -- Is this a process we haven't initialized yet?
  if this.extant thread = some process then (this.gens thread).join else some this.freshGen

/-- `extant'` -/
def initialized (this : EachProcess γ) (thread process : Name) : Name → Option Name :=
  if this.extant thread = some process then this.extant
  else Function.update this.extant thread (some process)

/-- The record that an adopted offer leaves. -/
def adopt (this : EachProcess γ) (offer : Offer γ) : EachProcess γ :=
  { this with
    extant := offer.extant'
    gens := Function.update this.gens offer.thread (some offer.gen') }

variable [Protocol γ V]

/-- Ask the generator of one free thread. -/
def askThread (oracle : Oracle) (this : EachProcess γ) (ctx : Context) (thread : Name) :
    Except Thrown (Option (Candidate V (Offer γ))) :=
  match ctx.threadToProcess thread with
  | none => .error .indexOutOfBounds
  | some process =>
      match threadContext ctx thread with
      | none => .error .nullPointer
      | some threadCtx =>
          match Generator.op oracle (this.copyOf thread process) threadCtx with
          | .error t => .error t
          | .ok none => .ok none
          | .ok (some (op, gen')) =>
              .ok (some ⟨op, none, ⟨gen', thread, this.initialized thread process⟩⟩)

/-- Ask the generator of every free thread, and keep the soonest operation. -/
def askThreads (oracle : Oracle) (this : EachProcess γ) (ctx : Context) :
    List Name → Option (Candidate V (Offer γ)) → Except Thrown (Option (Candidate V (Offer γ)))
  | [], soonest => .ok soonest
  | thread :: rest, soonest =>
      match this.askThread (oracle.sub (2 * rest.length + 1)) ctx thread with
      | .error t => .error t
      | .ok offered =>
          askThreads oracle this ctx rest
            (soonestOpMap ((oracle.sub (2 * rest.length + 2)).draw 0) soonest offered)

/-- The soonest operation that a free thread's generator offers. -/
def soonest (oracle : Oracle) (this : EachProcess γ) (ctx : Context) :
    Except Thrown (Option (Candidate V (Offer γ))) :=
  this.askThreads oracle ctx ((oracle.sub 0).order ctx.freeThreads) none

/-- `EachProcess.op` -/
def op (oracle : Oracle) (this : EachProcess γ) (ctx : Context) :
    Except Thrown (Option (Answer V × Option (EachProcess γ))) :=
  match this.soonest oracle ctx with
  | .error t => .error t
  -- A free thread has an operation.
  | .ok (some m) => .ok (some (m.op, some (this.adopt m.payload)))
  | .ok none =>
      -- Some thread is busy; we can't tell what to do just yet.
      if ctx.freeThreadCount ≠ ctx.allThreadCount then .ok (some (.pending, some this))
      else .ok none

/-- `EachProcess.update` -/
def update (this : EachProcess γ) (ctx : Context) (event : Op V) :
    Except Thrown (Option (EachProcess γ)) :=
  match ctx.processToThread event.process with
  | none => .error .nullPointer
  | some thread =>
      match threadContext ctx thread with
      | none => .error .nullPointer
      | some threadCtx =>
          let gen := (this.gens thread).getD (some this.freshGen)
          match Generator.update gen threadCtx event with
          | .error t => .error t
          | .ok gen' => .ok (some
              { this with gens := Function.update this.gens thread (some gen') })

instance : Protocol (EachProcess γ) V where
  op := op
  update := update

/-! ## What a call does -/

theorem askThread_eq_some {oracle : Oracle} {this : EachProcess γ} {ctx : Context}
    {thread : Name} {m : Candidate V (Offer γ)}
    (hask : this.askThread oracle ctx thread = .ok (some m)) :
    ∃ process threadCtx, ctx.threadToProcess thread = some process ∧
      Generator.op oracle (this.copyOf thread process) threadCtx =
        .ok (some (m.op, m.payload.gen')) ∧
      m.payload.thread = thread ∧ m.payload.extant' = this.initialized thread process := by
  unfold askThread at hask
  split at hask
  · cases hask
  · rename_i process hprocess
    split at hask
    · cases hask
    · rename_i threadCtx _
      split at hask
      · cases hask
      · cases hask
      · rename_i answer gen' hop
        cases hask
        exact ⟨process, threadCtx, hprocess, hop, rfl, rfl⟩

/-- Where an offer came from: the copy of the process on one of the threads. -/
def Offered (this : EachProcess γ) (ctx : Context) (threads : List Name) (answer : Answer V)
    (offer : Offer γ) : Prop :=
  ∃ process oracle threadCtx, offer.thread ∈ threads ∧
    ctx.threadToProcess offer.thread = some process ∧
    Generator.op oracle (this.copyOf offer.thread process) threadCtx =
      .ok (some (answer, offer.gen')) ∧
    offer.extant' = this.initialized offer.thread process

theorem offered_of_askThreads {oracle : Oracle} {this : EachProcess γ} {ctx : Context}
    {all threads : List Name} {before : Option (Candidate V (Offer γ))}
    {m : Candidate V (Offer γ)} (hsub : threads ⊆ all)
    (hbefore : ∀ m, before = some m → this.Offered ctx all m.op m.payload)
    (hask : this.askThreads oracle ctx threads before = .ok (some m)) :
    this.Offered ctx all m.op m.payload := by
  induction threads generalizing before with
  | nil =>
    cases hask
    exact hbefore m rfl
  | cons thread rest ih =>
    rw [askThreads] at hask
    split at hask
    · cases hask
    · rename_i offered hthread
      refine ih (fun _ h => hsub (List.mem_cons_of_mem _ h)) ?_ hask
      intro m' hsoonest
      obtain ⟨m₀, hwhich, hop, hpayload⟩ := soonestOpMap_eq_some hsoonest
      rw [hop, hpayload]
      cases hwhich with
      | inl h => exact hbefore m₀ h
      | inr h =>
        obtain ⟨process, threadCtx, hprocess, hop, rfl, hextant⟩ :=
          askThread_eq_some (hthread.trans (congrArg _ h))
        exact ⟨process, _, threadCtx, hsub List.mem_cons_self, hprocess, hop, hextant⟩

/-- The operation offered is that of the copy of the process some free thread executes. -/
theorem offered_of_soonest {oracle : Oracle} {this : EachProcess γ} {ctx : Context}
    {m : Candidate V (Offer γ)} (hsoonest : this.soonest oracle ctx = .ok (some m)) :
    this.Offered ctx ctx.freeThreads m.op m.payload :=
  offered_of_askThreads (fun _ h => (Oracle.order_perm _ _).mem_iff.mp h)
    (fun _ h => (by cases h)) hsoonest

theorem op_of_soonest {oracle : Oracle} {this : EachProcess γ} {ctx : Context}
    {m : Candidate V (Offer γ)} (hsoonest : this.soonest oracle ctx = .ok (some m)) :
    this.op oracle ctx = .ok (some (m.op, some (this.adopt m.payload))) := by
  rw [op, hsoonest]

theorem update_eq_ok {this : EachProcess γ} {ctx : Context} {event : Op V}
    {next : Option (EachProcess γ)} (hupdate : this.update ctx event = .ok next) :
    ∃ thread threadCtx gen', ctx.processToThread event.process = some thread ∧
      Generator.update ((this.gens thread).getD (some this.freshGen)) threadCtx event =
        .ok gen' ∧
      next = some { this with gens := Function.update this.gens thread (some gen') } := by
  unfold update at hupdate
  split at hupdate
  · cases hupdate
  · rename_i thread hthread
    split at hupdate
    · cases hupdate
    · rename_i threadCtx _
      dsimp only at hupdate
      split at hupdate
      · cases hupdate
      · rename_i gen' hgen'
        cases hupdate
        exact ⟨thread, threadCtx, gen', hthread, hgen', rfl⟩

end EachProcess

end Jepsen.Generator
