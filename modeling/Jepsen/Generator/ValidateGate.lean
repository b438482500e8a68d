/-
# What Validate lets through

`Validate` looks an operation's process up, translates the thread it finds to a
bit and tests the bit. For a process that no thread executes the lookup gives
`nil`, whose translation is the bit of the first named thread, so the test is
about the nemesis.
-/

import Jepsen.Generator.InterpreterJournal
import Jepsen.Generator.OpMap

namespace Jepsen.Generator

open Jepsen.History Jepsen.Library
open Jepsen.Generator.Context

universe u v w

namespace Validate

/-- The types `Validate` accepts. -/
def acceptedTypes : List OpType := [.invoke, .info, .sleep, .log]

/-- An operation has no problems if its type is accepted and the bit found for
its process is set. -/
theorem problems_eq_nil_iff {V : Type u} {ctx : Context} {o : Op V} :
    problems ctx o = [] ↔
      o.type ∈ acceptedTypes ∧ ctx.threadFree (ctx.processToThread o.process) = true := by
  unfold problems acceptedTypes
  rw [List.append_eq_nil_iff]
  constructor
  · intro ⟨htype, hfree⟩
    constructor
    · by_contra hnot
      rw [if_neg hnot] at htype
      cases htype
    · by_contra hnot
      rw [if_neg hnot] at hfree
      cases hfree
  · intro ⟨htype, hfree⟩
    exact ⟨if_pos htype, if_pos hfree⟩

variable {γ : Type v} {V : Type u} [Protocol γ V]

/-- An operation without problems is handed on as it came. -/
theorem op_of_problems_eq_nil {oracle : Oracle} {this : Validate γ} {ctx : Context}
    {o : Op V} {gen' : Option γ}
    (hgen : Generator.op oracle this.gen ctx = .ok (some (.op o, gen')))
    (hproblems : problems ctx o = []) :
    Generator.op oracle (some this) ctx = .ok (some (.op o, some ⟨gen'⟩)) := by
  change Validate.op oracle this ctx = _
  unfold Validate.op
  rw [hgen]
  exact if_pos hproblems

end Validate

namespace Context

/-- The process is mapped to a thread of the context, and that thread is free. -/
def ExecutesFree (ctx : Context) (process : Name) : Prop :=
  ∃ thread, ctx.processToThread process = some thread ∧ thread ∈ ctx.allThreads ∧
    thread ∈ ctx.freeThreads

/-- A context seen through thread filters, the outermost first. -/
def viewedThrough (ctx : Context) (preds : List (Name → Bool)) : Context :=
  preds.foldl (fun ctx pred => ctx.lazyThreadFilter pred) ctx

namespace WellFormed

variable {n : ℕ} {ctx : Context}

theorem viewedThrough (hwf : WellFormed n ctx) (preds : List (Name → Bool)) :
    WellFormed n (ctx.viewedThrough preds) := by
  induction preds generalizing ctx with
  | nil => exact hwf
  | cons pred preds ih => exact ih (hwf.makeThreadFilter pred ctx)

theorem mem_allThreads_of_free (hwf : WellFormed n ctx) {thread : Name}
    (hfree : thread ∈ ctx.freeThreads) : thread ∈ ctx.allThreads := by
  obtain ⟨hnames, hbit⟩ := hwf.mem_freeThreads_iff.mp hfree
  exact hwf.mem_allThreads_iff.mpr ⟨hnames, hwf.free_subset hbit⟩

/-- For a process that is executed, the bit that is tested is its thread's. -/
theorem threadFree_of_mapped (hwf : WellFormed n ctx) {process thread : Name}
    (hthread : ctx.processToThread process = some thread) :
    ctx.threadFree (ctx.processToThread process) = true ↔ thread ∈ ctx.freeThreads := by
  have hnames := ((hwf.inverse _ _).mp hthread).1
  rw [hthread, hwf.mem_freeThreads_iff, threadFree, hwf.table, decide_eq_true_iff]
  exact (and_iff_right hnames).symm

/-- For any other process it is the nemesis's. -/
theorem threadFree_of_unmapped (hwf : WellFormed n ctx) {process : Name}
    (hthread : ctx.processToThread process = none) :
    ctx.threadFree (ctx.processToThread process) = true ↔ .nemesis ∈ ctx.freeThreads := by
  have hnames : Name.nemesis ∈ (testTable n).allNames :=
    mem_testTable_allNames.mpr (Or.inr rfl)
  rw [hthread, hwf.mem_freeThreads_iff, threadFree, hwf.table, decide_eq_true_iff]
  exact (and_iff_right hnames).symm

end WellFormed

end Context

section Gate

variable {n : ℕ} {ctx : Context} {V : Type u} {o : Op V}

/-- In a well-formed context the checks are right exactly when they reject the
operation's type, or its process is executed, or the nemesis is busy. -/
theorem problems_sound_iff (hwf : WellFormed n ctx) :
    (Validate.problems ctx o = [] → ctx.ExecutesFree o.process) ↔
      (o.type ∉ Validate.acceptedTypes ∨
        (∃ thread, ctx.processToThread o.process = some thread) ∨
        .nemesis ∉ ctx.freeThreads) := by
  rw [Validate.problems_eq_nil_iff]
  cases hthread : ctx.processToThread o.process with
  | some thread =>
    have hbit := hwf.threadFree_of_mapped hthread
    rw [hthread] at hbit
    constructor
    · intro _
      exact Or.inr (Or.inl ⟨thread, rfl⟩)
    · intro _ ⟨_, hfree⟩
      have hmem := hbit.mp hfree
      exact ⟨thread, hthread, hwf.mem_allThreads_of_free hmem, hmem⟩
  | none =>
    have hbit := hwf.threadFree_of_unmapped hthread
    rw [hthread] at hbit
    constructor
    · intro hsound
      by_cases htype : o.type ∈ Validate.acceptedTypes
      · right
        right
        intro hnemesis
        obtain ⟨thread, hmapped, -⟩ := hsound ⟨htype, hbit.mpr hnemesis⟩
        rw [hthread] at hmapped
        cases hmapped
      · exact Or.inl htype
    · intro hcond ⟨htype, hfree⟩
      rcases hcond with hnot | ⟨thread, hmapped⟩ | hnemesis
      · exact absurd htype hnot
      · cases hmapped
      · exact absurd (hbit.mp hfree) hnemesis

end Gate

namespace Interpreter

variable {γ : Type v} {V : Type u} [Protocol γ V]

/-- Validation makes a dispatched operation name the process of a free thread:
an unknown process may pass it, but has no worker to be handed to. -/
theorem namesFree_of_dispatched {n : ℕ} {s s' : State γ V} {oracle : Oracle} {time : ℤ}
    {o : Op V} (htr : Tracked n s)
    (hdispatch : s.generate oracle time = .ok (.dispatched o s')) :
    NamesFree (s.ctx.withTime time) o := by
  have hwf := htr.wf.withTime time
  obtain ⟨gen', hop, -, hsent⟩ := State.generate_eq_dispatched hdispatch
  obtain ⟨thread, -, hthread, -⟩ := State.dispatch_eq_ok hsent
  cases hgen : s.gen with
  | none =>
    rw [hgen] at hop
    cases hop
  | some validated =>
    rw [hgen] at hop
    obtain ⟨-, -, -, hproblems⟩ := Validate.op_eq_op hop
    have hfree := (hwf.threadFree_of_mapped hthread).mp
      (Validate.problems_eq_nil_iff.mp hproblems).2
    exact ⟨thread, hfree, ((hwf.inverse _ _).mp hthread).2⟩

theorem labelNamesFree_of_step {env : Env V} {n : ℕ} {s s' : State γ V} {l : Label V}
    (htr : Tracked n s) (hstep : Step env s l s') : LabelNamesFree s l := by
  cases hstep with
  | take => trivial
  | finish => trivial
  | complete => trivial
  | wait => trivial
  | dispatch oracle time hdispatch hexecutes => exact namesFree_of_dispatched htr hdispatch

theorem tracked_run {env : Env V} {n : ℕ} {gen : Option γ} {labels : List (Label V)}
    {s : State γ V} (hrun : Run (Step env) (State.init n gen) labels s) : Tracked n s :=
  hrun.invariant (Tracked n) (tracked_init n gen)
    fun htr hstep => htr.step hstep (labelNamesFree_of_step htr hstep)

/-- At every point of every run, in the context the loop asks with or any view of
it, what `Validate` returns names a free thread's process exactly when the inner
generator's operation has a type that is rejected, or names a process that is
executed, or is offered while the nemesis is busy. -/
theorem validate_gates_iff {env : Env V} {n : ℕ} {gen : Option γ} {labels : List (Label V)}
    {s : State γ V} (hrun : Run (Step env) (State.init n gen) labels s) (time : ℤ)
    (preds : List (Name → Bool)) {δ : Type w} [Protocol δ V] (oracle : Oracle)
    (inner : Option δ) {o : Op V} {inner' : Option δ}
    (hinner : op oracle inner ((s.ctx.withTime time).viewedThrough preds) =
      .ok (some (.op o, inner'))) :
    (∀ o' gen', op oracle (some (⟨inner⟩ : Validate δ))
        ((s.ctx.withTime time).viewedThrough preds) = .ok (some (.op o', gen')) →
      ((s.ctx.withTime time).viewedThrough preds).ExecutesFree o'.process) ↔
    (o.type ∉ Validate.acceptedTypes ∨
      (∃ thread, ((s.ctx.withTime time).viewedThrough preds).processToThread o.process =
        some thread) ∨
      .nemesis ∉ ((s.ctx.withTime time).viewedThrough preds).freeThreads) := by
  have hwf := ((tracked_run hrun).wf.withTime time).viewedThrough preds
  rw [← problems_sound_iff hwf]
  constructor
  · intro hgate hproblems
    exact hgate o _ (Validate.op_of_problems_eq_nil hinner hproblems)
  · intro hsound o' gen' hop
    obtain ⟨_, hoffered, -, hproblems⟩ := Validate.op_eq_op hop
    have heq := hinner.symm.trans hoffered
    obtain rfl : o = o' := by
      injection heq with heq
      injection heq with heq
      injection heq with heq _
      injection heq
    exact hsound hproblems

/-- A read for process `p`. -/
def readAs (p : ℕ) : OpMap ℤ := { process := some (.int p), f := some "read", value := 0 }

/-- A read for the process of the only client, at the start of a run. -/
theorem validate_gates_iff_client :
    ∃ o gen', op Oracle.zero (some (⟨some (readAs 0)⟩ : Validate (OpMap ℤ)))
      ((State.init 1 (some (readAs 0)) : State (OpMap ℤ) ℤ).ctx.withTime 0) =
        .ok (some (.op o, gen')) ∧
      ((State.init 1 (some (readAs 0)) : State (OpMap ℤ) ℤ).ctx.withTime 0).ExecutesFree
        o.process := by
  have hrun : Run (Step Env.returns) (State.init 1 (some (readAs 0)) : State (OpMap ℤ) ℤ) []
      (State.init 1 (some (readAs 0))) := .nil
  have hgate := (validate_gates_iff hrun 0 [] Oracle.zero (some (readAs 0)) rfl).mpr
    (Or.inr (Or.inl ⟨.int 0, by decide⟩))
  exact ⟨_, _, rfl, hgate _ _ rfl⟩

/-- A read for process 7 of a test with one client passes: no thread executes
process 7. -/
theorem validate_accepts_unknown :
    ∃ o gen', op Oracle.zero (some (⟨some (readAs 7)⟩ : Validate (OpMap ℤ)))
      ((State.init 1 (some (readAs 7)) : State (OpMap ℤ) ℤ).ctx.withTime 0) =
        .ok (some (.op o, gen')) ∧
      o.process = .int 7 ∧
      ¬ ((State.init 1 (some (readAs 7)) : State (OpMap ℤ) ℤ).ctx.withTime 0).ExecutesFree
        o.process := by
  refine ⟨_, _, rfl, rfl, ?_⟩
  intro ⟨thread, hthread, _⟩
  cases hthread

end Interpreter

end Jepsen.Generator
