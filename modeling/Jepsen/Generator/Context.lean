/-
# Generator contexts

A context tells a generator the time, which threads exist, which of them are
free, and which process each thread executes. It keeps thread sets as bit sets
over thread indices, the executing processes as an array over the same indices,
and the inverse map from processes to threads. A filtered view of a context
shares the tables of the context it was taken from.
-/

import Jepsen.Generator.TranslationTable

namespace Jepsen.Generator

open Jepsen.Library

/-- `context.clj`, `Context`, without the map of user-defined fields, which no
operation here reads. -/
structure Context where
  time : ℤ
  /-- The next thread index we'd like to hand out. -/
  nextThreadIndex : ℕ
  /-- May include threads not in this context. -/
  translationTable : TranslationTable
  /-- Thread indices which are active in this context. -/
  allThreadsBits : Bits
  /-- Thread indices which are not busy evaluating anything. -/
  freeThreadsBits : Bits
  /-- The process each thread index is executing. May include threads not in
  this context. -/
  threadIndexToProcess : List Name
  /-- The thread executing each process. May include threads not in this
  context. -/
  processToThread : Name → Option Name

namespace Context

/-- `all-threads`. -/
def allThreads (ctx : Context) : List Name :=
  ctx.translationTable.indicesToNames ctx.allThreadsBits

/-- `all-thread-count`. -/
def allThreadCount (ctx : Context) : ℕ := ctx.allThreadsBits.card

/-- `free-thread-count`. -/
def freeThreadCount (ctx : Context) : ℕ := ctx.freeThreadsBits.card

/-- `thread->process`; an index outside the array fails. -/
def threadToProcess (ctx : Context) (thread : Name) : Option Name :=
  ctx.threadIndexToProcess[ctx.translationTable.nameToIndex (some thread)]?

/-- `free-threads`. -/
def freeThreads (ctx : Context) : List Name :=
  ctx.translationTable.indicesToNames ctx.freeThreadsBits

/-- `thread-free?`; callers may pass the `nil` that `process->thread` returned. -/
def threadFree (ctx : Context) (thread : Option Name) : Bool :=
  ctx.translationTable.nameToIndex thread ∈ ctx.freeThreadsBits

/-- `some-free-process`. -/
def someFreeProcess (ctx : Context) : Option Name :=
  match ctx.freeThreadsBits.nextSetBit ctx.nextThreadIndex with
  | some i => ctx.threadIndexToProcess[i]?
  | none =>
      if ctx.nextThreadIndex = 0 then none
      else
        match ctx.freeThreadsBits.nextSetBit 0 with
        | none => none
        | some i => ctx.threadIndexToProcess[i]?

/-- `free-thread`. -/
def freeThread (ctx : Context) (time : ℤ) (thread : Name) : Context :=
  let i := ctx.translationTable.nameToIndex (some thread)
  { ctx with
    time := time
    freeThreadsBits := insert i ctx.freeThreadsBits }

/-- `busy-thread`. Consuming a thread bumps the next thread index, which
rotates evenly through threads. -/
def busyThread (ctx : Context) (time : ℤ) (thread : Name) : Context :=
  let i := ctx.translationTable.nameToIndex (some thread)
  { ctx with
    time := time
    nextThreadIndex := (ctx.nextThreadIndex + 1) % ctx.translationTable.threadCount
    freeThreadsBits := ctx.freeThreadsBits.erase i }

/-- The process that follows `process` on its thread. -/
def nextProcess (intThreadCount : ℕ) : Name → Name
  | .int p => .int (intThreadCount + p)
  | .keyword k => .keyword k

/-- `with-next-process`; fails when the thread has no slot in the array. -/
def withNextProcess (ctx : Context) (thread : Name) : Option Context :=
  match ctx.threadToProcess thread with
  | none => none
  | some process =>
      let process' := nextProcess ctx.translationTable.intThreadCount process
      let i := ctx.translationTable.nameToIndex (some thread)
      some { ctx with
        threadIndexToProcess := ctx.threadIndexToProcess.set i process'
        processToThread :=
          Function.update (Function.update ctx.processToThread process none)
            process' (some thread) }

/-- `(assoc ctx :time time)`. -/
def withTime (ctx : Context) (time : ℤ) : Context := { ctx with time := time }

/-- The table of a test: its integer threads and `:nemesis`. -/
def testTable (concurrency : ℕ) : TranslationTable :=
  TranslationTable.translationTable concurrency ["nemesis"]

/-- `context`: every thread is free and executes itself as a process. -/
def context (concurrency : ℕ) : Context :=
  let table := testTable concurrency
  let threadNames := table.allNames
  { time := 0
    nextThreadIndex := 0
    translationTable := table
    allThreadsBits := Finset.range table.threadCount
    freeThreadsBits := Finset.range table.threadCount
    threadIndexToProcess := threadNames
    processToThread := fun process =>
      if process ∈ threadNames then some process else none }

/-- `all-but`. -/
def allBut (element : Name) (x : Name) : Bool := decide (x ≠ element)

/-- `make-thread-filter`: compile the predicate against the threads of one
context, then intersect any context with the result. -/
def makeThreadFilter (pred : Name → Bool) (compiled : Context) (ctx : Context) :
    Context :=
  let bitset := compiled.allThreadsBits.filter fun i =>
    (compiled.translationTable.indexToName i).any pred
  { ctx with
    allThreadsBits := bitset ∩ ctx.allThreadsBits
    freeThreadsBits := bitset ∩ ctx.freeThreadsBits }

/-- The lazy arity of `make-thread-filter`. The source compiles against the first
context it is given; every context of one test has the same threads, so the one
at hand does as well (`makeThreadFilter_eq_lazy`). -/
def lazyThreadFilter (pred : Name → Bool) (ctx : Context) : Context :=
  makeThreadFilter pred ctx ctx

/-! ## What each operation changes -/

section Fields

variable (ctx : Context) (time : ℤ) (thread : Name)

@[simp] theorem freeThread_table :
    (ctx.freeThread time thread).translationTable = ctx.translationTable := rfl

@[simp] theorem freeThread_processes :
    (ctx.freeThread time thread).threadIndexToProcess = ctx.threadIndexToProcess := rfl

@[simp] theorem freeThread_processToThread :
    (ctx.freeThread time thread).processToThread = ctx.processToThread := rfl

@[simp] theorem freeThread_all :
    (ctx.freeThread time thread).allThreadsBits = ctx.allThreadsBits := rfl

@[simp] theorem freeThread_free :
    (ctx.freeThread time thread).freeThreadsBits =
      insert (ctx.translationTable.nameToIndex (some thread)) ctx.freeThreadsBits := rfl

@[simp] theorem freeThread_threadToProcess (other : Name) :
    (ctx.freeThread time thread).threadToProcess other = ctx.threadToProcess other := rfl

@[simp] theorem busyThread_table :
    (ctx.busyThread time thread).translationTable = ctx.translationTable := rfl

@[simp] theorem busyThread_processes :
    (ctx.busyThread time thread).threadIndexToProcess = ctx.threadIndexToProcess := rfl

@[simp] theorem busyThread_processToThread :
    (ctx.busyThread time thread).processToThread = ctx.processToThread := rfl

@[simp] theorem busyThread_all :
    (ctx.busyThread time thread).allThreadsBits = ctx.allThreadsBits := rfl

@[simp] theorem busyThread_free :
    (ctx.busyThread time thread).freeThreadsBits =
      ctx.freeThreadsBits.erase (ctx.translationTable.nameToIndex (some thread)) := rfl

@[simp] theorem busyThread_threadToProcess (other : Name) :
    (ctx.busyThread time thread).threadToProcess other = ctx.threadToProcess other := rfl

@[simp] theorem withTime_table :
    (ctx.withTime time).translationTable = ctx.translationTable := rfl

@[simp] theorem withTime_processToThread :
    (ctx.withTime time).processToThread = ctx.processToThread := rfl

@[simp] theorem withTime_all :
    (ctx.withTime time).allThreadsBits = ctx.allThreadsBits := rfl

@[simp] theorem withTime_free :
    (ctx.withTime time).freeThreadsBits = ctx.freeThreadsBits := rfl

@[simp] theorem withTime_freeThreads :
    (ctx.withTime time).freeThreads = ctx.freeThreads := rfl

@[simp] theorem withTime_threadToProcess (other : Name) :
    (ctx.withTime time).threadToProcess other = ctx.threadToProcess other := rfl

end Fields

section Filters

variable (pred : Name → Bool) (compiled ctx : Context)

@[simp] theorem makeThreadFilter_table :
    (makeThreadFilter pred compiled ctx).translationTable = ctx.translationTable := rfl

@[simp] theorem makeThreadFilter_processToThread :
    (makeThreadFilter pred compiled ctx).processToThread = ctx.processToThread := rfl

@[simp] theorem makeThreadFilter_threadToProcess (thread : Name) :
    (makeThreadFilter pred compiled ctx).threadToProcess thread =
      ctx.threadToProcess thread := rfl

@[simp] theorem lazyThreadFilter_processToThread :
    (lazyThreadFilter pred ctx).processToThread = ctx.processToThread := rfl

@[simp] theorem lazyThreadFilter_threadToProcess (thread : Name) :
    (lazyThreadFilter pred ctx).threadToProcess thread = ctx.threadToProcess thread := rfl

/-- A filter compiled against a context with the same threads is the lazy one. -/
theorem makeThreadFilter_eq_lazy (htable : compiled.translationTable = ctx.translationTable)
    (hall : compiled.allThreadsBits = ctx.allThreadsBits) :
    makeThreadFilter pred compiled ctx = lazyThreadFilter pred ctx := by
  unfold lazyThreadFilter makeThreadFilter
  rw [htable, hall]

end Filters

/-- What `with-next-process` does when it returns: one slot of the array and
two entries of the map change, and nothing else. -/
theorem withNextProcess_eq_some {ctx ctx' : Context} {thread : Name}
    (hnext : ctx.withNextProcess thread = some ctx') :
    ∃ process, ctx.threadToProcess thread = some process ∧
      ctx' = { ctx with
        threadIndexToProcess := ctx.threadIndexToProcess.set
          (ctx.translationTable.nameToIndex (some thread))
          (nextProcess ctx.translationTable.intThreadCount process)
        processToThread :=
          Function.update (Function.update ctx.processToThread process none)
            (nextProcess ctx.translationTable.intThreadCount process)
            (some thread) } := by
  unfold withNextProcess at hnext
  cases hprocess : ctx.threadToProcess thread with
  | none => simp [hprocess] at hnext
  | some process =>
      rw [hprocess] at hnext
      exact ⟨process, rfl, (Option.some.inj hnext).symm⟩

/-- `some-free-process` runs the cyclic search and reads the array where it
stops. -/
theorem someFreeProcess_eq_bind (ctx : Context) :
    ctx.someFreeProcess =
      (ctx.freeThreadsBits.nextSetBitCyclic ctx.nextThreadIndex).bind
        fun i => ctx.threadIndexToProcess[i]? := by
  unfold someFreeProcess Bits.nextSetBitCyclic
  cases hnext : ctx.freeThreadsBits.nextSetBit ctx.nextThreadIndex with
  | some i => rfl
  | none =>
      by_cases hzero : ctx.nextThreadIndex = 0
      · rw [hzero] at hnext
        simp [hzero, hnext]
      · simp only [if_neg hzero]
        cases ctx.freeThreadsBits.nextSetBit 0 <;> rfl

end Context

end Jepsen.Generator
