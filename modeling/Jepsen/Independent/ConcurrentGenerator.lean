/-
# The concurrent generator

`concurrent-generator` splits the client threads into groups of `n`, has each
group work on one key, and gives a group its next key once the generator of the
last one is exhausted. The record is initialised by the first answer that is
adopted, so until then it knows neither threads nor groups.
-/

import Jepsen.Generator.Combinators

namespace Jepsen.Independent

open Jepsen.Generator Jepsen.History
open Stream' (Seq)

universe u v w

/-- The value of an operation: `nil`, a `[k v]` tuple, or anything else. -/
inductive Value (K : Type u) (A : Type v)
  | nil
  | plain (a : A)
  | tuple (k : K) (v : Value K A)
  deriving DecidableEq

namespace Value

variable {K : Type u} {A : Type v}

/-- `(val v)`, which throws unless `v` is a map entry. -/
def val : Value K A → Except Thrown (Value K A)
  | nil => .error .nullPointer
  | plain _ => .error .classCast
  | tuple _ v => .ok v

theorem val_eq_ok {value v : Value K A} : value.val = .ok v ↔ ∃ k, value = tuple k v := by
  cases value with
  | nil => simp [val]
  | plain a => simp [val]
  | tuple k v' => simp [val]

end Value

/-! ## Groups of threads -/

/-- The order of integer threads. -/
def threadLe : Name → Name → Bool
  | .int i, .int j => decide (i ≤ j)
  | _, _ => true

/-- `sort` on thread names; an integer does not compare with a keyword. -/
def sortThreads (threads : List Name) : Except Thrown (List Name) :=
  if threads.all Name.isInteger then .ok (threads.insertionSort fun a b => threadLe a b)
  else if threads.length ≤ 1 then .ok threads
  else .error .classCast

/-- `(partition n coll)` -/
def partition {α : Type u} (n : ℕ) (coll : List α) : List (List α) :=
  (List.range (coll.length / n)).map fun i => (coll.drop (i * n)).take n

/-- `group-threads`. -/
def groupThreads (n : ℕ) (ctx : Context) : Except Thrown (List (List Name)) :=
  let groupSize := n
  let threadCount := ctx.allThreadCount
  let groupCount := threadCount / groupSize
  if ¬ groupSize ≤ threadCount then
    .error (.assertion ("With " ++ toString threadCount ++ " worker threads, this" ++
      " jepsen.concurrent/concurrent-generator cannot" ++
      " run a key with " ++ toString groupSize ++ " threads concurrently." ++
      " Consider raising your test's :concurrency to at least " ++
      toString groupSize ++ "."))
  else if ¬ threadCount = groupSize * groupCount then
    .error (.assertion ("This jepsen.independent/concurrent-generator has " ++
      toString threadCount ++ " threads to work with, but can only use " ++
      toString (groupSize * groupCount) ++ " of those threads to run " ++
      toString groupCount ++ " concurrent keys with " ++ toString groupSize ++
      " threads apiece. Consider raising or lowering the" ++
      " test's :concurrency to a multiple of " ++ toString groupSize ++ "."))
  else
    match sortThreads ctx.allThreads with
    | .error t => .error t
    | .ok threads => .ok (partition n threads)

/-- `make-thread->group`, as the entries of the map it returns. -/
def makeThreadToGroup (groupToThreads : List (List Name)) : List (Name × ℕ) :=
  groupToThreads.zipIdx.flatMap fun (threads, group) => threads.map fun thread => (thread, group)

/-! ## The generator -/

/-- The function `tuple-gen` maps over operations: only `:invoke` operations are
lifted to a tuple. -/
def liftOp {K : Type u} {A : Type v} (k : K) (op : Op (Value K A)) (_ : Context) :
    Op (Value K A) :=
  if op.type = .invoke then { op with value := .tuple k op.value } else op

section LiftOp

variable {K : Type u} {A : Type v} (k : K) (op : Op (Value K A)) (ctx : Context)

@[simp]
theorem liftOp_process : (liftOp k op ctx).process = op.process := by
  unfold liftOp
  split <;> rfl

@[simp]
theorem liftOp_type : (liftOp k op ctx).type = op.type := by
  unfold liftOp
  split <;> rfl

theorem liftOp_value (hinvoke : op.type = .invoke) :
    (liftOp k op ctx).value = .tuple k op.value := by
  unfold liftOp
  rw [if_pos hinvoke]

end LiftOp

/-- `tuple-gen`. -/
def tupleGen {K : Type u} {A : Type v} {γ : Type w} (k : K) (gen : Option γ) :
    Option (Map γ (Value K A)) :=
  map (liftOp k) gen

@[simp]
theorem tupleGen_eq_none {k : K} {gen : Option γ} :
    (tupleGen k gen : Option (Map γ (Value K A))) = none ↔ gen = none := by
  simp [tupleGen, map]

/-- The fields that are initialised lazily. They are `nil` together. -/
structure Groups (K : Type u) (A : Type v) (γ : Type w) where
  groupToThreads : List (List Name)
  threadToGroup : List (Name × ℕ)
  groupToContextFilter : List (Context → Context)
  /-- A vector of generators, one for each thread group. -/
  gens : List (Option (Map γ (Value K A)))

/-- `(defrecord ConcurrentGenerator ...)` -/
structure ConcurrentGenerator (K : Type u) (A : Type v) (γ : Type w) where
  /-- The size of each group. -/
  n : ℕ
  n_pos : 0 < n
  /-- Turns a key into a generator. -/
  fgen : K → Option γ
  groups : Option (Groups K A γ)
  /-- Our collection of remaining keys. -/
  keys : Seq K

/-- What the loop knows of the soonest operation: the group that offers it, and
that group's next generator. -/
structure Offer (K : Type u) (A : Type v) (γ : Type w) where
  group : ℕ
  gen' : Option (Map γ (Value K A))

namespace ConcurrentGenerator

variable {K : Type u} {A : Type v} {γ : Type w}

/-- The groups and remaining keys an `op` call works with: those of the record,
or freshly initialised ones. -/
def start (this : ConcurrentGenerator K A γ) (ctx : Context) :
    Except Thrown (Groups K A γ × Seq K) :=
  match this.groups with
  | some groups => .ok (groups, this.keys)
  | none =>
      match groupThreads this.n ctx with
      | .error t => .error t
      | .ok groupToThreads =>
          let threadToGroup := makeThreadToGroup groupToThreads
          let groupCount := (threadToGroup.map Prod.snd).foldl max 0 + 1
          let keys := this.keys.take groupCount
          let gens := List.zipWith tupleGen keys (keys.map this.fgen)
          .ok ({ groupToThreads := groupToThreads
                 threadToGroup := threadToGroup
                 groupToContextFilter := groupToThreads.map fun threads =>
                   Context.lazyThreadFilter fun thread => decide (thread ∈ threads)
                 -- Extend with nils if necessary.
                 gens := gens ++ List.replicate (groupCount - gens.length) none },
               this.keys.drop groupCount)

/-- The groups of the free threads, as a list without duplicates. -/
def freeGroups (groups : Groups K A γ) (ctx : Context) : Except Thrown (List ℕ) :=
  match ctx.freeThreads.mapM fun thread => groups.threadToGroup.lookup thread with
  | none => .error .nullPointer
  | some free => .ok free.dedup

variable [Protocol γ (Value K A)]

/-- The loop over the free groups: ask each for an operation, give it a new key
when its generator is exhausted, and keep the soonest offer. -/
def opLoop (oracle : Oracle) (fgen : K → Option γ) (groups : Groups K A γ) (ctx : Context) :
    ℕ → List ℕ → Seq K → List (Option (Map γ (Value K A))) →
    Option (Candidate (Value K A) (Offer K A γ)) →
    Except Thrown (Seq K × List (Option (Map γ (Value K A))) ×
      Option (Candidate (Value K A) (Offer K A γ)))
  | _, [], keys, gens, soonest => .ok (keys, gens, soonest)
  | 0, _ :: _, _, _, _ => .error .diverged
  | fuel + 1, group :: rest, keys, gens, soonest =>
      match gens[group]?, groups.groupToContextFilter[group]?, groups.groupToThreads[group]? with
      | some gen, some contextFilter, some threads =>
          match Generator.op (oracle.sub (2 * fuel + 1)) gen (contextFilter ctx) with
          | .error t => .error t
          | .ok (some (op, gen')) =>
              opLoop oracle fgen groups ctx fuel rest keys gens
                (soonestOpMap ((oracle.sub (2 * fuel + 2)).draw 0) soonest
                  (some ⟨op, some threads.length, ⟨group, gen'⟩⟩))
          | .ok none =>
              -- This generator is exhausted, so we replace it and advance keys.
              match keys.head.bind fun k => tupleGen k (fgen k) with
              | none =>
                  -- No replacement: on to the next group.
                  opLoop oracle fgen groups ctx fuel rest keys.tail (gens.set group none) soonest
              | some gen =>
                  opLoop oracle fgen groups ctx fuel (group :: rest) keys.tail
                    (gens.set group (some gen)) soonest
      | _, _, _ => .error .indexOutOfBounds

/-- `ConcurrentGenerator.op`. The order in which a set of groups is walked is
arbitrary. -/
def op (oracle : Oracle) (this : ConcurrentGenerator K A γ) (ctx : Context) :
    Except Thrown (Option (Answer (Value K A) × Option (ConcurrentGenerator K A γ))) :=
  match this.start ctx with
  | .error t => .error t
  | .ok (groups, keys) =>
      match freeGroups groups ctx with
      | .error t => .error t
      | .ok free =>
          match opLoop oracle this.fgen groups ctx oracle.fuel ((oracle.sub 0).order free)
            keys groups.gens none with
          | .error t => .error t
          | .ok (keys, gens, some soonest) =>
              -- We have an operation to yield.
              let gens := gens.set soonest.payload.group soonest.payload.gen'
              .ok (some (soonest.op,
                some { this with groups := some { groups with gens := gens }, keys := keys }))
          | .ok (keys, gens, none) =>
              -- Groups which weren't free might have ops to yield still.
              if gens.any Option.isSome then
                .ok (some (.pending,
                  some { this with groups := some { groups with gens := gens }, keys := keys }))
              else .ok none

/-- `ConcurrentGenerator.update`. -/
def update (this : ConcurrentGenerator K A γ) (ctx : Context) (event : Op (Value K A)) :
    Except Thrown (Option (ConcurrentGenerator K A γ)) :=
  match this.groups with
  -- `thread->group` is still `nil` and cannot be called.
  | none => .error .nullPointer
  | some groups =>
      let group := (ctx.processToThread event.process).bind fun thread =>
        groups.threadToGroup.lookup thread
      match event.value.val with
      | .error t => .error t
      | .ok v =>
          let unliftedOp := { event with value := v }
          match group with
          | none => .error (.threw "Key must be integer")
          | some group =>
              match groups.gens[group]? with
              | none => .error .indexOutOfBounds
              | some gen =>
                  match Generator.update gen ctx unliftedOp with
                  | .error t => .error t
                  | .ok gen' =>
                      .ok (some { this with
                        groups := some { groups with gens := groups.gens.set group gen' } })

instance : Protocol (ConcurrentGenerator K A γ) (Value K A) where
  op := op
  update := update

end ConcurrentGenerator

/-- The record `concurrent-generator` builds. -/
def ConcurrentGenerator.init {K : Type u} {A : Type v} {γ : Type w} (n : ℕ) (n_pos : 0 < n)
    (keys : Seq K) (fgen : K → Option γ) : ConcurrentGenerator K A γ :=
  ⟨n, n_pos, fgen, none, keys⟩

/-- `(concurrent-generator n keys fgen)`; it asserts that `n` is positive. -/
def concurrentGenerator {K : Type u} {A : Type v} {γ : Type w} (n : ℕ) (n_pos : 0 < n)
    (keys : Seq K) (fgen : K → Option γ) : Option (OnThreads (ConcurrentGenerator K A γ)) :=
  clients (some (.init n n_pos keys fgen))

end Jepsen.Independent
