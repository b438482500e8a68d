/-
# Reserved threads

`reserve` gives ranges of threads to generators of their own, and the threads that are left
to a default one. When it is asked for an operation, it asks every generator in the context
of its threads; an event goes to the generator of the event's thread.
-/

import Jepsen.Generator.Combinators

namespace Jepsen.Generator

open Jepsen.History

universe u v

/-- `(set (range n n'))` -/
def threadRange (n n' : ℕ) : Finset Name := (Finset.Ico n n').image .int

theorem mem_threadRange {n n' : ℕ} {thread : Name} :
    thread ∈ threadRange n n' ↔ ∃ i, n ≤ i ∧ i < n' ∧ thread = .int i := by
  simp only [threadRange, Finset.mem_image, Finset.mem_Ico, eq_comm, and_assoc]

/-- The ranges of some thread counts, from thread `n` on. -/
def rangesFrom : ℕ → List ℕ → List (Finset Name)
  | _, [] => []
  | n, threadCount :: rest => threadRange n (n + threadCount) :: rangesFrom (n + threadCount) rest

theorem length_rangesFrom (n : ℕ) (counts : List ℕ) :
    (rangesFrom n counts).length = counts.length := by
  induction counts generalizing n with
  | nil => rfl
  | cons count counts ih => rw [rangesFrom, List.length_cons, ih, List.length_cons]

theorem le_of_mem_rangesFrom {n i : ℕ} {counts : List ℕ} {threads : Finset Name}
    (hthreads : threads ∈ rangesFrom n counts) (hi : Name.int i ∈ threads) : n ≤ i := by
  induction counts generalizing n with
  | nil => cases hthreads
  | cons count counts ih =>
    cases List.mem_cons.mp hthreads with
    | inl heq =>
      subst heq
      obtain ⟨j, hj, -, hname⟩ := mem_threadRange.mp hi
      cases hname
      exact hj
    | inr htail => exact (Nat.le_add_right n count).trans (ih htail)

theorem disjoint_rangesFrom (n : ℕ) (counts : List ℕ) :
    (rangesFrom n counts).Pairwise Disjoint := by
  induction counts generalizing n with
  | nil => exact List.Pairwise.nil
  | cons count counts ih =>
    refine List.Pairwise.cons (fun threads hthreads => ?_) (ih _)
    rw [Finset.disjoint_left]
    intro thread hthread hother
    obtain ⟨i, -, hi, rfl⟩ := mem_threadRange.mp hthread
    exact absurd (le_of_mem_rangesFrom hthreads hother) (not_le.mpr hi)

/-- `(defrecord Reserve [ranges all-ranges context-filters gens])`. The context filters are
those of the ranges, and last the default generator's. -/
structure Reserve (γ : Type v) where
  ranges : List (Finset Name)
  /-- Generators corresponding to ranges, followed by the default generator. -/
  gens : List (Option γ)
  disjoint : ranges.Pairwise Disjoint
  length_gens : gens.length = ranges.length + 1

/-- What `op` knows of the soonest operation: the index of the generator that offers it, and
the generator's next state. -/
structure Reserve.Offer (γ : Type v) where
  i : ℕ
  gen' : Option γ

namespace Reserve

variable {γ : Type v} {V : Type u}

/-- `all-ranges` -/
def allRanges (this : Reserve γ) : Finset Name := this.ranges.foldl (· ∪ ·) ∅

/-- `(nth context-filters i)` -/
def contextFilter (this : Reserve γ) (i : ℕ) : Context → Context :=
  match this.ranges[i]? with
  | some threads => Context.lazyThreadFilter fun thread => decide (thread ∈ threads)
  | none => Context.lazyThreadFilter fun thread => decide (thread ∉ this.allRanges)

/-- `(nth gens i)` -/
def gen (this : Reserve γ) (i : ℕ) : Option γ := this.gens[i]?.join

/-- `(assoc gens i gen')` -/
def assoc (this : Reserve γ) (i : ℕ) (gen' : Option γ) : Reserve γ :=
  { this with
    gens := this.gens.set i gen'
    length_gens := List.length_set.trans this.length_gens }

/-- The index of the generator whose thread produced an event. -/
def indexOf (thread : Option Name) : List (Finset Name) → ℕ → ℕ
  | [], i => i
  | range :: rest, i =>
      match thread with
      | some thread => if thread ∈ range then i else indexOf (some thread) rest (i + 1)
      | none => indexOf none rest (i + 1)

variable [Protocol γ V]

/-- Ask each range's generator for an op, and keep the soonest. -/
def askRanges (oracle : Oracle) (this : Reserve γ) (ctx : Context) :
    List (Finset Name × ℕ) → Option (Candidate V (Offer γ)) →
    Except Thrown (Option (Candidate V (Offer γ)))
  | [], soonest => .ok soonest
  | (threads, i) :: rest, soonest =>
      match Generator.op (oracle.sub (2 * i + 1)) (this.gen i) (this.contextFilter i ctx) with
      | .error t => .error t
      | .ok none => askRanges oracle this ctx rest soonest
      | .ok (some (op, gen')) =>
          askRanges oracle this ctx rest
            (soonestOpMap ((oracle.sub (2 * i + 2)).draw 0) soonest
              (some ⟨op, some threads.card, ⟨i, gen'⟩⟩))

/-- The soonest of the operations the generators offer. The default generator is asked
first. -/
def soonest (oracle : Oracle) (this : Reserve γ) (ctx : Context) :
    Except Thrown (Option (Candidate V (Offer γ))) :=
  let default := this.ranges.length
  let defaultCtx := this.contextFilter default ctx
  match Generator.op (oracle.sub 0) (this.gen default) defaultCtx with
  | .error t => .error t
  | .ok none => askRanges oracle this ctx this.ranges.zipIdx none
  | .ok (some (op, gen')) =>
      askRanges oracle this ctx this.ranges.zipIdx
        (some ⟨op, some defaultCtx.allThreadCount, ⟨default, gen'⟩⟩)

/-- `Reserve.op` -/
def op (oracle : Oracle) (this : Reserve γ) (ctx : Context) :
    Except Thrown (Option (Answer V × Option (Reserve γ))) :=
  match this.soonest oracle ctx with
  | .error t => .error t
  | .ok none => .ok none
  | .ok (some m) => .ok (some (m.op, some (this.assoc m.payload.i m.payload.gen')))

/-- `Reserve.update` -/
def update (this : Reserve γ) (ctx : Context) (event : Op V) :
    Except Thrown (Option (Reserve γ)) :=
  let thread := ctx.processToThread event.process
  -- Find generator whose thread produced this event.
  let i := indexOf thread this.ranges 0
  match Generator.update (this.gen i) ctx event with
  | .error t => .error t
  | .ok gen' => .ok (some (this.assoc i gen'))

instance : Protocol (Reserve γ) V where
  op := op
  update := update

end Reserve

/-- `(reserve count gen count gen ... default)`; it asserts that there is a default
generator. -/
def reserve {γ : Type v} (specs : List (ℕ × Option γ)) (default : γ) : Reserve γ where
  ranges := rangesFrom 0 (specs.map Prod.fst)
  gens := specs.map Prod.snd ++ [some default]
  disjoint := disjoint_rangesFrom _ _
  length_gens := by
    rw [List.length_append, List.length_map, length_rangesFrom, List.length_map,
      List.length_singleton]

end Jepsen.Generator
