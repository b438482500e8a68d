/-
# Generators that bound a run

`limit` passes on so many operations of another generator, `concurrency-limit` passes them on
while few threads are busy, and `process-limit` as long as there were few processes. The bounds
are on whole tests: how many operations a run of the interpreter dispatches, how many of them are
in flight at any point of it, and how many processes they are for.
-/

import Jepsen.Generator.Scheduling
import Jepsen.Generator.ValidateGate

namespace Jepsen.Generator

open Jepsen.History Jepsen.Library
open Jepsen.Generator.Context Jepsen.Generator.Interpreter

universe u v w

variable {γ : Type v} {V : Type u}

/-! ## The generators -/

/-- `(defrecord Limit [remaining gen])` -/
structure Limit (γ : Type v) where
  remaining : ℤ
  gen : Option γ

/-- `(limit remaining gen)` -/
def limit (remaining : ℤ) (gen : Option γ) : Option (Limit γ) :=
  gen.map fun g => ⟨remaining, some g⟩

/-- `(defrecord ConcurrencyLimit [n gen])` -/
structure ConcurrencyLimit (γ : Type v) where
  n : ℤ
  gen : Option γ

/-- `(concurrency-limit n gen)` -/
def concurrencyLimit (n : ℤ) (gen : Option γ) : Option (ConcurrencyLimit γ) :=
  if 0 < n then gen.map fun g => ⟨n, some g⟩ else none

/-- `(defrecord ProcessLimit [n procs gen])` -/
structure ProcessLimit (γ : Type v) where
  n : ℤ
  procs : Finset Name
  gen : Option γ

/-- `(process-limit n gen)` -/
def processLimit (n : ℤ) (gen : Option γ) : Option (ProcessLimit γ) :=
  if 0 < n then gen.map fun g => ⟨n, ∅, some g⟩ else none

/-- `all-processes`. -/
def Context.allProcesses (ctx : Context) : List Name := ctx.allThreads.filterMap ctx.threadToProcess

section Protocols

variable [Protocol γ V]

/-- `Limit.op`. -/
def Limit.op (oracle : Oracle) (this : Limit γ) (ctx : Context) :
    Except Thrown (Option (Answer V × Option (Limit γ))) :=
  if 0 < this.remaining then
    match Generator.op oracle this.gen ctx with
    | .error t => .error t
    | .ok none => .ok none
    -- `:pending` is counted too, but whoever discards it keeps the old generator.
    | .ok (some (answer, gen')) => .ok (some (answer, some ⟨this.remaining - 1, gen'⟩))
  else .ok none

/-- `Limit.update`. -/
def Limit.update (this : Limit γ) (ctx : Context) (event : Op V) :
    Except Thrown (Option (Limit γ)) :=
  passUpdate this.gen ctx event fun gen' => { this with gen := gen' }

instance : Protocol (Limit γ) V where
  op := Limit.op
  update := Limit.update

/-- `ConcurrencyLimit.op`. -/
def ConcurrencyLimit.op (oracle : Oracle) (this : ConcurrencyLimit γ) (ctx : Context) :
    Except Thrown (Option (Answer V × Option (ConcurrencyLimit γ))) :=
  if (ctx.allThreadCount : ℤ) - ctx.freeThreadCount < this.n then
    match Generator.op oracle this.gen ctx with
    | .error t => .error t
    | .ok none => .ok none
    | .ok (some (answer, gen')) => .ok (some (answer, some { this with gen := gen' }))
  else .ok (some (.pending, some this))

/-- `ConcurrencyLimit.update`. -/
def ConcurrencyLimit.update (this : ConcurrencyLimit γ) (ctx : Context) (event : Op V) :
    Except Thrown (Option (ConcurrencyLimit γ)) :=
  passUpdate this.gen ctx event fun gen' => { this with gen := gen' }

instance : Protocol (ConcurrencyLimit γ) V where
  op := ConcurrencyLimit.op
  update := ConcurrencyLimit.update

/-- `ProcessLimit.op`. -/
def ProcessLimit.op (oracle : Oracle) (this : ProcessLimit γ) (ctx : Context) :
    Except Thrown (Option (Answer V × Option (ProcessLimit γ))) :=
  match Generator.op oracle this.gen ctx with
  | .error t => .error t
  | .ok none => .ok none
  | .ok (some (.pending, gen')) => .ok (some (.pending, some { this with gen := gen' }))
  | .ok (some (.op o, gen')) =>
      let procs' := this.procs ∪ ctx.allProcesses.toFinset
      if (procs'.card : ℤ) ≤ this.n then
        .ok (some (.op o, some { this with procs := procs', gen := gen' }))
      else .ok none

/-- `ProcessLimit.update`. -/
def ProcessLimit.update (this : ProcessLimit γ) (ctx : Context) (event : Op V) :
    Except Thrown (Option (ProcessLimit γ)) :=
  passUpdate this.gen ctx event fun gen' => { this with gen := gen' }

instance : Protocol (ProcessLimit γ) V where
  op := ProcessLimit.op
  update := ProcessLimit.update

/-! ## What each of them does -/

theorem Limit.op_eq_op {oracle : Oracle} {this : Limit γ} {ctx : Context} {o : Op V}
    {next : Option (Limit γ)}
    (hop : Generator.op oracle (some this) ctx = .ok (some (.op o, next))) :
    0 < this.remaining ∧ ∃ gen', Generator.op oracle this.gen ctx = .ok (some (.op o, gen')) ∧
      next = some ⟨this.remaining - 1, gen'⟩ := by
  change Limit.op oracle this ctx = _ at hop
  unfold Limit.op at hop
  split_ifs at hop with hpos
  · refine ⟨hpos, ?_⟩
    split at hop
    · cases hop
    · cases hop
    · rename_i answer gen' hgen
      cases hop
      exact ⟨gen', hgen, rfl⟩
  · cases hop

theorem ConcurrencyLimit.op_eq_op {oracle : Oracle} {this : ConcurrencyLimit γ} {ctx : Context}
    {o : Op V} {next : Option (ConcurrencyLimit γ)}
    (hop : Generator.op oracle (some this) ctx = .ok (some (.op o, next))) :
    (ctx.allThreadCount : ℤ) - ctx.freeThreadCount < this.n ∧
      ∃ gen', Generator.op oracle this.gen ctx = .ok (some (.op o, gen')) ∧
        next = some ⟨this.n, gen'⟩ := by
  change ConcurrencyLimit.op oracle this ctx = _ at hop
  unfold ConcurrencyLimit.op at hop
  split_ifs at hop with hfew
  · refine ⟨hfew, ?_⟩
    split at hop
    · cases hop
    · cases hop
    · rename_i answer gen' hgen
      cases hop
      exact ⟨gen', hgen, rfl⟩
  · cases hop

theorem ProcessLimit.op_eq_op {oracle : Oracle} {this : ProcessLimit γ} {ctx : Context} {o : Op V}
    {next : Option (ProcessLimit γ)}
    (hop : Generator.op oracle (some this) ctx = .ok (some (.op o, next))) :
    ((this.procs ∪ ctx.allProcesses.toFinset).card : ℤ) ≤ this.n ∧
      ∃ gen', Generator.op oracle this.gen ctx = .ok (some (.op o, gen')) ∧
        next = some ⟨this.n, this.procs ∪ ctx.allProcesses.toFinset, gen'⟩ := by
  change ProcessLimit.op oracle this ctx = _ at hop
  unfold ProcessLimit.op at hop
  split at hop
  · cases hop
  · cases hop
  · cases hop
  · rename_i o' gen' hgen
    dsimp only at hop
    split_ifs at hop with hfew
    · cases hop
      exact ⟨hfew, gen', hgen, rfl⟩
    · cases hop

end Protocols

/-! ## How many operations a run dispatches -/

section Limits

variable [Protocol γ V] {gen : Option γ} {drives : List (Drive V)}

/-- A limited generator and the one under it, after operations were adopted from each of them. -/
structure Counts (k : ℤ) (ops : List (Op V)) (s : Option (Limit γ)) (own : List (Op V))
    (t : Option γ) : Prop where
  same : own = ops
  state : s = some ⟨k - ops.length, t⟩
  counted : (ops.length : ℤ) ≤ max k 0

/-- Whoever drives a limited generator gets the operations of a drive of the generator under it,
and not more of them than the limit. -/
theorem limit_counts {k : ℤ} {s : Option (Limit γ)} (hrun : Run Driven (limit k gen) drives s) :
    ∃ own t, Run Driven gen own t ∧ Drive.emitted own = Drive.emitted drives ∧
      ((Drive.emitted drives).length : ℤ) ≤ max k 0 := by
  cases gen with
  | none =>
    obtain ⟨-, hemitted⟩ := run_driven_none hrun
    rw [hemitted]
    exact ⟨[], none, .nil, rfl, le_max_right k 0⟩
  | some gen =>
    have hstart : Counts k ([] : List (Op V)) (limit k (some gen)) [] (some gen) :=
      ⟨rfl, congrArg (fun r => some (⟨r, some gen⟩ : Limit γ)) (sub_zero k).symm,
        le_max_right k 0⟩
    obtain ⟨own, t, hown, hcounts⟩ := run_passes (Counts k) hstart
      (fun {ops s own t oracle ctx o s'} hcounts hoffered => by
        obtain ⟨rfl, rfl, hcounted⟩ := hcounts
        obtain ⟨hpos, gen', hgen, rfl⟩ := Limit.op_eq_op hoffered
        have hlength : ((own ++ [o]).length : ℤ) = own.length + 1 := by
          rw [List.length_append, List.length_singleton, Nat.cast_add, Nat.cast_one]
        refine ⟨oracle, o, gen', hgen, rfl, ?_, ?_⟩
        · rw [hlength, ← sub_sub]
        · rw [hlength]
          dsimp only at hpos
          omega)
      (fun {ops s own t ctx event s'} hcounts hupdated => by
        obtain ⟨rfl, rfl, hcounted⟩ := hcounts
        obtain ⟨gen', hgen, rfl⟩ := passUpdate_eq_ok hupdated
        exact ⟨gen', hgen, rfl, rfl, hcounted⟩) hrun
    exact ⟨own, t, hown, hcounts.same, hcounts.counted⟩

/-- In every run of the interpreter, whatever the interleaving, a limited generator has no more
operations dispatched than its limit, and they are those of a drive of the generator under it. -/
theorem limited_run {env : Env V} {n : ℕ} {k : ℤ} {labels : List (Label V)}
    {s : State (Limit γ) V} (hrun : Run (Step env) (State.init n (limit k gen)) labels s) :
    ∃ own t, Run Driven gen own t ∧ Drive.emitted own = labels.filterMap Label.dispatch ∧
      ((labels.filterMap Label.dispatch).length : ℤ) ≤ max k 0 := by
  obtain ⟨drives, hdriven, hdispatched⟩ := run_driven hrun
  rw [← hdispatched]
  exact limit_counts hdriven

theorem readMap_counted :
    ∃ own t, Run Driven (some readMap) own t ∧
      Drive.emitted own = [Label.dispatched (.int 0) 0 readOp].filterMap Label.dispatch ∧
      (([Label.dispatched (.int 0) 0 readOp].filterMap Label.dispatch).length : ℤ) ≤ max 1 0 := by
  have hstep : Step Env.returns (State.init 1 (limit 1 (some readMap)))
      (.dispatched (.int 0) 0 readOp) _ := .dispatch Oracle.zero 0 rfl rfl
  exact limited_run (Run.single hstep)

end Limits

/-! ## How many of them are in flight -/

namespace Interpreter

/-- In a context that is tracked the counts of threads tell how many operations are outstanding. -/
theorem Tracked.outstanding_eq {n : ℕ} {s : State γ V} (htr : Tracked n s) (time : ℤ) :
    s.outstanding = ((s.ctx.withTime time).allThreadCount : ℤ) -
      (s.ctx.withTime time).freeThreadCount := by
  rw [htr.outstanding, State.busyBits, Finset.cast_card_sdiff htr.wf.free_subset]
  rfl

/-- No more threads than there are outstanding operations have anything in flight. -/
theorem Tracked.card_inFlight_le {n : ℕ} {s : State γ V} (htr : Tracked n s)
    {threads : Finset Name} (hnames : ∀ thread ∈ threads, thread ∈ (testTable n).allNames)
    (hflight : ∀ thread ∈ threads, s.inFlight thread ≠ []) :
    (threads.card : ℤ) ≤ s.outstanding := by
  rw [htr.outstanding, Nat.cast_le]
  refine Finset.card_le_card_of_injOn (bit n) (fun thread hthread => ?_)
    fun thread hthread other hother hbit => ?_
  · refine Finset.mem_sdiff.mpr ⟨?_, fun hfree => hflight thread hthread ?_⟩
    · rw [htr.all, Finset.mem_range]
      exact Tracked.bit_lt (hnames thread hthread)
    · exact htr.idle thread hfree (hnames thread hthread)
  · exact nameToIndex_testTable_inj (hnames thread hthread) (hnames other hother) hbit

end Interpreter

section ConcurrencyLimits

variable [Protocol γ V] {gen : Option γ}

/-- A generator with a concurrency limit in a run that respects it. -/
structure LimitsConcurrency (n : ℕ) (k : ℤ) (s : State (ConcurrencyLimit γ) V) : Prop where
  tracked : Tracked n s
  limit : ∀ this ∈ core s.gen, this.n = k
  outstanding : s.outstanding ≤ max k 0

theorem limitsConcurrency_init (n : ℕ) (k : ℤ) (gen : Option γ) :
    LimitsConcurrency n k
      (State.init n (concurrencyLimit k gen) : State (ConcurrencyLimit γ) V) where
  tracked := tracked_init n _
  limit := by
    intro this hthis
    rw [core_init] at hthis
    unfold concurrencyLimit at hthis
    split_ifs at hthis with hpos
    · obtain ⟨g, -, rfl⟩ := Option.map_eq_some_iff.mp hthis
      rfl
    · cases hthis
  outstanding := le_max_right k 0

theorem ConcurrencyLimit.n_of_update {k : ℤ} {s s' : Option (ConcurrencyLimit γ)} {ctx : Context}
    {event : Op V} (hlimit : ∀ this ∈ s, this.n = k)
    (hupdate : Generator.update s ctx event = .ok s') : ∀ this ∈ s', this.n = k := by
  cases s with
  | none =>
    cases hupdate
    exact hlimit
  | some this =>
    obtain ⟨gen', -, rfl⟩ := passUpdate_eq_ok hupdate
    intro this' hthis
    cases hthis
    exact hlimit this rfl

theorem LimitsConcurrency.step {env : Env V} {n : ℕ} {k : ℤ}
    {s s' : State (ConcurrencyLimit γ) V} {l : Label V} (hs : LimitsConcurrency n k s)
    (hstep : Step env s l s') : LimitsConcurrency n k s' := by
  have htr := hs.tracked.step hstep (labelNamesFree_of_step hs.tracked hstep)
  cases hstep with
  | take thread hqueued hidle => exact ⟨htr, hs.limit, hs.outstanding⟩
  | finish thread hbusy houtcome => exact ⟨htr, hs.limit, hs.outstanding⟩
  | complete time hpolled hcomplete =>
    obtain ⟨thread, gen, ctx, -, hupdate, -, rfl⟩ := State.complete_eq_ok hcomplete
    refine ⟨htr, ConcurrencyLimit.n_of_update hs.limit (update_core hupdate), ?_⟩
    exact (sub_le_self _ zero_le_one).trans hs.outstanding
  | wait oracle time hwait =>
    rw [State.generate_eq_waiting hwait] at htr ⊢
    exact ⟨htr, hs.limit, hs.outstanding⟩
  | dispatch oracle time hdispatch hexecutes =>
    obtain ⟨gen', hop, -, hnext⟩ := State.generate_eq_dispatched hdispatch
    obtain ⟨thread, gen, -, hupdate, rfl⟩ := State.dispatch_eq_ok hnext
    have hcore := op_core hop
    cases hgen : core s.gen with
    | none =>
      rw [hgen] at hcore
      cases hcore
    | some this =>
      rw [hgen] at hcore
      obtain ⟨hfew, gen'', -, hgen'⟩ := ConcurrencyLimit.op_eq_op hcore
      have hk := hs.limit this hgen
      rw [← hs.tracked.outstanding_eq time, hk] at hfew
      refine ⟨htr, ConcurrencyLimit.n_of_update ?_ (update_core hupdate), ?_⟩
      · intro this' hthis
        rw [hgen'] at hthis
        cases hthis
        exact hk
      · exact le_max_of_le_left (Int.add_one_le_of_lt hfew)

/-- Whoever drives a generator with a concurrency limit gets the operations of a drive of the
generator under it. -/
theorem concurrencyLimit_passes {k : ℤ} {drives : List (Drive V)}
    {s : Option (ConcurrencyLimit γ)} (hrun : Run Driven (concurrencyLimit k gen) drives s) :
    ∃ own t, Run Driven gen own t ∧ Drive.emitted own = Drive.emitted drives := by
  unfold concurrencyLimit at hrun
  cases hgen : (if 0 < k then gen.map fun g => (⟨k, some g⟩ : ConcurrencyLimit γ) else none) with
  | none =>
    rw [hgen] at hrun
    exact ⟨[], gen, .nil, (run_driven_none hrun).2.symm⟩
  | some this =>
    rw [hgen] at hrun
    split_ifs at hgen with hpos
    obtain ⟨g, rfl, rfl⟩ := Option.map_eq_some_iff.mp hgen
    obtain ⟨own, t, hown, hsame, -⟩ := run_passes
      (fun (ops : List (Op V)) s own t => own = ops ∧ s = some (⟨k, t⟩ : ConcurrencyLimit γ))
      ⟨rfl, rfl⟩
      (fun {ops s own t oracle ctx o s'} hsame hoffered => by
        obtain ⟨rfl, rfl⟩ := hsame
        obtain ⟨-, gen', hgen, rfl⟩ := ConcurrencyLimit.op_eq_op hoffered
        exact ⟨oracle, o, gen', hgen, rfl, rfl⟩)
      (fun {ops s own t ctx event s'} hsame hupdated => by
        obtain ⟨rfl, rfl⟩ := hsame
        obtain ⟨gen', hgen, rfl⟩ := passUpdate_eq_ok hupdated
        exact ⟨gen', hgen, rfl, rfl⟩) hrun
    exact ⟨own, t, hown, hsame⟩

end ConcurrencyLimits

/-! ## How many processes they are for -/

section ProcessLimits

/-- The processes of the operations that were dispatched. -/
def processesOf (labels : List (Label V)) : Finset Name :=
  ((labels.filterMap Label.dispatch).map Op.process).toFinset

theorem processesOf_snoc (labels : List (Label V)) (l : Label V) :
    processesOf (labels ++ [l]) = processesOf labels ∪ processesOf [l] := by
  unfold processesOf
  rw [List.filterMap_append, List.map_append, List.toFinset_append]

/-- A process that a free thread executes is one of all processes. -/
theorem mem_allProcesses {n : ℕ} {ctx : Context} (hwf : WellFormed n ctx) {o : Op V}
    (hfree : NamesFree ctx o) : o.process ∈ ctx.allProcesses := by
  obtain ⟨thread, hthread, hprocess⟩ := hfree
  exact List.mem_filterMap.mpr ⟨thread, hwf.mem_allThreads_of_free hthread, hprocess⟩

variable [Protocol γ V] {gen : Option γ}

/-- A generator with a process limit that has seen every process with an operation. -/
def LimitsProcesses (k : ℤ) (labels : List (Label V)) (s : State (ProcessLimit γ) V) : Prop :=
  ∃ procs t, core s.gen = some ⟨k, procs, t⟩ ∧ processesOf labels ⊆ procs ∧
    (procs.card : ℤ) ≤ max k 0

/-- A step that dispatches nothing adds no process. -/
theorem LimitsProcesses.keep {k : ℤ} {labels : List (Label V)} {s s' : State (ProcessLimit γ) V}
    {l : Label V} (hs : LimitsProcesses k labels s) (hnone : l.dispatch = none)
    (hgen : ∀ procs t, core s.gen = some ⟨k, procs, t⟩ →
      ∃ t', core s'.gen = some ⟨k, procs, t'⟩) : LimitsProcesses k (labels ++ [l]) s' := by
  obtain ⟨procs, t, hcore, hsubset, hcard⟩ := hs
  obtain ⟨t', hcore'⟩ := hgen procs t hcore
  have hempty : processesOf [l] = ∅ := by
    rw [processesOf, filterMap_singleton, hnone]
    rfl
  refine ⟨procs, t', hcore', ?_, hcard⟩
  rw [processesOf_snoc, hempty, Finset.union_empty]
  exact hsubset

theorem LimitsProcesses.step {env : Env V} {n : ℕ} {k : ℤ} {labels : List (Label V)}
    {s s' : State (ProcessLimit γ) V} {l : Label V} (hs : LimitsProcesses k labels s)
    (htr : Tracked n s) (hstep : Step env s l s') : LimitsProcesses k (labels ++ [l]) s' := by
  have hnames := labelNamesFree_of_step htr hstep
  cases hstep with
  | take thread hqueued hidle => exact hs.keep rfl fun procs t hcore => ⟨t, hcore⟩
  | finish thread hbusy houtcome => exact hs.keep rfl fun procs t hcore => ⟨t, hcore⟩
  | complete time hpolled hcomplete =>
    obtain ⟨thread, gen, ctx, -, hupdate, -, rfl⟩ := State.complete_eq_ok hcomplete
    refine hs.keep rfl fun procs t hcore => ?_
    have hupdated := update_core hupdate
    rw [hcore] at hupdated
    obtain ⟨t', -, hnext⟩ := passUpdate_eq_ok hupdated
    exact ⟨t', hnext⟩
  | wait oracle time hwait =>
    rw [State.generate_eq_waiting hwait]
    exact hs.keep rfl fun procs t hcore => ⟨t, hcore⟩
  | @dispatch _ _ o oracle time hdispatch hexecutes =>
    obtain ⟨procs, t, hcore, hsubset, hcard⟩ := hs
    obtain ⟨gen', hop, -, hnext⟩ := State.generate_eq_dispatched hdispatch
    obtain ⟨thread, gen, -, hupdate, rfl⟩ := State.dispatch_eq_ok hnext
    have hoffered := op_core hop
    rw [hcore] at hoffered
    obtain ⟨hfew, offered, -, hstate⟩ := ProcessLimit.op_eq_op hoffered
    have hupdated := update_core hupdate
    rw [hstate] at hupdated
    obtain ⟨t', -, hnext'⟩ := passUpdate_eq_ok hupdated
    refine ⟨_, t', hnext', ?_, le_max_of_le_left hfew⟩
    rw [processesOf_snoc]
    refine Finset.union_subset_union hsubset ?_
    intro process hprocess
    obtain rfl : process = o.process := List.mem_singleton.mp (List.mem_toFinset.mp hprocess)
    exact List.mem_toFinset.mpr (mem_allProcesses (htr.wf.withTime time) hnames)

/-- Whoever drives a generator with a process limit gets the operations of a drive of the generator
under it. -/
theorem processLimit_passes {k : ℤ} {gen : γ} {drives : List (Drive V)}
    {s : Option (ProcessLimit γ)}
    (hrun : Run Driven (some (⟨k, ∅, some gen⟩ : ProcessLimit γ)) drives s) :
    ∃ own t, Run Driven (some gen) own t ∧ Drive.emitted own = Drive.emitted drives := by
  obtain ⟨own, t, hown, hsame, -⟩ := run_passes
    (fun (ops : List (Op V)) s own t =>
      own = ops ∧ ∃ procs, s = some (⟨k, procs, t⟩ : ProcessLimit γ))
    ⟨rfl, ∅, rfl⟩
    (fun {ops s own t oracle ctx o s'} hsame hoffered => by
      obtain ⟨rfl, procs, rfl⟩ := hsame
      obtain ⟨-, gen', hgen, rfl⟩ := ProcessLimit.op_eq_op hoffered
      exact ⟨oracle, o, gen', hgen, rfl, _, rfl⟩)
    (fun {ops s own t ctx event s'} hsame hupdated => by
      obtain ⟨rfl, procs, rfl⟩ := hsame
      obtain ⟨gen', hgen, rfl⟩ := passUpdate_eq_ok hupdated
      exact ⟨gen', hgen, rfl, procs, rfl⟩) hrun
  exact ⟨own, t, hown, hsame⟩

/-- In every run of the interpreter a generator with a process limit has the operations of a drive
of the generator under it dispatched, and they are for no more processes than the limit. -/
theorem processLimit_bounds {env : Env V} {n : ℕ} {k : ℤ} {labels : List (Label V)}
    {s : State (ProcessLimit γ) V}
    (hrun : Run (Step env) (State.init n (processLimit k gen)) labels s) :
    (∃ own t, Run Driven gen own t ∧ Drive.emitted own = labels.filterMap Label.dispatch) ∧
      ((processesOf labels).card : ℤ) ≤ max k 0 := by
  obtain ⟨drives, hdriven, hdispatched⟩ := run_driven hrun
  unfold processLimit at hrun hdriven
  cases hgen : (if 0 < k then gen.map fun g => (⟨k, ∅, some g⟩ : ProcessLimit γ) else none) with
  | none =>
    rw [hgen] at hdriven
    obtain ⟨-, hnone⟩ := run_driven_none hdriven
    rw [processesOf, ← hdispatched, hnone]
    exact ⟨⟨[], gen, .nil, rfl⟩, le_max_right k 0⟩
  | some this =>
    rw [hgen] at hrun hdriven
    split_ifs at hgen with hpos
    obtain ⟨g, rfl, rfl⟩ := Option.map_eq_some_iff.mp hgen
    have hlimits : LimitsProcesses k labels s := by
      clear hdriven hdispatched
      induction hrun with
      | nil => exact ⟨∅, some g, core_init n _, Finset.empty_subset ∅, le_max_right k 0⟩
      | snoc hprior hlast ih => exact ih.step (tracked_run hprior) hlast
    obtain ⟨procs, t, -, hsubset, hcard⟩ := hlimits
    rw [← hdispatched]
    exact ⟨processLimit_passes hdriven,
      (Nat.cast_le.mpr (Finset.card_le_card hsubset)).trans hcard⟩

theorem readMap_oneProcess :
    (∃ own t, Run Driven (some readMap) own t ∧
      Drive.emitted own = [Label.dispatched (.int 0) 0 readOp].filterMap Label.dispatch) ∧
      ((processesOf [Label.dispatched (.int 0) 0 readOp]).card : ℤ) ≤ max 2 0 := by
  have hstep : Step Env.returns (State.init 1 (processLimit 2 (some readMap)))
      (.dispatched (.int 0) 0 readOp) _ := .dispatch Oracle.zero 0 rfl rfl
  exact processLimit_bounds (Run.single hstep)

end ProcessLimits

end Jepsen.Generator
