/-
# Generators on a rotating schedule

`cycle-times` gives each of several generators a window of time, one after another and then
all over again. Asked for an operation, it looks for the first window, from the current one
on, in which the window's generator has an operation to offer; a generator whose window is
still to come is asked as if it had come already.
-/

import Jepsen.Generator.OpMap

namespace Jepsen.Generator

open Jepsen.History

universe u v

/-- `(reductions + intervals)` -/
def cutoffsOf (intervals : List ℤ) : List ℤ := (intervals.scanl (· + ·) 0).tail

/-- `(defrecord CycleTimes [period t0 intervals cutoffs gens])`; times are in nanoseconds. -/
structure CycleTimes (γ : Type v) where
  /-- Starting time, initially `nil`. -/
  t0 : Option ℤ
  /-- How long each generator lasts for. -/
  intervals : List ℤ
  gens : List (Option γ)
  length_gens : gens.length = intervals.length
  nonempty : intervals ≠ []

namespace CycleTimes

variable {γ : Type v} {V : Type u}

/-- `period`: the total period of the cycle. -/
def period (this : CycleTimes γ) : ℤ := this.intervals.sum

/-- `cutoffs`: times below which that particular generator starts. -/
def cutoffs (this : CycleTimes γ) : List ℤ := cutoffsOf this.intervals

/-- The record with a starting time and another state of one generator. -/
def advance (this : CycleTimes γ) (t0 : ℤ) (i : ℕ) (gen' : Option γ) : CycleTimes γ :=
  { this with
    t0 := some t0
    gens := this.gens.set i gen'
    length_gens := List.length_set.trans this.length_gens }

variable [Protocol γ V]

/-- Cycle through the generators in order, looking for one which can produce an operation which
falls before the end of its window; `none` if the iterations run out. -/
def scan (oracle : Oracle) (this : CycleTimes γ) (ctx : Context) (t0 : ℤ) :
    ℕ → ℕ → ℤ → Option (Except Thrown (Option (Answer V × Option (CycleTimes γ))))
  | 0, _, _ => none
  | fuel + 1, i, t =>
      match this.gens[i]?, this.intervals[i]? with
      | some gen, some interval =>
          -- When does the next generator start?
          let t' := t + interval
          -- We use the current time, or the start of the generator's window.
          match Generator.op (oracle.sub fuel) gen (ctx.withTime (max ctx.time t)) with
          | .error thrown => some (.error thrown)
          | .ok none => some (.ok none)
          | .ok (some (.pending, gen')) =>
              some (.ok (some (.pending, some (this.advance t0 i gen'))))
          | .ok (some (.op o, gen')) =>
              if o.time < t' then some (.ok (some (.op o, some (this.advance t0 i gen'))))
              else scan oracle this ctx t0 fuel ((i + 1) % this.gens.length) t'
      | _, _ => some (.error .indexOutOfBounds)

/-- Where the scan starts: the starting time, the current generator, and when its window
started. -/
def position (this : CycleTimes γ) (now : ℤ) : ℤ × ℕ × ℤ :=
  -- When's the zero point of our timeline?
  let t0 := this.t0.getD now
  -- How far are we into the current cycle?
  let inPeriod := Int.fmod (now - t0) this.period
  -- When was the start of the current cycle?
  let cycleStart := now - inPeriod
  let i := this.cutoffs.findIdx fun cutoff => decide (inPeriod < cutoff)
  (t0, i, (this.intervals.take i).foldl (· + ·) cycleStart)

/-- `CycleTimes.op` -/
def op (oracle : Oracle) (this : CycleTimes γ) (ctx : Context) :
    Except Thrown (Option (Answer V × Option (CycleTimes γ))) :=
  if this.period = 0 then .error (.threw "Divide by zero")
  else
    let (t0, i, t) := this.position ctx.time
    (this.scan oracle ctx t0 oracle.fuel i t).getD (.error .diverged)

/-- Tell every generator. -/
def updateAll (ctx : Context) (event : Op V) :
    List (Option γ) → Except Thrown (List (Option γ))
  | [] => .ok []
  | gen :: gens =>
      match Generator.update gen ctx event with
      | .error t => .error t
      | .ok gen' =>
          match updateAll ctx event gens with
          | .error t => .error t
          | .ok gens' => .ok (gen' :: gens')

theorem length_updateAll {ctx : Context} {event : Op V} {gens gens' : List (Option γ)}
    (hupdate : updateAll ctx event gens = .ok gens') : gens'.length = gens.length := by
  induction gens generalizing gens' with
  | nil =>
    cases hupdate
    rfl
  | cons gen gens ih =>
    rw [updateAll] at hupdate
    split at hupdate
    · cases hupdate
    · split at hupdate
      · cases hupdate
      · rename_i gens'' hgens
        cases hupdate
        rw [List.length_cons, List.length_cons, ih hgens]

/-- `CycleTimes.update` -/
def update (this : CycleTimes γ) (ctx : Context) (event : Op V) :
    Except Thrown (Option (CycleTimes γ)) :=
  match h : updateAll ctx event this.gens with
  | .error t => .error t
  | .ok gens => .ok (some
      { this with gens := gens, length_gens := (length_updateAll h).trans this.length_gens })

instance : Protocol (CycleTimes γ) V where
  op := op
  update := update

end CycleTimes

/-- `(long (secs->nanos s))` -/
def nanos (secs : ℚ) : ℤ := (secs * 10 ^ 9).num.tdiv (secs * 10 ^ 9).den

/-- `(cycle-times interval gen interval gen ...)`. Each generator is left in a list of its own,
which acts as the generator does. -/
def cycleTimes {γ : Type v} (specs : List (ℚ × γ)) : Option (CycleTimes γ) :=
  if h : specs = [] then none
  else some
    { t0 := none
      intervals := specs.map fun spec => nanos spec.1
      gens := specs.map fun spec => some spec.2
      length_gens := by rw [List.length_map, List.length_map]
      nonempty := fun hnil => h (List.map_eq_nil_iff.mp hnil) }

namespace CycleTimes

variable {γ : Type v} {V : Type u} (this : CycleTimes γ)

/-! ## Windows -/

/-- Where in the cycle the window of a generator starts. -/
def startOf (i : ℕ) : ℤ := (this.intervals.take i).sum

/-- The time is in a window of the generator. -/
def InWindow (t0 : ℤ) (i : ℕ) (time : ℤ) : Prop :=
  this.startOf i ≤ (time - t0) % this.period ∧ (time - t0) % this.period < this.startOf (i + 1)

/-- A window of the generator starts at the time. -/
def Starts (t0 : ℤ) (i : ℕ) (t : ℤ) : Prop :=
  i < this.intervals.length ∧ ∃ k, t = t0 + k * this.period + this.startOf i

variable {this}

theorem startOf_succ {i : ℕ} {interval : ℤ} (hi : this.intervals[i]? = some interval) :
    this.startOf (i + 1) = this.startOf i + interval := by
  rw [startOf, List.take_add_one, hi, List.sum_append]
  simp [startOf]

theorem startOf_length : this.startOf this.intervals.length = this.period := by
  rw [startOf, List.take_length, period]

theorem startOf_le_period (hpos : ∀ interval ∈ this.intervals, 0 < interval) (i : ℕ) :
    0 ≤ this.startOf i ∧ this.startOf i ≤ this.period := by
  have hnonneg : ∀ l : List ℤ, (∀ x ∈ l, 0 < x) → 0 ≤ l.sum := fun l hl =>
    List.sum_nonneg fun x hx => (hl x hx).le
  have hsplit : this.period = this.startOf i + (this.intervals.drop i).sum := by
    rw [period, startOf, ← List.sum_append, List.take_append_drop]
  refine ⟨hnonneg _ fun x hx => hpos x (List.mem_of_mem_take hx), ?_⟩
  have hdrop := hnonneg (this.intervals.drop i) fun x hx => hpos x (List.mem_of_mem_drop hx)
  omega

theorem period_pos (hpos : ∀ interval ∈ this.intervals, 0 < interval) : 0 < this.period :=
  List.sum_pos _ hpos this.nonempty

/-- The window after a window starts where the window ends. -/
theorem Starts.next {t0 t interval : ℤ} {i : ℕ} (h : this.Starts t0 i t)
    (hi : this.intervals[i]? = some interval) :
    this.Starts t0 ((i + 1) % this.gens.length) (t + interval) := by
  obtain ⟨hlt, k, rfl⟩ := h
  rw [this.length_gens]
  by_cases hlast : i + 1 = this.intervals.length
  · refine ⟨Nat.mod_lt _ (by omega), k + 1, ?_⟩
    have hend := startOf_succ hi
    rw [hlast, startOf_length] at hend
    rw [hlast, Nat.mod_self]
    have hzero : this.startOf 0 = 0 := rfl
    rw [hzero]
    linarith
  · rw [Nat.mod_eq_of_lt (by omega)]
    refine ⟨by omega, k, ?_⟩
    rw [startOf_succ hi]
    ring

/-- From the start of a window to its end, times are in the window. -/
theorem Starts.inWindow (hpos : ∀ interval ∈ this.intervals, 0 < interval) {t0 t interval time : ℤ}
    {i : ℕ} (h : this.Starts t0 i t) (hi : this.intervals[i]? = some interval) (hle : t ≤ time)
    (hlt : time < t + interval) : this.InWindow t0 i time := by
  obtain ⟨-, k, rfl⟩ := h
  have hstart := startOf_le_period hpos i
  have hend := startOf_le_period hpos (i + 1)
  have hsucc := startOf_succ hi
  have hoffset : (time - t0) % this.period = time - t0 - k * this.period := by
    rw [← Int.emod_eq_of_lt (a := time - t0 - k * this.period) (b := this.period)]
    · rw [Int.sub_mul_emod_self_right]
    · linarith
    · linarith
  rw [InWindow, hoffset, hsucc]
  exact ⟨by linarith, by linarith⟩

theorem getElem?_cutoffs {i : ℕ} (hi : i < this.intervals.length) :
    this.cutoffs[i]? = some (this.startOf (i + 1)) := by
  rw [cutoffs, cutoffsOf, List.getElem?_tail, List.getElem?_scanl,
    if_pos (Nat.succ_le_of_lt hi), startOf, List.sum_eq_foldl]

theorem length_cutoffs : this.cutoffs.length = this.intervals.length := by
  rw [cutoffs, cutoffsOf, List.length_tail, List.length_scanl, Nat.add_sub_cancel]

/-- The scan starts at the start of a window. -/
theorem starts_position (hpos : ∀ interval ∈ this.intervals, 0 < interval) (now : ℤ) :
    this.Starts (this.position now).1 (this.position now).2.1 (this.position now).2.2 := by
  have hperiod := period_pos hpos
  have hlength := List.length_pos_of_ne_nil this.nonempty
  have hlast : this.cutoffs[this.intervals.length - 1]? = some this.period := by
    rw [getElem?_cutoffs (by omega), Nat.sub_add_cancel hlength, startOf_length]
  refine ⟨?_, (now - this.t0.getD now) / this.period, ?_⟩
  · rw [← length_cutoffs]
    refine List.findIdx_lt_length_of_exists ⟨this.period, List.mem_of_getElem? hlast, ?_⟩
    exact decide_eq_true (Int.fmod_lt_of_pos _ hperiod)
  · have hfold : this.startOf (this.position now).2.1 + (now -
        Int.fmod (now - this.t0.getD now) this.period) = (this.position now).2.2 := by
      rw [startOf, List.sum_eq_foldl, add_comm, ← @List.foldl_assoc _ (· + ·), add_zero]
      rfl
    rw [← hfold, Int.fmod_eq_emod_of_nonneg _ hperiod.le]
    have hdiv := Int.emod_add_mul_ediv (now - this.t0.getD now) this.period
    change _ = this.t0.getD now + _ + _
    linarith

/-! ## Emission -/

variable [Protocol γ V]

/-- The operations of the generator never precede the time it is asked at. -/
def Timely (gen : Option γ) : Prop :=
  ∀ (oracle : Oracle) (ctx : Context) (o : Op V) (gen' : Option γ),
    Generator.op oracle gen ctx = .ok (some (.op o, gen')) → ctx.time ≤ o.time

/-- From a time on, the operations the generator proposes in the context are at the time it is
asked at. -/
def PromptFrom (ctx : Context) (latest : ℤ) (gen : Option γ) : Prop :=
  ∀ (oracle : Oracle) (t : ℤ), latest ≤ t → ∀ (o : Op V) (gen' : Option γ),
    Generator.op oracle gen (ctx.withTime t) = .ok (some (.op o, gen')) → o.time = t

/-- What the generators at a time answer with: an answer of one generator, which alone advances,
and an operation of it is in one of its windows, and no earlier than the current time. -/
structure Emission (this : CycleTimes γ) (ctx : Context) (t0 : ℤ) (answer : Answer V)
    (next : CycleTimes γ) (i : ℕ) : Prop where
  answered : ∃ (oracle : Oracle) (t : ℤ) (gen gen' : Option γ), this.gens[i]? = some gen ∧
    Generator.op oracle gen (ctx.withTime (max ctx.time t)) = .ok (some (answer, gen')) ∧
      next = this.advance t0 i gen'
  inWindow : ∀ o, answer = .op o → this.InWindow t0 i o.time
  notEarlier : ∀ o, answer = .op o → ctx.time ≤ o.time

theorem emission_scan (hpos : ∀ interval ∈ this.intervals, 0 < interval)
    (htimely : ∀ gen ∈ this.gens, Timely gen) {oracle : Oracle} {ctx : Context} {t0 : ℤ}
    {answer : Answer V} {next : Option (CycleTimes γ)} {fuel i : ℕ} {t : ℤ}
    (hstarts : this.Starts t0 i t)
    (hscan : this.scan oracle ctx t0 fuel i t = some (.ok (some (answer, next)))) :
    ∃ i next', next = some next' ∧ Emission this ctx t0 answer next' i := by
  induction fuel generalizing i t with
  | zero => cases hscan
  | succ fuel ih =>
    rw [scan] at hscan
    split at hscan
    · rename_i gen interval hgen hinterval
      split at hscan
      · cases hscan
      · cases hscan
      · rename_i gen' hasked
        cases hscan
        exact ⟨i, _, rfl, ⟨_, t, gen, gen', hgen, hasked, rfl⟩, fun o h => (by cases h),
          fun o h => (by cases h)⟩
      · rename_i o gen' hasked
        have htime := htimely gen (List.mem_of_getElem? hgen) _ _ _ _ hasked
        dsimp only at hscan
        split at hscan
        · rename_i hbefore
          cases hscan
          refine ⟨i, _, rfl, ⟨_, t, gen, gen', hgen, hasked, rfl⟩, fun o' h => ?_, fun o' h => ?_⟩
          · cases h
            exact hstarts.inWindow hpos hinterval ((le_max_right _ _).trans htime) hbefore
          · cases h
            exact (le_max_left _ _).trans htime
        · exact ih (hstarts.next hinterval) hscan
    · cases hscan

/-- Once every generator is prompt, the scan ends. -/
theorem scan_ne_none (hpos : ∀ interval ∈ this.intervals, 0 < interval) {ctx : Context}
    {latest t0 : ℤ} (hprompt : ∀ gen ∈ this.gens, PromptFrom ctx latest gen) (oracle : Oracle)
    {fuel i : ℕ} {t : ℤ} (hfuel : (max latest ctx.time - t).toNat < fuel) :
    this.scan oracle ctx t0 fuel i t ≠ none := by
  induction fuel generalizing i t with
  | zero => cases hfuel
  | succ fuel ih =>
    rw [scan]
    split
    · rename_i gen interval hgen hinterval
      have hinterval := hpos interval (List.mem_of_getElem? hinterval)
      split
      · exact Option.some_ne_none _
      · exact Option.some_ne_none _
      · exact Option.some_ne_none _
      · rename_i o gen' hasked
        dsimp only
        split
        · exact Option.some_ne_none _
        · rename_i hbefore
          -- The generator was not prompt yet, so its window starts before all of them are.
          have hearly : t < max latest ctx.time := by
            by_contra hlate
            have hmax := max_eq_right ((le_max_right latest ctx.time).trans (not_lt.mp hlate))
            have htime := hprompt gen (List.mem_of_getElem? hgen) _ t
              ((le_max_left _ _).trans (not_lt.mp hlate)) o gen' (hmax ▸ hasked)
            omega
          exact ih (by omega)
    · exact Option.some_ne_none _

theorem exists_promptFrom {ctx : Context} {gens : List (Option γ)}
    (hprompt : ∀ gen ∈ gens, ∃ latest, PromptFrom ctx latest gen) :
    ∃ latest, ∀ gen ∈ gens, PromptFrom ctx latest gen := by
  induction gens with
  | nil => exact ⟨0, fun gen hgen => absurd hgen List.not_mem_nil⟩
  | cons gen gens ih =>
    obtain ⟨latest, hgen⟩ := hprompt gen List.mem_cons_self
    obtain ⟨latest', hgens⟩ := ih fun gen' h => hprompt gen' (List.mem_cons_of_mem gen h)
    refine ⟨max latest latest', fun gen' h oracle t ht => ?_⟩
    cases List.mem_cons.mp h with
    | inl heq => exact heq ▸ hgen oracle t ((le_max_left _ _).trans ht)
    | inr hmem => exact hgens gen' hmem oracle t ((le_max_right _ _).trans ht)

/-- Generators on a rotating schedule answer in their own windows, one at a time, and a search
among generators that all become prompt ends. -/
theorem cycleTimes_op (hpos : ∀ interval ∈ this.intervals, 0 < interval)
    (htimely : ∀ gen ∈ this.gens, Timely gen) (ctx : Context) :
    (∀ (oracle : Oracle) (answer : Answer V) (next : Option (CycleTimes γ)),
      this.op oracle ctx = .ok (some (answer, next)) →
        ∃ i next', next = some next' ∧ Emission this ctx (this.t0.getD ctx.time) answer next' i) ∧
    ((∀ gen ∈ this.gens, ∃ latest, PromptFrom ctx latest gen) →
      ∃ bound, ∀ oracle : Oracle, bound ≤ oracle.fuel → ∀ t0 i t,
        this.position ctx.time = (t0, i, t) → this.scan oracle ctx t0 oracle.fuel i t ≠ none) := by
  constructor
  · intro oracle answer next hop
    rw [op, if_neg (period_pos hpos).ne'] at hop
    dsimp only at hop
    cases hscan : this.scan oracle ctx (this.position ctx.time).1 oracle.fuel
        (this.position ctx.time).2.1 (this.position ctx.time).2.2 with
    | none =>
      rw [hscan] at hop
      cases hop
    | some result =>
      rw [hscan] at hop
      exact emission_scan hpos htimely (starts_position hpos ctx.time)
        (hscan.trans (congrArg some hop))
  · intro hprompt
    obtain ⟨latest, hprompt⟩ := exists_promptFrom hprompt
    refine ⟨(max latest ctx.time - (this.position ctx.time).2.2).toNat + 1, ?_⟩
    intro oracle hfuel t0 i t hposition
    refine scan_ne_none hpos hprompt oracle ?_
    rw [hposition] at hfuel
    exact Nat.lt_of_succ_le hfuel

section Example

/-- A map that leaves the time out is offered at the time it is asked at. -/
theorem opMap_time {this : OpMap V} (hnone : this.time = none) {oracle : Oracle} {ctx : Context}
    {o : Op V} {gen' : Option (OpMap V)}
    (hop : Generator.op oracle (some this) ctx = .ok (some (.op o, gen'))) :
    o.time = ctx.time := by
  change OpMap.op oracle this ctx = _ at hop
  rw [OpMap.op, OpMap.fillInOp] at hop
  cases hfree : ctx.someFreeProcess with
  | none =>
    rw [hfree] at hop
    cases hop
  | some p =>
    rw [hfree] at hop
    cases hop
    simp only [hnone, Option.getD_none]

/-- A write for five seconds, then a read for ten. -/
def writeThenRead : CycleTimes (OpMap ℕ) where
  t0 := some 0
  intervals := [5 * 10 ^ 9, 10 * 10 ^ 9]
  gens := [some { f := some "write", value := 1 }, some { f := some "read", value := 0 }]
  length_gens := rfl
  nonempty := List.cons_ne_nil _ _

/-- Eighteen seconds in, the second cycle's write is offered. -/
example : (writeThenRead.op ⟨2, fun _ => 0⟩ ((Context.context 1).withTime (18 * 10 ^ 9))).map
    (fun answer => answer.map Prod.fst) =
      .ok (some (.op ⟨-1, 18 * 10 ^ 9, .invoke, .int 0, some "write", 1, false, none⟩)) := by
  decide

theorem writeThenRead_op :
    (∀ (oracle : Oracle) (answer : Answer ℕ) (next : Option (CycleTimes (OpMap ℕ))),
      writeThenRead.op oracle (Context.context 1) = .ok (some (answer, next)) →
        ∃ i next', next = some next' ∧
          Emission writeThenRead (Context.context 1) 0 answer next' i) ∧
    ∃ bound, ∀ oracle : Oracle, bound ≤ oracle.fuel → ∀ t0 i t,
      writeThenRead.position (Context.context 1).time = (t0, i, t) →
        writeThenRead.scan oracle (Context.context 1) t0 oracle.fuel i t ≠ none := by
  have hgens : ∀ gen ∈ writeThenRead.gens, ∃ m : OpMap ℕ, gen = some m ∧ m.time = none := by
    intro gen hgen
    fin_cases hgen <;> exact ⟨_, rfl, rfl⟩
  have htimely : ∀ gen ∈ writeThenRead.gens, Timely gen := by
    intro gen hgen oracle ctx o gen' hop
    obtain ⟨m, rfl, hnone⟩ := hgens gen hgen
    exact (opMap_time hnone hop).ge
  have hprompt : ∀ gen ∈ writeThenRead.gens, ∃ latest,
      PromptFrom (Context.context 1) latest gen := by
    intro gen hgen
    refine ⟨0, fun oracle t _ o gen' hop => ?_⟩
    obtain ⟨m, rfl, hnone⟩ := hgens gen hgen
    exact opMap_time hnone hop
  have hspec := @cycleTimes_op _ _ writeThenRead _ (by decide) htimely (Context.context 1)
  exact ⟨hspec.1, hspec.2 hprompt⟩

end Example

end CycleTimes

end Jepsen.Generator
