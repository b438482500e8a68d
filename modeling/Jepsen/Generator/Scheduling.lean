/-
# Generators that say when

`time-limit`, `delay` and `stagger` pass on the operations of another generator: those that
come soon enough after the first, all of them at some distance, and all of them at distances
that are drawn. Times are in nanoseconds.
-/

import Jepsen.Generator.Drives
import Jepsen.Generator.OpMap
import Jepsen.Library.Pacing

namespace Jepsen.Generator

open Jepsen.History Jepsen.Library

universe u v

variable {γ : Type v} {V : Type u}

/-- `(assoc op :time time)` -/
def at_ (o : Op V) (time : ℤ) : Op V := { o with time := time }

/-! ## The generators -/

/-- `(defrecord TimeLimit [limit cutoff gen])` -/
structure TimeLimit (γ : Type v) where
  limit : ℤ
  cutoff : Option ℤ
  gen : Option γ

/-- `(time-limit dt gen)` -/
def timeLimit (dt : ℤ) (gen : Option γ) : Option (TimeLimit γ) :=
  if 0 < dt then gen.map fun g => ⟨dt, none, some g⟩ else none

/-- `(defrecord Delay [dt next-time gen])` -/
structure Delay (γ : Type v) where
  dt : ℤ
  nextTime : Option ℤ
  gen : Option γ

/-- `(delay dt gen)` -/
def delay (dt : ℤ) (gen : Option γ) : Option (Delay γ) := some ⟨dt, none, gen⟩

/-- `(defrecord Stagger [dt next-time gen])` -/
structure Stagger (γ : Type v) where
  dt : ℕ
  nextTime : Option ℤ
  gen : Option γ

/-- `(stagger dt gen)` -/
def stagger (dt : ℕ) (gen : Option γ) : Option (Stagger γ) :=
  gen.map fun g => ⟨2 * dt, none, some g⟩

/-- `(long (rand dt))` -/
def randTime (dt draw : ℕ) : ℤ := if dt = 0 then 0 else (draw % dt : ℕ)

section Protocols

variable [Protocol γ V]

/-- Update a generator and wrap it again. -/
def passUpdate {ω : Type*} (gen : Option γ) (ctx : Context) (event : Op V) (wrap : Option γ → ω) :
    Except Thrown (Option ω) :=
  match Generator.update gen ctx event with
  | .error t => .error t
  | .ok gen' => .ok (some (wrap gen'))

theorem passUpdate_eq_ok {ω : Type*} {gen : Option γ} {ctx : Context} {event : Op V}
    {wrap : Option γ → ω} {next : Option ω} (hpass : passUpdate gen ctx event wrap = .ok next) :
    ∃ gen', Generator.update gen ctx event = .ok gen' ∧ next = some (wrap gen') := by
  unfold passUpdate at hpass
  split at hpass
  · cases hpass
  · rename_i gen' hgen
    cases hpass
    exact ⟨gen', hgen, rfl⟩

/-- `TimeLimit.op`. -/
def TimeLimit.op (oracle : Oracle) (this : TimeLimit γ) (ctx : Context) :
    Except Thrown (Option (Answer V × Option (TimeLimit γ))) :=
  match Generator.op oracle this.gen ctx with
  | .error t => .error t
  | .ok none => .ok none
  | .ok (some (.pending, gen')) => .ok (some (.pending, some { this with gen := gen' }))
  | .ok (some (.op o, gen')) =>
      -- Lazily initialize our cutoff and check to see if it's past.
      let cutoff := this.cutoff.getD (o.time + this.limit)
      if o.time < cutoff then
        .ok (some (.op o, some { this with cutoff := some cutoff, gen := gen' }))
      else .ok none

/-- `TimeLimit.update`. -/
def TimeLimit.update (this : TimeLimit γ) (ctx : Context) (event : Op V) :
    Except Thrown (Option (TimeLimit γ)) :=
  passUpdate this.gen ctx event fun gen' => { this with gen := gen' }

instance : Protocol (TimeLimit γ) V where
  op := TimeLimit.op
  update := TimeLimit.update

/-- `Delay.op`. -/
def Delay.op (oracle : Oracle) (this : Delay γ) (ctx : Context) :
    Except Thrown (Option (Answer V × Option (Delay γ))) :=
  match Generator.op oracle this.gen ctx with
  | .error t => .error t
  | .ok none => .ok none
  -- Just pass these through; we don't know when they'll occur!
  | .ok (some (.pending, gen')) => .ok (some (.pending, some { this with gen := gen' }))
  | .ok (some (.op o, gen')) =>
      let nextTime := this.nextTime.getD o.time
      let o := at_ o (max o.time nextTime)
      .ok (some (.op o, some { this with nextTime := some (o.time + this.dt), gen := gen' }))

/-- `Delay.update`. -/
def Delay.update (this : Delay γ) (ctx : Context) (event : Op V) :
    Except Thrown (Option (Delay γ)) :=
  passUpdate this.gen ctx event fun gen' => { this with gen := gen' }

instance : Protocol (Delay γ) V where
  op := Delay.op
  update := Delay.update

/-- `Stagger.op`. -/
def Stagger.op (oracle : Oracle) (this : Stagger γ) (ctx : Context) :
    Except Thrown (Option (Answer V × Option (Stagger γ))) :=
  match Generator.op (oracle.sub 0) this.gen ctx with
  | .error t => .error t
  | .ok none => .ok none
  -- No need to do anything to pending ops
  | .ok (some (.pending, _)) => .ok (some (.pending, some this))
  | .ok (some (.op o, gen')) =>
      let nextTime := this.nextTime.getD ctx.time
      let gap := randTime this.dt ((oracle.sub 1).draw 0)
      -- We're ready to issue this operation.
      if nextTime ≤ o.time then
        .ok (some (.op o, some { this with nextTime := some (o.time + gap), gen := gen' }))
      -- Not ready yet
      else
        .ok (some (.op (at_ o nextTime),
          some { this with nextTime := some (nextTime + gap), gen := gen' }))

/-- `Stagger.update`. -/
def Stagger.update (this : Stagger γ) (ctx : Context) (event : Op V) :
    Except Thrown (Option (Stagger γ)) :=
  passUpdate this.gen ctx event fun gen' => { this with gen := gen' }

instance : Protocol (Stagger γ) V where
  op := Stagger.op
  update := Stagger.update

/-! ## What each of them does -/

theorem TimeLimit.op_eq_op {oracle : Oracle} {this : TimeLimit γ} {ctx : Context} {o : Op V}
    {next : Option (TimeLimit γ)}
    (hop : Generator.op oracle (some this) ctx = .ok (some (.op o, next))) :
    ∃ gen', Generator.op oracle this.gen ctx = .ok (some (.op o, gen')) ∧
      o.time < this.cutoff.getD (o.time + this.limit) ∧
      next = some ⟨this.limit, some (this.cutoff.getD (o.time + this.limit)), gen'⟩ := by
  change TimeLimit.op oracle this ctx = _ at hop
  unfold TimeLimit.op at hop
  split at hop
  · cases hop
  · cases hop
  · cases hop
  · rename_i o' gen' hgen
    dsimp only at hop
    split_ifs at hop with hlt
    · cases hop
      exact ⟨gen', hgen, hlt, rfl⟩
    · cases hop

theorem Delay.op_eq_op {oracle : Oracle} {this : Delay γ} {ctx : Context} {o : Op V}
    {next : Option (Delay γ)}
    (hop : Generator.op oracle (some this) ctx = .ok (some (.op o, next))) :
    ∃ own gen', Generator.op oracle this.gen ctx = .ok (some (.op own, gen')) ∧
      o = at_ own (Pacing.timeOf this.nextTime own.time) ∧
      next = some ⟨this.dt, some (Pacing.timeOf this.nextTime own.time + this.dt), gen'⟩ := by
  change Delay.op oracle this ctx = _ at hop
  unfold Delay.op at hop
  split at hop
  · cases hop
  · cases hop
  · cases hop
  · rename_i own gen' hgen
    cases hop
    exact ⟨own, gen', hgen, rfl, rfl⟩

theorem Stagger.op_eq_op {oracle : Oracle} {this : Stagger γ} {ctx : Context} {o : Op V}
    {next : Option (Stagger γ)}
    (hop : Generator.op oracle (some this) ctx = .ok (some (.op o, next))) :
    ∃ own gen' draw, Generator.op (oracle.sub 0) this.gen ctx = .ok (some (.op own, gen')) ∧
      o = at_ own (Pacing.timeOf (some (this.nextTime.getD ctx.time)) own.time) ∧
      next = some ⟨this.dt,
        some (Pacing.timeOf (some (this.nextTime.getD ctx.time)) own.time + randTime this.dt draw),
        gen'⟩ := by
  change Stagger.op oracle this ctx = _ at hop
  unfold Stagger.op at hop
  split at hop
  · cases hop
  · cases hop
  · cases hop
  · rename_i own gen' hgen
    dsimp only at hop
    have htime : Pacing.timeOf (some (this.nextTime.getD ctx.time)) own.time =
        max own.time (this.nextTime.getD ctx.time) := rfl
    refine ⟨own, gen', (oracle.sub 1).draw 0, hgen, ?_⟩
    rw [htime]
    split_ifs at hop with hready
    · rw [max_eq_left hready]
      cases hop
      exact ⟨rfl, rfl⟩
    · rw [max_eq_right (not_le.mp hready).le]
      cases hop
      exact ⟨rfl, rfl⟩

end Protocols

/-! ## Operations at the times of a schedule -/

/-- When some operations want to happen, and the gaps after them. -/
def wishes (l : List (Op V × ℤ)) : List (ℤ × ℤ) := l.map fun p => (p.1.time, p.2)

/-- Some operations, moved to times that keep the gaps after them. -/
def schedule : Option ℤ → List (Op V × ℤ) → List (Op V)
  | _, [] => []
  | next, (o, gap) :: rest =>
      at_ o (Pacing.timeOf next o.time) :: schedule (some (Pacing.timeOf next o.time + gap)) rest

theorem schedule_append (next : Option ℤ) (l l' : List (Op V × ℤ)) :
    schedule next (l ++ l') =
      schedule next l ++ schedule (Pacing.nextOf next (wishes l)) l' := by
  induction l generalizing next with
  | nil => rfl
  | cons first l ih =>
    rw [List.cons_append, schedule, ih]
    rfl

theorem wishes_append (l l' : List (Op V × ℤ)) : wishes (l ++ l') = wishes l ++ wishes l' :=
  List.map_append

/-- Operations are those that wanted to happen, at the least times that are not before their own and
that keep the gaps. -/
structure Paced (next : Option ℤ) (l : List (Op V × ℤ)) (ops : List (Op V)) : Prop where
  same : ops = List.zipWith at_ (l.map Prod.fst) (ops.map Op.time)
  keeps : Pacing.Keeps next (wishes l) (ops.map Op.time)
  least : ∀ times, Pacing.Keeps next (wishes l) times →
    List.Forall₂ (· ≤ ·) (ops.map Op.time) times

theorem time_schedule (next : Option ℤ) (l : List (Op V × ℤ)) :
    (schedule next l).map Op.time = Pacing.pace next (wishes l) := by
  induction l generalizing next with
  | nil => rfl
  | cons first l ih =>
    rw [schedule, List.map_cons, ih]
    rfl

theorem schedule_eq_zipWith (next : Option ℤ) (l : List (Op V × ℤ)) :
    schedule next l = List.zipWith at_ (l.map Prod.fst) ((schedule next l).map Op.time) := by
  induction l generalizing next with
  | nil => rfl
  | cons first l ih =>
    rw [schedule, List.map_cons, List.map_cons, List.zipWith_cons_cons, ← ih]
    rfl

theorem paced_schedule (next : Option ℤ) (l : List (Op V × ℤ)) :
    Paced next l (schedule next l) where
  same := schedule_eq_zipWith next l
  keeps := by
    rw [time_schedule]
    exact Pacing.keeps_pace next _
  least times hkeeps := by
    rw [time_schedule]
    exact Pacing.pace_le (fun n hn => ⟨n, hn, le_rfl⟩) hkeeps

/-! ## Whole drives -/

/-- A map as a generator, and what it offers to a test with one client. -/
def readMap : OpMap ℕ := { f := some "read", value := 0 }

def readOp : Op ℕ where
  index := -1
  time := 0
  type := .invoke
  process := .int 0
  f := some "read"
  value := 0
  endProcess := false
  error := none

section Drives

variable [Protocol γ V] {gen : Option γ} {drives : List (Drive V)}

/-- A delayed generator and the one under it, after what was done to each of them. -/
structure DelayTracks (dt : ℤ) (drives : List (Drive V)) (s : Option (Delay γ))
    (own : List (Drive V)) (t : Option γ) : Prop where
  state : s = some
    ⟨dt, Pacing.nextOf none (wishes ((Drive.emitted own).map fun o => (o, dt))), t⟩
  emitted : Drive.emitted drives = schedule none ((Drive.emitted own).map fun o => (o, dt))

theorem DelayTracks.step {dt : ℤ} {s s' : Option (Delay γ)} {own : List (Drive V)} {t : Option γ}
    {d : Drive V} (htracks : DelayTracks dt drives s own t) (hstep : Driven s d s') :
    ∃ more t', Run Driven t more t' ∧ DelayTracks dt (drives ++ [d]) s' (own ++ more) t' := by
  obtain ⟨rfl, hemitted⟩ := htracks
  cases hstep with
  | emit oracle hoffered =>
    obtain ⟨o, gen', hgen, rfl, rfl⟩ := Delay.op_eq_op hoffered
    refine ⟨_, _, Run.single (.emit oracle hgen), ?_, ?_⟩
    · rw [Drive.emitted_emit, List.map_append, wishes_append, Pacing.nextOf_append]
      rfl
    · rw [Drive.emitted_emit, Drive.emitted_emit, List.map_append, schedule_append, hemitted]
      rfl
  | discard oracle hasked =>
    refine ⟨[], _, .nil, ?_, ?_⟩
    · rw [List.append_nil]
    · rw [List.append_nil, Drive.emitted_discard, hemitted]
  | event hupdated =>
    obtain ⟨gen', hgen, rfl⟩ := passUpdate_eq_ok hupdated
    refine ⟨_, _, Run.single (.event hgen), ?_, ?_⟩
    · rw [Drive.emitted_event]
    · rw [Drive.emitted_event, Drive.emitted_event, hemitted]

/-- Whoever drives a delayed generator gets the operations of a drive of the generator under it, at
the least times that are not before their own and at least `dt` apart. -/
theorem delay_paces {dt : ℤ} {s : Option (Delay γ)} (hrun : Run Driven (delay dt gen) drives s) :
    ∃ own t, Run Driven gen own t ∧
      Paced none ((Drive.emitted own).map fun o => (o, dt)) (Drive.emitted drives) := by
  obtain ⟨own, t, hown, htracks⟩ :=
    hrun.simulates (DelayTracks dt) ⟨rfl, rfl⟩ fun htracks hstep => htracks.step hstep
  exact ⟨own, t, hown, htracks.emitted ▸ paced_schedule none _⟩

theorem readMap_delayed :
    ∃ own t, Run Driven (some readMap) own t ∧
      Paced none ((Drive.emitted own).map fun o => (o, 5))
        (Drive.emitted [.emit (Context.context 1) readOp]) :=
  delay_paces (Run.single (@Driven.emit (Delay (OpMap ℕ)) ℕ _ (delay 5 (some readMap))
    (some ⟨5, some 5, none⟩) _ readOp Oracle.zero rfl))

/-- When a drive adopted its first operation. -/
def firstTime (drives : List (Drive V)) : Option ℤ :=
  drives.findSome? fun
    | .emit ctx _ => some ctx.time
    | _ => none

theorem firstTime_append (drives drives' : List (Drive V)) :
    firstTime (drives ++ drives') = (firstTime drives).or (firstTime drives') :=
  List.findSome?_append

@[simp]
theorem firstTime_discard (drives : List (Drive V)) (ctx : Context) :
    firstTime (drives ++ [.discard ctx]) = firstTime drives :=
  (firstTime_append _ _).trans Option.or_none

@[simp]
theorem firstTime_event (drives : List (Drive V)) (ctx : Context) (event : Op V) :
    firstTime (drives ++ [.event ctx event]) = firstTime drives :=
  (firstTime_append _ _).trans Option.or_none

/-- A staggered generator and the one under it, after what was done to each of them: `l` has the
operations of the latter and the distances that were drawn after them. -/
structure StaggerTracks (dt : ℕ) (l : List (Op V × ℤ)) (drives : List (Drive V))
    (s : Option (Stagger γ)) (own : List (Drive V)) (t : Option γ) : Prop where
  state : s = some ⟨2 * dt, Pacing.nextOf (firstTime drives) (wishes l), t⟩
  operations : l.map Prod.fst = Drive.emitted own
  gaps : ∀ p ∈ l, 0 ≤ p.2 ∧ p.2 < (max (2 * dt) 1 : ℕ)
  started : firstTime drives = none ↔ l = []
  emitted : Drive.emitted drives = schedule (firstTime drives) l

theorem randTime_bounds (dt draw : ℕ) :
    0 ≤ randTime dt draw ∧ randTime dt draw < (max dt 1 : ℕ) := by
  unfold randTime
  split_ifs with hzero
  · subst hzero
    decide
  · have hlt := Nat.mod_lt draw (Nat.pos_of_ne_zero hzero)
    constructor
    · exact Int.natCast_nonneg _
    · exact Int.ofNat_lt.mpr (lt_max_of_lt_left hlt)

theorem StaggerTracks.step {dt : ℕ} {l : List (Op V × ℤ)} {s s' : Option (Stagger γ)}
    {own : List (Drive V)} {t : Option γ} {d : Drive V}
    (htracks : StaggerTracks dt l drives s own t) (hstep : Driven s d s') :
    ∃ more t' l', Run Driven t more t' ∧
      StaggerTracks dt l' (drives ++ [d]) s' (own ++ more) t' := by
  obtain ⟨rfl, hoperations, hgaps, hstarted, hemitted⟩ := htracks
  cases hstep with
  | @emit _ ctx _ oracle hoffered =>
    obtain ⟨o, gen', draw, hgen, rfl, rfl⟩ := Stagger.op_eq_op hoffered
    dsimp only at hgen ⊢
    -- The first operation is not before the time at which it was adopted.
    have hnext : some ((Pacing.nextOf (firstTime drives) (wishes l)).getD ctx.time) =
        Pacing.nextOf ((firstTime drives).or (some ctx.time)) (wishes l) := by
      cases hfirst : firstTime drives with
      | none =>
        rw [hstarted.mp hfirst]
        rfl
      | some now =>
        have hne : wishes l ≠ [] := fun hnil =>
          absurd (hstarted.mpr (List.map_eq_nil_iff.mp hnil)) (hfirst ▸ Option.some_ne_none _)
        obtain ⟨n, hn⟩ := Pacing.exists_nextOf (some now) hne
        rw [Option.some_or, hn, Option.getD_some]
    have hsame : schedule (firstTime drives) l =
        schedule ((firstTime drives).or (some ctx.time)) l := by
      cases hfirst : firstTime drives with
      | none =>
        rw [hstarted.mp hfirst]
        rfl
      | some now => rfl
    rw [hnext]
    refine ⟨_, _, l ++ [(o, randTime (2 * dt) draw)], Run.single (.emit (oracle.sub 0) hgen), ?_,
      ?_, ?_, ?_, ?_⟩
    · rw [firstTime_append, wishes_append, Pacing.nextOf_append]
      rfl
    · rw [List.map_append, hoperations, Drive.emitted_emit]
      rfl
    · intro p hp
      cases List.mem_append.mp hp with
      | inl hold => exact hgaps p hold
      | inr hlast =>
        rw [List.mem_singleton.mp hlast]
        exact randTime_bounds _ _
    · rw [firstTime_append]
      cases firstTime drives <;> simp [firstTime]
    · rw [Drive.emitted_emit, firstTime_append, schedule_append, hemitted, hsame]
      rfl
  | discard oracle hasked =>
    refine ⟨[], _, l, .nil, ?_, ?_, hgaps, ?_, ?_⟩
    · rw [firstTime_discard]
    · rw [List.append_nil, hoperations]
    · rw [firstTime_discard, hstarted]
    · rw [Drive.emitted_discard, firstTime_discard, hemitted]
  | event hupdated =>
    obtain ⟨gen', hgen, rfl⟩ := passUpdate_eq_ok hupdated
    refine ⟨_, _, l, Run.single (.event hgen), ?_, ?_, hgaps, ?_, ?_⟩
    · rw [firstTime_event]
    · rw [Drive.emitted_event, hoperations]
    · rw [firstTime_event, hstarted]
    · rw [Drive.emitted_event, firstTime_event, hemitted]

/-- Whoever drives a staggered generator gets the operations of a drive of the generator under it,
at the least times that are not before their own, and from the first one on at distances that are
drawn below twice `dt`. -/
theorem stagger_paces {dt : ℕ} {s : Option (Stagger γ)}
    (hrun : Run Driven (stagger dt gen) drives s) :
    ∃ own t l, Run Driven gen own t ∧ l.map Prod.fst = Drive.emitted own ∧
      (∀ p ∈ l, 0 ≤ p.2 ∧ p.2 < ((max (2 * dt) 1 : ℕ) : ℤ)) ∧
      Paced (firstTime drives) l (Drive.emitted drives) := by
  cases gen with
  | none =>
    obtain ⟨-, hemitted⟩ := run_driven_none hrun
    refine ⟨[], none, [], .nil, rfl, fun p hp => absurd hp List.not_mem_nil, ?_⟩
    rw [hemitted]
    exact paced_schedule _ []
  | some gen =>
    obtain ⟨own, t, hown, l, htracks⟩ := hrun.simulates
      (fun drives s own t => ∃ l, StaggerTracks dt l drives s own t)
      ⟨[], rfl, rfl, fun p hp => absurd hp List.not_mem_nil, iff_of_true rfl rfl, rfl⟩
      fun ⟨l, htracks⟩ hstep => by
        obtain ⟨more, t', l', hmore, htracks'⟩ := htracks.step hstep
        exact ⟨more, t', hmore, l', htracks'⟩
    exact ⟨own, t, l, hown, htracks.operations, htracks.gaps,
      htracks.emitted ▸ paced_schedule _ l⟩

theorem readMap_staggered :
    ∃ own t l, Run Driven (some readMap) own t ∧ l.map Prod.fst = Drive.emitted own ∧
      (∀ p ∈ l, 0 ≤ p.2 ∧ p.2 < ((max (2 * 5) 1 : ℕ) : ℤ)) ∧
      Paced (firstTime [.emit (Context.context 1) readOp]) l
        (Drive.emitted [.emit (Context.context 1) readOp]) :=
  stagger_paces (Run.single (@Driven.emit (Stagger (OpMap ℕ)) ℕ _ (stagger 5 (some readMap))
    (some ⟨10, some 0, none⟩) _ readOp Oracle.zero rfl))

/-! ### Time limits -/

/-- A generator with a time limit and the one under it, after what was done to each of them. -/
structure LimitTracks (dt : ℤ) (drives : List (Drive V)) (s : Option (TimeLimit γ))
    (own : List (Drive V)) (t : Option γ) : Prop where
  state : s = some ⟨dt, (Drive.emitted drives).head?.map fun first => first.time + dt, t⟩
  emitted : Drive.emitted drives = Drive.emitted own
  within : ∀ first ∈ (Drive.emitted drives).head?, ∀ o ∈ Drive.emitted drives,
    o.time < first.time + dt

theorem LimitTracks.step {dt : ℤ} {s s' : Option (TimeLimit γ)} {own : List (Drive V)}
    {t : Option γ} {d : Drive V} (htracks : LimitTracks dt drives s own t)
    (hstep : Driven s d s') :
    ∃ more t', Run Driven t more t' ∧ LimitTracks dt (drives ++ [d]) s' (own ++ more) t' := by
  obtain ⟨rfl, hemitted, hwithin⟩ := htracks
  cases hstep with
  | @emit _ ctx o oracle hoffered =>
    obtain ⟨gen', hgen, hlt, rfl⟩ := TimeLimit.op_eq_op hoffered
    have hhead : (Drive.emitted (drives ++ [.emit ctx o])).head? =
        some ((Drive.emitted drives).head?.getD o) := by
      rw [Drive.emitted_emit]
      cases Drive.emitted drives <;> rfl
    have hcutoff : ((Drive.emitted drives).head?.map fun first => first.time + dt).getD
        (o.time + dt) = ((Drive.emitted drives).head?.getD o).time + dt := by
      cases (Drive.emitted drives).head? <;> rfl
    dsimp only at hlt
    rw [hcutoff] at hlt
    refine ⟨_, _, Run.single (.emit oracle hgen), ?_, ?_, ?_⟩
    · rw [hhead, Option.map_some, hcutoff]
    · rw [Drive.emitted_emit, Drive.emitted_emit, hemitted]
    · intro first hfirst o' ho'
      cases hhead.symm.trans hfirst
      rw [Drive.emitted_emit, List.mem_append, List.mem_singleton] at ho'
      cases ho' with
      | inl hold =>
        cases hcases : Drive.emitted drives with
        | nil =>
          rw [hcases] at hold
          exact absurd hold List.not_mem_nil
        | cons first rest =>
          rw [hcases] at hwithin hold
          exact hwithin first rfl o' hold
      | inr hlast =>
        rw [hlast]
        exact hlt
  | discard oracle hasked =>
    refine ⟨[], _, .nil, ?_, ?_, ?_⟩
    · rw [Drive.emitted_discard]
    · rw [List.append_nil, Drive.emitted_discard, hemitted]
    · rw [Drive.emitted_discard]
      exact hwithin
  | event hupdated =>
    obtain ⟨gen', hgen, rfl⟩ := passUpdate_eq_ok hupdated
    refine ⟨_, _, Run.single (.event hgen), ?_, ?_, ?_⟩
    · rw [Drive.emitted_event]
    · rw [Drive.emitted_event, Drive.emitted_event, hemitted]
    · rw [Drive.emitted_event]
      exact hwithin

/-- Whoever drives a generator with a time limit gets the operations of a drive of the generator
under it, and all of them are less than `dt` after the first. -/
theorem timeLimit_limits {dt : ℤ} {s : Option (TimeLimit γ)}
    (hrun : Run Driven (timeLimit dt gen) drives s) :
    ∃ own t, Run Driven gen own t ∧ Drive.emitted drives = Drive.emitted own ∧
      ∀ first ∈ (Drive.emitted drives).head?, ∀ o ∈ Drive.emitted drives,
        o.time < first.time + dt := by
  unfold timeLimit at hrun
  cases hgen : (if 0 < dt then gen.map fun g => (⟨dt, none, some g⟩ : TimeLimit γ) else none) with
  | none =>
    rw [hgen] at hrun
    obtain ⟨-, hemitted⟩ := run_driven_none hrun
    rw [hemitted]
    exact ⟨[], gen, .nil, rfl, fun first hfirst => by cases hfirst⟩
  | some this =>
    rw [hgen] at hrun
    split_ifs at hgen with hpos
    obtain ⟨g, rfl, rfl⟩ := Option.map_eq_some_iff.mp hgen
    obtain ⟨own, t, hown, htracks⟩ := hrun.simulates (LimitTracks dt)
      ⟨rfl, rfl, fun first hfirst => by cases hfirst⟩ fun htracks hstep => htracks.step hstep
    exact ⟨own, t, hown, htracks.emitted, htracks.within⟩

theorem readMap_limited :
    ∃ own t, Run Driven (some readMap) own t ∧
      Drive.emitted [.emit (Context.context 1) readOp] = Drive.emitted own ∧
      ∀ first ∈ (Drive.emitted [.emit (Context.context 1) readOp]).head?,
        ∀ o ∈ Drive.emitted [.emit (Context.context 1) readOp], o.time < first.time + 5 :=
  timeLimit_limits (Run.single (@Driven.emit (TimeLimit (OpMap ℕ)) ℕ _ (timeLimit 5 (some readMap))
    (some ⟨5, some 5, none⟩) _ readOp Oracle.zero rfl))

end Drives

end Jepsen.Generator
