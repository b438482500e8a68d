/-
# Until one operation is ok

`until-ok` ends when one of its own operations completes with `:ok`. It knows its own
operations by their processes: a process is active from the moment the generator emits an
operation for it until an `:ok`, `:fail` or `:info` event of that process. That is wrong for
operations which complete with another type, and for invocations which have one of these.
-/

import Jepsen.Generator.Interpreter
import Jepsen.Generator.OpMap

namespace Jepsen.Generator

open Jepsen.History Jepsen.Library

universe u v

/-- `(defrecord UntilOk [gen done? active-processes])` -/
structure UntilOk (γ : Type v) where
  gen : Option γ
  done : Bool
  activeProcesses : Finset Name

namespace UntilOk

variable {γ : Type v} {V : Type u} [Protocol γ V]

/-- `UntilOk.op` -/
def op (oracle : Oracle) (this : UntilOk γ) (ctx : Context) :
    Except Thrown (Option (Answer V × Option (UntilOk γ))) :=
  if this.done then .ok none
  else
    match Generator.op oracle this.gen ctx with
    | .error t => .error t
    | .ok none => .ok none
    | .ok (some (.pending, gen')) => .ok (some (.pending, some { this with gen := gen' }))
    | .ok (some (.op o, gen')) =>
        .ok (some (.op o,
          some ⟨gen', this.done, insert o.process this.activeProcesses⟩))

/-- `UntilOk.update` -/
def update (this : UntilOk γ) (ctx : Context) (event : Op V) :
    Except Thrown (Option (UntilOk γ)) :=
  match Generator.update this.gen ctx event with
  | .error t => .error t
  | .ok gen' =>
      let p := event.process
      if p ∈ this.activeProcesses then
        -- This is an update related to one of our operations.
        match event.type with
        -- We're finished; no need to update any more!
        | .ok => .ok (some ⟨gen', true, this.activeProcesses.erase p⟩)
        -- Crashed or failed; process no longer active, but we're not done.
        | .info => .ok (some ⟨gen', this.done, this.activeProcesses.erase p⟩)
        | .fail => .ok (some ⟨gen', this.done, this.activeProcesses.erase p⟩)
        -- Pass through
        | _ => .ok (some ⟨gen', this.done, this.activeProcesses⟩)
      -- Some unrelated update
      else .ok (some ⟨gen', this.done, this.activeProcesses⟩)

instance : Protocol (UntilOk γ) V where
  op := op
  update := update

end UntilOk

/-- `(until-ok gen)` -/
def untilOk {γ : Type v} (gen : Option γ) : Option (UntilOk γ) :=
  gen.map fun g => ⟨some g, false, ∅⟩

/-- The types that end an operation. -/
def final : Finset OpType := {.ok, .fail, .info}

namespace UntilOk

variable {γ : Type v} {V : Type u}

/-! ## Among other generators -/

/-- What is known of a run besides the generator: which operation each process carries out,
and whether the generator emitted it; whether one of its operations completed with `:ok`; and
the processes on which one of its operations completed with a type that ends none, if no
event of this process has ended an operation since. -/
structure World (γ : Type v) (V : Type u) where
  gen : UntilOk γ
  inFlight : Name → Option (Op V × Bool)
  ended : Bool
  stale : Finset Name

/-- What happens in a run. Completions carry the index and the time the interpreter stamps on
them, invocations the index. -/
inductive Label (V : Type u)
  /-- The generator is asked, and its operation adopted. -/
  | emitted (oracle : Oracle) (ctx : Context) (o : Op V) (index : ℤ) (ctx' : Context)
  /-- The generator is asked, and pending. -/
  | pending (oracle : Oracle) (ctx : Context)
  /-- Another generator's operation is adopted. -/
  | other (ctx : Context) (o : Op V)
  /-- A worker completes an operation. -/
  | completed (ctx : Context) (o : Op V) (index time : ℤ)

/-- The types of the operations that validation lets through. -/
def invocationTypes : List OpType := [.invoke, .info, .sleep, .log]

namespace World

/-- An operation starts on its process. -/
def start (w : World γ V) (gen : UntilOk γ) (event : Op V) (own : Bool) : World γ V :=
  { gen := gen
    inFlight := Function.update w.inFlight event.process (some (event, own))
    ended := w.ended
    stale := if event.type ∈ final then w.stale.erase event.process else w.stale }

/-- An operation completes. -/
def complete (w : World γ V) (gen : UntilOk γ) (event : Op V) (own : Bool) : World γ V :=
  { gen := gen
    inFlight := Function.update w.inFlight event.process none
    ended := w.ended || (own && decide (event.type = .ok))
    stale :=
      if event.type ∈ final then w.stale.erase event.process
      else if own then insert event.process w.stale
      else w.stale }

section Fields

variable (w : World γ V) (gen : UntilOk γ) (event : Op V) (own : Bool)

@[simp] theorem start_gen : (w.start gen event own).gen = gen := rfl

@[simp] theorem start_ended : (w.start gen event own).ended = w.ended := rfl

@[simp] theorem start_inFlight (p : Name) :
    (w.start gen event own).inFlight p =
      if p = event.process then some (event, own) else w.inFlight p :=
  Function.update_apply _ _ _ _

@[simp] theorem complete_gen : (w.complete gen event own).gen = gen := rfl

@[simp] theorem complete_ended : (w.complete gen event own).ended =
    (w.ended || (own && decide (event.type = .ok))) := rfl

@[simp] theorem complete_inFlight (p : Name) :
    (w.complete gen event own).inFlight p =
      if p = event.process then none else w.inFlight p :=
  Function.update_apply _ _ _ _

end Fields

/-- The start of a run. -/
def init (gen : Option γ) : World γ V := ⟨⟨gen, false, ∅⟩, fun _ => none, false, ∅⟩

end World

/-! ## Whose completion it is -/

/-- The generator is done if and only if one of its operations completed with `:ok`. -/
def Exact (w : World γ V) : Prop := w.gen.done = w.ended

/-- As long as the generator has not ended: an operation of its own that completes with `:ok`
was not invoked with `:info`, and another generator's does not complete with `:ok` on a
stale process. -/
def Attributed (w : World γ V) : Label V → Prop
  | .completed _ o' _ _ => w.ended = false → o'.type = .ok →
      match w.inFlight o'.process with
      | some (o, true) => o.type ≠ .info
      | some (_, false) => o'.process ∉ w.stale
      | none => True
  | _ => True

/-- What holds as long as all completions are attributed. -/
structure Inv (w : World γ V) : Prop where
  exact : Exact w
  /-- The active processes are those of the generator's operations, and the stale ones. -/
  active : w.ended = false → ∀ p, p ∈ w.gen.activeProcesses ↔
    (∃ o, w.inFlight p = some (o, true) ∧ o.type ≠ .info) ∨ p ∈ w.stale
  /-- An invocation with `:info` makes its process inactive. -/
  informed : ∀ p o own, w.inFlight p = some (o, own) → o.type = .info → p ∉ w.stale
  valid : ∀ p o own, w.inFlight p = some (o, own) → o.process = p ∧ o.type ∈ invocationTypes

theorem Inv.init (gen : Option γ) : Inv (World.init gen : World γ V) where
  exact := rfl
  active := by
    intro _ p
    refine iff_of_false (Finset.notMem_empty p) fun h => ?_
    cases h with
    | inl h =>
      obtain ⟨o, ho, -⟩ := h
      cases ho
    | inr h => exact absurd h (Finset.notMem_empty p)
  informed := by
    intro p o own h
    cases h
  valid := by
    intro p o own h
    cases h

theorem mem_stale_start {w : World γ V} {gen : UntilOk γ} {event : Op V} {own : Bool} {p : Name} :
    p ∈ (w.start gen event own).stale ↔
      p ∈ w.stale ∧ ¬ (p = event.process ∧ event.type ∈ final) := by
  by_cases hfinal : event.type ∈ final <;> simp [World.start, hfinal, and_comm]

theorem mem_stale_complete {w : World γ V} {gen : UntilOk γ} {event : Op V} {own : Bool}
    {p : Name} :
    p ∈ (w.complete gen event own).stale ↔
      (p ∈ w.stale ∨ p = event.process ∧ own = true) ∧
        ¬ (p = event.process ∧ event.type ∈ final) := by
  by_cases hp : p = event.process <;> by_cases hfinal : event.type ∈ final <;>
    cases own <;> simp [World.complete, hfinal, hp]

theorem final_iff_info {t : OpType} (ht : t ∈ invocationTypes) : t ∈ final ↔ t = .info := by
  simp only [invocationTypes, List.mem_cons, List.not_mem_nil, or_false] at ht
  rcases ht with rfl | rfl | rfl | rfl <;> decide

theorem ne_ok_of_invocation {t : OpType} (ht : t ∈ invocationTypes) : t ≠ .ok := by
  intro heq
  subst heq
  revert ht
  decide

/-! ## Steps -/

variable [Protocol γ V] {this : UntilOk γ} {ctx : Context}

/-- An event of a type that ends an operation makes its process inactive, and if it was active
and the type is `:ok`, the generator is done. -/
theorem update_eq_ok {event : Op V} {next : Option (UntilOk γ)}
    (hupdate : this.update ctx event = .ok next) :
    ∃ gen', next = some
      { gen := gen'
        done := this.done || decide (event.process ∈ this.activeProcesses ∧ event.type = .ok)
        activeProcesses := if event.type ∈ final then this.activeProcesses.erase event.process
          else this.activeProcesses } := by
  unfold update at hupdate
  split at hupdate
  · cases hupdate
  · rename_i gen' hgen
    dsimp only at hupdate
    by_cases hactive : event.process ∈ this.activeProcesses
    · rw [if_pos hactive] at hupdate
      refine ⟨gen', ?_⟩
      cases htype : event.type <;>
      · rw [htype] at hupdate
        cases hupdate
        simp [final, hactive]
    · rw [if_neg hactive] at hupdate
      refine ⟨gen', ?_⟩
      rw [← Except.ok.inj hupdate, Finset.erase_eq_of_notMem hactive, ite_self]
      simp [hactive]

theorem op_eq_op {oracle : Oracle} {o : Op V} {next : Option (UntilOk γ)}
    (hop : this.op oracle ctx = .ok (some (.op o, next))) :
    this.done = false ∧
      ∃ gen', next = some ⟨gen', this.done, insert o.process this.activeProcesses⟩ := by
  unfold op at hop
  split at hop
  · cases hop
  · rename_i hdone
    split at hop
    · cases hop
    · cases hop
    · cases hop
    · rename_i gen' hgen
      cases hop
      exact ⟨Bool.eq_false_iff.mpr hdone, gen', rfl⟩

theorem op_eq_pending {oracle : Oracle} {next : UntilOk γ}
    (hop : this.op (V := V) oracle ctx = .ok (some (.pending, some next))) :
    ∃ gen', next = { this with gen := gen' } := by
  unfold op at hop
  split at hop
  · cases hop
  · split at hop
    · cases hop
    · cases hop
    · rename_i gen' hgen
      cases hop
      exact ⟨gen', rfl⟩
    · cases hop

/-- One step of a run in which the generator is one of any number of generators. A process
carries out one operation at a time, and its worker completes it as workers do. Every
generator is told of every event. -/
inductive Step : World γ V → Label V → World γ V → Prop
  | emitted {w : World γ V} {oracle : Oracle} {ctx ctx' : Context} {o : Op V} {index : ℤ}
      {gen' next : UntilOk γ}
      (offered : w.gen.op oracle ctx = .ok (some (.op o, some gen')))
      (valid : o.type ∈ invocationTypes) (free : w.inFlight o.process = none)
      (told : gen'.update ctx' { o with index := index } = .ok (some next)) :
      Step w (.emitted oracle ctx o index ctx') (w.start next { o with index := index } true)
  | pending {w : World γ V} {oracle : Oracle} {ctx : Context} {gen' : UntilOk γ}
      (asked : w.gen.op (V := V) oracle ctx = .ok (some (.pending, some gen'))) :
      Step w (.pending oracle ctx) { w with gen := gen' }
  | other {w : World γ V} {ctx : Context} {o : Op V} {next : UntilOk γ}
      (valid : o.type ∈ invocationTypes) (free : w.inFlight o.process = none)
      (told : w.gen.update ctx o = .ok (some next)) :
      Step w (.other ctx o) (w.start next o false)
  | completed {w : World γ V} {env : Interpreter.Env V} {thread : Name} {ctx : Context}
      {o o' : Op V} {own : Bool} {index time : ℤ} {next : UntilOk γ}
      (carriedOut : w.inFlight o'.process = some (o, own))
      (outcome : Interpreter.Outcome env thread o o')
      (told : w.gen.update ctx { o' with index := index, time := time } = .ok (some next)) :
      Step w (.completed ctx o' index time)
        (w.complete next { o' with index := index, time := time } own)

theorem Step.deterministic {w w₁ w₂ : World γ V} {l : Label V} (h₁ : Step w l w₁)
    (h₂ : Step w l w₂) : w₁ = w₂ := by
  cases h₁ with
  | emitted offered _ _ told =>
    cases h₂ with
    | emitted offered' _ _ told' =>
      rw [offered] at offered'
      cases offered'
      rw [told] at told'
      cases told'
      rfl
  | pending asked =>
    cases h₂ with
    | pending asked' =>
      rw [asked] at asked'
      cases asked'
      rfl
  | other _ _ told =>
    cases h₂ with
    | other _ _ told' =>
      rw [told] at told'
      cases told'
      rfl
  | completed carriedOut _ told =>
    cases h₂ with
    | completed carriedOut' _ told' =>
      rw [carriedOut] at carriedOut'
      cases carriedOut'
      rw [told] at told'
      cases told'
      rfl

/-- What an event does to the generator. -/
theorem told_eq {gen next : UntilOk γ} {event : Op V}
    (htold : gen.update ctx event = .ok (some next)) :
    next.done = (gen.done || decide (event.process ∈ gen.activeProcesses ∧ event.type = .ok)) ∧
      ∀ p, p ∈ next.activeProcesses ↔
        p ∈ gen.activeProcesses ∧ ¬ (p = event.process ∧ event.type ∈ final) := by
  obtain ⟨gen', hnext⟩ := update_eq_ok htold
  cases hnext
  refine ⟨rfl, fun p => ?_⟩
  by_cases hfinal : event.type ∈ final <;> simp [hfinal, and_comm]

/-- An operation that is carried out completes with a type that ends it, unless the worker does
not hand it to a client. -/
theorem final_of_outcome {env : Interpreter.Env V} {thread : Name} {o o' : Op V}
    (houtcome : Interpreter.Outcome env thread o o') (hinfo : o.type = .info) :
    o'.type ∈ final := by
  cases houtcome with
  | slept htype => rw [hinfo] at htype; cases htype
  | sleepCrashed htype => rw [hinfo] at htype; cases htype
  | logged htype => rw [hinfo] at htype; cases htype
  | logCrashed htype => rw [hinfo] at htype; cases htype
  | invoked _ htype =>
    cases thread <;>
      simp only [Interpreter.completionTypes, List.mem_cons, List.not_mem_nil, or_false] at htype
    · rcases htype with h | h | h <;> rw [h] <;> decide
    · rw [htype]; decide
  | notOpened => exact (by decide : OpType.fail ∈ final)
  | crashed => exact (by decide : OpType.info ∈ final)

/-! ## The invariant -/

omit [Protocol γ V] in
/-- An operation that starts keeps the invariant: one of the generator's own makes its process
active, unless it is invoked with `:info`. -/
theorem Inv.start {w : World γ V} (hinv : Inv w) {next : UntilOk γ} {event : Op V} {own : Bool}
    (hvalid : event.type ∈ invocationTypes) (hfree : w.inFlight event.process = none)
    (hdone : next.done = w.gen.done)
    (hactive : ∀ p, p ∈ next.activeProcesses ↔
      (p ∈ w.gen.activeProcesses ∨ p = event.process ∧ own = true) ∧
        ¬ (p = event.process ∧ event.type ∈ final)) : Inv (w.start next event own) where
  exact := hdone.trans hinv.exact
  active := by
    intro hended p
    rw [World.start_gen, hactive, hinv.active hended, mem_stale_start, final_iff_info hvalid,
      World.start_inFlight]
    by_cases hp : p = event.process
    · subst hp
      rw [if_pos rfl, hfree]
      by_cases hinfo : event.type = .info <;> cases own <;> simp [hinfo]
    · rw [if_neg hp]
      simp [hp]
  informed := by
    intro p o own' hp hinfo
    rw [mem_stale_start, final_iff_info hvalid]
    rw [World.start_inFlight] at hp
    split_ifs at hp with heq
    · cases hp
      exact fun h => h.2 ⟨heq, hinfo⟩
    · exact fun h => hinv.informed p o own' hp hinfo h.1
  valid := by
    intro p o own' hp
    rw [World.start_inFlight] at hp
    split_ifs at hp with heq
    · cases hp
      exact ⟨heq.symm, hvalid⟩
    · exact hinv.valid p o own' hp

/-- So does a completion that is attributed. -/
theorem Inv.complete {w : World γ V} (hinv : Inv w) {env : Interpreter.Env V} {thread : Name}
    {o o' event : Op V} {own : Bool} {next : UntilOk γ}
    (hcarriedOut : w.inFlight o'.process = some (o, own))
    (houtcome : Interpreter.Outcome env thread o o') (hprocess : event.process = o'.process)
    (htype : event.type = o'.type) (htold : w.gen.update ctx event = .ok (some next))
    (hattributed : w.ended = false → o'.type = .ok →
      if own then o.type ≠ .info else o'.process ∉ w.stale) :
    Inv (w.complete next event own) := by
  obtain ⟨hdone, hactive⟩ := told_eq htold
  rw [hprocess, htype] at hdone
  have hown : w.ended = false → (o'.process ∈ w.gen.activeProcesses ↔
      own = true ∧ o.type ≠ .info ∨ o'.process ∈ w.stale) := by
    intro hended
    rw [hinv.active hended, hcarriedOut]
    cases own <;> simp
  refine ⟨?_, fun hended p => ?_, fun p o₁ own₁ hp hinfo => ?_, fun p o₁ own₁ hp => ?_⟩
  · rw [Exact, World.complete_gen, World.complete_ended, hdone, hinv.exact, htype]
    cases hended : w.ended with
    | true => rfl
    | false =>
      rw [Bool.false_or, Bool.false_or]
      by_cases hok : o'.type = .ok
      · have hcondition := hattributed hended hok
        cases own <;> simp_all
      · simp [hok]
  · have hbefore : w.ended = false := (Bool.or_eq_false_iff.mp hended).1
    rw [World.complete_gen, hactive, mem_stale_complete, World.complete_inFlight, hprocess, htype]
    by_cases hp : p = o'.process
    · subst hp
      rw [if_pos rfl, hown hbefore]
      have hinfo := final_of_outcome houtcome
      by_cases hfinal : o'.type ∈ final <;> cases own <;> simp_all
    · rw [if_neg hp, hinv.active hbefore p]
      simp [hp]
  · rw [World.complete_inFlight] at hp
    rw [mem_stale_complete]
    split_ifs at hp with heq
    have hstale := hinv.informed p o₁ own₁ hp hinfo
    simp [heq, hstale]
  · rw [World.complete_inFlight] at hp
    split_ifs at hp
    exact hinv.valid p o₁ own₁ hp

/-- Every step keeps the invariant, if the completion it may be is attributed. -/
theorem Inv.step {w w' : World γ V} {l : Label V} (hinv : Inv w) (hstep : Step w l w')
    (hattributed : Attributed w l) : Inv w' := by
  cases hstep with
  | @emitted oracle ctx ctx' o index gen' next hoffered hvalid hfree htold =>
    obtain ⟨-, gen'', hgen'⟩ := op_eq_op hoffered
    cases hgen'
    obtain ⟨hdone, hactive⟩ := told_eq htold
    refine hinv.start hvalid hfree ?_ fun p => ?_
    · rw [hdone]
      simp [ne_ok_of_invocation hvalid]
    · rw [hactive, Finset.mem_insert]
      simp only [and_true, or_comm]
  | @pending oracle ctx gen' hasked =>
    obtain ⟨gen'', rfl⟩ := op_eq_pending hasked
    exact ⟨hinv.exact, hinv.active, hinv.informed, hinv.valid⟩
  | @other ctx o next hvalid hfree htold =>
    obtain ⟨hdone, hactive⟩ := told_eq htold
    refine hinv.start hvalid hfree ?_ fun p => ?_
    · rw [hdone]
      simp [ne_ok_of_invocation hvalid]
    · rw [hactive]
      simp
  | @completed env thread ctx o o' own index time next hcarriedOut houtcome htold =>
    refine hinv.complete hcarriedOut houtcome rfl rfl htold fun hended hok => ?_
    have h := hattributed hended hok
    rw [hcarriedOut] at h
    cases own <;> exact h

/-- A step that leaves the generator done exactly if it ended was attributed. -/
theorem attributed_of_exact {w w' : World γ V} {l : Label V} (hinv : Inv w) (hstep : Step w l w')
    (hexact : Exact w') : Attributed w l := by
  cases hstep with
  | emitted => trivial
  | pending => trivial
  | other => trivial
  | @completed env thread ctx o o' own index time next hcarriedOut houtcome htold =>
    intro hended hok
    rw [hcarriedOut]
    obtain ⟨hdone, -⟩ := told_eq htold
    have hactive := hinv.active hended o'.process
    rw [hcarriedOut] at hactive
    rw [Exact, World.complete_gen, World.complete_ended, hdone, hinv.exact, hended] at hexact
    cases own with
    | true =>
      intro hinfo
      have hstale := hinv.informed _ _ _ hcarriedOut hinfo
      simp_all
    | false =>
      intro hstale
      simp_all

section Example

/-- A message to the log, then nothing. -/
def logOnce : OpMap ℕ := { type := some .log, process := some (.int 0), value := 7 }

/-- What happens to the message and to a write: an operation of a type. -/
def message (index : ℤ) : Op ℕ := ⟨index, 0, .log, .int 0, none, 7, false, none⟩

def write (type : OpType) : Op ℕ := ⟨0, 0, type, .int 0, some "write", 1, false, none⟩

/-- The message is logged; then another generator's write on the same process is ok. -/
def logThenWrite : List (Label ℕ) :=
  [.emitted .zero (Context.context 1) (message (-1)) 0 (Context.context 1),
    .completed (Context.context 1) (message 0) 0 0,
    .other (Context.context 1) (write .invoke),
    .completed (Context.context 1) (write .ok) 0 0]

end Example

end UntilOk

end Jepsen.Generator
