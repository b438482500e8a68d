/-
# Which events a process's copy is told of

Each copy that `each-process` keeps is replaced by one that records the events it is told of,
and a run is followed in which other generators drive the same threads: processes crash and
are replaced, and events of any process arrive at any time. A process's operations come from
a copy that was told of the process's events, and of no others, unless an event of it arrived
while there was no copy of it.
-/

import Jepsen.Generator.EachProcess

namespace Jepsen.Generator

open Jepsen.History Jepsen.Library

universe u v

/-! ## Recorders -/

/-- A generator with a record of the events it was told of. -/
structure Recorded (γ : Type v) (V : Type u) where
  gen : Option γ
  heard : List (Op V)

namespace Recorded

variable {γ : Type v} {V : Type u}

/-- A generator that was told nothing yet. -/
def fresh (gen : γ) : Recorded γ V := ⟨some gen, []⟩

variable [Protocol γ V]

/-- The generator's answer; being asked adds nothing to the record. -/
def op (oracle : Oracle) (this : Recorded γ V) (ctx : Context) :
    Except Thrown (Option (Answer V × Option (Recorded γ V))) :=
  match Generator.op oracle this.gen ctx with
  | .error t => .error t
  | .ok none => .ok none
  | .ok (some (answer, gen')) => .ok (some (answer, some { this with gen := gen' }))

/-- Tell the generator, and record the event. -/
def update (this : Recorded γ V) (ctx : Context) (event : Op V) :
    Except Thrown (Option (Recorded γ V)) :=
  match Generator.update this.gen ctx event with
  | .error t => .error t
  | .ok gen' => .ok (some ⟨gen', this.heard ++ [event]⟩)

instance : Protocol (Recorded γ V) V where
  op := op
  update := update

theorem heard_of_op {oracle : Oracle} {gen : Option (Recorded γ V)} {ctx : Context}
    {answer : Answer V} {next : Option (Recorded γ V)}
    (hop : Generator.op oracle gen ctx = .ok (some (answer, next))) :
    ∃ this this', gen = some this ∧ next = some this' ∧ this'.heard = this.heard := by
  cases gen with
  | none => cases hop
  | some this =>
    change Recorded.op oracle this ctx = _ at hop
    unfold Recorded.op at hop
    split at hop
    · cases hop
    · cases hop
    · cases hop
      exact ⟨this, _, rfl, rfl, rfl⟩

theorem heard_of_update {this : Recorded γ V} {ctx : Context} {event : Op V}
    {next : Option (Recorded γ V)}
    (hupdate : Generator.update (some this) ctx event = .ok next) :
    ∃ this', next = some this' ∧ this'.heard = this.heard ++ [event] := by
  change Recorded.update this ctx event = _ at hupdate
  unfold Recorded.update at hupdate
  split at hupdate
  · cases hupdate
  · cases hupdate
    exact ⟨_, rfl, rfl⟩

end Recorded

/-! ## Runs -/

namespace EachProcess

/-- A context with the assignment of processes to threads of another; it may show other
threads, and another time. -/
structure View (ctx view : Context) : Prop where
  table : view.translationTable = ctx.translationTable
  processes : view.threadIndexToProcess = ctx.threadIndexToProcess
  processToThread : view.processToThread = ctx.processToThread

/-- What the loop around generators does to its context; the processes replaced so far are
carried along. -/
inductive Moves : Context × List ℕ → Context × List ℕ → Prop
  | busyThread {ctx : Context} {replaced : List ℕ} (time : ℤ) {thread : Name}
      (mem : thread ∈ ctx.allThreads) :
      Moves (ctx, replaced) (ctx.busyThread time thread, replaced)
  | freeThread {ctx : Context} {replaced : List ℕ} (time : ℤ) {thread : Name}
      (mem : thread ∈ ctx.allThreads) :
      Moves (ctx, replaced) (ctx.freeThread time thread, replaced)
  | withNextProcess {ctx ctx' : Context} {replaced : List ℕ} {thread : Name}
      (mem : thread ∈ ctx.allThreads) (next : ctx.withNextProcess thread = some ctx') :
      Moves (ctx, replaced) (ctx', ctx.replacedProcess thread ++ replaced)

/-- The context, the processes replaced so far, the generator, and the events it was told of:
all of them, and those of processes it held no copy of. -/
structure World (γ : Type v) (V : Type u) where
  ctx : Context
  replaced : List ℕ
  gen : EachProcess (Recorded γ V)
  told : List (Op V)
  early : List (Op V)

variable {γ : Type v} {V : Type u}

/-- A test of `n` client threads begins, with copies of `gen`. -/
def World.init (n : ℕ) (gen : γ) : World γ V :=
  ⟨Context.context n, [], eachProcess (.fresh gen), [], []⟩

/-- The events of a process. -/
def eventsOf (process : Name) (events : List (Op V)) : List (Op V) :=
  events.filter fun event => decide (event.process = process)

/-- What a step does: the context moves, or the generator is asked in a view of it and its
answer adopted, or the generator is told of an event. -/
inductive Label (V : Type u)
  | moved (ctx : Context) (replaced : List ℕ)
  | answered (oracle : Oracle) (view : Context)
  | told (view : Context) (event : Op V)

/-- The state after an event of a process of the thread. -/
def World.tell (w : World γ V) (thread : Name) (event : Op V)
    (next : EachProcess (Recorded γ V)) : World γ V :=
  { w with
    gen := next
    told := w.told ++ [event]
    early := if w.gen.extant thread = some event.process then w.early else w.early ++ [event] }

variable [Protocol γ V]

inductive Step : World γ V → Label V → World γ V → Prop
  | moved {w : World γ V} {ctx : Context} {replaced : List ℕ}
      (moves : Moves (w.ctx, w.replaced) (ctx, replaced)) :
      Step w (.moved ctx replaced) { w with ctx := ctx, replaced := replaced }
  | answered {w : World γ V} {oracle : Oracle} {view : Context}
      {m : Candidate V (Offer (Recorded γ V))} (shown : View w.ctx view)
      (asked : w.gen.soonest oracle view = .ok (some m)) :
      Step w (.answered oracle view) { w with gen := w.gen.adopt m.payload }
  | told {w : World γ V} {view : Context} {event : Op V} {thread : Name}
      {next : EachProcess (Recorded γ V)} (shown : View w.ctx view)
      (executes : view.processToThread event.process = some thread)
      (updated : w.gen.update view event = .ok (some next)) :
      Step w (.told view event) (w.tell thread event next)

/-- An operation taken from a process's copy is taken from one that was told exactly of the
events of the process. -/
def Informed (w : World γ V) : Label V → Prop
  | .answered oracle view => ∀ m o process, w.gen.soonest oracle view = .ok (some m) →
      m.op = .op o → view.threadToProcess m.payload.thread = some process →
        ∃ copy, w.gen.copyOf m.payload.thread process = some copy ∧
          copy.heard = eventsOf process w.told
  | _ => True

/-- No operation is taken for a process of which an event arrived while there was no copy of
it. -/
def Awaited (w : World γ V) : Label V → Prop
  | .answered oracle view => ∀ m o process, w.gen.soonest oracle view = .ok (some m) →
      m.op = .op o → view.threadToProcess m.payload.thread = some process →
        ∀ event ∈ w.early, event.process ≠ process
  | _ => True

theorem Step.deterministic {w w₁ w₂ : World γ V} {l : Label V} (h₁ : Step w l w₁)
    (h₂ : Step w l w₂) : w₁ = w₂ := by
  cases h₁ with
  | moved => cases h₂ with | moved => rfl
  | answered _ asked =>
    cases h₂ with
    | answered _ asked' =>
      rw [asked] at asked'
      cases asked'
      rfl
  | told _ executes updated =>
    cases h₂ with
    | told _ executes' updated' =>
      rw [executes] at executes'
      rw [updated] at updated'
      cases executes'
      cases updated'
      rfl

/-! ## The invariant -/

omit [Protocol γ V] in
theorem Moves.derived {n : ℕ} {ctx ctx' : Context} {replaced replaced' : List ℕ}
    (hmoves : Moves (ctx, replaced) (ctx', replaced'))
    (hderived : Context.Derived n ctx replaced) : Context.Derived n ctx' replaced' := by
  cases hmoves with
  | busyThread time mem => exact .busyThread time hderived mem
  | freeThread time mem => exact .freeThread time hderived mem
  | withNextProcess mem next => exact .withNextProcess hderived mem next

/-- A thread executes the process, or did. -/
def Seen (n : ℕ) (ctx : Context) (replaced : List ℕ) (process : Name) : Prop :=
  (∃ p ∈ replaced, process = .int p) ∨
    ∃ thread ∈ (Context.testTable n).allNames, ctx.threadToProcess thread = some process

/-- What the copy on a thread was told of. -/
def World.heardOn (w : World γ V) (thread : Name) : List (Op V) :=
  (w.gen.gens thread).join.elim [] Recorded.heard

/-- The invariant: a copy of a process that a thread executes was told of the process's events
other than the early ones, and where there is no copy all of them were early. -/
structure Inv (n : ℕ) (w : World γ V) : Prop where
  derived : Context.Derived n w.ctx w.replaced
  fresh : w.gen.freshGen.heard = []
  early_told : w.early ⊆ w.told
  seen_told : ∀ event ∈ w.told, Seen n w.ctx w.replaced event.process
  seen_extant : ∀ thread process, w.gen.extant thread = some process →
    Seen n w.ctx w.replaced process
  held : ∀ thread process, w.gen.extant thread = some process →
    ∃ copy, w.gen.gens thread = some (some copy)
  told_eq : ∀ thread ∈ (Context.testTable n).allNames, ∀ process,
    w.ctx.threadToProcess thread = some process →
      eventsOf process w.told = eventsOf process w.early ++
        if w.gen.extant thread = some process then w.heardOn thread else []

omit [Protocol γ V] in
theorem Inv.init (n : ℕ) (gen : γ) : Inv n (World.init n gen : World γ V) where
  derived := .fresh
  fresh := rfl
  early_told := List.Subset.refl _
  seen_told := fun _ h => (by cases h)
  seen_extant := fun _ _ h => (by cases h)
  held := fun _ _ h => (by cases h)
  told_eq := fun _ _ _ _ => rfl

omit [Protocol γ V] in
theorem eventsOf_eq_nil {process : Name} {events : List (Op V)}
    (hnone : ∀ event ∈ events, event.process ≠ process) : eventsOf process events = [] :=
  List.filter_eq_nil_iff.mpr fun event hevent => by
    rw [decide_eq_true_eq]
    exact hnone event hevent

/-- The process that a thread moves on to is new, or the one it executes already. -/
theorem nextProcess_seen {n : ℕ} {ctx ctx' : Context} {replaced : List ℕ} {thread process : Name}
    (hderived : Context.Derived n ctx replaced) (hmem : thread ∈ ctx.allThreads)
    (hnext : ctx.withNextProcess thread = some ctx')
    (hprocess : ctx.threadToProcess thread = some process)
    (hseen : Seen n ctx replaced (Context.nextProcess n process)) :
    Context.nextProcess n process = process := by
  have hwf := hderived.wellFormed
  have hthread := (hwf.mem_allThreads_iff.mp hmem).1
  cases process with
  | keyword k => rfl
  | int p =>
    rcases hseen with ⟨q, hq, heq⟩ | ⟨other, hother, hexecutes⟩
    · have hread := hwf.threadToProcess_withNextProcess hthread hthread hnext
      rw [if_pos rfl, hprocess, Option.map_some, heq] at hread
      have hagain := (Context.derived_consistent
        (.withNextProcess hderived hmem hnext)).never_again q (List.mem_append_right _ hq)
      exact absurd hread (hagain.2 thread hthread)
    · obtain rfl := hwf.nextProcess_fresh hthread hother hprocess hexecutes
      exact Option.some.inj (hexecutes.symm.trans hprocess)

theorem Seen.moves {n : ℕ} {ctx ctx' : Context} {replaced replaced' : List ℕ} {process : Name}
    (hderived : Context.Derived n ctx replaced)
    (hmoves : Moves (ctx, replaced) (ctx', replaced')) (hseen : Seen n ctx replaced process) :
    Seen n ctx' replaced' process := by
  cases hmoves with
  | busyThread => exact hseen
  | freeThread => exact hseen
  | @withNextProcess _ _ _ thread mem next =>
    have hwf := hderived.wellFormed
    have hthread := (hwf.mem_allThreads_iff.mp mem).1
    rcases hseen with ⟨p, hp, rfl⟩ | ⟨other, hother, hexecutes⟩
    · exact Or.inl ⟨p, List.mem_append_right _ hp, rfl⟩
    · have hread := hwf.threadToProcess_withNextProcess hthread hother next
      by_cases heq : other = thread
      · subst heq
        cases process with
        | int p =>
          refine Or.inl ⟨p, List.mem_append_left _ ?_, rfl⟩
          rw [Context.replacedProcess, hexecutes]
          exact List.mem_singleton_self p
        | keyword k =>
          rw [if_pos rfl, hexecutes] at hread
          exact Or.inr ⟨other, hother, hread⟩
      · rw [if_neg heq, hexecutes] at hread
        exact Or.inr ⟨other, hother, hread⟩

omit [Protocol γ V] in
theorem Inv.moved {n : ℕ} {w : World γ V} {ctx : Context} {replaced : List ℕ} (hinv : Inv n w)
    (hmoves : Moves (w.ctx, w.replaced) (ctx, replaced)) :
    Inv n { w with ctx := ctx, replaced := replaced } := by
  refine
    { derived := hmoves.derived hinv.derived
      fresh := hinv.fresh
      early_told := hinv.early_told
      seen_told := fun event h => (hinv.seen_told event h).moves hinv.derived hmoves
      seen_extant := fun thread process h =>
        (hinv.seen_extant thread process h).moves hinv.derived hmoves
      held := hinv.held
      told_eq := fun other hother process hexecutes => ?_ }
  cases hmoves with
  | busyThread => exact hinv.told_eq other hother process hexecutes
  | freeThread => exact hinv.told_eq other hother process hexecutes
  | @withNextProcess _ _ _ thread mem next =>
    have hwf := hinv.derived.wellFormed
    have hthread := (hwf.mem_allThreads_iff.mp mem).1
    have hread := hwf.threadToProcess_withNextProcess hthread hother next
    rw [hexecutes] at hread
    by_cases heq : other = thread
    · subst heq
      obtain ⟨before, hbefore⟩ := hwf.exists_process hother
      rw [if_pos rfl, hbefore, Option.map_some] at hread
      obtain rfl := Option.some.inj hread
      by_cases hseen : Seen n w.ctx w.replaced (Context.nextProcess n before)
      · have hsame := nextProcess_seen hinv.derived mem next hbefore hseen
        rw [hsame]
        exact hinv.told_eq other hother before hbefore
      · -- Nobody has heard of the new process yet.
        have htold : ∀ event ∈ w.told, event.process ≠ Context.nextProcess n before :=
          fun event h heq => hseen (heq ▸ hinv.seen_told event h)
        have hextant : w.gen.extant other ≠ some (Context.nextProcess n before) :=
          fun h => hseen (hinv.seen_extant other _ h)
        rw [if_neg hextant, List.append_nil, eventsOf_eq_nil htold,
          eventsOf_eq_nil fun event h => htold event (hinv.early_told h)]
    · rw [if_neg heq] at hread
      exact hinv.told_eq other hother process hread.symm

theorem View.threadToProcess {ctx view : Context} (hview : View ctx view) (thread : Name) :
    view.threadToProcess thread = ctx.threadToProcess thread := by
  rw [Context.threadToProcess, Context.threadToProcess, hview.table, hview.processes]

theorem View.freeThread {n : ℕ} {ctx view : Context} (hwf : ctx.WellFormed n)
    (hview : View ctx view) {thread : Name} (hfree : thread ∈ view.freeThreads) :
    thread ∈ (Context.testTable n).allNames := by
  rw [Context.freeThreads, hview.table, hwf.table] at hfree
  obtain ⟨i, -, hname⟩ := TranslationTable.mem_indicesToNames.mp hfree
  exact (Context.indexToName_testTable_iff.mp hname).1

omit [Protocol γ V] in
/-- What the copy that a process is asked with was told of. -/
theorem Inv.heard_copyOf {n : ℕ} {w : World γ V} (hinv : Inv n w) {thread process : Name}
    (hthread : thread ∈ (Context.testTable n).allNames)
    (hprocess : w.ctx.threadToProcess thread = some process) {copy : Recorded γ V}
    (hcopy : w.gen.copyOf thread process = some copy) :
    eventsOf process w.told = eventsOf process w.early ++ copy.heard := by
  rw [hinv.told_eq thread hthread process hprocess]
  rw [copyOf] at hcopy
  split_ifs at hcopy ⊢ with hextant
  · rw [World.heardOn, hcopy, Option.elim_some]
  · rw [← Option.some.inj hcopy, hinv.fresh]

theorem initialized_eq {γ : Type v} (this : EachProcess γ) (thread process : Name) :
    this.initialized thread process = Function.update this.extant thread (some process) := by
  rw [initialized]
  split_ifs with hextant
  · rw [← hextant, Function.update_eq_self]
  · rfl

theorem Inv.answered {n : ℕ} {w : World γ V} {oracle : Oracle} {view : Context}
    {m : Candidate V (Offer (Recorded γ V))} (hinv : Inv n w) (hshown : View w.ctx view)
    (hasked : w.gen.soonest oracle view = .ok (some m)) :
    Inv n { w with gen := w.gen.adopt m.payload } := by
  obtain ⟨process, draws, threadCtx, hfree, hprocess, hop, hextant⟩ := offered_of_soonest hasked
  have hthread := hshown.freeThread hinv.derived.wellFormed hfree
  rw [hshown.threadToProcess] at hprocess
  obtain ⟨copy, copy', hcopy, hcopy', hheard⟩ := Recorded.heard_of_op hop
  rw [initialized_eq] at hextant
  refine
    { derived := hinv.derived
      fresh := hinv.fresh
      early_told := hinv.early_told
      seen_told := hinv.seen_told
      seen_extant := fun other q hq => ?_
      held := fun other q hq => ?_
      told_eq := fun other hother q hq => ?_ }
  · replace hq : m.payload.extant' other = some q := hq
    rw [hextant] at hq
    by_cases heq : other = m.payload.thread
    · subst heq
      rw [Function.update_self] at hq
      rw [← Option.some.inj hq]
      exact Or.inr ⟨_, hthread, hprocess⟩
    · rw [Function.update_of_ne heq] at hq
      exact hinv.seen_extant other q hq
  · replace hq : m.payload.extant' other = some q := hq
    change ∃ copy, Function.update w.gen.gens m.payload.thread (some m.payload.gen') other =
      some (some copy)
    rw [hextant] at hq
    by_cases heq : other = m.payload.thread
    · subst heq
      exact ⟨copy', by rw [Function.update_self, hcopy']⟩
    · rw [Function.update_of_ne heq] at hq ⊢
      exact hinv.held other q hq
  · change eventsOf q w.told = eventsOf q w.early ++ if m.payload.extant' other = some q then
      (Function.update w.gen.gens m.payload.thread (some m.payload.gen') other).join.elim []
        Recorded.heard else []
    rw [hextant]
    by_cases heq : other = m.payload.thread
    · subst heq
      obtain rfl := Option.some.inj (hprocess.symm.trans hq)
      rw [Function.update_self, Function.update_self, if_pos rfl, hcopy', Option.join_some,
        Option.elim_some, hheard]
      exact hinv.heard_copyOf hthread hprocess hcopy
    · rw [Function.update_of_ne heq, Function.update_of_ne heq]
      exact hinv.told_eq other hother q hq

omit [Protocol γ V] in
theorem eventsOf_append_self {process : Name} (events : List (Op V)) {event : Op V}
    (heq : event.process = process) :
    eventsOf process (events ++ [event]) = eventsOf process events ++ [event] := by
  rw [eventsOf, List.filter_append, List.filter_singleton, decide_eq_true heq]
  rfl

omit [Protocol γ V] in
theorem eventsOf_append_of_ne {process : Name} (events : List (Op V)) {event : Op V}
    (hne : event.process ≠ process) :
    eventsOf process (events ++ [event]) = eventsOf process events := by
  rw [eventsOf, List.filter_append, List.filter_singleton, decide_eq_false hne]
  exact List.append_nil _

theorem Inv.told {n : ℕ} {w : World γ V} {view : Context} {event : Op V} {thread : Name}
    {next : EachProcess (Recorded γ V)} (hinv : Inv n w) (hshown : View w.ctx view)
    (hexecutes : view.processToThread event.process = some thread)
    (hupdated : w.gen.update view event = .ok (some next)) : Inv n (w.tell thread event next) := by
  have hwf := hinv.derived.wellFormed
  obtain ⟨thread', threadCtx, gen', hthread', hgen', hnext⟩ := update_eq_ok hupdated
  obtain rfl := Option.some.inj (hexecutes.symm.trans hthread')
  obtain rfl := Option.some.inj hnext
  rw [hshown.processToThread, hwf.inverse] at hexecutes
  obtain ⟨hthread, hprocess⟩ := hexecutes
  refine
    { derived := hinv.derived
      fresh := hinv.fresh
      early_told := ?_
      seen_told := fun event' h => ?_
      seen_extant := hinv.seen_extant
      held := fun other q hq => ?_
      told_eq := fun other hother q hq => ?_ }
  · rw [World.tell]
    split_ifs with hextant
    · exact List.subset_append_of_subset_left _ hinv.early_told
    · exact List.append_subset.mpr ⟨List.subset_append_of_subset_left _ hinv.early_told,
        List.subset_append_right _ _⟩
  · cases List.mem_append.mp h with
    | inl h => exact hinv.seen_told event' h
    | inr h =>
      rw [List.mem_singleton.mp h]
      exact Or.inr ⟨thread, hthread, hprocess⟩
  · obtain ⟨copy, hcopy⟩ := hinv.held other q hq
    by_cases heq : other = thread
    · subst heq
      rw [hcopy, Option.getD_some] at hgen'
      obtain ⟨copy', rfl, -⟩ := Recorded.heard_of_update hgen'
      exact ⟨copy', Function.update_self _ _ _⟩
    · exact ⟨copy, (Function.update_of_ne heq _ _).trans hcopy⟩
  · have hbefore := hinv.told_eq other hother q hq
    change eventsOf q (w.told ++ [event]) = eventsOf q (if w.gen.extant thread =
        some event.process then w.early else w.early ++ [event]) ++
      if w.gen.extant other = some q then
        (Function.update w.gen.gens thread (some gen') other).join.elim [] Recorded.heard else []
    by_cases heq : event.process = q
    · subst heq
      obtain rfl := hwf.thread_unique hother hthread hq hprocess
      rw [eventsOf_append_self _ rfl, hbefore, Function.update_self]
      split_ifs with hextant
      · obtain ⟨copy, hcopy⟩ := hinv.held other _ hextant
        rw [hcopy, Option.getD_some] at hgen'
        obtain ⟨copy', rfl, hheard⟩ := Recorded.heard_of_update hgen'
        rw [World.heardOn, hcopy, List.append_assoc]
        exact congrArg _ hheard.symm
      · rw [eventsOf_append_self _ rfl, List.append_nil, List.append_nil]
    · have hne : other ≠ thread := by
        rintro rfl
        exact heq (Option.some.inj (hprocess.symm.trans hq))
      have hearly : eventsOf q (if w.gen.extant thread = some event.process then w.early
          else w.early ++ [event]) = eventsOf q w.early := by
        split_ifs
        · rfl
        · exact eventsOf_append_of_ne _ heq
      rw [eventsOf_append_of_ne _ heq, hbefore, hearly, Function.update_of_ne hne]
      rfl

theorem Inv.step {n : ℕ} {w w' : World γ V} {l : Label V} (hinv : Inv n w)
    (hstep : Step w l w') : Inv n w' := by
  cases hstep with
  | moved moves => exact hinv.moved moves
  | answered shown asked => exact hinv.answered shown asked
  | told shown executes updated => exact hinv.told shown executes updated

/-! ## Informed copies -/

/-- An adopted operation comes from an informed copy exactly if no event of its process was
early. -/
theorem informed_iff_awaited {n : ℕ} {w w' : World γ V} {l : Label V} (hinv : Inv n w)
    (hstep : Step w l w') : Informed w l ↔ Awaited w l := by
  cases hstep with
  | moved => exact Iff.rfl
  | told => exact Iff.rfl
  | @answered oracle view m' shown asked =>
    refine forall_congr' fun m => forall_congr' fun o => forall_congr' fun process =>
      forall_congr' fun hasked => forall_congr' fun _ => forall_congr' fun hprocess => ?_
    obtain ⟨process', draws, threadCtx, hfree, hprocess', hop, -⟩ := offered_of_soonest hasked
    obtain rfl := Option.some.inj (hprocess.symm.trans hprocess')
    obtain ⟨copy, -, hcopy, -, -⟩ := Recorded.heard_of_op hop
    rw [shown.threadToProcess] at hprocess
    have htold := hinv.heard_copyOf (shown.freeThread hinv.derived.wellFormed hfree) hprocess hcopy
    constructor
    · rintro ⟨copy', hcopy', hheard⟩ event hevent heq
      obtain rfl := Option.some.inj (hcopy.symm.trans hcopy')
      rw [htold, List.self_eq_append_left] at hheard
      exact List.filter_eq_nil_iff.mp hheard event hevent (decide_eq_true heq)
    · intro hnone
      exact ⟨copy, hcopy, by rw [htold, eventsOf_eq_nil hnone, List.nil_append]⟩

/-- In every run, each operation comes from a copy that was told exactly of its process's events,
if and only if no operation is taken for a process that events arrived of while there was no copy
of it. -/
theorem informed_iff (n : ℕ) (gen : γ) {labels : List (Label V)} {w : World γ V}
    (hrun : Run Step (World.init n gen) labels w) :
    Run.EachStep Step (World.init n gen) labels Informed ↔
      Run.EachStep Step (World.init n gen) labels Awaited :=
  @Run.eachStep_congr _ _ Step _ (Inv n) Informed Awaited (fun _ _ _ _ => Step.deterministic)
    (Inv.init n gen) Inv.step informed_iff_awaited _ _ hrun

section Example

/-- A read. -/
def readOnce : OpMap ℕ := { f := some "read", value := 0 }

/-- What another generator's write on a client process comes to: an operation of a type. -/
def otherWrite (process : ℕ) (type : OpType) : Op ℕ :=
  ⟨0, 0, type, .int process, some "write", 1, false, none⟩

/-- The view of the one client thread. -/
def client : Context := Context.lazyThreadFilter (Context.allBut .nemesis) (Context.context 1)

/-- Another generator writes on process 0; then an operation is taken for process 0. -/
def writeThenRead : List (Label ℕ) :=
  [.told client (otherWrite 0 .invoke), .told client (otherWrite 0 .ok), .answered .zero client]

/-- The copy on the client's thread was told of some events. -/
def withHeard (gen : EachProcess (Recorded (OpMap ℕ) ℕ)) (heard : List (Op ℕ)) :
    EachProcess (Recorded (OpMap ℕ) ℕ) :=
  { gen with gens := Function.update gen.gens (.int 0) (some (some ⟨some readOnce, heard⟩)) }

/-- What process 0 is offered by a fresh copy. -/
def firstRead : Candidate ℕ (Offer (Recorded (OpMap ℕ) ℕ)) :=
  ⟨.op ⟨-1, 0, .invoke, .int 0, some "read", 0, false, none⟩, none,
    ⟨some ⟨none, []⟩, .int 0, Function.update (fun _ => none) (.int 0) (some (.int 0))⟩⟩

/-- Process 0 reads with a copy that was not told of the write on process 0. -/
theorem writeThenRead_not_informed : ∃ w : World (OpMap ℕ) ℕ,
    Run Step (World.init 1 readOnce) writeThenRead w ∧
      ¬ Run.EachStep Step (World.init 1 readOnce) writeThenRead Informed := by
  let w₁ : World (OpMap ℕ) ℕ := (World.init 1 readOnce).tell (.int 0) (otherWrite 0 .invoke)
    (withHeard (eachProcess (.fresh readOnce)) [otherWrite 0 .invoke])
  let w₂ : World (OpMap ℕ) ℕ := w₁.tell (.int 0) (otherWrite 0 .ok)
    (withHeard w₁.gen [otherWrite 0 .invoke, otherWrite 0 .ok])
  have hinvoked : Step (World.init 1 readOnce) (.told client (otherWrite 0 .invoke)) w₁ :=
    .told ⟨rfl, rfl, rfl⟩ rfl rfl
  have hcompleted : Step w₁ (.told client (otherWrite 0 .ok)) w₂ := .told ⟨rfl, rfl, rfl⟩ rfl rfl
  have hasked : w₂.gen.soonest .zero client = .ok (some firstRead) := rfl
  have hread : Step w₂ (.answered .zero client) _ := .answered ⟨rfl, rfl, rfl⟩ hasked
  have hprior : Run Step (World.init 1 readOnce) [.told client (otherWrite 0 .invoke),
      .told client (otherWrite 0 .ok)] w₂ := .snoc (.snoc .nil hinvoked) hcompleted
  refine ⟨_, .snoc hprior hread, fun hinformed => ?_⟩
  obtain ⟨copy, hcopy, hheard⟩ := hinformed _ _ [] w₂ rfl hprior firstRead _ (.int 0) hasked rfl rfl
  obtain rfl := Option.some.inj hcopy
  cases hheard

/-- If process 0 reads before anything else happens, its copy is informed. -/
theorem readFirst_informed :
    Run.EachStep Step (World.init 1 readOnce) [.answered .zero client] Informed := by
  have hasked : (World.init 1 readOnce).gen.soonest .zero client = .ok (some firstRead) := rfl
  have hrun : Run Step (World.init 1 readOnce) [.answered .zero client] _ :=
    .snoc .nil (.answered ⟨rfl, rfl, rfl⟩ hasked)
  refine (informed_iff 1 readOnce hrun).mpr ?_
  refine (@Run.eachStep_snoc _ _ _ _ _ []).mpr ⟨Run.eachStep_nil, fun w hnil => ?_⟩
  obtain rfl : World.init 1 readOnce = w :=
    @Run.unique _ _ Step _ (fun _ _ _ _ => Step.deterministic) _ _ _ .nil hnil
  intro _ _ _ _ _ _ event hevent
  cases hevent

end Example

end EachProcess

end Jepsen.Generator
