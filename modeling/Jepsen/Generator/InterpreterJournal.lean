/-
# What the interpreter journals

The journaled history is densely indexed, gives every process alternating
invocations and completions, and never mentions a client process again once a
completion has retired it. Indices and retirement hold in every run. The
alternation also needs the two operations a worker carries out by itself,
`:sleep` and `:log`, to return: when one of them throws, the crash handler turns
it into an `:info` completion, which is journaled although its invocation was
not.
-/

import Jepsen.Generator.InterpreterInvariant
import Jepsen.Generator.OpMap

namespace Jepsen.Generator.Interpreter

open Jepsen.History Jepsen.Library
open Jepsen.Generator.Context

universe u v

variable {γ : Type v} {V : Type u}

/-! ## Conditions on the steps of a run -/

/-- A dispatched operation names the process of a thread that was free in the
context its generator was asked with. -/
def LabelNamesFree (s : State γ V) : Label V → Prop
  | .dispatched _ time o => NamesFree (s.ctx.withTime time) o
  | _ => True

/-- The worker returns from the operation if it is one it carries out itself. -/
def Returns (env : Env V) (o : Op V) : Prop :=
  (o.type = .sleep → env.sleeps o.value = true) ∧ (o.type = .log → env.logs o.value = true)

def LabelReturns (env : Env V) : Label V → Prop
  | .dispatched _ _ o => Returns env o
  | _ => True

theorem Tracked.step [Protocol γ V] {env : Env V} {n : ℕ} {s s' : State γ V}
    {l : Label V} (htr : Tracked n s) (hstep : Step env s l s')
    (hfree : LabelNamesFree s l) : Tracked n s' := by
  cases hstep with
  | take thread hqueued hidle => exact htr.take hqueued hidle
  | finish thread hbusy houtcome => exact htr.finish hbusy houtcome.process_eq
  | complete time hpolled hcomplete => exact htr.complete hpolled hcomplete
  | wait oracle time hwait =>
      rw [State.generate_eq_waiting hwait]
      exact htr.wait time
  | dispatch oracle time hdispatch hexecutes =>
      obtain ⟨gen', -, -, hnext⟩ := State.generate_eq_dispatched hdispatch
      exact (htr.dispatch hfree hnext).1

/-! ## Indices and retired processes -/

/-- The completion that takes a client's process away. -/
def Entry.Retires (e : Entry V) : Prop :=
  e.role = .completion ∧ (e.op.type = .info ∨ e.op.endProcess = true) ∧
    ∃ p, e.op.process = .int p

/-- A process that some thread executes or executed. -/
def Seen (n : ℕ) (ctx : Context) (process : Name) : Prop :=
  (∃ thread, ctx.processToThread process = some thread) ∨
    ∃ p, process = .int p ∧ Outgrown n ctx p

theorem Seen.replaced {n : ℕ} {thread process : Name} {ctx ctx' : Context}
    (hseen : Seen n ctx process) (hreplaced : Replaced n thread ctx ctx') :
    Seen n ctx' process := by
  rcases hseen with ⟨t, ht⟩ | ⟨p, rfl, hp⟩
  · by_cases heq : t = thread
    · subst heq
      rcases hreplaced.kept process ht with hkept | hgone
      · exact Or.inl ⟨t, hkept⟩
      · exact Or.inr hgone
    · exact Or.inl ⟨t, (hreplaced.others process t heq).mpr ht⟩
  · exact Or.inr ⟨p, rfl, hreplaced.outgrown p hp⟩

theorem Seen.freeThread {n : ℕ} {thread process : Name} {time : ℤ} {ctx : Context}
    (hseen : Seen n ctx process) : Seen n (ctx.freeThread time thread) process := hseen

structure Journaled (n : ℕ) (s : State γ V) : Prop where
  opIndex : s.opIndex = s.history.length
  index : ∀ (i : ℕ) (e : Entry V), s.history[i]? = some e → e.op.index = i
  seen : ∀ e ∈ s.history, Seen n s.ctx e.op.process
  outgrown : ∀ e ∈ s.history, e.Retires →
    ∃ p, e.op.process = .int p ∧ Outgrown n s.ctx p
  retired : s.history.Pairwise fun e later =>
    e.Retires → later.op.process ≠ e.op.process

theorem mem_journal {role : Role} {o : Op V} {history : List (Entry V)} {e : Entry V} :
    e ∈ journal role o history ↔
      e ∈ history ∨ (goesInHistory o = true ∧ e = ⟨role, o⟩) := by
  unfold journal
  split <;> simp [*]

/-- Journaling one operation of an assigned process keeps the journal in order. -/
theorem Journaled.append {n : ℕ} {s s' : State γ V} (hj : Journaled n s)
    (hwf : WellFormed n s.ctx) (role : Role) (o : Op V) {thread : Name}
    (hindex : o.index = s.opIndex) (hthread : s.ctx.processToThread o.process = some thread)
    (hseen : ∀ process, Seen n s.ctx process → Seen n s'.ctx process)
    (hout : ∀ p, Outgrown n s.ctx p → Outgrown n s'.ctx p)
    (hretires : (Entry.mk role o).Retires → ∃ p, o.process = .int p ∧ Outgrown n s'.ctx p)
    (hopIndex : s'.opIndex = nextIndex o s.opIndex)
    (hhistory : s'.history = journal role o s.history) : Journaled n s' where
  opIndex := by
    rw [hopIndex, hhistory, hj.opIndex, nextIndex, journal]
    split <;> simp
  index := fun i e he => by
    rw [hhistory, journal] at he
    split at he
    · rcases Nat.lt_trichotomy i s.history.length with hlt | heq | hgt
      · rw [List.getElem?_append_left hlt] at he
        exact hj.index i e he
      · rw [heq, List.getElem?_concat_length] at he
        obtain rfl := Option.some.inj he
        rw [hindex, hj.opIndex, heq]
      · rw [List.getElem?_eq_none (by simp; omega)] at he
        cases he
    · exact hj.index i e he
  seen := fun e he => by
    rw [hhistory, mem_journal] at he
    rcases he with he | ⟨-, rfl⟩
    · exact hseen _ (hj.seen e he)
    · exact hseen _ (Or.inl ⟨thread, hthread⟩)
  outgrown := fun e he hret => by
    rw [hhistory, mem_journal] at he
    rcases he with he | ⟨-, rfl⟩
    · obtain ⟨p, hp, hgone⟩ := hj.outgrown e he hret
      exact ⟨p, hp, hout p hgone⟩
    · exact hretires hret
  retired := by
    rw [hhistory, journal]
    split
    · rw [List.pairwise_append]
      refine ⟨hj.retired, List.pairwise_singleton _ _, fun e he e' he' hret => ?_⟩
      obtain rfl := List.mem_singleton.mp he'
      -- A retired process is outgrown, and `o` is an operation of an assigned one.
      obtain ⟨p, hp, hgone⟩ := hj.outgrown e he hret
      intro heq
      obtain ⟨hmem, hexecutes⟩ := (hwf.inverse _ _).mp hthread
      rw [show o.process = .int p from heq.trans hp] at hexecutes
      exact hgone.unassigned hwf hmem hexecutes
    · exact hj.retired

theorem journaled_init [Protocol γ V] (n : ℕ) (gen : Option γ) :
    Journaled n (State.init n gen : State γ V) where
  opIndex := rfl
  index := fun i e he => by cases he
  seen := fun e he => by cases he
  outgrown := fun e he => by cases he
  retired := List.Pairwise.nil

theorem Journaled.step [Protocol γ V] {env : Env V} {n : ℕ} {s s' : State γ V}
    {l : Label V} (htr : Tracked n s) (hj : Journaled n s)
    (hstep : Step env s l s') : Journaled n s' := by
  cases hstep with
  | take => exact { hj with }
  | finish => exact { hj with }
  | complete time hpolled hcomplete =>
      obtain ⟨thread, gen, ctx, hthread, -, hreplace, rfl⟩ := State.complete_eq_ok hcomplete
      have hnames := htr.mem_names hthread
      have hwf := htr.wf.freeThread time (htr.mem_allThreads hnames)
      have hreplaced := replaced_of_replaceProcess hwf hnames hreplace
      refine hj.append htr.wf .completion (s.stamp time _) rfl hthread
        (fun process hseen => hseen.freeThread.replaced hreplaced)
        (fun p => hreplaced.outgrown p) ?_ rfl rfl
      rintro ⟨-, hcrashed, p, hp⟩
      have hthread' : (s.ctx.freeThread time thread).processToThread (.int p) = some thread :=
        (congrArg s.ctx.processToThread hp).symm.trans hthread
      exact ⟨p, hp, outgrown_of_replaceProcess hwf hthread' hreplace hcrashed⟩
  | wait oracle time hwait =>
      rw [State.generate_eq_waiting hwait]
      exact { hj with }
  | dispatch oracle time hdispatch hexecutes =>
      obtain ⟨gen', -, -, hnext⟩ := State.generate_eq_dispatched hdispatch
      obtain ⟨thread, gen, hthread, -, rfl⟩ := State.dispatch_eq_ok hnext
      refine hj.append htr.wf .invocation (s.indexed _) rfl hthread
        (fun process hseen => hseen) (fun p hp => hp) ?_ rfl rfl
      rintro ⟨hrole, -⟩
      cases hrole

/-! ## Invocations and completions alternate -/

/-- Invocations stand at even positions and completions at odd ones. -/
def Alternates (entries : List (Entry V)) : Prop :=
  ∀ (i : ℕ) (e : Entry V), entries[i]? = some e → (e.role = .invocation ↔ i % 2 = 0)

theorem Alternates.append {entries : List (Entry V)} (halt : Alternates entries)
    {e : Entry V} (hrole : e.role = .invocation ↔ entries.length % 2 = 0) :
    Alternates (entries ++ [e]) := by
  intro i e' he'
  rcases Nat.lt_trichotomy i entries.length with hlt | heq | hgt
  · rw [List.getElem?_append_left hlt] at he'
    exact halt i e' he'
  · rw [heq, List.getElem?_concat_length] at he'
    obtain rfl := Option.some.inj he'
    rw [heq]
    exact hrole
  · rw [List.getElem?_eq_none (by simp; omega)] at he'
    cases he'

/-- The journaled operations of one process. -/
def State.ofProcess (s : State γ V) (process : Name) : List (Entry V) :=
  s.history.filter fun e => decide (e.op.process = process)

theorem filter_journal (role : Role) (o : Op V) (history : List (Entry V)) (process : Name) :
    ((journal role o history).filter fun e => decide (e.op.process = process)) =
      (history.filter fun e => decide (e.op.process = process)) ++
        if goesInHistory o = true ∧ o.process = process then [⟨role, o⟩] else [] := by
  unfold journal
  by_cases hgoes : goesInHistory o = true
  · by_cases hprocess : o.process = process <;> simp [hgoes, hprocess]
  · simp [hgoes]

theorem ofProcess_afterCompletion (s : State γ V) (o : Op V) (rest : List (Op V))
    (ctx : Context) (gen : Option (Validate (FriendlyExceptions γ))) (process : Name) :
    (s.afterCompletion o rest ctx gen).ofProcess process =
      s.ofProcess process ++
        if goesInHistory o = true ∧ o.process = process then [⟨.completion, o⟩] else [] :=
  filter_journal _ _ _ _

theorem ofProcess_afterDispatch (s : State γ V) (o : Op V) (thread : Name)
    (ctx : Context) (gen : Option (Validate (FriendlyExceptions γ))) (process : Name) :
    (s.afterDispatch o thread ctx gen).ofProcess process =
      s.ofProcess process ++
        if goesInHistory o = true ∧ o.process = process then [⟨.invocation, o⟩] else [] :=
  filter_journal _ _ _ _

structure Paired (env : Env V) (s : State γ V) : Prop where
  returns : ∀ thread, ∀ o ∈ s.invocations thread ++ (s.working thread).toList,
    Returns env o
  /-- A process has an unmatched invocation exactly while its thread has a
  journaled operation in flight. -/
  open_iff : ∀ process thread, s.ctx.processToThread process = some thread →
    ((s.ofProcess process).length % 2 = 1 ↔
      ∃ o ∈ s.inFlight thread, goesInHistory o = true)
  alternates : ∀ process, Alternates (s.ofProcess process)

/-- A worker that returns completes an operation with one that goes in the
history exactly if it did. -/
theorem Outcome.goesInHistory_eq {env : Env V} {thread : Name} {o o' : Op V}
    (houtcome : Outcome env thread o o') (hreturns : Returns env o) :
    goesInHistory o' = goesInHistory o := by
  have handled : o.type ∉ [OpType.sleep, .log, .exit] → goesInHistory o = true := by
    intro hnot
    unfold goesInHistory
    split <;> simp_all
  cases houtcome with
  | slept => rfl
  | sleepCrashed htype hthrows =>
      rw [hreturns.1 htype] at hthrows
      cases hthrows
  | logged => rfl
  | logCrashed htype hthrows =>
      rw [hreturns.2 htype] at hthrows
      cases hthrows
  | invoked hhandled htype =>
      rw [handled hhandled]
      cases thread <;> unfold goesInHistory completionTypes at * <;> split <;> simp_all
  | notOpened hhandled => rw [handled hhandled]; rfl
  | crashed hhandled => rw [handled hhandled]; rfl

theorem paired_init [Protocol γ V] (env : Env V) (n : ℕ) (gen : Option γ) :
    Paired env (State.init n gen : State γ V) where
  returns := fun thread o ho => by cases ho
  open_iff := fun process thread _ => by
    simp [State.init, State.ofProcess, State.inFlight]
  alternates := fun process i e he => by cases he

section Steps

variable {env : Env V} {n : ℕ} {s : State γ V}

theorem Paired.take (htr : Tracked n s) (hp : Paired env s) {thread : Name} {o : Op V}
    {rest : List (Op V)} (hqueued : s.invocations thread = o :: rest)
    (hidle : s.working thread = none) :
    Paired env { s with
      invocations := Function.update s.invocations thread rest
      working := Function.update s.working thread (some o) } where
  returns := fun other o' ho' => by
    by_cases heq : other = thread
    · subst heq
      refine hp.returns other o' ?_
      simpa [hqueued, hidle, or_comm] using ho'
    · exact hp.returns other o' (by simpa [Function.update_of_ne heq] using ho')
  open_iff := fun process other hother => by
    rw [inFlight_take htr hqueued hidle]
    exact hp.open_iff process other hother
  alternates := hp.alternates

theorem Paired.finish (htr : Tracked n s) (hp : Paired env s) {thread : Name} {o o' : Op V}
    (hbusy : s.working thread = some o) (houtcome : Outcome env thread o o') :
    Paired env { s with
      working := Function.update s.working thread none
      completions := s.completions ++ [o'] } where
  returns := fun other o'' ho'' => by
    by_cases heq : other = thread
    · subst heq
      exact hp.returns other o'' (List.mem_append_left _ (by simpa using ho''))
    · exact hp.returns other o'' (by simpa [Function.update_of_ne heq] using ho'')
  open_iff := fun process other hother => by
    have hmem : o ∈ s.invocations thread ++ (s.working thread).toList := by simp [hbusy]
    rw [inFlight_finish htr hbusy houtcome.process_eq]
    by_cases heq : other = thread
    · subst heq
      have hflight := (htr.inFlight_eq_singleton (htr.not_mem_names_of_queue hmem)
        (List.mem_append_left _ hmem)).2
      have hopen := hp.open_iff process other hother
      rw [hflight] at hopen
      rw [if_pos rfl]
      show (s.ofProcess process).length % 2 = 1 ↔ _
      simpa [houtcome.goesInHistory_eq (hp.returns other o hmem)] using hopen
    · rw [if_neg heq]
      exact hp.open_iff process other hother
  alternates := hp.alternates

/-- A process that nobody executed yet has no history. -/
theorem ofProcess_eq_nil (hj : Journaled n s) {p : ℕ} (hnot : ¬ Outgrown n s.ctx p)
    (hunassigned : s.ctx.processToThread (.int p) = none) : s.ofProcess (.int p) = [] := by
  rw [State.ofProcess, List.filter_eq_nil_iff]
  intro e he hprocess
  have hprocess' : e.op.process = .int p := of_decide_eq_true hprocess
  rcases hj.seen e he with ⟨t, ht⟩ | ⟨q, hq, hgone⟩
  · rw [hprocess', hunassigned] at ht
    cases ht
  · rw [hprocess'] at hq
    injection hq with hpq
    exact hnot (hpq ▸ hgone)

variable [Protocol γ V]

theorem Paired.complete (htr : Tracked n s) (hj : Journaled n s) (hp : Paired env s)
    {o : Op V} {rest : List (Op V)} {time : ℤ} {s' : State γ V}
    (hpolled : s.completions = o :: rest)
    (hcomplete : s.complete time o rest = .ok s') : Paired env s' := by
  have htr' := htr.complete hpolled hcomplete
  obtain ⟨thread, gen, ctx, hthread, -, hreplace, rfl⟩ := State.complete_eq_ok hcomplete
  have hnames := htr.mem_names hthread
  have hwf := htr.wf.freeThread time (htr.mem_allThreads hnames)
  have hreplaced := replaced_of_replaceProcess hwf hnames hreplace
  have hmem : o ∈ s.inFlight thread := by simp [State.inFlight, hpolled, hthread]
  have hflight := (htr.inFlight_eq_singleton hnames hmem).2
  have hopen := hp.open_iff _ _ hthread
  simp only [hflight, List.mem_singleton, exists_eq_left] at hopen
  refine
    { returns := hp.returns
      open_iff := fun process other hother => ?_
      alternates := fun process => ?_ }
  · rw [inFlight_complete htr hpolled hthread hreplaced, ofProcess_afterCompletion,
      State.stamp_process, goesInHistory_stamp]
    replace hother : ctx.processToThread process = some other := hother
    by_cases heq : other = thread
    · subst heq
      simp only [if_pos, List.not_mem_nil, false_and, exists_false, iff_false]
      rcases hreplaced.fresh process hother with hold | ⟨p, rfl, hnot, hunassigned⟩
      · obtain ⟨_, hexecutes⟩ := (htr.wf.inverse _ _).mp hold
        obtain ⟨_, hexecutes'⟩ := (htr.wf.inverse _ _).mp hthread
        obtain rfl := Option.some.inj (hexecutes'.symm.trans hexecutes)
        by_cases hgoes : goesInHistory o = true
        · have hodd := hopen.mpr hgoes
          rw [if_pos ⟨hgoes, rfl⟩, List.length_append, List.length_singleton]
          omega
        · have heven := fun h => hgoes (hopen.mp h)
          rw [if_neg fun h => hgoes h.1, List.append_nil]
          exact heven
      · have hnil : s.ofProcess (.int p) = [] := ofProcess_eq_nil hj hnot hunassigned
        have hne : ¬ o.process = .int p := by
          intro h
          rw [h] at hthread
          exact absurd (hthread.symm.trans hunassigned) (by simp)
        simp [hnil, hne]
    · rw [if_neg heq]
      have hother' : s.ctx.processToThread process = some other :=
        (hreplaced.others process other heq).mp hother
      have hne : ¬ o.process = process := by
        rintro rfl
        exact heq (Option.some.inj (hother'.symm.trans hthread))
      rw [if_neg fun h => hne h.2, List.append_nil]
      exact hp.open_iff process other hother'
  · rw [ofProcess_afterCompletion]
    split
    · rename_i hcond
      obtain ⟨hgoes, rfl⟩ := hcond
      refine (hp.alternates _).append ?_
      have hodd : (s.ofProcess (s.stamp time o).process).length % 2 = 1 := hopen.mpr hgoes
      simpa using hodd
    · rw [List.append_nil]
      exact hp.alternates process

theorem Paired.dispatch (htr : Tracked n s) (hp : Paired env s) {o : Op V} {time : ℤ}
    {s' : State γ V} {gen' : Option (Validate (FriendlyExceptions γ))}
    (hfree : NamesFree (s.ctx.withTime time) o) (hreturns : Returns env o)
    (hdispatch : s.dispatch (s.ctx.withTime time) o gen' = .ok s') : Paired env s' := by
  obtain ⟨thread, hthread, hnothing, hafter⟩ := (htr.dispatch hfree hdispatch).2
  obtain ⟨thread', gen, hthread', -, rfl⟩ := State.dispatch_eq_ok hdispatch
  rw [withTime_processToThread, hthread] at hthread'
  obtain rfl := Option.some.inj hthread'
  have hclosed := hp.open_iff _ _ hthread
  simp only [hnothing, List.not_mem_nil, false_and, exists_false, iff_false] at hclosed
  refine
    { returns := fun other o' ho' => ?_
      open_iff := fun process other hother => ?_
      alternates := fun process => ?_ }
  · by_cases heq : other = thread
    · subst heq
      simp only [State.afterDispatch, Function.update_self, List.mem_append,
        List.mem_singleton] at ho'
      rcases ho' with (hold | rfl) | hold
      · exact hp.returns other o' (List.mem_append_left _ hold)
      · exact hreturns
      · exact hp.returns other o' (List.mem_append_right _ hold)
    · exact hp.returns other o' (by simpa [State.afterDispatch, heq] using ho')
  · replace hother : s.ctx.processToThread process = some other := hother
    rw [hafter, ofProcess_afterDispatch, State.indexed_process, goesInHistory_indexed]
    by_cases heq : other = thread
    · subst heq
      obtain ⟨_, hexecutes⟩ := (htr.wf.inverse _ _).mp hother
      obtain ⟨_, hexecutes'⟩ := (htr.wf.inverse _ _).mp hthread
      obtain rfl := Option.some.inj (hexecutes'.symm.trans hexecutes)
      by_cases hgoes : goesInHistory o = true
      · rw [if_pos ⟨hgoes, rfl⟩, if_pos rfl, List.length_append, List.length_singleton]
        simp only [List.mem_singleton, exists_eq_left, goesInHistory_indexed, hgoes, iff_true]
        omega
      · rw [if_neg fun h => hgoes h.1, if_pos rfl, List.append_nil]
        simpa [hgoes] using hclosed
    · rw [if_neg heq]
      have hne : ¬ o.process = process := by
        rintro rfl
        exact heq (Option.some.inj (hother.symm.trans hthread))
      rw [if_neg fun h => hne h.2, List.append_nil]
      exact hp.open_iff process other hother
  · rw [ofProcess_afterDispatch]
    split
    · rename_i hcond
      obtain ⟨-, rfl⟩ := hcond
      refine (hp.alternates _).append ?_
      have heven : (s.ofProcess (s.indexed o).process).length % 2 = 0 := by
        rw [State.indexed_process]
        omega
      simpa using heven
    · rw [List.append_nil]
      exact hp.alternates process

theorem Paired.step {s' : State γ V} {l : Label V} (htr : Tracked n s)
    (hj : Journaled n s) (hp : Paired env s) (hstep : Step env s l s')
    (hfree : LabelNamesFree s l) (hreturns : LabelReturns env l) : Paired env s' := by
  cases hstep with
  | take thread hqueued hidle => exact hp.take htr hqueued hidle
  | finish thread hbusy houtcome => exact hp.finish htr hbusy houtcome
  | complete time hpolled hcomplete => exact hp.complete htr hj hpolled hcomplete
  | wait oracle time hwait =>
      rw [State.generate_eq_waiting hwait]
      exact { hp with }
  | dispatch oracle time hdispatch hexecutes =>
      obtain ⟨gen', -, -, hnext⟩ := State.generate_eq_dispatched hdispatch
      exact hp.dispatch htr hfree hreturns hnext

end Steps

/-! ## Whole runs -/

/-- What holds whenever the loop starts an iteration. -/
structure Sound (n : ℕ) (s : State γ V) : Prop where
  /-- `outstanding` counts the threads that are not free. -/
  outstanding : s.outstanding = (s.ctx.allThreadsBits \ s.ctx.freeThreadsBits).card
  free_idle : ∀ thread ∈ s.ctx.freeThreads, s.inFlight thread = []
  busy_one : ∀ thread ∈ s.ctx.allThreads, thread ∉ s.ctx.freeThreads →
    ∃ o, s.inFlight thread = [o]
  in_queue : ∀ thread, (s.invocations thread).length ≤ 1
  completion_queue : s.completions.length ≤ s.ctx.allThreadCount
  next_index : s.opIndex = s.history.length
  index : ∀ (i : ℕ) (e : Entry V), s.history[i]? = some e → e.op.index = i
  alternates : ∀ process, Alternates (s.ofProcess process)
  retired : s.history.Pairwise fun e later =>
    e.Retires → later.op.process ≠ e.op.process

/-- At most one completion of each thread is queued, so the queue has room for
all of them. -/
theorem Tracked.length_completions_le {n : ℕ} {s : State γ V} (htr : Tracked n s) :
    s.completions.length ≤ n + 1 := by
  let owner : Op V → Option Name := fun o => s.ctx.processToThread o.process
  have hnodup : (s.completions.map owner).Nodup := by
    rw [List.nodup_iff_count_le_one]
    intro thread
    rw [List.count, List.countP_map, List.countP_eq_length_filter]
    by_contra hgt
    have hpos : 0 < (s.completions.filter ((· == thread) ∘ owner)).length := by omega
    obtain ⟨o, ho⟩ := List.exists_mem_of_length_pos hpos
    obtain ⟨hmem, howner⟩ := List.mem_filter.mp ho
    obtain ⟨t, ht⟩ := htr.polled o hmem
    have heq : thread = some t := ((beq_iff_eq.mp howner).symm).trans ht
    subst heq
    have hflight := (htr.inFlight_eq_singleton (htr.mem_names ht)
      (List.mem_append_right _ (List.mem_filter.mpr ⟨hmem, decide_eq_true ht⟩))).2
    have hlen := congrArg List.length hflight
    simp only [State.inFlight, List.length_append, List.length_singleton] at hlen
    have hsame : ((· == some t) ∘ owner) =
        fun o => decide (s.ctx.processToThread o.process = some t) := by
      funext o
      exact beq_eq_decide _ _
    rw [hsame] at hgt
    omega
  have hsubset : s.completions.map owner ⊆ (testTable n).allNames.map some := by
    intro thread hthread
    obtain ⟨o, ho, rfl⟩ := List.mem_map.mp hthread
    obtain ⟨t, ht⟩ := htr.polled o ho
    exact List.mem_map.mpr ⟨t, htr.mem_names ht, ht.symm⟩
  have hle := (hnodup.subperm hsubset).length_le
  simpa [TranslationTable.allNames, testTable, TranslationTable.translationTable] using hle

theorem Tracked.length_invocations_le {n : ℕ} {s : State γ V} (htr : Tracked n s)
    (thread : Name) : (s.invocations thread).length ≤ 1 := by
  cases hqueue : s.invocations thread with
  | nil => exact Nat.zero_le 1
  | cons o rest =>
      have hmem : o ∈ s.invocations thread ++ (s.working thread).toList := by simp [hqueue]
      have hflight := (htr.inFlight_eq_singleton (htr.not_mem_names_of_queue hmem)
        (List.mem_append_left _ hmem)).2
      have hlen := congrArg List.length hflight
      simp only [State.inFlight, hqueue, List.length_append, List.length_singleton] at hlen
      omega

theorem sound_of_invariants {env : Env V} {n : ℕ} {s : State γ V} (htr : Tracked n s)
    (hj : Journaled n s) (hp : Paired env s) : Sound n s where
  outstanding := htr.outstanding
  free_idle := fun thread hthread => by
    obtain ⟨hnames, hfree⟩ := htr.wf.mem_freeThreads_iff.mp hthread
    exact htr.idle thread hfree hnames
  busy_one := fun thread hthread hbusy => by
    have hnames := (htr.wf.mem_allThreads_iff.mp hthread).1
    exact htr.busy thread (fun hfree => hbusy (htr.wf.mem_freeThreads_iff.mpr ⟨hnames, hfree⟩))
      hnames
  in_queue := htr.length_invocations_le
  completion_queue := by
    rw [allThreadCount, htr.all, Finset.card_range]
    exact htr.length_completions_le
  next_index := hj.opIndex
  index := hj.index
  alternates := hp.alternates
  retired := hj.retired

/-- A step whose dispatched operation names a free thread's process and is one
its worker returns from. -/
def GoodStep [Protocol γ V] (env : Env V) (s : State γ V) (l : Label V)
    (s' : State γ V) : Prop :=
  Step env s l s' ∧ LabelNamesFree s l ∧ LabelReturns env l

/-- `Thread/sleep` throws on a negative duration. -/
def sleepEnv : Env ℤ where
  sleeps := fun seconds => decide (0 ≤ seconds)
  logs := fun _ => true

/-- `(gen/sleep dt)` -/
def sleep (dt : ℤ) : OpMap ℤ := { type := some .sleep, value := dt }

/-- The first context of a one-client test names the client's process. -/
theorem namesFree_context_one {o : Op V} (hprocess : o.process = .int 0) :
    NamesFree ((context 1).withTime 0) o := by
  refine ⟨.int 0, ?_, ?_⟩
  · show Name.int 0 ∈ ((context 1).withTime 0).freeThreads
    decide
  · rw [hprocess]
    rfl

end Jepsen.Generator.Interpreter
