/-
# Every busy thread has one operation in flight

`Tracked` ties the context's free set, the outstanding counter, the queues and
the workers together: a free thread has nothing in flight, a busy thread exactly
one operation, which is in its in-queue, at its worker, or waiting to be polled.
-/

import Jepsen.Generator.ContextHistory
import Jepsen.Generator.Interpreter

namespace Jepsen.Generator.Interpreter

open Jepsen.History Jepsen.Library
open Jepsen.Generator.Context

universe u v

/-! ## Replacing a process -/

/-- What the loop may do to the process tables after a completion on `thread`:
other threads keep their processes, and outgrown processes stay outgrown. -/
structure Replaced (n : ℕ) (thread : Name) (ctx ctx' : Context) : Prop where
  wf : WellFormed n ctx'
  all : ctx'.allThreadsBits = ctx.allThreadsBits
  free : ctx'.freeThreadsBits = ctx.freeThreadsBits
  others : ∀ process other, other ≠ thread →
    (ctx'.processToThread process = some other ↔ ctx.processToThread process = some other)
  outgrown : ∀ p, Outgrown n ctx p → Outgrown n ctx' p
  /-- The old process is still the thread's, or it is a client's and outgrown. -/
  kept : ∀ process, ctx.processToThread process = some thread →
    ctx'.processToThread process = some thread ∨
      ∃ p, process = .int p ∧ Outgrown n ctx' p
  /-- The thread's process is the old one, or one that nobody executed before. -/
  fresh : ∀ process, ctx'.processToThread process = some thread →
    ctx.processToThread process = some thread ∨
      ∃ p, process = .int p ∧ ¬ Outgrown n ctx p ∧ ctx.processToThread process = none

theorem Replaced.refl {n : ℕ} {thread : Name} {ctx : Context} (hwf : WellFormed n ctx) :
    Replaced n thread ctx ctx where
  wf := hwf
  all := rfl
  free := rfl
  others := fun _ _ _ => Iff.rfl
  outgrown := fun _ => id
  kept := fun _ => Or.inl
  fresh := fun _ => Or.inl

/-- The next process of a client lies above everything its thread executed. -/
theorem not_outgrown_next {n : ℕ} {ctx : Context} {i q : ℕ} (hi : i < n)
    (hq : ctx.threadToProcess (.int i) = some (.int q)) (hmod : q % n = i) :
    ¬ Outgrown n ctx (n + q) := by
  rintro ⟨j, hj, r, hr, hjmod, hlt⟩
  rw [Nat.add_mod_left, hmod] at hjmod
  subst hjmod
  rw [hq] at hr
  injection hr with hint
  injection hint with heq
  omega

theorem Replaced.of_withNextProcess {n : ℕ} {thread : Name} {ctx ctx' : Context}
    (hwf : WellFormed n ctx) (hthread : thread ∈ (testTable n).allNames)
    (hclient : thread ≠ .nemesis) (hnext : ctx.withNextProcess thread = some ctx') :
    Replaced n thread ctx ctx' := by
  have hwf' := hwf.withNextProcess hthread hnext
  have hread := fun other hother =>
    @WellFormed.threadToProcess_withNextProcess n ctx ctx' hwf thread other hthread hother hnext
  obtain ⟨i, hi, rfl⟩ : ∃ i < n, thread = .int i := by
    rcases mem_testTable_allNames.mp hthread with h | h
    · exact h
    · exact absurd h hclient
  obtain ⟨c, hc⟩ := hwf.client_process i hi
  have hold : ctx.threadToProcess (.int i) = some (.int (i + c * n)) :=
    hwf.threadToProcess_int.trans hc
  have hnew : ctx'.threadToProcess (.int i) = some (.int (n + (i + c * n))) := by
    rw [hread _ hthread, if_pos rfl, hold]
    rfl
  have hmod : (i + c * n) % n = i := by
    rw [Nat.add_mul_mod_self_right, Nat.mod_eq_of_lt hi]
  refine
    { wf := hwf'
      all := ?_
      free := ?_
      others := fun process other hne => ?_
      outgrown := fun p => Outgrown.withNextProcess hwf hthread hnext
      kept := fun process hprocess => Or.inr ?_
      fresh := fun process hprocess => Or.inr ?_ }
  · obtain ⟨_, _, rfl⟩ := withNextProcess_eq_some hnext
    rfl
  · obtain ⟨_, _, rfl⟩ := withNextProcess_eq_some hnext
    rfl
  · rw [hwf'.inverse, hwf.inverse]
    refine and_congr_right fun hother => ?_
    rw [hread other hother, if_neg hne]
  · have hprocess' := ((hwf.inverse _ _).mp hprocess).2
    rw [hold] at hprocess'
    obtain rfl := Option.some.inj hprocess'
    exact ⟨_, rfl, i, hi, _, hnew, hmod, by omega⟩
  · have hprocess' := ((hwf'.inverse _ _).mp hprocess).2
    rw [hnew] at hprocess'
    obtain rfl := Option.some.inj hprocess'
    refine ⟨_, rfl, not_outgrown_next hi hold hmod, ?_⟩
    by_contra hsome
    obtain ⟨other, hother⟩ := Option.ne_none_iff_exists'.mp hsome
    obtain ⟨hmem, hexecutes⟩ := (hwf.inverse _ _).mp hother
    obtain rfl := hwf.nextProcess_fresh hthread hmem hold hexecutes
    rw [hold] at hexecutes
    injection hexecutes with hint
    injection hint with heq
    omega

theorem replaced_of_replaceProcess {V : Type u} {n : ℕ} {thread : Name}
    {ctx ctx' : Context} {o : Op V} (hwf : WellFormed n ctx)
    (hthread : thread ∈ (testTable n).allNames)
    (hreplace : replaceProcess ctx thread o = some ctx') : Replaced n thread ctx ctx' := by
  unfold replaceProcess at hreplace
  split at hreplace
  · rename_i hcrashed
    exact .of_withNextProcess hwf hthread hcrashed.1 hreplace
  · cases hreplace
    exact .refl hwf

/-- A client whose completion asks for it loses its process for good. -/
theorem outgrown_of_replaceProcess {V : Type u} {n : ℕ} {thread : Name}
    {ctx ctx' : Context} {o : Op V} {p : ℕ} (hwf : WellFormed n ctx)
    (hthread : ctx.processToThread (.int p) = some thread)
    (hreplace : replaceProcess ctx thread o = some ctx')
    (hretires : o.type = .info ∨ o.endProcess = true) : Outgrown n ctx' p := by
  obtain ⟨hmem, hprocess⟩ := (hwf.inverse _ _).mp hthread
  obtain ⟨i, hi, rfl, -⟩ := hwf.thread_of_int_process hmem hprocess
  have hclient : Name.int i ≠ .nemesis := fun h => by cases h
  rw [replaceProcess, if_pos ⟨hclient, hretires⟩] at hreplace
  exact outgrown_of_replaced hwf hmem hreplace (by simp [replacedProcess, hprocess])

/-! ## Operations in flight -/

variable {γ : Type v} {V : Type u}

/-- A thread's operations that were dispatched and not yet polled. -/
def State.inFlight (s : State γ V) (thread : Name) : List (Op V) :=
  s.invocations thread ++ (s.working thread).toList ++
    s.completions.filter fun o => decide (s.ctx.processToThread o.process = some thread)

/-- Threads that are not free. -/
def State.busyBits (s : State γ V) : Bits := s.ctx.allThreadsBits \ s.ctx.freeThreadsBits

/-- Index of a thread in the bit sets of a test with `n` clients. -/
def bit (n : ℕ) (thread : Name) : ℕ := (testTable n).nameToIndex (some thread)

structure Tracked (n : ℕ) (s : State γ V) : Prop where
  wf : WellFormed n s.ctx
  all : s.ctx.allThreadsBits = Finset.range (n + 1)
  outstanding : s.outstanding = s.busyBits.card
  idle : ∀ thread, bit n thread ∈ s.ctx.freeThreadsBits →
    thread ∈ (testTable n).allNames → s.inFlight thread = []
  busy : ∀ thread, bit n thread ∉ s.ctx.freeThreadsBits →
    thread ∈ (testTable n).allNames → ∃ o, s.inFlight thread = [o]
  /-- What a worker has or will get is executed by its thread's process. -/
  assigned : ∀ thread, ∀ o ∈ s.invocations thread ++ (s.working thread).toList,
    s.ctx.processToThread o.process = some thread
  polled : ∀ o ∈ s.completions, ∃ thread, s.ctx.processToThread o.process = some thread

namespace Tracked

variable {n : ℕ} {s : State γ V}

theorem bit_lt {thread : Name} (hthread : thread ∈ (testTable n).allNames) :
    bit n thread < n + 1 := nameToIndex_testTable_lt hthread

theorem mem_allThreads (htr : Tracked n s) {thread : Name}
    (hthread : thread ∈ (testTable n).allNames) : thread ∈ s.ctx.allThreads := by
  rw [htr.wf.mem_allThreads_iff, htr.all, Finset.mem_range]
  exact ⟨hthread, bit_lt hthread⟩

theorem mem_names (htr : Tracked n s) {process thread : Name}
    (hthread : s.ctx.processToThread process = some thread) :
    thread ∈ (testTable n).allNames := ((htr.wf.inverse _ _).mp hthread).1

/-- A thread with something in flight is busy, and that is all it has. -/
theorem inFlight_eq_singleton (htr : Tracked n s) {thread : Name}
    (hthread : thread ∈ (testTable n).allNames) {o : Op V}
    (ho : o ∈ s.inFlight thread) :
    bit n thread ∉ s.ctx.freeThreadsBits ∧ s.inFlight thread = [o] := by
  have hbusy : bit n thread ∉ s.ctx.freeThreadsBits := fun hfree => by
    rw [htr.idle thread hfree hthread] at ho
    cases ho
  obtain ⟨o', ho'⟩ := htr.busy thread hbusy hthread
  rw [ho', List.mem_singleton] at ho
  exact ⟨hbusy, ho ▸ ho'⟩

theorem not_mem_names_of_queue (htr : Tracked n s) {thread : Name} {o : Op V}
    (ho : o ∈ s.invocations thread ++ (s.working thread).toList) :
    thread ∈ (testTable n).allNames :=
  htr.mem_names (htr.assigned thread o ho)

end Tracked

theorem tracked_init [Protocol γ V] (n : ℕ) (gen : Option γ) :
    Tracked n (State.init n gen : State γ V) where
  wf := wellFormed_context n
  all := rfl
  outstanding := by simp [State.init, State.busyBits, Context.context]
  idle := fun _ _ _ => rfl
  busy := fun thread hbusy hthread => by
    refine absurd ?_ hbusy
    exact Finset.mem_range.mpr (nameToIndex_testTable_lt hthread)
  assigned := fun thread o ho => by cases ho
  polled := fun o ho => by cases ho

/-! ## Worker steps -/

/-- Taking an operation off the queue changes nothing about what is in flight. -/
theorem inFlight_take {n : ℕ} {s : State γ V} (htr : Tracked n s) {thread : Name}
    {o : Op V} {rest : List (Op V)} (hqueued : s.invocations thread = o :: rest)
    (hidle : s.working thread = none) (other : Name) :
    State.inFlight { s with
      invocations := Function.update s.invocations thread rest
      working := Function.update s.working thread (some o) } other = s.inFlight other := by
  unfold State.inFlight
  by_cases heq : other = thread
  · subst heq
    have hmem : o ∈ s.invocations other ++ (s.working other).toList := by simp [hqueued]
    have hflight := (htr.inFlight_eq_singleton (htr.not_mem_names_of_queue hmem)
      (List.mem_append_left _ hmem)).2
    simp only [State.inFlight, hqueued, hidle, Option.toList_none, List.append_nil,
      List.cons_append, List.cons.injEq, List.append_eq_nil_iff, true_and] at hflight
    simp [hqueued, hidle, hflight.1]
  · simp [Function.update_of_ne heq]

theorem Tracked.take {n : ℕ} {s : State γ V} (htr : Tracked n s) {thread : Name}
    {o : Op V} {rest : List (Op V)} (hqueued : s.invocations thread = o :: rest)
    (hidle : s.working thread = none) :
    Tracked n { s with
      invocations := Function.update s.invocations thread rest
      working := Function.update s.working thread (some o) } where
  wf := htr.wf
  all := htr.all
  outstanding := htr.outstanding
  idle := fun other hfree hother => by
    rw [inFlight_take htr hqueued hidle]
    exact htr.idle other hfree hother
  busy := fun other hbusy hother => by
    rw [inFlight_take htr hqueued hidle]
    exact htr.busy other hbusy hother
  assigned := fun other o' ho' => by
    by_cases heq : other = thread
    · subst heq
      refine htr.assigned other o' ?_
      simpa [hqueued, hidle, or_comm] using ho'
    · exact htr.assigned other o' (by simpa [Function.update_of_ne heq] using ho')
  polled := htr.polled

theorem Outcome.process_eq {env : Env V} {thread : Name} {o o' : Op V}
    (houtcome : Outcome env thread o o') : o'.process = o.process := by
  cases houtcome with
  | slept => rfl
  | sleepCrashed => rfl
  | logged => rfl
  | logCrashed => rfl
  | invoked _ _ hprocess _ => exact hprocess
  | notOpened => rfl
  | crashed => rfl

/-- A worker's completion replaces the operation it was carrying out. -/
theorem inFlight_finish {n : ℕ} {s : State γ V} (htr : Tracked n s) {thread : Name}
    {o o' : Op V} (hbusy : s.working thread = some o) (hprocess : o'.process = o.process)
    (other : Name) :
    State.inFlight { s with
        working := Function.update s.working thread none
        completions := s.completions ++ [o'] } other =
      if other = thread then [o'] else s.inFlight other := by
  have hmem : o ∈ s.invocations thread ++ (s.working thread).toList := by simp [hbusy]
  have hexec : s.ctx.processToThread o'.process = some thread := by
    rw [hprocess]
    exact htr.assigned thread o hmem
  unfold State.inFlight
  by_cases heq : other = thread
  · subst heq
    have hflight := (htr.inFlight_eq_singleton (htr.not_mem_names_of_queue hmem)
      (List.mem_append_left _ hmem)).2
    have hlen := congrArg List.length hflight
    simp only [State.inFlight, hbusy, Option.toList_some, List.length_append,
      List.length_singleton] at hlen
    have hqueue : s.invocations other = [] := List.length_eq_zero_iff.mp (by omega)
    have hpolled : s.completions.filter
        (fun o => decide (s.ctx.processToThread o.process = some other)) = [] :=
      List.length_eq_zero_iff.mp (by omega)
    simp [hqueue, hexec, List.filter_append, hpolled]
  · have hne : ¬ s.ctx.processToThread o'.process = some other := by
      rw [hexec]
      exact fun h => heq (Option.some.inj h).symm
    simp [List.filter_append, hne, heq]

theorem Tracked.finish {n : ℕ} {s : State γ V} (htr : Tracked n s) {thread : Name}
    {o o' : Op V} (hbusy : s.working thread = some o)
    (hprocess : o'.process = o.process) :
    Tracked n { s with
      working := Function.update s.working thread none
      completions := s.completions ++ [o'] } where
  wf := htr.wf
  all := htr.all
  outstanding := htr.outstanding
  idle := fun other hfree hother => by
    have hmem : o ∈ s.invocations thread ++ (s.working thread).toList := by simp [hbusy]
    have hne : other ≠ thread := by
      rintro rfl
      exact (htr.inFlight_eq_singleton hother (List.mem_append_left _ hmem)).1 hfree
    rw [inFlight_finish htr hbusy hprocess, if_neg hne]
    exact htr.idle other hfree hother
  busy := fun other hnotfree hother => by
    rw [inFlight_finish htr hbusy hprocess]
    by_cases heq : other = thread
    · exact ⟨o', if_pos heq⟩
    · rw [if_neg heq]
      exact htr.busy other hnotfree hother
  assigned := fun other o'' ho'' => by
    by_cases heq : other = thread
    · subst heq
      exact htr.assigned other o'' (List.mem_append_left _ (by simpa using ho''))
    · exact htr.assigned other o'' (by simpa [Function.update_of_ne heq] using ho'')
  polled := fun o'' ho'' => by
    rcases List.mem_append.mp ho'' with hold | hnew
    · exact htr.polled o'' hold
    · obtain rfl := List.mem_singleton.mp hnew
      exact ⟨thread, by rw [hprocess]; exact htr.assigned thread o (by simp [hbusy])⟩

/-! ## Loop steps -/

section Loop

variable {n : ℕ} {s : State γ V} {thread : Name} {o : Op V} {rest : List (Op V)}

/-- The operation at the head of the completion queue is all its thread has. -/
theorem Tracked.only_polled (htr : Tracked n s) (hpolled : s.completions = o :: rest)
    (hthread : s.ctx.processToThread o.process = some thread) :
    bit n thread ∉ s.ctx.freeThreadsBits ∧
      s.invocations thread ++ (s.working thread).toList = [] ∧
      ∀ o' ∈ rest, s.ctx.processToThread o'.process ≠ some thread := by
  have hmem : o ∈ s.inFlight thread := by
    simp [State.inFlight, hpolled, hthread]
  obtain ⟨hbusy, hflight⟩ := htr.inFlight_eq_singleton (htr.mem_names hthread) hmem
  have hlen := congrArg List.length hflight
  simp only [State.inFlight, hpolled, List.length_append, List.length_cons,
    List.length_nil, List.filter_cons_of_pos, hthread, decide_true] at hlen
  refine ⟨hbusy, ?_, fun o' ho' heq => ?_⟩
  · rw [← List.length_eq_zero_iff, List.length_append]
    omega
  · have hpos : 0 < (rest.filter
        fun o => decide (s.ctx.processToThread o.process = some thread)).length :=
      List.length_pos_of_mem (List.mem_filter.mpr ⟨ho', decide_eq_true heq⟩)
    omega

/-- A polled completion leaves its thread with nothing in flight, whatever the
process tables become. -/
theorem inFlight_complete (htr : Tracked n s) (hpolled : s.completions = o :: rest)
    (hthread : s.ctx.processToThread o.process = some thread) {ctx' : Context}
    {time : ℤ} (hreplaced : Replaced n thread (s.ctx.freeThread time thread) ctx')
    (o' : Op V) (gen : Option (Validate (FriendlyExceptions γ))) (other : Name) :
    (s.afterCompletion o' rest ctx' gen).inFlight other =
      if other = thread then [] else s.inFlight other := by
  obtain ⟨-, hnone, hothersPolled⟩ := htr.only_polled hpolled hthread
  unfold State.inFlight State.afterCompletion
  by_cases heq : other = thread
  · subst heq
    rw [hnone, if_pos rfl, List.nil_append, List.filter_eq_nil_iff]
    intro o' ho' hnew
    rcases hreplaced.fresh _ (of_decide_eq_true hnew) with hkeep | ⟨p, -, -, hunassigned⟩
    · exact hothersPolled o' ho' hkeep
    · obtain ⟨t, ht⟩ := htr.polled o' (by rw [hpolled]; exact List.mem_cons_of_mem _ ho')
      exact absurd (hunassigned.symm.trans ht) (by simp)
  · have hne : ¬ s.ctx.processToThread o.process = some other := by
      rw [hthread]
      exact fun h => heq (Option.some.inj h).symm
    have hothers := fun process => hreplaced.others process other heq
    simp only [freeThread_processToThread] at hothers
    simp [hpolled, hne, heq, hothers]

theorem card_busyBits_insert {all free : Bits} {i : ℕ} (hall : i ∈ all)
    (hfree : i ∉ free) :
    ((all \ insert i free).card : ℤ) = (all \ free).card - 1 := by
  have hmem : i ∈ all \ free := Finset.mem_sdiff.mpr ⟨hall, hfree⟩
  have heq : all \ insert i free = (all \ free).erase i := by
    ext j
    simp only [Finset.mem_sdiff, Finset.mem_insert, Finset.mem_erase, not_or]
    tauto
  have hpos : 0 < (all \ free).card := Finset.card_pos.mpr ⟨i, hmem⟩
  rw [heq, Finset.card_erase_of_mem hmem, Nat.cast_sub hpos, Nat.cast_one]

theorem card_busyBits_erase {all free : Bits} {i : ℕ} (hall : i ∈ all)
    (hfree : i ∈ free) :
    ((all \ free.erase i).card : ℤ) = (all \ free).card + 1 := by
  have hnot : i ∉ all \ free := fun h => (Finset.mem_sdiff.mp h).2 hfree
  have heq : all \ free.erase i = insert i (all \ free) := by
    ext j
    simp only [Finset.mem_sdiff, Finset.mem_insert, Finset.mem_erase, not_and, ne_eq]
    constructor
    · rintro ⟨hj, hor⟩
      by_cases hji : j = i
      · exact Or.inl hji
      · exact Or.inr ⟨hj, hor hji⟩
    · rintro (rfl | ⟨hj, hnotfree⟩)
      · exact ⟨hall, fun h => absurd rfl h⟩
      · exact ⟨hj, fun _ => hnotfree⟩
  rw [heq, Finset.card_insert_of_notMem hnot, Nat.cast_add, Nat.cast_one]

variable [Protocol γ V]

theorem Tracked.complete (htr : Tracked n s) {time : ℤ} {s' : State γ V}
    (hpolled : s.completions = o :: rest)
    (hcomplete : s.complete time o rest = .ok s') : Tracked n s' := by
  obtain ⟨thread, gen, ctx, hthread, -, hreplace, rfl⟩ := State.complete_eq_ok hcomplete
  have hnames := htr.mem_names hthread
  have hwf := htr.wf.freeThread time (htr.mem_allThreads hnames)
  have hreplaced := replaced_of_replaceProcess hwf hnames hreplace
  obtain ⟨hbusy, hnone, hothersPolled⟩ := htr.only_polled hpolled hthread
  have hall : ctx.allThreadsBits = Finset.range (n + 1) := hreplaced.all.trans htr.all
  have hfree : ctx.freeThreadsBits = insert (bit n thread) s.ctx.freeThreadsBits := by
    rw [hreplaced.free, freeThread_free, htr.wf.table]
    rfl
  have hafter := inFlight_complete htr hpolled hthread hreplaced (s.stamp time o) gen
  refine
    { wf := hreplaced.wf
      all := hall
      outstanding := ?_
      idle := fun other hother hmem => ?_
      busy := fun other hother hmem => ?_
      assigned := fun other o' ho' => ?_
      polled := fun o' ho' => ?_ }
  · simp only [State.busyBits, State.afterCompletion, hall, hfree]
    rw [card_busyBits_insert (Finset.mem_range.mpr (Tracked.bit_lt hnames)) hbusy,
      htr.outstanding, State.busyBits, htr.all]
  · rw [hafter]
    by_cases heq : other = thread
    · exact if_pos heq
    · rw [if_neg heq]
      simp only [State.afterCompletion, hfree, Finset.mem_insert] at hother
      refine htr.idle other (hother.resolve_left fun hbit => heq ?_) hmem
      exact nameToIndex_testTable_inj hmem hnames hbit
  · rw [hafter]
    simp only [State.afterCompletion, hfree, Finset.mem_insert, not_or] at hother
    rw [if_neg (fun heq => hother.1 (congrArg (bit n) heq))]
    exact htr.busy other hother.2 hmem
  · have hold := htr.assigned other o' ho'
    refine (hreplaced.others _ _ ?_).mpr hold
    rintro rfl
    exact absurd (hnone ▸ ho') List.not_mem_nil
  · obtain ⟨t, ht⟩ := htr.polled o' (by rw [hpolled]; exact List.mem_cons_of_mem _ ho')
    refine ⟨t, (hreplaced.others _ _ ?_).mpr ht⟩
    rintro rfl
    exact hothersPolled o' ho' ht

omit [Protocol γ V] in
theorem Tracked.wait (htr : Tracked n s) (time : ℤ) :
    Tracked n { s with ctx := s.ctx.withTime time } where
  wf := htr.wf.withTime time
  all := htr.all
  outstanding := htr.outstanding
  idle := htr.idle
  busy := htr.busy
  assigned := htr.assigned
  polled := htr.polled

/-- The operation a dispatch may send: one for the process of a thread that is
free in the context the generator was asked with. -/
def NamesFree (ctx : Context) (o : Op V) : Prop :=
  ∃ thread ∈ ctx.freeThreads, ctx.threadToProcess thread = some o.process

theorem Tracked.dispatch (htr : Tracked n s) {time : ℤ} {s' : State γ V}
    {gen' : Option (Validate (FriendlyExceptions γ))}
    (hfree : NamesFree (s.ctx.withTime time) o)
    (hdispatch : s.dispatch (s.ctx.withTime time) o gen' = .ok s') :
    Tracked n s' ∧ ∃ thread, s.ctx.processToThread o.process = some thread ∧
      s.inFlight thread = [] ∧ ∀ other, s'.inFlight other =
        if other = thread then [s.indexed o] else s.inFlight other := by
  obtain ⟨thread, gen, hthread, -, rfl⟩ := State.dispatch_eq_ok hdispatch
  rw [withTime_processToThread] at hthread
  have hnames := htr.mem_names hthread
  have hbit : bit n thread ∈ s.ctx.freeThreadsBits := by
    obtain ⟨t, ht, hprocess⟩ := hfree
    rw [withTime_freeThreads, htr.wf.mem_freeThreads_iff] at ht
    rw [withTime_threadToProcess] at hprocess
    have heq := ((htr.wf.inverse t _).mpr ⟨ht.1, hprocess⟩).symm.trans hthread
    obtain rfl := Option.some.inj heq
    exact ht.2
  have hnothing := htr.idle thread hbit hnames
  obtain ⟨hqueue, hpolled⟩ := List.append_eq_nil_iff.mp hnothing
  obtain ⟨hqueue, hworking⟩ := List.append_eq_nil_iff.mp hqueue
  have hafter : ∀ other, (s.afterDispatch (s.indexed o) thread
      ((s.ctx.withTime time).busyThread o.time thread) gen).inFlight other =
        if other = thread then [s.indexed o] else s.inFlight other := by
    intro other
    -- Neither the clock nor the free set matters to which thread owns a completion.
    change Function.update s.invocations thread _ other ++ (s.working other).toList ++
      s.completions.filter
      (fun o => decide (s.ctx.processToThread o.process = some other)) = _
    by_cases heq : other = thread
    · subst heq
      rw [Function.update_self, hqueue, hpolled, if_pos rfl]
      simp [hworking]
    · rw [Function.update_of_ne heq, if_neg heq]
      rfl
  have hbits : ((s.ctx.withTime time).busyThread o.time thread).freeThreadsBits =
      s.ctx.freeThreadsBits.erase (bit n thread) := by
    rw [busyThread_free, withTime_free, withTime_table, htr.wf.table]
    rfl
  refine ⟨
    { wf := (htr.wf.withTime time).busyThread o.time thread
      all := htr.all
      outstanding := ?_
      idle := fun other hother hmem => ?_
      busy := fun other hother hmem => ?_
      assigned := fun other o' ho' => ?_
      polled := htr.polled }, thread, hthread, hnothing, hafter⟩
  · simp only [State.busyBits, State.afterDispatch, busyThread_all, withTime_all, hbits,
      htr.all]
    rw [card_busyBits_erase (Finset.mem_range.mpr (Tracked.bit_lt hnames)) hbit,
      htr.outstanding, State.busyBits, htr.all]
  · simp only [State.afterDispatch, hbits, Finset.mem_erase] at hother
    rw [hafter, if_neg (fun heq => hother.1 (congrArg (bit n) heq))]
    exact htr.idle other hother.2 hmem
  · rw [hafter]
    by_cases heq : other = thread
    · exact ⟨_, if_pos heq⟩
    · rw [if_neg heq]
      refine htr.busy other (fun hin => hother ?_) hmem
      simp only [State.afterDispatch, hbits, Finset.mem_erase]
      exact ⟨fun hb => heq (nameToIndex_testTable_inj hmem hnames hb), hin⟩
  · by_cases heq : other = thread
    · subst heq
      simp only [State.afterDispatch, Function.update_self, hqueue, hworking,
        List.nil_append, List.append_nil, List.mem_singleton] at ho'
      subst ho'
      exact hthread
    · exact htr.assigned other o' (by simpa [State.afterDispatch, heq] using ho')

end Loop

end Jepsen.Generator.Interpreter
