/-
# Where events go

An event goes to the generator its thread's group holds at the moment, which is
not always the generator whose operation the thread executes: a group with a
busy thread may have moved on to the next key. As long as groups take keys only
while all their threads are free, every event reaches the generator that emitted
its operation.
-/

import Jepsen.Independent.KeyPartition

namespace Jepsen.Independent

open Jepsen.Generator Jepsen.Generator.Context Jepsen.Generator.Interpreter
open Jepsen.History Jepsen.Library
open Stream' (Seq)

universe u v w

/-! ## The operation a thread executes -/

/-- The last operation emitted for a thread, and the position it came from. -/
def executing {V : Type u} (notes : List (Note V)) (thread : Name) : Option (ℕ × Op V) :=
  notes.foldl (fun latest note =>
    match note with
    | .emitted position t o => if t = thread then some (position, o) else latest
    | _ => latest) none

section Executing

variable {V : Type u} (notes : List (Note V))

theorem executing_concat (note : Note V) (thread : Name) :
    executing (notes ++ [note]) thread =
      match note with
      | .emitted position t o => if t = thread then some (position, o) else executing notes thread
      | _ => executing notes thread := by
  unfold executing
  rw [List.foldl_append]
  rfl

@[simp]
theorem executing_took (taken : List ℕ) (thread : Name) :
    executing (notes ++ taken.map .took) thread = executing notes thread := by
  induction taken using List.reverseRecOn with
  | nil => simp
  | append_singleton taken group ih =>
    rw [List.map_append, ← List.append_assoc]
    exact (executing_concat _ _ _).trans ih

@[simp]
theorem executing_emitted (position : ℕ) (t : Name) (o : Op V) (thread : Name) :
    executing (notes ++ [.emitted position t o]) thread =
      if t = thread then some (position, o) else executing notes thread :=
  executing_concat _ _ _

@[simp]
theorem executing_delivered (position : ℕ) (t : Name) (event : Op V) (thread : Name) :
    executing (notes ++ [.delivered position t event]) thread = executing notes thread :=
  executing_concat _ _ _

end Executing

theorem positionOf_append_of_notMem {given taken : List ℕ} {group : ℕ}
    (hgroup : group ∉ taken) : positionOf (given ++ taken) group = positionOf given group := by
  induction taken using List.reverseRecOn with
  | nil => rw [List.append_nil]
  | append_singleton taken g ih =>
    rw [List.mem_append, List.mem_singleton, not_or] at hgroup
    rw [← List.append_assoc, positionOf_concat, if_neg (Ne.symm hgroup.2), ih hgroup.1]

variable {K : Type u} {A : Type v} {γ : Type w}

theorem mem_emissions_of_executing {V : Type u} {notes : List (Note V)} {thread : Name}
    {position : ℕ} {o : Op V} (hexec : executing notes thread = some (position, o)) :
    (position, thread, o) ∈ emissions notes := by
  induction notes using List.reverseRecOn with
  | nil => cases hexec
  | append_singleton notes note ih =>
    rw [executing_concat] at hexec
    rw [emissions_append, List.mem_append]
    split at hexec
    · split at hexec
      · rename_i hthread
        cases hexec
        rw [hthread]
        exact Or.inr List.mem_cons_self
      · exact Or.inl (ih hexec)
    · exact Or.inl (ih hexec)

section Routed

variable {c n : ℕ} {n_pos : 0 < n} {keys : Seq K} {fgen : K → Option γ}

/-! ## Routed runs -/

/-- The groups that take keys in a step have no busy thread. -/
def TakesWhenFree (c n : ℕ) (t t' : Traced K A γ) : Prop :=
  ∀ group, Note.took group ∈ t'.notes.drop t.notes.length →
    ∀ i < c, i / n = group → Name.int i ∈ t.state.ctx.freeThreads

/-- The busy client threads execute operations of the position their group works
on. -/
def Routed (c n : ℕ) (t : Traced K A γ) : Prop :=
  ∀ i < c, Name.int i ∉ t.state.ctx.freeThreads →
    ∃ position o, executing t.notes (.int i) = some (position, o) ∧
      positionOf (given t.notes) (i / n) = some position ∧
      t.state.ctx.threadToProcess (.int i) = some o.process

/-- Every delivery is an event of the operation its thread executes, and goes to
the position that emitted it. -/
def DeliveredHome {V : Type u} (notes : List (Note V)) : Prop :=
  ∀ j position thread event, notes[j]? = some (.delivered position thread event) →
    ∃ o, executing (notes.take j) thread = some (position, o) ∧ event.process = o.process

theorem DeliveredHome.concat {notes : List (Note (Value K A))} (hhome : DeliveredHome notes)
    {note : Note (Value K A)}
    (hnote : ∀ position thread event, note = .delivered position thread event →
      ∃ o, executing notes thread = some (position, o) ∧ event.process = o.process) :
    DeliveredHome (notes ++ [note]) := by
  intro j position thread event hj
  rcases Nat.lt_trichotomy j notes.length with hlt | rfl | hgt
  · rw [List.getElem?_append_left hlt] at hj
    rw [List.take_append_of_le_length hlt.le]
    exact hhome j position thread event hj
  · rw [List.getElem?_concat_length] at hj
    rw [List.take_left]
    exact hnote position thread event (Option.some.inj hj)
  · rw [List.getElem?_eq_none (by simp; omega)] at hj
    cases hj

theorem DeliveredHome.took {notes : List (Note (Value K A))} (hhome : DeliveredHome notes)
    (taken : List ℕ) : DeliveredHome (notes ++ taken.map .took) := by
  induction taken using List.reverseRecOn with
  | nil => simpa using hhome
  | append_singleton taken group ih =>
    rw [List.map_append, ← List.append_assoc]
    exact ih.concat fun position thread event h => by cases h

theorem Traced.routed_init :
    Routed c n (Traced.init c n n_pos keys fgen : Traced K A γ) := by
  intro i hi hbusy
  refine absurd ?_ hbusy
  refine (wellFormed_context c).mem_freeThreads_iff.mpr
    ⟨mem_testTable_allNames.mpr (Or.inl ⟨i, hi, rfl⟩), ?_⟩
  exact Finset.mem_range.mpr (Nat.lt_succ_of_lt hi)

/-- A completion comes from a busy thread, whose operation it completes. -/
theorem Routed.executes {t : Traced K A γ} (hrouted : Routed c n t)
    (htr : Tracked c t.state) {o : Op (Value K A)} {rest : List (Op (Value K A))}
    (hpolled : t.state.completions = o :: rest) {i : ℕ} (hi : i < c)
    (hexecutes : t.state.ctx.processToThread o.process = some (.int i)) :
    ∃ position o', executing t.notes (.int i) = some (position, o') ∧
      positionOf (given t.notes) (i / n) = some position ∧ o.process = o'.process := by
  obtain ⟨hmem, hthread⟩ := (htr.wf.inverse _ _).mp hexecutes
  have hflight : o ∈ t.state.inFlight (.int i) := by
    simp [State.inFlight, hpolled, hexecutes]
  have hbusy := (htr.inFlight_eq_singleton hmem hflight).1
  obtain ⟨position, o', hexec, hposition, hprocess⟩ := hrouted i hi fun hfree =>
    hbusy (htr.wf.mem_freeThreads_iff.mp hfree).2
  exact ⟨position, o', hexec, hposition, Option.some.inj (hthread.symm.trans hprocess)⟩

/-- Freeing a thread and replacing its process leaves the others as they are. -/
theorem Routed.completed {t : Traced K A γ} (hrouted : Routed c n t)
    (hwhole : Whole c t.state.ctx) {time : ℤ} {o : Op (Value K A)}
    {rest : List (Op (Value K A))} {thread : Name} {ctx : Context}
    {gen : Option (Validate (FriendlyExceptions (OnThreads (ConcurrentGenerator K A γ))))}
    {gen' : ConcurrentGenerator K A γ} {new : List (Note (Value K A))}
    (hexecutes : t.state.ctx.processToThread o.process = some thread)
    (hreplace : replaceProcess (t.state.ctx.freeThread time thread) thread
      (t.state.stamp time o) = some ctx)
    (hexec : ∀ i, executing (t.notes ++ new) (.int i) = executing t.notes (.int i))
    (hgiven : given new = []) :
    Routed c n ⟨t.state.afterCompletion (t.state.stamp time o) rest ctx gen, gen',
      t.notes ++ new⟩ := by
  have hnames := ((hwhole.wf.inverse _ _).mp hexecutes).1
  have hfreed := hwhole.freeThread time hnames
  have hreplaced := replaced_of_replaceProcess hfreed.wf hnames hreplace
  intro i hi hbusy
  have hmem : Name.int i ∈ (testTable c).allNames :=
    mem_testTable_allNames.mpr (Or.inl ⟨i, hi, rfl⟩)
  have hstill : Name.int i ∉ (t.state.ctx.freeThread time thread).freeThreads := by
    rw [hfreed.wf.mem_freeThreads_iff, ← hreplaced.free, ← hreplaced.wf.mem_freeThreads_iff]
    exact hbusy
  have hother : Name.int i ≠ thread := by
    rintro rfl
    refine hstill (hfreed.wf.mem_freeThreads_iff.mpr ⟨hmem, ?_⟩)
    rw [freeThread_free, hwhole.wf.table]
    exact Finset.mem_insert_self _ _
  obtain ⟨position, o', hexec', hposition, hprocess⟩ := hrouted i hi fun hfree => by
    refine hstill (hfreed.wf.mem_freeThreads_iff.mpr ⟨hmem, ?_⟩)
    rw [freeThread_free]
    exact Finset.mem_insert_of_mem (hwhole.wf.mem_freeThreads_iff.mp hfree).2
  refine ⟨position, o', (hexec i).trans hexec', ?_, ?_⟩
  · rw [given_append, hgiven, List.append_nil]
    exact hposition
  · have hkept := (hreplaced.others o'.process _ hother).mpr
      ((hfreed.wf.inverse _ _).mpr ⟨hmem, hprocess⟩)
    exact ((hreplaced.wf.inverse _ _).mp hkept).2

/-- A dispatched operation makes its thread busy with the position its group
works on. -/
theorem Routed.dispatched {t : Traced K A γ} (hrouted : Routed c n t)
    (hwhole : Whole c t.state.ctx) {time : ℤ} {o : Op (Value K A)} {i : ℕ}
    {position : ℕ} {taken : List ℕ} {delivered : List (Note (Value K A))}
    {gen : Option (Validate (FriendlyExceptions (OnThreads (ConcurrentGenerator K A γ))))}
    {gen' : ConcurrentGenerator K A γ}
    (hexecutes : t.state.ctx.processToThread o.process = some (.int i))
    (hworks : positionOf (given t.notes ++ taken) (i / n) = some position)
    (htaken : ∀ group ∈ taken, ∀ j < c, j / n = group →
      Name.int j ∈ t.state.ctx.freeThreads)
    (hexec : ∀ j, executing (t.notes ++ (taken.map .took ++ [.emitted position (.int i) o]) ++
        delivered) (.int j) =
      executing (t.notes ++ (taken.map .took ++ [.emitted position (.int i) o])) (.int j))
    (hgiven : given delivered = []) :
    Routed c n ⟨t.state.afterDispatch (t.state.indexed o) (.int i)
        ((t.state.ctx.withTime time).busyThread o.time (.int i)) gen, gen',
      t.notes ++ (taken.map .took ++ [.emitted position (.int i) o]) ++ delivered⟩ := by
  have hbusied := (hwhole.withTime time).busyThread o.time (.int i)
  intro j hj hbusy
  have hlast : executing (t.notes ++ (taken.map .took ++ [.emitted position (.int i) o]))
      (.int j) = if Name.int i = .int j then some (position, o) else
        executing t.notes (.int j) := by
    rw [← List.append_assoc, executing_emitted, executing_took]
  have hsame : given (t.notes ++ (taken.map .took ++ [.emitted position (.int i) o]) ++
      delivered) = given t.notes ++ taken := by
    simp only [given_append, hgiven, given_map_took, given_emitted, List.append_nil]
  by_cases heq : i = j
  · subst heq
    refine ⟨position, o, (hexec _).trans (hlast.trans (if_pos rfl)), ?_,
      ((hwhole.wf.inverse _ _).mp hexecutes).2⟩
    rw [hsame]
    exact hworks
  · have hmem : Name.int j ∈ (testTable c).allNames :=
      mem_testTable_allNames.mpr (Or.inl ⟨j, hj, rfl⟩)
    have hbusyBefore : Name.int j ∉ t.state.ctx.freeThreads := by
      intro hfree
      refine hbusy (hbusied.wf.mem_freeThreads_iff.mpr ⟨hmem, ?_⟩)
      rw [busyThread_free, withTime_table, hwhole.wf.table]
      refine Finset.mem_erase.mpr ⟨?_, (hwhole.wf.mem_freeThreads_iff.mp hfree).2⟩
      exact fun h => heq h.symm
    obtain ⟨position', o', hexec', hposition, hprocess⟩ := hrouted j hj hbusyBefore
    have hother : Name.int i ≠ .int j := fun h => heq (by injection h)
    refine ⟨position', o', (hexec _).trans ((hlast.trans (if_neg hother)).trans hexec'), ?_,
      hprocess⟩
    rw [hsame, positionOf_append_of_notMem]
    · exact hposition
    · exact fun hin => hbusyBefore (htaken _ hin j hj rfl)

end Routed

variable [Protocol γ (Value K A)]

section Runs

variable {c n : ℕ} {n_pos : 0 < n} {keys : Seq K} {fgen : K → Option γ}
  {env : Env (Value K A)}

/-- What a delivery is. -/
theorem mem_deliveries {gen : ConcurrentGenerator K A γ} {notes : List (Note (Value K A))}
    (hacc : Accounts c n fgen keys gen notes) (thread : Name) (event : Op (Value K A)) :
    gen.deliveries notes thread event = [] ∨
      ∃ i position, i < c ∧ thread = .int i ∧ positionOf (given notes) (i / n) = some position ∧
        gen.deliveries notes thread event = [.delivered position thread event] := by
  have hn : 0 < n := hacc.size ▸ gen.n_pos
  unfold ConcurrentGenerator.deliveries
  rcases hacc.groups with ⟨hnone, -, -⟩ | ⟨groups, hgroups, hgrouped, -⟩
  · rw [hnone]
    exact Or.inl rfl
  · simp only [hgroups, hgrouped.lookup_eq hn]
    cases thread with
    | keyword k => exact Or.inl rfl
    | int i =>
      by_cases hi : i < c
      · simp only [if_pos hi]
        split
        · rename_i position _ hposition
          exact Or.inr ⟨i, position, hi, rfl, hposition, rfl⟩
        · exact Or.inl rfl
      · simp only [if_neg hi]
        exact Or.inl trivial

/-! ## Dispatched operations name free threads -/

/-- `Validate` checks that the thread of a process is free. -/
theorem mem_freeThreads_of_problems {ctx : Context} (hwf : WellFormed c ctx) {thread : Name}
    {o : Op (Value K A)} (hexecutes : ctx.processToThread o.process = some thread)
    (hpasses : Validate.problems ctx o = []) : thread ∈ ctx.freeThreads := by
  have hfree := (List.append_eq_nil_iff.mp hpasses).2
  rw [hexecutes] at hfree
  by_contra hbusy
  rw [if_neg] at hfree
  · cases hfree
  · intro hthreadFree
    have hmem := ((hwf.inverse _ _).mp hexecutes).1
    refine hbusy (hwf.mem_freeThreads_iff.mpr ⟨hmem, ?_⟩)
    simpa [threadFree, hwf.table] using hthreadFree

theorem TracedStep.labelNamesFree {t t' : Traced K A γ} {l : Label (Value K A)}
    (hwhole : Whole c t.state.ctx) (hstep : TracedStep env t l t') :
    LabelNamesFree t.state l := by
  cases hstep with
  | quiet step hquiet =>
    cases l with
    | dispatched => cases hquiet
    | _ => trivial
  | completed => trivial
  | @dispatched time o thread s' gen₁ gen' new step passes emits receives holds =>
    have hexecutes := step.thread_of_dispatched
    have hwf := (hwhole.withTime time).wf
    exact ⟨thread, mem_freeThreads_of_problems hwf hexecutes passes,
      ((hwf.inverse _ _).mp hexecutes).2⟩

theorem tracked_of_traced {labels : List (Label (Value K A))} {t : Traced K A γ}
    (hrun : Run (TracedStep env) (.init c n n_pos keys fgen) labels t) :
    Tracked c t.state := by
  induction hrun with
  | nil => exact tracked_init c _
  | snoc hprior hlast ih =>
    have hcons := Traced.consistent_of_run hprior
    exact ih.step hlast.step (hlast.labelNamesFree hcons.whole)

/-- A step without the generator keeps who is busy with what. -/
theorem Routed.quiet {t : Traced K A γ} {l : Label (Value K A)}
    {s' : State (OnThreads (ConcurrentGenerator K A γ)) (Value K A)}
    (hrouted : Routed c n t) (hstep : Step env t.state l s') (hquiet : Quiet l) :
    Routed c n { t with state := s' } := by
  cases hstep with
  | take => exact hrouted
  | finish => exact hrouted
  | complete => cases hquiet
  | wait oracle time hwait =>
    rw [State.generate_eq_waiting hwait]
    exact hrouted
  | dispatch => cases hquiet

/-- The notes of a call that emits: the groups that took keys, then the
emission, whose position its group now works on. -/
theorem Accounts.emission {gen gen' : ConcurrentGenerator K A γ}
    {notes new : List (Note (Value K A))} {ctx : Context} {thread : Name}
    {o : Op (Value K A)} (hacc : Accounts c n fgen keys gen notes) (hwhole : Whole c ctx)
    (hown : ∀ k, NamesOwnThreads (fgen k))
    (hexecutes : ctx.processToThread o.process = some thread)
    (hemits : gen.Emits notes (clientView ctx) thread o gen' new) :
    ∃ (taken : List ℕ) (position i : ℕ), new = taken.map .took ++ [.emitted position thread o] ∧ i < c ∧
      thread = .int i ∧ positionOf (given (notes ++ new)) (i / n) = some position := by
  obtain ⟨position, hnew, hfrom⟩ := hacc.fromGroup hwhole hown hexecutes hemits
  obtain ⟨i, hi, rfl, hgroup⟩ := hfrom.performed
  cases hemits with
  | @intro groups taken keys' gens' offers offer position' hasked hmade hworking =>
    have hposition : positionOf (given (notes ++ ((gen.initial groups ++ taken).map .took ++
        [.emitted position' (.int i) o]))) offer.group = some position' := by
      rw [given_append, given_append, given_map_took, given_emitted, List.append_nil,
        ← List.append_assoc]
      exact hworking
    have hsame : position' = position := by
      simp only [emissions_append, emissions_map_took, List.nil_append] at hnew
      cases hnew
      rfl
    subst hsame
    rw [getElem?_of_positionOf hposition] at hgroup
    rw [Option.some.inj hgroup] at hposition
    exact ⟨_, position', i, rfl, hi, rfl, hposition⟩

/-- A completion goes to the position whose operation it completes. -/
theorem Routed.completed_step {t t' : Traced K A γ} {time : ℤ} {o : Op (Value K A)}
    (hrouted : Routed c n t) (hhome : DeliveredHome t.notes)
    (hcons : t.Consistent c n keys fgen) (htr : Tracked c t.state)
    (hstep : TracedStep env t (.completed time o) t') :
    Routed c n t' ∧ DeliveredHome t'.notes := by
  cases hstep with
  | quiet step hquiet => cases hquiet
  | @completed _ _ thread s' gen' step executes receives holds =>
    cases step with
    | complete _ hpolled hcomplete =>
      obtain ⟨thread', gen, ctx, hthread, -, hreplace, rfl⟩ := State.complete_eq_ok hcomplete
      obtain rfl := Option.some.inj (executes.symm.trans hthread)
      rcases mem_deliveries hcons.accounts thread o with
        hnew | ⟨i, p, hi, rfl, hposition, hnew⟩
      · rw [hnew]
        refine ⟨hrouted.completed hcons.whole hthread hreplace (fun i => ?_) rfl, ?_⟩
        · rw [List.append_nil]
        · rw [List.append_nil]
          exact hhome
      · rw [hnew]
        refine ⟨hrouted.completed hcons.whole hthread hreplace
          (fun i => executing_delivered _ _ _ _ _) (given_delivered _ _ _), ?_⟩
        apply hhome.concat
        intro position thread event heq
        cases heq
        obtain ⟨position, o', hexec, hworks, hprocess⟩ :=
          hrouted.executes htr hpolled hi executes
        obtain rfl := Option.some.inj (hposition.symm.trans hworks)
        exact ⟨o', hexec, hprocess⟩

/-- An invocation goes to the position it was emitted from. -/
theorem Routed.dispatched_step {t t' : Traced K A γ} {time : ℤ} {o : Op (Value K A)}
    {thread : Name} (hrouted : Routed c n t) (hhome : DeliveredHome t.notes)
    (hcons : t.Consistent c n keys fgen) (hown : ∀ k, NamesOwnThreads (fgen k))
    (hstep : TracedStep env t (.dispatched thread time o) t') (htakes : TakesWhenFree c n t t') :
    Routed c n t' ∧ DeliveredHome t'.notes := by
  cases hstep with
  | quiet step hquiet => cases hquiet
  | @dispatched _ _ _ s' gen₁ gen' new step passes emits receives holds =>
    have hwhole := hcons.whole.withTime time
    have hexecutes := step.thread_of_dispatched
    obtain ⟨taken, position, i, rfl, hi, rfl, hworks⟩ :=
      hcons.accounts.emission hwhole hown hexecutes emits
    cases step with
    | dispatch oracle _ hdispatch _ =>
      obtain ⟨next, -, -, hnext⟩ := State.generate_eq_dispatched hdispatch
      obtain ⟨thread, gen, hthread, -, rfl⟩ := State.dispatch_eq_ok hnext
      obtain rfl := Option.some.inj (hexecutes.symm.trans hthread)
      have hworks' := hworks
      rw [given_append, given_append, given_map_took, given_emitted, List.append_nil]
        at hworks'
      have htaken : ∀ group ∈ taken, ∀ j < c, j / n = group →
          Name.int j ∈ t.state.ctx.freeThreads := by
        intro group hgroup
        apply htakes group
        rw [List.append_assoc, List.drop_left, List.append_assoc]
        exact List.mem_append_left _ (List.mem_map.mpr ⟨group, hgroup, rfl⟩)
      have hemitted : DeliveredHome (t.notes ++ (taken.map .took ++
          [.emitted position (.int i) o])) := by
        rw [← List.append_assoc]
        exact (hhome.took taken).concat fun _ _ _ h => by cases h
      rcases mem_deliveries (hcons.accounts.emits hwhole emits) (.int i) o with
        hnew | ⟨i', p, -, hi', hposition, hnew⟩
      · rw [hnew]
        refine ⟨hrouted.dispatched hcons.whole hexecutes hworks' htaken (fun j => ?_) rfl, ?_⟩
        · rw [List.append_nil]
        · rw [List.append_nil]
          exact hemitted
      · rw [hnew]
        obtain rfl : i = i' := by injection hi'
        refine ⟨hrouted.dispatched hcons.whole hexecutes hworks' htaken
          (fun j => executing_delivered _ _ _ _ _) (given_delivered _ _ _), ?_⟩
        apply hemitted.concat
        intro position' thread event heq
        cases heq
        obtain rfl := Option.some.inj (hposition.symm.trans hworks)
        refine ⟨o, ?_, rfl⟩
        rw [← List.append_assoc, executing_emitted, if_pos rfl]

theorem routed_of_run (hown : ∀ k, NamesOwnThreads (fgen k))
    {labels : List (Label (Value K A))} {t : Traced K A γ}
    (hrun : Run (fun t l t' => TracedStep env t l t' ∧ TakesWhenFree c n t t')
      (.init c n n_pos keys fgen) labels t) : Routed c n t ∧ DeliveredHome t.notes := by
  induction hrun with
  | nil => exact ⟨Traced.routed_init, fun j position thread event h => by cases h⟩
  | @snoc labels t t' l hprior hlast ih =>
    obtain ⟨hrouted, hhome⟩ := ih
    obtain ⟨hstep, htakes⟩ := hlast
    have htraced := hprior.mono fun h => h.1
    have hcons := Traced.consistent_of_run htraced
    have hcopy := hstep
    cases hstep with
    | quiet step hquiet => exact ⟨hrouted.quiet step hquiet, hhome⟩
    | completed => exact hrouted.completed_step hhome hcons (tracked_of_traced htraced) hcopy
    | dispatched => exact hrouted.dispatched_step hhome hcons hown hcopy htakes

end Runs

/-- A generator that offers one operation and remembers what it is told. -/
structure Recorder (V : Type u) where
  pending : Option (OpMap V)
  received : List (Op V)

namespace Recorder

variable {V : Type u}

def op (_oracle : Oracle) (this : Recorder V) (ctx : Context) :
    Except Thrown (Option (Answer V × Option (Recorder V))) :=
  match this.pending with
  | none => .ok none
  | some m =>
      match m.fillInOp ctx with
      | .pending => .ok (some (.pending, some this))
      | .op o => .ok (some (.op o, some { this with pending := none }))

def update (this : Recorder V) (_ctx : Context) (event : Op V) :
    Except Thrown (Option (Recorder V)) :=
  .ok (some { this with received := this.received ++ [event] })

instance : Protocol (Recorder V) V where
  op := op
  update := update

/-- The recorder of a key writes the key. -/
def writes (k : ℕ) : Recorder (Value ℕ ℕ) :=
  ⟨some { f := some "write", value := .plain k }, []⟩

end Recorder

end Jepsen.Independent
