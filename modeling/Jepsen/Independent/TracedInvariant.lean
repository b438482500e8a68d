/-
# The notes account for the generator

In every run with notes, the generator's record is what the notes say it is:
each position's generator has made exactly the progress noted for it. Together
with `exists_traced` this is what the results about the concurrent generator
start from.
-/

import Jepsen.Independent.Traced

namespace Jepsen.Independent

open Jepsen.Generator Jepsen.Generator.Context Jepsen.Generator.Interpreter
open Jepsen.History Jepsen.Library
open Stream' (Seq)

universe u v w

variable {K : Type u} {A : Type v} {γ : Type w}

theorem Seq.drop_length_take (s : Seq K) (m : ℕ) : s.drop (s.take m).length = s.drop m := by
  apply Seq.ext
  intro j
  rw [Seq.drop_get?, Seq.drop_get?]
  have hle := s.length_take_le (n := m)
  by_cases hlt : (s.take m).length < m
  · have hnone : s.get? (s.take m).length = none := by
      have hpast := List.getElem?_eq_none (le_refl (s.take m).length)
      rwa [Seq.getElem?_take, if_pos hlt] at hpast
    rw [s.le_stable (Nat.le_add_right _ j) hnone,
      s.le_stable (Nat.le_trans hle (Nat.le_add_right _ j)) hnone]
  · rw [show (s.take m).length = m by omega]

variable [Protocol γ (Value K A)]

/-- Handing the first keys to the groups in order. -/
theorem served_initial {fgen : K → Option γ} (keys : Seq K) (m : ℕ) :
    Served fgen keys ((List.range (keys.take m).length).map .took) (keys.drop m)
      ((keys.take m).map (fun k => tupleGen k (fgen k)) ++
        List.replicate (m - (keys.take m).length) none) := by
  have hgens : ∀ group, group < (keys.take m).length → ∃ k, keys.get? group = some k ∧
      ((keys.take m).map (fun k => (tupleGen k (fgen k) : Option (Map γ (Value K A)))) ++
        List.replicate (m - (keys.take m).length) none)[group]? =
          some (tupleGen k (fgen k)) := by
    intro group hgroup
    have hm := lt_of_lt_of_le hgroup keys.length_take_le
    have hget := keys.getElem?_take group m
    rw [if_pos hm, List.getElem?_eq_getElem hgroup] at hget
    refine ⟨_, hget.symm, ?_⟩
    rw [List.getElem?_append_left (by simpa using hgroup), List.getElem?_map,
      List.getElem?_eq_getElem hgroup]
    rfl
  constructor
  · rw [given_map_took, List.length_range, Seq.drop_length_take]
  · intro group hgroup
    rw [given_map_took, List.mem_range] at hgroup
    simp only [List.length_append, List.length_map, List.length_replicate]
    omega
  · have hle := keys.length_take_le (n := m)
    rw [given_map_took, List.length_range, List.length_append, List.length_map,
      List.length_replicate, Nat.add_sub_cancel' hle]
  · intro position group hgroup
    rw [given_map_took] at hgroup ⊢
    obtain ⟨hlt, rfl⟩ : position < (keys.take m).length ∧ position = group := by
      have hlt := (List.getElem?_eq_some_iff.mp hgroup).1
      rw [List.length_range] at hlt
      rw [List.getElem?_range hlt] at hgroup
      exact ⟨hlt, Option.some.inj hgroup⟩
    obtain ⟨k, hk, hcurrent⟩ := hgens position hlt
    refine ⟨k, tupleGen k (fgen k), hk, ⟨[], .nil, ?_⟩, Or.inr ⟨positionOf_range hlt, hcurrent⟩⟩
    rw [emittedBy_map_took]
    rfl
  · intro position _
    exact emittedBy_map_took _ _
  · intro group gen hgroup
    rw [given_map_took]
    by_cases hlt : group < (keys.take m).length
    · exact ⟨group, positionOf_range hlt⟩
    · rw [List.getElem?_append_right (by simpa using hlt)] at hgroup
      have hmem := List.mem_of_getElem? hgroup
      cases List.eq_of_mem_replicate hmem

/-! ## One generator -/

/-- The generator's record is what the notes say. -/
structure Accounts (c n : ℕ) (fgen : K → Option γ) (keys : Seq K)
    (gen : ConcurrentGenerator K A γ) (notes : List (Note (Value K A))) : Prop where
  size : gen.n = n
  source : gen.fgen = fgen
  groups : (gen.groups = none ∧ gen.keys = keys ∧ notes = []) ∨
    ∃ groups, gen.groups = some groups ∧ Grouped n (clientThreads c) groups ∧
      Served fgen keys notes gen.keys groups.gens

namespace Accounts

variable {c n : ℕ} {fgen : K → Option γ} {keys : Seq K} {gen gen' : ConcurrentGenerator K A γ}
  {notes : List (Note (Value K A))} {ctx : Context}

theorem start (hacc : Accounts c n fgen keys gen notes) (hwhole : Whole c ctx)
    {groups : Groups K A γ} {rest : Seq K}
    (hstart : gen.start (clientView ctx) = .ok (groups, rest)) :
    Grouped n (clientThreads c) groups ∧
      Served fgen keys (notes ++ (gen.initial groups).map .took) rest groups.gens := by
  obtain rfl := hacc.size
  obtain rfl := hacc.source
  rcases hacc.groups with ⟨hnone, rfl, rfl⟩ | ⟨groups', hgroups, hgrouped, hserved⟩
  · have hthreads : sortThreads (clientView ctx).allThreads = .ok (clientThreads c) := by
      rw [clientView_allThreads hwhole]
      exact sortThreads_clientThreads c
    have hcount : (clientView ctx).allThreadCount = (clientThreads c).length := by
      rw [clientView_allThreadCount hwhole, length_clientThreads]
    obtain ⟨hgrouped, rfl, hgens⟩ :=
      ConcurrentGenerator.start_of_none hnone hthreads hcount hstart
    refine ⟨hgrouped, ?_⟩
    have hinitial : gen.initial groups =
        List.range (gen.keys.take ((clientThreads c).length / gen.n)).length := by
      rw [ConcurrentGenerator.initial, hnone]
      simp only [hgrouped.length_gens]
    rw [hinitial, List.nil_append, hgens]
    exact served_initial _ _
  · simp only [ConcurrentGenerator.start, hgroups] at hstart
    obtain ⟨rfl, rfl⟩ := Prod.mk.inj (Except.ok.inj hstart)
    refine ⟨hgrouped, ?_⟩
    simpa [ConcurrentGenerator.initial, hgroups] using hserved

/-- What an answer of `op` means for the account. -/
theorem asked (hacc : Accounts c n fgen keys gen notes) (hwhole : Whole c ctx)
    {groups : Groups K A γ} {taken : List ℕ} {keys' : Seq K} {gens' : Gens K A γ}
    {offers : List (Answer (Value K A) × Offer K A γ)}
    (hasked : gen.Asked (clientView ctx) groups taken keys' gens' offers) :
    Grouped n (clientThreads c) { groups with gens := gens' } ∧
      Served fgen keys (notes ++ (gen.initial groups ++ taken).map .took) keys' gens' ∧
      ∃ rest order, order.Nodup ∧ (∃ free,
        ConcurrentGenerator.freeGroups groups (clientView ctx) = .ok free ∧ order.Perm free) ∧
        Walk fgen groups (clientView ctx) order rest groups.gens taken keys' gens' offers := by
  obtain ⟨rest, free, order, hstart, hfree, hperm, hwalk⟩ := hasked.walked
  rw [hacc.source] at hwalk
  obtain ⟨hgrouped, hserved⟩ := hacc.start hwhole hstart
  refine ⟨hgrouped.setGens hwalk.length_gens, ?_, rest, order, ?_, ⟨free, hfree, hperm⟩, hwalk⟩
  · rw [List.map_append, ← List.append_assoc]
    exact hwalk.served hserved
  · rw [hperm.nodup_iff]
    unfold ConcurrentGenerator.freeGroups at hfree
    split at hfree
    · cases hfree
    · cases hfree
      exact List.nodup_dedup _

/-- An offered operation can be noted. -/
theorem exists_emits (hacc : Accounts c n fgen keys gen notes) (hwhole : Whole c ctx)
    {oracle : Oracle} {o : Op (Value K A)} (thread : Name)
    (hop : gen.op oracle (clientView ctx) = .ok (some (.op o, some gen'))) :
    ∃ new, gen.Emits notes (clientView ctx) thread o gen' new := by
  obtain ⟨groups, taken, keys', gens', offers, offer, hasked, hmade, hnext⟩ :=
    ConcurrentGenerator.op_eq_op hop
  obtain rfl := Option.some.inj hnext
  obtain ⟨-, hserved, rest, order, hnodup, -, hwalk⟩ := hacc.asked hwhole hasked
  obtain ⟨sub, contextFilter, oracle', -, hcurrent, -, hanswer⟩ := hwalk.offer hnodup hmade
  cases sub with
  | none => cases hanswer
  | some sub =>
    obtain ⟨position, hposition⟩ := hserved.owned _ _ hcurrent
    rw [given_append, given_map_took, ← List.append_assoc] at hposition
    exact ⟨_, .intro hasked hmade hposition⟩

/-- Emitting an operation keeps the account. -/
theorem emits (hacc : Accounts c n fgen keys gen notes) (hwhole : Whole c ctx)
    {thread : Name} {o : Op (Value K A)} {new : List (Note (Value K A))}
    (hemits : gen.Emits notes (clientView ctx) thread o gen' new) :
    Accounts c n fgen keys gen' (notes ++ new) := by
  cases hemits with
  | @intro groups taken keys' gens' offers offer position hasked hmade hworking =>
    obtain ⟨hgrouped, hserved, rest, order, hnodup, -, hwalk⟩ := hacc.asked hwhole hasked
    obtain ⟨sub, contextFilter, oracle, -, hcurrent, -, hanswer⟩ := hwalk.offer hnodup hmade
    have hlive : sub ≠ none := by
      rintro rfl
      cases hanswer
    have hposition : positionOf
        (given (notes ++ (gen.initial groups ++ taken).map .took)) offer.group =
          some position := by
      rw [given_append, given_map_took, ← List.append_assoc]
      exact hworking
    refine ⟨hacc.size, hacc.source, Or.inr ⟨_, rfl, ?_, ?_⟩⟩
    · exact (hgrouped.setGens (List.length_set ..))
    · rw [← List.append_assoc]
      refine hserved.drive hcurrent hposition (.emit oracle hanswer) (given_emitted _ _ _) ?_ hlive
      intro p
      rw [emittedBy_emitted]
      by_cases hp : position = p
      · rw [if_pos hp, if_pos hp.symm]
        rfl
      · rw [if_neg hp, if_neg (Ne.symm hp)]

/-- Receiving an event keeps the account. -/
theorem receives (hacc : Accounts c n fgen keys gen notes) {event o : Op (Value K A)}
    {thread : Name} (hthread : ctx.processToThread event.process = some thread)
    (hreceives : gen.Receives ctx thread event gen') :
    Accounts c n fgen keys gen' (notes ++ gen.deliveries notes thread o) := by
  have hn : 0 < n := hacc.size ▸ gen.n_pos
  unfold ConcurrentGenerator.Receives at hreceives
  by_cases hnemesis : thread = .nemesis
  · rw [if_pos hnemesis] at hreceives
    have hnothing : gen.deliveries notes thread o = [] := by
      unfold ConcurrentGenerator.deliveries
      rcases hacc.groups with ⟨hnone, -, -⟩ | ⟨groups, hgroups, hgrouped, -⟩
      · rw [hnone]
      · simp only [hgroups, hnemesis, hgrouped.lookup_eq hn, Name.nemesis]
    rw [hreceives, hnothing, List.append_nil]
    exact hacc
  · rw [if_neg hnemesis] at hreceives
    obtain ⟨groups, thread', group, v, sub, sub', hgroups, hthread', hlookup, -, hcurrent,
      hupdate, hnext⟩ := ConcurrentGenerator.update_eq_ok hreceives
    obtain rfl := Option.some.inj (hthread.symm.trans hthread')
    obtain rfl := Option.some.inj hnext
    rcases hacc.groups with ⟨hnone, -, -⟩ | ⟨groups', hgroups', hgrouped, hserved⟩
    · rw [hnone] at hgroups
      cases hgroups
    · obtain rfl := Option.some.inj (hgroups'.symm.trans hgroups)
      refine ⟨hacc.size, hacc.source, Or.inr ⟨_, rfl, hgrouped.setGens (List.length_set ..), ?_⟩⟩
      cases sub with
      | none =>
        cases hupdate
        have hnothing : gen.deliveries notes thread o = [] := by
          simp only [ConcurrentGenerator.deliveries, hgroups, hlookup, hcurrent]
        have hsame : groups'.gens.set group none = groups'.gens := by
          apply List.ext_getElem?
          intro i
          by_cases hi : group = i
          · subst hi
            rw [List.getElem?_set_self (List.getElem?_eq_some_iff.mp hcurrent).1, hcurrent]
          · rw [List.getElem?_set_ne hi]
        rw [hnothing, hsame, List.append_nil]
        exact hserved
      | some sub =>
        obtain ⟨position, hposition⟩ := hserved.owned _ _ hcurrent
        have hdelivered : gen.deliveries notes thread o = [.delivered position thread o] := by
          simp only [ConcurrentGenerator.deliveries, hgroups, hlookup, hcurrent, hposition]
        rw [hdelivered]
        refine hserved.drive hcurrent hposition (.event hupdate) (given_delivered _ _ _) ?_
          (by simp)
        intro p
        rw [emittedBy_delivered]
        split <;> rfl

end Accounts

/-! ## Whole runs -/

/-- The invariant of runs with notes. -/
structure Traced.Consistent (c n : ℕ) (keys : Seq K) (fgen : K → Option γ)
    (t : Traced K A γ) : Prop where
  holds : t.state.gen = wrapped t.gen
  whole : Whole c t.state.ctx
  accounts : Accounts c n fgen keys t.gen t.notes

section Runs

variable {c n : ℕ} {n_pos : 0 < n} {keys : Seq K} {fgen : K → Option γ}
  {env : Env (Value K A)}

theorem Traced.consistent_init :
    (Traced.init c n n_pos keys fgen : Traced K A γ).Consistent c n keys fgen where
  holds := rfl
  whole := whole_context c
  accounts := ⟨rfl, rfl, Or.inl ⟨rfl, rfl, rfl⟩⟩

theorem quiet_gen {s s' : State (OnThreads (ConcurrentGenerator K A γ)) (Value K A)}
    {l : Label (Value K A)} (hstep : Step env s l s') (hquiet : Quiet l) : s'.gen = s.gen := by
  cases hstep with
  | take => rfl
  | finish => rfl
  | complete => cases hquiet
  | wait oracle time hwait => rw [State.generate_eq_waiting hwait]
  | dispatch => cases hquiet

theorem Traced.Consistent.step {t t' : Traced K A γ} {l : Label (Value K A)}
    (hcons : t.Consistent c n keys fgen) (hstep : TracedStep env t l t') :
    t'.Consistent c n keys fgen := by
  have hwhole := hcons.whole.step hstep.step
  cases hstep with
  | quiet step quiet => exact ⟨(quiet_gen step quiet).trans hcons.holds, hwhole, hcons.accounts⟩
  | completed step executes receives holds =>
    exact ⟨holds, hwhole, hcons.accounts.receives (State.stamp_thread executes) receives⟩
  | @dispatched time o thread s' gen₁ gen' new step passes emits receives holds =>
    refine ⟨holds, hwhole, ?_⟩
    have hemitted := hcons.accounts.emits (hcons.whole.withTime time) emits
    cases step with
    | dispatch oracle time hdispatch hexecutes =>
      exact hemitted.receives (State.indexed_thread hexecutes) receives

/-- Every step of the interpreter can be noted. -/
theorem Traced.Consistent.exists_step {t : Traced K A γ} {l : Label (Value K A)}
    {s' : State (OnThreads (ConcurrentGenerator K A γ)) (Value K A)}
    (hcons : t.Consistent c n keys fgen) (hstep : Step env t.state l s') :
    ∃ t' : Traced K A γ, t'.state = s' ∧ TracedStep env t l t' := by
  have hcopy := hstep
  cases hstep with
  | take => exact ⟨_, rfl, .quiet hcopy trivial⟩
  | finish => exact ⟨_, rfl, .quiet hcopy trivial⟩
  | wait => exact ⟨_, rfl, .quiet hcopy trivial⟩
  | complete time hpolled hcomplete =>
    obtain ⟨thread, gen, ctx, hthread, hupdate, -, rfl⟩ := State.complete_eq_ok hcomplete
    rw [hcons.holds] at hupdate
    obtain ⟨gen', hreceives, rfl⟩ := update_wrapped (State.stamp_thread hthread) hupdate
    exact ⟨⟨_, _, _⟩, rfl, .completed hcopy hthread hreceives rfl⟩
  | @dispatch _ thread o oracle time hdispatch hexecutes =>
    obtain ⟨gen₁, hop, -, hnext⟩ := State.generate_eq_dispatched hdispatch
    rw [hcons.holds] at hop
    obtain ⟨inner, hinner, rfl, hproblems⟩ := op_wrapped hop
    obtain ⟨thread', gen, hthread, hupdate, rfl⟩ := State.dispatch_eq_ok hnext
    obtain rfl := Option.some.inj (hexecutes.symm.trans hthread)
    obtain ⟨gen', hreceives, rfl⟩ := update_wrapped (State.indexed_thread hexecutes) hupdate
    obtain ⟨new, hemits⟩ :=
      hcons.accounts.exists_emits (hcons.whole.withTime time) thread hinner
    exact ⟨⟨_, _, _⟩, rfl, .dispatched hcopy hproblems hemits hreceives rfl⟩

theorem Traced.consistent_of_run {t : Traced K A γ} {labels : List (Label (Value K A))}
    (hrun : Run (TracedStep env) (.init c n n_pos keys fgen) labels t) :
    t.Consistent c n keys fgen :=
  hrun.invariant (Traced.Consistent c n keys fgen) consistent_init Consistent.step

/-- Every run of the interpreter is a run with notes. -/
theorem exists_traced {s : State (OnThreads (ConcurrentGenerator K A γ)) (Value K A)}
    {labels : List (Label (Value K A))}
    (hrun : Run (Step env) (State.init c (concurrentGenerator n n_pos keys fgen)) labels s) :
    ∃ t : Traced K A γ, t.state = s ∧
      Run (TracedStep env) (.init c n n_pos keys fgen) labels t :=
  Run.lift (Traced.Consistent c n keys fgen) Traced.consistent_init Traced.Consistent.step
    Traced.Consistent.exists_step hrun

end Runs

end Jepsen.Independent
