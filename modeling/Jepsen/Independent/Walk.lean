/-
# What one call of the concurrent generator does

The loop of `ConcurrentGenerator.op` visits the free groups one after another.
`Walk` says what it may do there without mentioning fuel, draws or the choice of
the soonest operation: which groups took a key, in which order, and which groups
made an offer. Everything proved about `op` starts from it.
-/

import Jepsen.Independent.ConcurrentGenerator

namespace Jepsen.Independent

open Jepsen.Generator Jepsen.History Jepsen.Library
open Stream' (Seq)

universe u v w

/-- The generator each group works with. -/
abbrev Gens (K : Type u) (A : Type v) (γ : Type w) := List (Option (Map γ (Value K A)))

variable {K : Type u} {A : Type v} {γ : Type w}

/-- The offer that the loop keeps is one of those made, or the one it had. -/
def Chosen (soonest soonest' : Option (Candidate (Value K A) (Offer K A γ)))
    (offers : List (Answer (Value K A) × Offer K A γ)) : Prop :=
  match soonest' with
  | none => soonest = none ∧ offers = []
  | some c => (c.op, c.payload) ∈ offers ∨
      ∃ c', soonest = some c' ∧ c'.op = c.op ∧ c'.payload = c.payload

theorem Chosen.refl (soonest : Option (Candidate (Value K A) (Offer K A γ))) :
    Chosen soonest soonest [] := by
  cases soonest with
  | none => exact ⟨rfl, rfl⟩
  | some c => exact Or.inr ⟨c, rfl, rfl, rfl⟩

theorem Chosen.cons {draw : ℕ} {answer : Answer (Value K A)} {weight : Option ℕ}
    {offer : Offer K A γ} {soonest soonest' : Option (Candidate (Value K A) (Offer K A γ))}
    {offers : List (Answer (Value K A) × Offer K A γ)}
    (hchosen : Chosen (soonestOpMap draw soonest (some ⟨answer, weight, offer⟩)) soonest'
      offers) : Chosen soonest soonest' ((answer, offer) :: offers) := by
  cases soonest' with
  | none => exact absurd (soonestOpMap_eq_none hchosen.1).2 (by simp)
  | some c =>
    rcases hchosen with hmem | ⟨c', hc', hop, hpayload⟩
    · exact Or.inl (List.mem_cons_of_mem _ hmem)
    · obtain ⟨m, hm | hm, hmop, hmpayload⟩ := soonestOpMap_eq_some hc'
      · exact Or.inr ⟨m, hm, hmop.symm.trans hop, hmpayload.symm.trans hpayload⟩
      · obtain rfl := Option.some.inj hm
        left
        rw [← hop, ← hpayload, hmop, hmpayload]
        exact List.mem_cons_self

variable [Protocol γ (Value K A)]

/-- `Walk fgen groups ctx free keys gens taken keys' gens' offers`: visiting the
groups `free`, the groups `taken` took a key each, in this order, and the groups
of `offers` answered. -/
inductive Walk (fgen : K → Option γ) (groups : Groups K A γ) (ctx : Context) :
    List ℕ → Seq K → Gens K A γ → List ℕ → Seq K → Gens K A γ →
    List (Answer (Value K A) × Offer K A γ) → Prop
  | done {keys : Seq K} {gens : Gens K A γ} : Walk fgen groups ctx [] keys gens [] keys gens []
  | answered {group : ℕ} {rest taken : List ℕ} {keys keys' : Seq K} {gens gens' : Gens K A γ}
      {offers : List (Answer (Value K A) × Offer K A γ)}
      {gen gen' : Option (Map γ (Value K A))} {contextFilter : Context → Context}
      {answer : Answer (Value K A)} (oracle : Oracle)
      (current : gens[group]? = some gen)
      (view : groups.groupToContextFilter[group]? = some contextFilter)
      (asked : op oracle gen (contextFilter ctx) = .ok (some (answer, gen')))
      (others : Walk fgen groups ctx rest keys gens taken keys' gens' offers) :
      Walk fgen groups ctx (group :: rest) keys gens taken keys' gens'
        ((answer, ⟨group, gen'⟩) :: offers)
  | ranOut {group : ℕ} {rest taken : List ℕ} {keys keys' : Seq K} {gens gens' : Gens K A γ}
      {offers : List (Answer (Value K A) × Offer K A γ)}
      {gen : Option (Map γ (Value K A))} {contextFilter : Context → Context} (oracle : Oracle)
      (current : gens[group]? = some gen)
      (asked : op oracle gen (contextFilter ctx) = .ok none)
      (noKey : keys.head = none)
      (others : Walk fgen groups ctx rest keys.tail (gens.set group none) taken keys' gens'
        offers) :
      Walk fgen groups ctx (group :: rest) keys gens taken keys' gens' offers
  | tookNil {group : ℕ} {rest taken : List ℕ} {keys keys' : Seq K} {gens gens' : Gens K A γ}
      {offers : List (Answer (Value K A) × Offer K A γ)}
      {gen : Option (Map γ (Value K A))} {contextFilter : Context → Context} {k : K}
      (oracle : Oracle)
      (current : gens[group]? = some gen)
      (asked : op oracle gen (contextFilter ctx) = .ok none)
      (key : keys.head = some k) (isNil : fgen k = none)
      (others : Walk fgen groups ctx rest keys.tail (gens.set group none) taken keys' gens'
        offers) :
      Walk fgen groups ctx (group :: rest) keys gens (group :: taken) keys' gens' offers
  | took {group : ℕ} {rest taken : List ℕ} {keys keys' : Seq K} {gens gens' : Gens K A γ}
      {offers : List (Answer (Value K A) × Offer K A γ)}
      {gen : Option (Map γ (Value K A))} {contextFilter : Context → Context} {k : K} {sub : γ}
      (oracle : Oracle)
      (current : gens[group]? = some gen)
      (asked : op oracle gen (contextFilter ctx) = .ok none)
      (key : keys.head = some k) (generator : fgen k = some sub)
      (again : Walk fgen groups ctx (group :: rest) keys.tail
        (gens.set group (tupleGen k (fgen k))) taken keys' gens' offers) :
      Walk fgen groups ctx (group :: rest) keys gens (group :: taken) keys' gens' offers

namespace ConcurrentGenerator

/-- The loop is a walk. -/
theorem opLoop_eq_ok {oracle : Oracle} {fgen : K → Option γ} {groups : Groups K A γ}
    {ctx : Context} {fuel : ℕ} {free : List ℕ} {keys keys' : Seq K} {gens gens' : Gens K A γ}
    {soonest soonest' : Option (Candidate (Value K A) (Offer K A γ))}
    (hloop : opLoop oracle fgen groups ctx fuel free keys gens soonest =
      .ok (keys', gens', soonest')) :
    ∃ taken offers, Walk fgen groups ctx free keys gens taken keys' gens' offers ∧
      Chosen soonest soonest' offers := by
  induction fuel generalizing free keys gens soonest with
  | zero =>
    cases free with
    | nil =>
      cases hloop
      exact ⟨[], [], .done, .refl _⟩
    | cons group rest => cases hloop
  | succ fuel ih =>
    cases free with
    | nil =>
      cases hloop
      exact ⟨[], [], .done, .refl _⟩
    | cons group rest =>
      unfold opLoop at hloop
      split at hloop
      · rename_i gen contextFilter threads hgen hfilter hthreads
        split at hloop
        · cases hloop
        · rename_i answer gen₁ hasked
          obtain ⟨taken, offers, hwalk, hchosen⟩ := ih hloop
          exact ⟨taken, _, .answered _ hgen hfilter hasked hwalk, hchosen.cons⟩
        · rename_i hasked
          cases hkey : keys.head with
          | none =>
            rw [hkey] at hloop
            obtain ⟨taken, offers, hwalk, hchosen⟩ := ih hloop
            exact ⟨taken, offers, .ranOut _ hgen hasked hkey hwalk, hchosen⟩
          | some k =>
            rw [hkey] at hloop
            cases hsub : fgen k with
            | none =>
              simp only [Option.bind_some, tupleGen_eq_none.mpr hsub] at hloop
              obtain ⟨taken, offers, hwalk, hchosen⟩ := ih hloop
              exact ⟨group :: taken, offers, .tookNil _ hgen hasked hkey hsub hwalk, hchosen⟩
            | some sub =>
              have hgiven : (tupleGen k (fgen k) : Option (Map γ (Value K A))) =
                  some ⟨liftOp k, some sub⟩ := by
                rw [hsub]
                rfl
              simp only [Option.bind_some, hgiven] at hloop
              rw [← hgiven] at hloop
              obtain ⟨taken, offers, hwalk, hchosen⟩ := ih hloop
              exact ⟨group :: taken, offers, .took _ hgen hasked hkey hsub hwalk, hchosen⟩
      · cases hloop

/-- What every answer of `op` rests on. -/
structure Asked (this : ConcurrentGenerator K A γ) (ctx : Context) (groups : Groups K A γ)
    (taken : List ℕ) (keys' : Seq K) (gens' : Gens K A γ)
    (offers : List (Answer (Value K A) × Offer K A γ)) : Prop where
  walked : ∃ keys free order, this.start ctx = .ok (groups, keys) ∧
    freeGroups groups ctx = .ok free ∧ order.Perm free ∧
    Walk this.fgen groups ctx order keys groups.gens taken keys' gens' offers

/-- An operation comes from one of the groups that made an offer. -/
theorem op_eq_op {oracle : Oracle} {this : ConcurrentGenerator K A γ} {ctx : Context}
    {o : Op (Value K A)} {next : Option (ConcurrentGenerator K A γ)}
    (hop : this.op oracle ctx = .ok (some (.op o, next))) :
    ∃ groups taken keys' gens' offers offer,
      this.Asked ctx groups taken keys' gens' offers ∧ (Answer.op o, offer) ∈ offers ∧
      next = some { this with
        groups := some { groups with gens := gens'.set offer.group offer.gen' }
        keys := keys' } := by
  unfold op at hop
  split at hop
  · cases hop
  · rename_i groups keys hstart
    split at hop
    · cases hop
    · rename_i free hfree
      split at hop
      · cases hop
      · rename_i keys' gens' soonest hloop
        obtain ⟨taken, offers, hwalk, hchosen⟩ := opLoop_eq_ok hloop
        simp only [Except.ok.injEq, Option.some.injEq, Prod.mk.injEq] at hop
        obtain ⟨ho, hnext⟩ := hop
        rcases hchosen with hmem | ⟨c, hc, -⟩
        · rw [ho] at hmem
          exact ⟨groups, taken, keys', gens', offers, soonest.payload,
            ⟨keys, free, _, hstart, hfree, Oracle.order_perm _ _, hwalk⟩, hmem, hnext.symm⟩
        · cases hc
      · split at hop <;> cases hop

/-- `nil` means that no free group made an offer and no group has a generator. -/
theorem op_eq_nil {oracle : Oracle} {this : ConcurrentGenerator K A γ} {ctx : Context}
    (hop : this.op oracle ctx = .ok none) :
    ∃ groups taken keys' gens', this.Asked ctx groups taken keys' gens' [] ∧
      ∀ gen ∈ gens', gen = none := by
  unfold op at hop
  split at hop
  · cases hop
  · rename_i groups keys hstart
    split at hop
    · cases hop
    · rename_i free hfree
      split at hop
      · cases hop
      · cases hop
      · rename_i keys' gens' hloop
        obtain ⟨taken, offers, hwalk, -, rfl⟩ := opLoop_eq_ok hloop
        split at hop
        · cases hop
        · rename_i hany
          refine ⟨groups, taken, keys', gens',
            ⟨keys, free, _, hstart, hfree, Oracle.order_perm _ _, hwalk⟩, ?_⟩
          intro gen hgen
          by_contra hne
          exact hany (List.any_eq_true.mpr ⟨gen, hgen, Option.isSome_iff_ne_none.mpr hne⟩)

end ConcurrentGenerator

/-! ## What a walk leaves alone -/

section Frame

variable {fgen : K → Option γ} {groups : Groups K A γ} {ctx : Context} {free taken : List ℕ}
  {keys keys' : Seq K} {gens gens' : Gens K A γ}
  {offers : List (Answer (Value K A) × Offer K A γ)}

theorem Walk.length_gens (hwalk : Walk fgen groups ctx free keys gens taken keys' gens' offers) :
    gens'.length = gens.length := by
  induction hwalk with
  | done => rfl
  | answered _ _ _ _ _ ih => exact ih
  | ranOut _ _ _ _ _ ih => rw [ih, List.length_set]
  | tookNil _ _ _ _ _ _ ih => rw [ih, List.length_set]
  | took _ _ _ _ _ _ ih => rw [ih, List.length_set]

/-- Groups that are not visited keep their generators. -/
theorem Walk.getElem?_gens
    (hwalk : Walk fgen groups ctx free keys gens taken keys' gens' offers) {group : ℕ}
    (hgroup : group ∉ free) : gens'[group]? = gens[group]? := by
  induction hwalk with
  | done => rfl
  | answered _ _ _ _ _ ih => exact ih fun h => hgroup (List.mem_cons_of_mem _ h)
  | ranOut _ _ _ _ _ ih =>
    rw [ih fun h => hgroup (List.mem_cons_of_mem _ h)]
    exact List.getElem?_set_ne (List.ne_of_not_mem_cons hgroup).symm
  | tookNil _ _ _ _ _ _ ih =>
    rw [ih fun h => hgroup (List.mem_cons_of_mem _ h)]
    exact List.getElem?_set_ne (List.ne_of_not_mem_cons hgroup).symm
  | took _ _ _ _ _ _ ih =>
    rw [ih hgroup]
    exact List.getElem?_set_ne (List.ne_of_not_mem_cons hgroup).symm

/-- Only visited groups take keys. -/
theorem Walk.mem_free_of_mem_taken
    (hwalk : Walk fgen groups ctx free keys gens taken keys' gens' offers) {group : ℕ}
    (hgroup : group ∈ taken) : group ∈ free := by
  induction hwalk with
  | done => exact hgroup
  | answered _ _ _ _ _ ih => exact List.mem_cons_of_mem _ (ih hgroup)
  | ranOut _ _ _ _ _ ih => exact List.mem_cons_of_mem _ (ih hgroup)
  | tookNil _ _ _ _ _ _ ih =>
    rcases List.mem_cons.mp hgroup with rfl | htaken
    · exact List.mem_cons_self
    · exact List.mem_cons_of_mem _ (ih htaken)
  | took _ _ _ _ _ _ ih =>
    rcases List.mem_cons.mp hgroup with rfl | htaken
    · exact List.mem_cons_self
    · exact ih htaken

/-- An offer is an answer of the generator its group ends up with. -/
theorem Walk.offer (hwalk : Walk fgen groups ctx free keys gens taken keys' gens' offers)
    (hnodup : free.Nodup) {answer : Answer (Value K A)} {offer : Offer K A γ}
    (hoffer : (answer, offer) ∈ offers) :
    ∃ gen contextFilter oracle, offer.group ∈ free ∧
      gens'[offer.group]? = some gen ∧
      groups.groupToContextFilter[offer.group]? = some contextFilter ∧
      op oracle gen (contextFilter ctx) = .ok (some (answer, offer.gen')) := by
  induction hwalk with
  | done => cases hoffer
  | @answered group rest _ _ _ _ _ _ gen gen' contextFilter _ oracle hcurrent hview hasked
      hwalk ih =>
    obtain ⟨hnot, hrest⟩ := List.nodup_cons.mp hnodup
    rcases List.mem_cons.mp hoffer with heq | hlater
    · cases heq
      exact ⟨gen, contextFilter, oracle, List.mem_cons_self,
        (hwalk.getElem?_gens hnot).trans hcurrent, hview, hasked⟩
    · obtain ⟨gen, contextFilter, oracle, hmem, h⟩ := ih hrest hlater
      exact ⟨gen, contextFilter, oracle, List.mem_cons_of_mem _ hmem, h⟩
  | ranOut _ _ _ _ _ ih =>
    obtain ⟨gen, contextFilter, oracle, hmem, h⟩ := ih (List.nodup_cons.mp hnodup).2 hoffer
    exact ⟨gen, contextFilter, oracle, List.mem_cons_of_mem _ hmem, h⟩
  | tookNil _ _ _ _ _ _ ih =>
    obtain ⟨gen, contextFilter, oracle, hmem, h⟩ := ih (List.nodup_cons.mp hnodup).2 hoffer
    exact ⟨gen, contextFilter, oracle, List.mem_cons_of_mem _ hmem, h⟩
  | took _ _ _ _ _ _ ih => exact ih hnodup hoffer

end Frame

end Jepsen.Independent
