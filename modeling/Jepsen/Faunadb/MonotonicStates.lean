/-
# Inferred states of registers

The inferred state keeps the last highest observation of every key, so that an op is reported
exactly if it reads a lower value than some op before it.
-/

import Jepsen.Faunadb.Multimonotonic

namespace Jepsen.Faunadb.Multimonotonic

open Jepsen.Library

universe u v

variable {K : Type u} {V : Type*} {Ts : Type v} [DecidableEq K]

/-! ## Maps -/

theorem lookup_sortedZipmap (map : Assoc K V) (ks : List K) (f : K → V) (k : K) :
    (sortedZipmapWithoutNilVals map ks (ks.map fun k => some (f k))).lookup k =
      if k ∈ ks then some (f k) else map.lookup k := by
  induction ks generalizing map with
  | nil => rfl
  | cons k' ks ih =>
    rw [List.map_cons, sortedZipmapWithoutNilVals, ih]
    by_cases hmem : k ∈ ks
    · rw [if_pos hmem, if_pos (List.mem_cons_of_mem _ hmem)]
    · rw [if_neg hmem, Option.elim_some, Assoc.lookup_insert_eq_ite]
      by_cases heq : k = k'
      · subst heq
        rw [if_pos rfl, if_pos List.mem_cons_self]
      · rw [if_neg heq, if_neg (List.mem_cons.not.mpr (not_or.mpr ⟨heq, hmem⟩))]

theorem mem_nonmonotonicKeys {m1 : Assoc K (Option ℤ)} {m2 : Assoc K ℤ} {k : K} :
    k ∈ nonmonotonicKeys m1 m2 ↔
      ∃ v1 v2, m1.lookup k = some (some v1) ∧ m2.lookup k = some v2 ∧ v2 < v1 := by
  rw [nonmonotonicKeys, List.mem_filterMap]
  constructor
  · rintro ⟨⟨k', v2⟩, hmem, hkey⟩
    obtain ⟨v1, hv1, hlt⟩ := Option.bind_eq_some_iff.mp hkey
    split_ifs at hlt with h
    obtain rfl := Option.some.inj hlt
    exact ⟨v1, v2, Option.join_eq_some_iff.mp hv1, Assoc.mem_entries_iff.mp hmem, h⟩
  · rintro ⟨v1, v2, hv1, hv2, hlt⟩
    refine ⟨⟨k, v2⟩, Assoc.mem_entries_iff.mpr hv2, ?_⟩
    rw [hv1]
    exact if_pos hlt

theorem lookup_readState (op : Op K Ts) (k : K) :
    (readState op).lookup k = (opObservation op k).value :=
  Assoc.lookup_mapVals _ _ _

/-! ## Updating the inferred state -/

/-- The inferred values. -/
def values (inferred : Assoc K (Observation Ts)) : Assoc K (Option ℤ) :=
  inferred.mapVals fun _ observation => observation.value

theorem lookup_values (inferred : Assoc K (Observation Ts)) (k : K) :
    (values inferred).lookup k = (inferred.lookup k).map Observation.value :=
  Assoc.lookup_mapVals _ _ _

/-- All inferred observations have a value. -/
def Numbered (inferred : Assoc K (Observation Ts)) : Prop :=
  ∀ k observation, inferred.lookup k = some observation → ∃ v, observation.value = some v

theorem Numbered.insert {inferred : Assoc K (Observation Ts)} (h : Numbered inferred)
    {op : Op K Ts} {k : K} (hk : k ∈ readState op) :
    Numbered (inferred.insert k (opObservation op k)) := by
  intro k' observation hlookup
  rw [Assoc.lookup_insert_eq_ite] at hlookup
  split_ifs at hlookup with heq
  · obtain rfl := Option.some.inj hlookup
    obtain ⟨v, hv⟩ := Option.isSome_iff_exists.mp (AList.lookup_isSome.mpr hk)
    exact ⟨v, (lookup_readState op k).symm.trans hv⟩
  · exact h k' observation hlookup

/-- An observation is replaced unless it is higher. -/
theorem inferKey_eq {op : Op K Ts} {inferred : Assoc K (Observation Ts)}
    (hnumbered : Numbered inferred) {k : K} (hk : k ∈ readState op) :
    inferKey op (readState op) inferred k = some
      (if k ∈ nonmonotonicKeys (values inferred) (readState op) then inferred
        else inferred.insert k (opObservation op k)) := by
  obtain ⟨v, hv⟩ := Option.isSome_iff_exists.mp (AList.lookup_isSome.mpr hk)
  rw [inferKey, hv]
  cases hlookup : inferred.lookup k with
  | none =>
    rw [if_neg]
    rw [mem_nonmonotonicKeys, lookup_values, hlookup]
    rintro ⟨v1, v2, hv1, -⟩
    cases hv1
  | some prior =>
    obtain ⟨v', hv'⟩ := hnumbered k prior hlookup
    have hmem : k ∈ nonmonotonicKeys (values inferred) (readState op) ↔ v < v' := by
      rw [mem_nonmonotonicKeys, lookup_values, hlookup, hv, Option.map_some, hv']
      constructor
      · rintro ⟨v1, v2, hv1, hv2, hlt⟩
        cases hv1
        cases hv2
        exact hlt
      · exact fun hlt => ⟨v', v, rfl, rfl, hlt⟩
    simp only [hv', hmem]
    split_ifs <;> rfl

theorem foldlM_inferKey {op : Op K Ts} {inferred : Assoc K (Observation Ts)} {ks : List K}
    (hnumbered : Numbered inferred) (hks : ∀ k ∈ ks, k ∈ readState op) (hnodup : ks.Nodup) :
    ∃ next, ks.foldlM (inferKey op (readState op)) inferred = some next ∧ Numbered next ∧
      ∀ k, next.lookup k =
        if k ∈ ks ∧ k ∉ nonmonotonicKeys (values inferred) (readState op) then
          some (opObservation op k) else inferred.lookup k := by
  induction ks generalizing inferred with
  | nil => exact ⟨inferred, rfl, hnumbered, fun k => (if_neg fun h => List.not_mem_nil h.1).symm⟩
  | cons k' ks ih =>
    obtain ⟨hnot, htail⟩ := List.nodup_cons.mp hnodup
    have hk' := hks k' List.mem_cons_self
    rw [List.foldlM_cons, inferKey_eq hnumbered hk', Option.bind_eq_bind, Option.bind_some]
    generalize hnext : (if k' ∈ nonmonotonicKeys (values inferred) (readState op) then inferred
      else inferred.insert k' (opObservation op k')) = inferred1
    have hlookup : ∀ k, inferred1.lookup k =
        if k = k' ∧ k' ∉ nonmonotonicKeys (values inferred) (readState op) then
          some (opObservation op k') else inferred.lookup k := by
      intro k
      rw [← hnext]
      split_ifs with hnm h h
      · exact absurd hnm h.2
      · rfl
      · rw [h.1, AList.lookup_insert]
      · exact AList.lookup_insert_ne fun heq => h ⟨heq, hnm⟩
    have hnumbered1 : Numbered inferred1 := by
      rw [← hnext]
      split_ifs
      · exact hnumbered
      · exact hnumbered.insert hk'
    obtain ⟨next, hfold, hnumbered', hrest⟩ :=
      ih hnumbered1 (fun k hk => hks k (List.mem_cons_of_mem _ hk)) htail
    refine ⟨next, hfold, hnumbered', fun k => ?_⟩
    rw [hrest k]
    by_cases heq : k = k'
    · subst heq
      rw [if_neg fun h => hnot h.1, hlookup k]
      simp
    · have hsame : k ∈ nonmonotonicKeys (values inferred1) (readState op) ↔
          k ∈ nonmonotonicKeys (values inferred) (readState op) := by
        rw [mem_nonmonotonicKeys, mem_nonmonotonicKeys, lookup_values, lookup_values, hlookup k,
          if_neg fun h => heq h.1]
      simp only [hsame, hlookup k, List.mem_cons, heq, false_or, false_and, if_false]

theorem infer_spec (op : Op K Ts) {inferred : Assoc K (Observation Ts)}
    (hnumbered : Numbered inferred) :
    ∃ next, infer op (readState op) inferred = some next ∧ Numbered next ∧
      ∀ k, next.lookup k =
        if k ∈ (readState op).keys ∧ k ∉ nonmonotonicKeys (values inferred) (readState op) then
          some (opObservation op k) else inferred.lookup k :=
  foldlM_inferKey hnumbered (fun _ hk => hk) (readState op).keys_nodup

/-! ## Highest observations -/

theorem reads_append {ops ops' : List (Op K Ts)} {k : K} {v : ℤ} :
    Reads (ops ++ ops') k v ↔ Reads ops k v ∨ Reads ops' k v := by
  simp only [Reads, List.mem_append, or_and_right, exists_or]

theorem reads_singleton {op : Op K Ts} {k : K} {v : ℤ} :
    Reads [op] k v ↔ (readState op).lookup k = some v := by
  simp only [Reads, List.mem_singleton, exists_eq_left]

/-- The value of the highest observation. -/
theorem Highest.value {ops : List (Op K Ts)} {k : K} {observation : Observation Ts}
    (h : Highest ops k observation) :
    ∃ v, observation.value = some v ∧ Reads ops k v ∧ ∀ v', Reads ops k v' → v' ≤ v := by
  obtain ⟨earlier, op, later, v, rfl, rfl, hv, hearlier, hlater⟩ := h
  refine ⟨v, (lookup_readState op k).symm.trans hv, ?_, fun v' hreads => ?_⟩
  · exact ⟨op, List.mem_append_right _ List.mem_cons_self, hv⟩
  · rw [← List.singleton_append, reads_append, reads_append, reads_singleton] at hreads
    rcases hreads with hreads | hreads | hreads
    · exact hearlier v' hreads
    · exact (Option.some.inj (hreads.symm.trans hv)).le
    · exact (hlater v' hreads).le

theorem Infers.numbered {ops : List (Op K Ts)} {inferred : Assoc K (Observation Ts)}
    (h : Infers ops inferred) : Numbered inferred := by
  intro k observation hlookup
  obtain ⟨v, hv, -⟩ := (h.highest k observation hlookup).value
  exact ⟨v, hv⟩

/-- The nonmonotonic keys are those with a lower value. -/
theorem mem_nonmonotonicKeys_iff {ops : List (Op K Ts)} {inferred : Assoc K (Observation Ts)}
    (h : Infers ops inferred) {op : Op K Ts} {k : K} :
    k ∈ nonmonotonicKeys (values inferred) (readState op) ↔ Regresses ops op k := by
  rw [mem_nonmonotonicKeys]
  simp only [lookup_values, Option.map_eq_some_iff]
  constructor
  · rintro ⟨v1, v2, ⟨observation, hlookup, hv1⟩, hv2, hlt⟩
    obtain ⟨v, hv, hreads, -⟩ := (h.highest k observation hlookup).value
    obtain rfl := Option.some.inj (hv.symm.trans hv1)
    exact ⟨v2, v, hv2, hreads, hlt⟩
  · rintro ⟨v, v', hv, hreads, hlt⟩
    obtain ⟨observation, hlookup⟩ :=
      Option.isSome_iff_exists.mp (AList.lookup_isSome.mpr ((h.keys k).mpr ⟨v', hreads⟩))
    obtain ⟨v1, hv1, -, hhighest⟩ := (h.highest k observation hlookup).value
    exact ⟨v1, v, ⟨observation, hlookup, hv1⟩, hv, hlt.trans_le (hhighest v' hreads)⟩

theorem mem_keys_readState {op : Op K Ts} {k : K} :
    k ∈ (readState op).keys ↔ ∃ v, (readState op).lookup k = some v :=
  AList.lookup_isSome.symm.trans Option.isSome_iff_exists

/-- The last highest observation stays one until a key is read that is not lower. -/
theorem Highest.append {ops : List (Op K Ts)} {op : Op K Ts} {k : K}
    {observation : Observation Ts} (h : Highest ops k observation)
    (hlower : k ∈ (readState op).keys → Regresses ops op k) :
    Highest (ops ++ [op]) k observation := by
  obtain ⟨v, hv, hreads, hhighest⟩ := h.value
  obtain ⟨earlier, op', later, v', rfl, rfl, hv', hearlier, hlater⟩ := h
  obtain rfl := Option.some.inj (hv.symm.trans ((lookup_readState op' k).symm.trans hv'))
  refine ⟨earlier, op', later ++ [op], v, ?_, rfl, hv', hearlier, fun v' hreads' => ?_⟩
  · rw [List.append_assoc, List.cons_append]
  · rcases reads_append.mp hreads' with hreads' | hreads'
    · exact hlater v' hreads'
    · rw [reads_singleton] at hreads'
      obtain ⟨v2, v1, hv2, hv1, hlt⟩ := hlower (mem_keys_readState.mpr ⟨v', hreads'⟩)
      obtain rfl := Option.some.inj (hreads'.symm.trans hv2)
      exact hlt.trans_le (hhighest v1 hv1)

theorem Infers.append {ops : List (Op K Ts)} {op : Op K Ts}
    {inferred next : Assoc K (Observation Ts)} (h : Infers ops inferred)
    (hnext : ∀ k, next.lookup k =
      if k ∈ (readState op).keys ∧ k ∉ nonmonotonicKeys (values inferred) (readState op) then
        some (opObservation op k) else inferred.lookup k) : Infers (ops ++ [op]) next := by
  constructor
  · intro k
    rw [← AList.lookup_isSome, hnext k]
    split_ifs with hnew
    · obtain ⟨v, hv⟩ := mem_keys_readState.mp hnew.1
      exact iff_of_true rfl ⟨v, reads_append.mpr (Or.inr (reads_singleton.mpr hv))⟩
    · rw [AList.lookup_isSome, h.keys k]
      constructor
      · rintro ⟨v, hv⟩
        exact ⟨v, reads_append.mpr (Or.inl hv)⟩
      · rintro ⟨v, hv⟩
        rcases reads_append.mp hv with hv | hv
        · exact ⟨v, hv⟩
        · have hkey := mem_keys_readState.mpr ⟨v, reads_singleton.mp hv⟩
          have hnm := not_not.mp fun hnot => hnew ⟨hkey, hnot⟩
          obtain ⟨-, v', -, hreads, -⟩ := (mem_nonmonotonicKeys_iff h).mp hnm
          exact ⟨v', hreads⟩
  · intro k observation hlookup
    rw [hnext k] at hlookup
    split_ifs at hlookup with hnew
    · obtain rfl := Option.some.inj hlookup
      obtain ⟨v, hv⟩ := mem_keys_readState.mp hnew.1
      refine ⟨ops, op, [], v, rfl, rfl, hv, fun v' hreads => ?_, fun v' hreads => ?_⟩
      · by_contra hlt
        exact hnew.2 ((mem_nonmonotonicKeys_iff h).mpr ⟨v, v', hv, hreads, not_le.mp hlt⟩)
      · obtain ⟨op', hmem, -⟩ := hreads
        exact absurd hmem List.not_mem_nil
    · refine (h.highest k observation hlookup).append fun hkey => ?_
      exact (mem_nonmonotonicKeys_iff h).mp (not_not.mp fun hnot => hnew ⟨hkey, hnot⟩)

/-! ## Reports -/

theorem explains_errorAt {ops : List (Op K Ts)} {op : Op K Ts}
    {inferred : Assoc K (Observation Ts)} (h : Infers ops inferred) :
    Explains ops op (errorAt op (readState op) inferred
      (nonmonotonicKeys (values inferred) (readState op))) := by
  have hlookup : ∀ k, (errorAt op (readState op) inferred
      (nonmonotonicKeys (values inferred) (readState op))).errors.lookup k =
        if k ∈ nonmonotonicKeys (values inferred) (readState op) then
          some (inferred.lookup k, opObservation op k) else none :=
    lookup_sortedZipmap _ _ fun k => (inferred.lookup k, opObservation op k)
  refine ⟨rfl, rfl, fun k => ?_, fun k pair hpair => ?_⟩
  · rw [← mem_nonmonotonicKeys_iff h, ← AList.lookup_isSome, hlookup k]
    split_ifs with hmem
    · exact iff_of_true rfl hmem
    · exact iff_of_false Bool.false_ne_true hmem
  · rw [hlookup k] at hpair
    split_ifs at hpair with hmem
    obtain ⟨v, v', -, hreads, -⟩ := (mem_nonmonotonicKeys_iff h).mp hmem
    obtain ⟨prior, hprior⟩ :=
      Option.isSome_iff_exists.mp (AList.lookup_isSome.mpr ((h.keys k).mpr ⟨v', hreads⟩))
    rw [hprior] at hpair
    exact ⟨prior, (Option.some.inj hpair).symm, h.highest k prior hprior⟩

/-- One op of the loop. -/
theorem loop_cons {ops : List (Op K Ts)} {op : Op K Ts} {inferred : Assoc K (Observation Ts)}
    {errors : List (Error K Ts)} (hinfers : Infers ops inferred) (hreported : Reported ops errors)
    (history : List (Op K Ts)) :
    ∃ next errors', loop readState inferred errors (op :: history) =
        loop readState next errors' history ∧
      Infers (ops ++ [op]) next ∧ Reported (ops ++ [op]) errors' := by
  obtain ⟨next, hinfer, -, hnext⟩ := infer_spec op hinfers.numbered
  have hexplains := @explains_errorAt K Ts _ ops op inferred hinfers
  have hmem := fun k => @mem_nonmonotonicKeys_iff K Ts _ ops inferred hinfers op k
  cases hkeys : nonmonotonicKeys (values inferred) (readState op) with
  | nil =>
    have hloop : loop readState inferred errors (op :: history) =
        loop readState next errors history := by
      rw [values] at hkeys
      simp only [loop, hinfer, Option.bind_eq_bind, Option.bind_some, hkeys]
    refine ⟨next, errors, hloop, hinfers.append hnext,
      hreported.monotonic fun k hregresses => ?_⟩
    have hk := (hmem k).mpr hregresses
    rw [hkeys] at hk
    exact List.not_mem_nil hk
  | cons k ks =>
    have hloop : loop readState inferred errors (op :: history) =
        loop readState next (errors ++ [errorAt op (readState op) inferred (k :: ks)])
          history := by
      rw [values] at hkeys
      simp only [loop, hinfer, Option.bind_eq_bind, Option.bind_some, hkeys]
    have hregresses := (hmem k).mp (hkeys ▸ List.mem_cons_self)
    exact ⟨next, _, hloop, hinfers.append hnext,
      hreported.nonmonotonic hregresses (hkeys ▸ hexplains)⟩

theorem infers_nil : Infers ([] : List (Op K Ts)) (∅ : Assoc K (Observation Ts)) := by
  refine ⟨fun k => iff_of_false (AList.notMem_empty k) ?_, fun k observation hlookup => ?_⟩
  · rintro ⟨v, op, hmem, -⟩
    exact List.not_mem_nil hmem
  · cases hlookup

/-- The state of the loop between two ops. -/
theorem loop_append (before after : List (Op K Ts)) :
    ∃ inferred errors, nonmonotonicStates readState (before ++ after) =
        loop readState inferred errors after ∧
      Infers before inferred ∧ Reported before errors := by
  induction before using List.reverseRecOn generalizing after with
  | nil => exact ⟨∅, [], rfl, infers_nil, .nil⟩
  | append_singleton before op ih =>
    obtain ⟨inferred, errors, heq, hinfers, hreported⟩ := ih (op :: after)
    obtain ⟨next, errors', hnext, hinfers', hreported'⟩ := loop_cons hinfers hreported after
    rw [List.append_assoc, List.singleton_append, heq]
    exact ⟨next, errors', hnext, hinfers', hreported'⟩

/-- Exactly the reads that are lower than a read before are reported, and between any two reads the
inferred state is that of the reads so far. -/
theorem nonmonotonicStates_exact (history : List (Op K Ts)) :
    (∃ errors, nonmonotonicStates readState history = some errors ∧ Reported history errors) ∧
      ∀ before after, history = before ++ after → ∃ inferred errors,
        nonmonotonicStates readState history = loop readState inferred errors after ∧
          Infers before inferred := by
  constructor
  · obtain ⟨inferred, errors, heq, -, hreported⟩ := loop_append history []
    rw [List.append_nil] at heq
    exact ⟨errors, heq, hreported⟩
  · rintro before after rfl
    obtain ⟨inferred, errors, heq, hinfers, -⟩ := loop_append before after
    exact ⟨inferred, errors, heq, hinfers⟩

end Jepsen.Faunadb.Multimonotonic
