/-
# What the version orders say

One relation lies behind everything `version-orders` returns: operation reports
of values at the offsets of a key. The logs hold exactly the reports, the errors
are the offsets with several reported values, the duplicates are the values
reported at several offsets, and an order lists one reported value for every
offset that has one. None of it depends on how the fold was chunked.
-/

import Jepsen.Tests.Kafka.VersionOrders

namespace Jepsen.Tests.Kafka

open Jepsen.Library

universe u v

variable {K : Type u} {V : Type v} [DecidableEq K] [LinearOrder V]

/-! ## Offsets of a vector -/

/-- The positions of the elements that satisfy `p`. -/
def positions {A : Type v} (p : A → Bool) (l : List A) (start : ℕ) : List ℕ :=
  ((l.zipIdx start).filter fun e => p e.1).map Prod.snd

theorem mem_positions {A : Type v} {p : A → Bool} {l : List A} {o : ℕ} :
    o ∈ positions p l 0 ↔ ∃ a, l[o]? = some a ∧ p a = true := by
  simp only [positions, List.mem_map, List.mem_filter, List.mem_zipIdx_iff_getElem?]
  constructor
  · rintro ⟨e, ⟨hget, hp⟩, ho⟩
    exact ⟨e.1, ho ▸ hget, hp⟩
  · rintro ⟨a, hget, hp⟩
    exact ⟨(a, o), ⟨hget, hp⟩, rfl⟩

theorem positions_pairwise {A : Type v} (p : A → Bool) (l : List A) (start : ℕ) :
    (positions p l start).Pairwise (· < ·) := by
  have hsub : (positions p l start).Sublist ((l.zipIdx start).map Prod.snd) :=
    List.filter_sublist.map Prod.snd
  rw [List.zipIdx_map_snd] at hsub
  exact (List.pairwise_lt_range' 1).sublist hsub

theorem positions_cons {A : Type v} (p : A → Bool) (a : A) (l : List A) (start : ℕ) :
    positions p (a :: l) start =
      (if p a then [start] else []) ++ positions p l (start + 1) := by
  unfold positions
  rw [List.zipIdx_cons, List.filter_cons]
  cases p a <;> simp

theorem length_positions {A : Type v} (p : A → Bool) (l : List A) (start : ℕ) :
    (positions p l start).length = l.countP p := by
  induction l generalizing start with
  | nil => rfl
  | cons a l ih =>
    rw [positions_cons, List.length_append, ih, List.countP_cons]
    cases p a <;> simp [Nat.add_comm]

/-! ## Logs -/

omit [LinearOrder V] in
theorem getElem?_datafy (m : OffsetMap V) (o : ℕ) (s : NonemptySet V) :
    (datafyVersionOrderLog m)[o]? = some (some s) ↔ m.lookup o = some s := by
  unfold datafyVersionOrderLog
  cases hmax : m.keys.max? with
  | none =>
    have hnone : m.lookup o = none := by
      rw [AList.lookup_eq_none, AList.mem_keys, List.max?_eq_none_iff.mp hmax]
      exact List.not_mem_nil
    simp [hnone]
  | some maxI =>
    obtain ⟨-, hle⟩ := List.max?_eq_some_iff.mp hmax
    simp only [List.getElem?_map]
    by_cases hlt : o < maxI + 1
    · rw [List.getElem?_range hlt]
      simp
    · have hnone : m.lookup o = none := by
        rw [AList.lookup_eq_none, AList.mem_keys]
        intro hmem
        exact hlt (Nat.lt_succ_of_le (hle o hmem))
      have hout : (List.range (maxI + 1))[o]? = none := by
        rw [List.getElem?_eq_none_iff, List.length_range]
        omega
      simp [hnone, hout]

omit [LinearOrder V] in
/-- A vector depends only on what its offset map stores. -/
theorem datafy_congr {m m' : OffsetMap V} (hsame : ∀ o, m.lookup o = m'.lookup o) :
    datafyVersionOrderLog m = datafyVersionOrderLog m' := by
  have hkeys : ∀ o, o ∈ m.keys ↔ o ∈ m'.keys := by
    intro o
    rw [← AList.mem_keys, ← AList.mem_keys, ← AList.lookup_isSome, ← AList.lookup_isSome, hsame]
  have hmax : m.keys.max? = m'.keys.max? := by
    cases hmax : m'.keys.max? with
    | none =>
      rw [List.max?_eq_none_iff] at hmax ⊢
      apply List.eq_nil_iff_forall_not_mem.mpr
      intro o ho
      have hmem := (hkeys o).mp ho
      rw [hmax] at hmem
      cases hmem
    | some maxI =>
      obtain ⟨hmem, hle⟩ := List.max?_eq_some_iff.mp hmax
      exact List.max?_eq_some_iff.mpr
        ⟨(hkeys maxI).mpr hmem, fun o ho => hle o ((hkeys o).mp ho)⟩
  unfold datafyVersionOrderLog
  rw [hmax]
  cases m'.keys.max? with
  | none => rfl
  | some maxI => exact List.map_congr_left fun o _ => hsame o

/-- Log `log` holds value `v` at offset `o`. -/
def Holds (log : Log V) (o : ℕ) (v : V) : Prop :=
  ∃ s, log[o]? = some (some s) ∧ v ∈ s.1

/-! ## Errors of a log -/

omit [DecidableEq K] in
theorem foldl_errorStep (k : K) (log : Log V) (offset index : ℕ) (errs : List (OffsetError K V)) :
    ((log.foldl (errorStep k) (offset, index, errs)).2.2).map
        (fun e => (e.key, e.offset, e.values)) =
      errs.map (fun e => (e.key, e.offset, e.values)) ++
        (((log.zipIdx offset).filter fun e => decide (2 ≤ valueCount e.1)).map
          fun e => (k, e.2, sortedValues e.1)) := by
  induction log generalizing offset index errs with
  | nil => simp
  | cons values log ih =>
    rw [List.foldl_cons, List.zipIdx_cons, List.filter_cons]
    by_cases hseveral : 2 ≤ valueCount values
    · have hstep : errorStep k (offset, index, errs) values =
          (offset + 1, index + 1, errs ++ [⟨k, offset, index, sortedValues values⟩]) := by
        simp only [errorStep, if_pos hseveral]
      rw [hstep, ih, if_pos (decide_eq_true hseveral), List.map_append, List.append_assoc]
      rfl
    · have hstep : ∃ index', errorStep k (offset, index, errs) values =
          (offset + 1, index', errs) := by
        by_cases hone : 1 ≤ valueCount values
        · exact ⟨index + 1, by simp only [errorStep, if_neg hseveral, if_pos hone]⟩
        · exact ⟨index, by simp only [errorStep, if_neg hseveral, if_neg hone]⟩
      obtain ⟨index', hstep⟩ := hstep
      rw [hstep, ih, if_neg (by simpa using hseveral)]

omit [DecidableEq K] in
theorem map_logErrors (k : K) (log : Log V) :
    (logErrors k log).map (fun e => (e.key, e.offset, e.values)) =
      ((log.zipIdx.filter fun e => decide (2 ≤ valueCount e.1)).map
        fun e => (k, e.2, sortedValues e.1)) := by
  rw [logErrors, foldl_errorStep]
  rfl

omit [DecidableEq K] in
theorem map_offset_logErrors (k : K) (log : Log V) :
    (logErrors k log).map (fun e => e.offset) =
      positions (fun values => decide (2 ≤ valueCount values)) log 0 := by
  have hmap := congrArg (List.map fun e : K × ℕ × List V => e.2.1) (map_logErrors k log)
  rw [List.map_map, List.map_map] at hmap
  exact hmap

omit [DecidableEq K] in
/-- The errors of a log are its offsets with several values. -/
theorem mem_logErrors_iff (k : K) (log : Log V) (o : ℕ) :
    (∃ e ∈ logErrors k log, e.offset = o) ↔ ∃ v w, v ≠ w ∧ Holds log o v ∧ Holds log o w := by
  rw [← List.mem_map, map_offset_logErrors, mem_positions]
  constructor
  · rintro ⟨values, hget, hseveral⟩
    have hseveral := of_decide_eq_true hseveral
    cases values with
    | none => cases hseveral
    | some s =>
      obtain ⟨v, hv, w, hw, hne⟩ := Finset.one_lt_card.mp hseveral
      exact ⟨v, w, hne, ⟨s, hget, hv⟩, ⟨s, hget, hw⟩⟩
  · rintro ⟨v, w, hne, ⟨s, hget, hv⟩, ⟨s', hget', hw⟩⟩
    rw [hget] at hget'
    cases hget'
    exact ⟨some s, hget, decide_eq_true (Finset.one_lt_card.mpr ⟨v, hv, w, hw, hne⟩)⟩

omit [DecidableEq K] in
/-- An error names its key, and lists the values of its offset in order. -/
theorem logErrors_values {k : K} {log : Log V} {e : OffsetError K V} (he : e ∈ logErrors k log) :
    e.key = k ∧ e.values.Pairwise (· < ·) ∧ ∀ v, v ∈ e.values ↔ Holds log e.offset v := by
  have hmem : (e.key, e.offset, e.values) ∈
      (logErrors k log).map fun e => (e.key, e.offset, e.values) :=
    List.mem_map_of_mem he
  rw [map_logErrors] at hmem
  obtain ⟨⟨values, o⟩, hfilter, heq⟩ := List.mem_map.mp hmem
  obtain ⟨hzip, hseveral⟩ := List.mem_filter.mp hfilter
  have hget : log[o]? = some values := List.mem_zipIdx_iff_getElem?.mp hzip
  obtain ⟨hkey, hrest⟩ := Prod.mk.inj heq
  obtain ⟨hoffset, hvalues⟩ := Prod.mk.inj hrest
  cases values with
  | none => cases of_decide_eq_true hseveral
  | some s =>
    change o = e.offset at hoffset
    rw [← hvalues, ← hkey, ← hoffset]
    refine ⟨rfl, ?_, ?_⟩
    · exact s.1.sortedLT_sort.pairwise
    · intro v
      unfold Holds
      constructor
      · intro hv
        exact ⟨s, hget, (Finset.mem_sort _).mp hv⟩
      · rintro ⟨s', hget', hv⟩
        rw [hget] at hget'
        cases hget'
        exact (Finset.mem_sort _).mpr hv

/-! ## Duplicates of a log -/

theorem containsValue_iff {log : Log V} {o : ℕ} {v : V} :
    (∃ values, log[o]? = some values ∧ containsValue v values = true) ↔ Holds log o v := by
  constructor
  · rintro ⟨values, hget, hcontains⟩
    cases values with
    | none => cases hcontains
    | some s => exact ⟨s, hget, of_decide_eq_true hcontains⟩
  · rintro ⟨s, hget, hv⟩
    exact ⟨some s, hget, decide_eq_true hv⟩

theorem foldl_offsets (log : Log V) (v : V) (start : ℕ) (acc : List ℕ) :
    (log.foldl (fun state vs =>
      (state.1 + 1, if containsValue v vs then state.2 ++ [state.1] else state.2))
      (start, acc)).2 = acc ++ positions (containsValue v) log start := by
  induction log generalizing start acc with
  | nil => exact (List.append_nil acc).symm
  | cons values log ih =>
    rw [List.foldl_cons, ih, positions_cons]
    cases containsValue v values <;> simp

theorem offsetsOf_eq_positions (log : Log V) (v : V) :
    offsetsOf log v = positions (containsValue v) log 0 := by
  rw [offsetsOf, foldl_offsets]
  rfl

theorem mem_offsetsOf {log : Log V} {v : V} {o : ℕ} : o ∈ offsetsOf log v ↔ Holds log o v := by
  rw [offsetsOf_eq_positions, mem_positions, containsValue_iff]

theorem offsetsOf_pairwise (log : Log V) (v : V) : (offsetsOf log v).Pairwise (· < ·) := by
  rw [offsetsOf_eq_positions]
  exact positions_pairwise _ _ _

/-- A value occurs once in the walk of every set that contains it. -/
theorem count_walks (order : SetOrder V) (log : Log V) (v : V) :
    (log.reduceOption.flatMap fun s => order.walk s.1).count v = (offsetsOf log v).length := by
  rw [offsetsOf_eq_positions, length_positions]
  induction log with
  | nil => rfl
  | cons values log ih =>
    rw [List.countP_cons, ← ih]
    cases values with
    | none => rfl
    | some s =>
      rw [List.reduceOption_cons_of_some, List.flatMap_cons, List.count_append, Nat.add_comm]
      congr 1
      by_cases hv : v ∈ s.1
      · rw [List.count_eq_one_of_mem (order.nodup_walk s.1) (order.mem_walk.mpr hv)]
        simp [containsValue, hv]
      · rw [List.count_eq_zero_of_not_mem (mt order.mem_walk.mp hv)]
        simp [containsValue, hv]

theorem two_le_length_offsetsOf {log : Log V} {v : V} :
    1 < (offsetsOf log v).length ↔ ∃ o o', o ≠ o' ∧ Holds log o v ∧ Holds log o' v := by
  have hnodup : (offsetsOf log v).Nodup := (offsetsOf_pairwise log v).imp fun h => h.ne
  rw [← List.toFinset_card_of_nodup hnodup, Finset.one_lt_card]
  simp only [List.mem_toFinset, mem_offsetsOf]
  constructor
  · rintro ⟨o, ho, o', ho', hne⟩
    exact ⟨o, o', hne, ho, ho'⟩
  · rintro ⟨o, o', hne, ho, ho'⟩
    exact ⟨o, ho, o', ho', hne⟩

omit [DecidableEq K] in
/-- A duplicate of a key is a value with several offsets, listed with all of them. -/
theorem mem_keyDuplicates {order : SetOrder V} {k : K} {log : Log V} {d : DuplicateCase K V} :
    d ∈ keyDuplicates order k log ↔
      1 < (offsetsOf log d.value).length ∧
        d = ⟨k, d.value, (offsetsOf log d.value).length, offsetsOf log d.value⟩ := by
  simp only [keyDuplicates, List.mem_map, List.mem_filter, decide_eq_true_iff]
  constructor
  · rintro ⟨e, ⟨he, hcount⟩, hd⟩
    subst hd
    have hlookup := Assoc.mem_entries_iff.mp he
    rw [Assoc.lookup_frequencies] at hlookup
    split at hlookup
    · have heq := Option.some.inj hlookup
      rw [count_walks] at heq
      rw [← heq] at hcount
      exact ⟨hcount, by rw [heq]⟩
    · cases hlookup
  · rintro ⟨hcount, hd⟩
    rw [hd]
    refine ⟨⟨d.value, (offsetsOf log d.value).length⟩, ⟨?_, hcount⟩, rfl⟩
    rw [Assoc.mem_entries_iff, Assoc.lookup_frequencies, count_walks, if_pos]
    rw [← List.count_pos_iff, count_walks]
    omega

omit [DecidableEq K] in
theorem exists_mem_keyDuplicates (order : SetOrder V) {k k' : K} {log : Log V} {v : V} :
    (∃ d ∈ keyDuplicates order k log, d.key = k' ∧ d.value = v) ↔
      k' = k ∧ ∃ o o', o ≠ o' ∧ Holds log o v ∧ Holds log o' v := by
  rw [← two_le_length_offsetsOf]
  constructor
  · rintro ⟨d, hd, hkey, hvalue⟩
    obtain ⟨hlt, heq⟩ := mem_keyDuplicates.mp hd
    rw [heq] at hkey
    rw [hvalue] at hlt
    exact ⟨hkey.symm, hlt⟩
  · rintro ⟨hkey, hlt⟩
    exact ⟨⟨k, v, (offsetsOf log v).length, offsetsOf log v⟩,
      mem_keyDuplicates.mpr ⟨hlt, rfl⟩, hkey.symm, rfl⟩

omit [DecidableEq K] in
theorem keyDuplicates_nodup (order : SetOrder V) (k : K) (log : Log V) :
    ((keyDuplicates order k log).map fun d => d.value).Nodup := by
  rw [keyDuplicates, List.map_map]
  exact (Assoc.keys_nodup _).sublist (List.filter_sublist.map Sigma.fst)

/-! ## Order of a log -/

omit [LinearOrder V] in
theorem forall₂_byIndex (order : SetOrder V) (log : Log V) (start : ℕ) :
    List.Forall₂ (fun o v => ∃ s, start ≤ o ∧ log[o - start]? = some (some s) ∧ v ∈ s.1)
      (positions (fun values : Option (NonemptySet V) => values.isSome) log start)
      (log.reduceOption.map order.first) := by
  induction log generalizing start with
  | nil => exact .nil
  | cons values log ih =>
    have htail : List.Forall₂
        (fun o v => ∃ s, start ≤ o ∧ (values :: log)[o - start]? = some (some s) ∧ v ∈ s.1)
        (positions (fun values : Option (NonemptySet V) => values.isSome) log (start + 1))
        (log.reduceOption.map order.first) := by
      apply (ih (start + 1)).imp
      rintro o v ⟨s, hle, hget, hv⟩
      have hsucc : o - start = (o - (start + 1)) + 1 := by omega
      refine ⟨s, by omega, ?_, hv⟩
      rw [hsucc, List.getElem?_cons_succ]
      exact hget
    rw [positions_cons]
    cases values with
    | none => exact htail
    | some s =>
      rw [List.reduceOption_cons_of_some]
      refine .cons ⟨s, Nat.le_refl start, ?_, order.first_mem s⟩ htail
      rw [Nat.sub_self]
      rfl

/-! ## The whole history -/

section History

variable {history : List (KafkaOp K V)} {plan : FoldPlan (KafkaOp K V)}
  {readsByType : Assoc ClientType (Assoc K (Finset V))}

theorem at?_run_eq_some_iff (plan : FoldPlan (KafkaOp K V)) (k : K) (o : ℕ)
    (s : NonemptySet V) :
    ((logsFolder readsByType).run plan).at? k o = some s ↔
      ∃ log, (datafiedLogs plan readsByType).lookup k = some log ∧ log[o]? = some (some s) := by
  rw [datafiedLogs, Assoc.lookup_mapVals, Logs.at?, Assoc.lookup₂]
  cases ((logsFolder readsByType).run plan).lookup k with
  | none => simp
  | some m => simp [getElem?_datafy]

/-- The logs hold what the history reports. -/
theorem holds_iff_reported (hplan : plan.elements.Perm history) {k : K} {log : Log V}
    (hlookup : (datafiedLogs plan readsByType).lookup k = some log) (o : ℕ) (v : V) :
    Holds log o v ↔ Reported history readsByType k o v := by
  rw [← mem_recorded_logs hplan, Logs.recorded, Set.mem_ofPred_eq]
  constructor
  · rintro ⟨s, hget, hv⟩
    exact ⟨s, (at?_run_eq_some_iff plan k o s).mpr ⟨log, hlookup, hget⟩, hv⟩
  · rintro ⟨s, hat, hv⟩
    obtain ⟨log', hlookup', hget⟩ := (at?_run_eq_some_iff plan k o s).mp hat
    rw [hlookup] at hlookup'
    cases hlookup'
    exact ⟨s, hget, hv⟩

theorem exists_log_of_reported (hplan : plan.elements.Perm history) {k : K} {o : ℕ} {v : V}
    (hreported : Reported history readsByType k o v) :
    ∃ log, (datafiedLogs plan readsByType).lookup k = some log := by
  rw [← mem_recorded_logs hplan] at hreported
  obtain ⟨s, hat, -⟩ := hreported
  obtain ⟨log, hlookup, -⟩ := (at?_run_eq_some_iff plan k o s).mp hat
  exact ⟨log, hlookup⟩

/-- What two folds of one history store for a key is the same. -/
theorem at?_run_congr {plan' : FoldPlan (KafkaOp K V)} (hplan : plan.elements.Perm history)
    (hplan' : plan'.elements.Perm history) (k : K) (o : ℕ) :
    ((logsFolder readsByType).run plan).at? k o =
      ((logsFolder readsByType).run plan').at? k o := by
  have hsame : ∀ v, (∃ s, ((logsFolder readsByType).run plan).at? k o = some s ∧ v ∈ s.1) ↔
      ∃ s, ((logsFolder readsByType).run plan').at? k o = some s ∧ v ∈ s.1 := by
    intro v
    exact (mem_recorded_logs hplan readsByType k o v).trans
      (mem_recorded_logs hplan' readsByType k o v).symm
  cases hat : ((logsFolder readsByType).run plan).at? k o with
  | none =>
    cases hat' : ((logsFolder readsByType).run plan').at? k o with
    | none => rfl
    | some s' =>
      obtain ⟨v, hv⟩ := s'.2
      obtain ⟨s, hs, -⟩ := (hsame v).mpr ⟨s', hat', hv⟩
      rw [hat] at hs
      cases hs
  | some s =>
    cases hat' : ((logsFolder readsByType).run plan').at? k o with
    | none =>
      obtain ⟨v, hv⟩ := s.2
      obtain ⟨s', hs', -⟩ := (hsame v).mp ⟨s, hat, hv⟩
      rw [hat'] at hs'
      cases hs'
    | some s' =>
      congr 1
      apply Subtype.ext
      ext v
      simpa [hat, hat'] using hsame v

theorem datafiedLogs_congr {plan' : FoldPlan (KafkaOp K V)} (hplan : plan.elements.Perm history)
    (hplan' : plan'.elements.Perm history) (k : K) :
    (datafiedLogs plan readsByType).lookup k = (datafiedLogs plan' readsByType).lookup k := by
  have hsame : ∀ o, ((logsFolder readsByType).run plan).at? k o =
      ((logsFolder readsByType).run plan').at? k o := at?_run_congr hplan hplan' k
  have hin := (logsFolder_keeps_inhabited readsByType).run plan
  have hin' := (logsFolder_keeps_inhabited readsByType).run plan'
  rw [datafiedLogs, datafiedLogs, Assoc.lookup_mapVals, Assoc.lookup_mapVals]
  unfold Logs.at? Assoc.lookup₂ at hsame
  cases hlog : ((logsFolder readsByType).run plan).lookup k with
  | none =>
    cases hlog' : ((logsFolder readsByType).run plan').lookup k with
    | none => rfl
    | some m' =>
      obtain ⟨o, ho⟩ := hin' k m' hlog'
      have hnone := hsame o
      rw [hlog, hlog', Option.bind_none, Option.bind_some] at hnone
      exact absurd ho (AList.lookup_eq_none.mp hnone.symm)
  | some m =>
    cases hlog' : ((logsFolder readsByType).run plan').lookup k with
    | none =>
      obtain ⟨o, ho⟩ := hin k m hlog
      have hnone := hsame o
      rw [hlog, hlog', Option.bind_none, Option.bind_some] at hnone
      exact absurd ho (AList.lookup_eq_none.mp hnone)
    | some m' =>
      rw [Option.map_some, Option.map_some, datafy_congr]
      intro o
      have hlookup := hsame o
      rw [hlog, hlog', Option.bind_some, Option.bind_some] at hlookup
      exact hlookup

end History

/-- Version orders and duplicates that say what a relation between keys, offsets
and values says. -/
structure Describes (reported : K → ℕ → V → Prop) (vo : VersionOrders K V)
    (dups : Option (List (DuplicateCase K V))) : Prop where
  log : ∀ k o v,
    (∃ vorder, vo.orders.lookup k = some vorder ∧ Holds vorder.log o v) ↔ reported k o v
  errors : ∀ k o, (∃ e ∈ vo.errors.getD [], e.key = k ∧ e.offset = o) ↔
    ∃ v w, v ≠ w ∧ reported k o v ∧ reported k o w
  errors_once : ((vo.errors.getD []).map fun e => (e.key, e.offset)).Nodup
  errors_values : ∀ e ∈ vo.errors.getD [], ∀ v, v ∈ e.values ↔ reported e.key e.offset v
  duplicates : ∀ k v, (∃ d ∈ dups.getD [], d.key = k ∧ d.value = v) ↔
    ∃ o o', o ≠ o' ∧ reported k o v ∧ reported k o' v
  duplicates_once : ((dups.getD []).map fun d => (d.key, d.value)).Nodup
  duplicates_offsets : ∀ d ∈ dups.getD [], d.count = d.offsets.length ∧
    d.offsets.Pairwise (· < ·) ∧ ∀ o, o ∈ d.offsets ↔ reported d.key o d.value
  byIndex : ∀ k vorder, vo.orders.lookup k = some vorder →
    ∃ offsets : List ℕ, offsets.Pairwise (· < ·) ∧ (∀ o, o ∈ offsets ↔ ∃ v, reported k o v) ∧
      List.Forall₂ (reported k) offsets vorder.byIndex

omit [DecidableEq K] in
/-- Elements collected key by key have no duplicates if no key has any. -/
theorem nodup_flatMap_entries {A B W : Type*} (m : Assoc K W) (f : K → W → List A) (key : A → K)
    (name : A → B) (hkey : ∀ k w, ∀ a ∈ f k w, key a = k)
    (hname : ∀ k w, ((f k w).map name).Nodup) :
    ((m.entries.flatMap fun e => f e.1 e.2).map fun a => (key a, name a)).Nodup := by
  have hkeys := Assoc.keys_nodup m
  revert hkeys
  generalize m.entries = l
  intro hkeys
  induction l with
  | nil => exact List.nodup_nil
  | cons e l ih =>
    rw [List.map_cons, List.nodup_cons] at hkeys
    rw [List.flatMap_cons, List.map_append, List.nodup_append]
    refine ⟨?_, ih hkeys.2, ?_⟩
    · have hpairs : ((f e.1 e.2).map fun a => (key a, name a)) =
          ((f e.1 e.2).map name).map fun b => (e.1, b) := by
        rw [List.map_map]
        apply List.map_congr_left
        intro a ha
        rw [Function.comp_apply, hkey e.1 e.2 a ha]
      rw [hpairs]
      exact (hname e.1 e.2).map fun b b' h => (Prod.mk.inj h).2
    · intro x hx y hy heq
      obtain ⟨a, ha, rfl⟩ := List.mem_map.mp hx
      obtain ⟨b, hb, rfl⟩ := List.mem_map.mp hy
      obtain ⟨e', he', hb'⟩ := List.mem_flatMap.mp hb
      apply hkeys.1
      have hsame : e.1 = e'.1 := by
        rw [← hkey e.1 e.2 a ha, ← hkey e'.1 e'.2 b hb']
        exact (Prod.mk.inj heq).1
      rw [hsame]
      exact List.mem_map_of_mem he'

theorem mem_orders_entries {order : SetOrder V} {plan : FoldPlan (KafkaOp K V)}
    {readsByType : Assoc ClientType (Assoc K (Finset V))} {k : K} {vorder : VersionOrder V} :
    (versionOrders order plan readsByType).orders.lookup k = some vorder ↔
      ∃ log, (datafiedLogs plan readsByType).lookup k = some log ∧ keyOrder order log = vorder := by
  rw [versionOrders, Assoc.lookup_mapVals, Option.map_eq_some_iff]

/-- For every history and every index of reads, the version orders and their
duplicates are those of its reports; and every plan of the fold gives each key the
same order. -/
theorem versionOrders_describe (order : SetOrder V) {history : List (KafkaOp K V)}
    {plan : FoldPlan (KafkaOp K V)} (hplan : plan.elements.Perm history)
    (readsByType : Assoc ClientType (Assoc K (Finset V))) :
    let vo := versionOrders order plan readsByType
    Describes (Reported history readsByType) vo (duplicateCases order vo.orders) ∧
      ∀ plan' : FoldPlan (KafkaOp K V), plan'.elements.Perm history →
        ∀ k, vo.orders.lookup k = (versionOrders order plan' readsByType).orders.lookup k := by
  intro vo
  have hlog : ∀ {k log}, (datafiedLogs plan readsByType).lookup k = some log →
      ∀ o v, Holds log o v ↔ Reported history readsByType k o v :=
    fun hlookup => holds_iff_reported hplan hlookup
  have herrors : vo.errors.getD [] =
      (datafiedLogs plan readsByType).entries.flatMap fun e => logErrors e.1 e.2 := getD_seq _
  have hdups : (duplicateCases order vo.orders).getD [] =
      vo.orders.entries.flatMap fun e => keyDuplicates order e.1 e.2.log := getD_seq _
  refine ⟨⟨?_, ?_, ?_, ?_, ?_, ?_, ?_, ?_⟩, ?_⟩
  · intro k o v
    constructor
    · rintro ⟨vorder, hlookup, hholds⟩
      obtain ⟨log, hdatafied, rfl⟩ := mem_orders_entries.mp hlookup
      exact (hlog hdatafied o v).mp hholds
    · intro hreported
      obtain ⟨log, hdatafied⟩ := exists_log_of_reported hplan hreported
      exact ⟨keyOrder order log, mem_orders_entries.mpr ⟨log, hdatafied, rfl⟩,
        (hlog hdatafied o v).mpr hreported⟩
  · intro k o
    rw [herrors]
    constructor
    · rintro ⟨e, he, hkey, hoffset⟩
      obtain ⟨entry, hentry, he⟩ := List.mem_flatMap.mp he
      obtain ⟨v, w, hne, hv, hw⟩ := (mem_logErrors_iff entry.1 entry.2 o).mp ⟨e, he, hoffset⟩
      have hlookup := Assoc.mem_entries_iff.mp hentry
      rw [← hkey, (logErrors_values he).1]
      exact ⟨v, w, hne, (hlog hlookup o v).mp hv, (hlog hlookup o w).mp hw⟩
    · rintro ⟨v, w, hne, hv, hw⟩
      obtain ⟨log, hlookup⟩ := exists_log_of_reported hplan hv
      obtain ⟨e, he, hoffset⟩ := (mem_logErrors_iff k log o).mpr
        ⟨v, w, hne, (hlog hlookup o v).mpr hv, (hlog hlookup o w).mpr hw⟩
      exact ⟨e, List.mem_flatMap.mpr ⟨⟨k, log⟩, Assoc.mem_entries_iff.mpr hlookup, he⟩,
        (logErrors_values he).1, hoffset⟩
  · rw [herrors]
    apply nodup_flatMap_entries (datafiedLogs plan readsByType) logErrors
    · exact fun k log e he => (logErrors_values he).1
    · intro k log
      rw [map_offset_logErrors]
      exact (positions_pairwise _ _ _).imp fun h => h.ne
  · intro e he v
    rw [herrors] at he
    obtain ⟨entry, hentry, he⟩ := List.mem_flatMap.mp he
    obtain ⟨hkey, -, hvalues⟩ := logErrors_values he
    rw [hvalues, hkey]
    exact hlog (Assoc.mem_entries_iff.mp hentry) e.offset v
  · intro k v
    rw [hdups]
    constructor
    · rintro ⟨d, hd, hkeyvalue⟩
      obtain ⟨entry, hentry, hd⟩ := List.mem_flatMap.mp hd
      obtain ⟨hkey, o, o', hne, ho, ho'⟩ := (exists_mem_keyDuplicates order).mp ⟨d, hd, hkeyvalue⟩
      obtain ⟨log, hdatafied, heq⟩ := mem_orders_entries.mp (Assoc.mem_entries_iff.mp hentry)
      rw [← heq] at ho ho'
      rw [hkey]
      exact ⟨o, o', hne, (hlog hdatafied o v).mp ho, (hlog hdatafied o' v).mp ho'⟩
    · rintro ⟨o, o', hne, ho, ho'⟩
      obtain ⟨log, hdatafied⟩ := exists_log_of_reported hplan ho
      obtain ⟨d, hd, hkeyvalue⟩ := (exists_mem_keyDuplicates order).mpr
        ⟨rfl, o, o', hne, (hlog hdatafied o v).mpr ho, (hlog hdatafied o' v).mpr ho'⟩
      refine ⟨d, List.mem_flatMap.mpr ⟨⟨k, keyOrder order log⟩, ?_, hd⟩, hkeyvalue⟩
      exact Assoc.mem_entries_iff.mpr (mem_orders_entries.mpr ⟨log, hdatafied, rfl⟩)
  · rw [hdups]
    apply nodup_flatMap_entries vo.orders fun k vorder => keyDuplicates order k vorder.log
    · intro k vorder d hd
      rw [(mem_keyDuplicates.mp hd).2]
    · intro k vorder
      exact keyDuplicates_nodup order k vorder.log
  · intro d hd
    rw [hdups] at hd
    obtain ⟨entry, hentry, hd⟩ := List.mem_flatMap.mp hd
    obtain ⟨log, hdatafied, heq⟩ := mem_orders_entries.mp (Assoc.mem_entries_iff.mp hentry)
    rw [← heq] at hd
    obtain ⟨-, hd⟩ := mem_keyDuplicates.mp hd
    rw [hd]
    refine ⟨rfl, offsetsOf_pairwise _ _, ?_⟩
    intro o
    rw [mem_offsetsOf]
    exact hlog hdatafied o d.value
  · intro k vorder hlookup
    obtain ⟨log, hdatafied, rfl⟩ := mem_orders_entries.mp hlookup
    refine ⟨positions (fun values => values.isSome) log 0, positions_pairwise _ _ _, ?_, ?_⟩
    · intro o
      rw [mem_positions]
      constructor
      · rintro ⟨values, hget, hsome⟩
        obtain ⟨s, rfl⟩ := Option.isSome_iff_exists.mp hsome
        obtain ⟨v, hv⟩ := s.2
        exact ⟨v, (hlog hdatafied o v).mp ⟨s, hget, hv⟩⟩
      · rintro ⟨v, hreported⟩
        obtain ⟨s, hget, -⟩ := (hlog hdatafied o v).mpr hreported
        exact ⟨some s, hget, rfl⟩
    · apply (forall₂_byIndex order log 0).imp
      rintro o v ⟨s, -, hget, hv⟩
      exact (hlog hdatafied o v).mp ⟨s, hget, hv⟩
  · intro plan' hplan' k
    change (versionOrders order plan readsByType).orders.lookup k = _
    rw [versionOrders, versionOrders, Assoc.lookup_mapVals, Assoc.lookup_mapVals,
      datafiedLogs_congr hplan hplan']

/-- Two chunks of one send and one poll, combined in either order. -/
theorem versionOrders_describe_sendAndPoll :
    let send : KafkaOp ℕ ℕ :=
      ⟨0, 0, .int 0, .ok, .mops .send [.send 0 (.pair (some 1) 7)]⟩
    let poll : KafkaOp ℕ ℕ :=
      ⟨1, 1, .int 1, .fail, .mops .poll [.poll (some (AList.singleton 0 [(some 1, 8)]))]⟩
    Describes (Reported [send, poll] ∅)
      (versionOrders (.ascending ℕ) (.combine (.chunk [poll]) (.chunk [send])) ∅)
      (duplicateCases (.ascending ℕ)
        (versionOrders (.ascending ℕ) (.combine (.chunk [poll]) (.chunk [send])) ∅).orders) := by
  intro send poll
  have hplan : (FoldPlan.combine (.chunk [poll]) (.chunk [send])).elements.Perm [send, poll] :=
    List.Perm.swap send poll []
  exact (versionOrders_describe (.ascending ℕ) hplan ∅).1

end Jepsen.Tests.Kafka
