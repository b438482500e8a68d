/-
# Consumption counts

A transaction under a subscription should consume a value once. `consume-counts`
counts, process by process, how often each value was polled by ok operations of
processes that subscribed. A process never leaves the set of the subscribed, and of
several processes that consumed a value more than once, the last one counted stands.
-/

import Jepsen.Tests.Kafka.Op

namespace Jepsen.Tests.Kafka

open Jepsen.Library
open Jepsen.Generator (Name)

universe u v

variable {K : Type u} {V : Type v} [DecidableEq K] [DecidableEq V]

/-- The accumulators of the loop over the history. -/
structure ConsumeState (K : Type u) (V : Type v) where
  /-- process -> key -> value -> count -/
  counts : Assoc Name (Assoc K (Assoc V ℕ)) := ∅
  subscribed : Finset Name := ∅

/-- The keys and values that the operation read, one by one. -/
def readPairs (op : KafkaOp K V) : List (K × V) :=
  (opReads op).entries.flatMap fun e => e.2.map fun v => (e.1, v)

/-- `(update-in counts [process k v] (fnil inc 0))` -/
def countRead (process : Name) (counts : Assoc Name (Assoc K (Assoc V ℕ))) (e : K × V) :
    Assoc Name (Assoc K (Assoc V ℕ)) :=
  Assoc.alter process
    (fun inner => Assoc.alter₂ e.1 e.2 (fun n => n.getD 0 + 1) (inner.getD ∅)) counts

/-- The body of the loop over the history. -/
def consumeStep (state : ConsumeState K V) (op : KafkaOp K V) : ConsumeState K V :=
  if op.type ≠ .ok then state
  else
    match op.call with
    | .subscribe _ => { state with subscribed := insert op.process state.subscribed }
    | .mops .txn _ | .mops .poll _ =>
      if op.process ∈ state.subscribed then
        { state with counts := (readPairs op).foldl (countRead op.process) state.counts }
      -- Don't care; this might be an assign poll
      else state
    | _ => state

/-- The key, value and count of everything a process consumed. -/
def consumedTriples (counts : Assoc K (Assoc V ℕ)) : List (K × V × ℕ) :=
  counts.entries.flatMap fun e => e.2.entries.map fun e' => (e.1, e'.1, e'.2)

/-- One step of the loop over the counts: the value's count, if it is more than one. -/
def dupStep (dups : Assoc K (Assoc V ℕ)) (t : K × V × ℕ) : Assoc K (Assoc V ℕ) :=
  if 1 < t.2.2 then Assoc.alter₂ t.1 t.2.1 (fun _ => t.2.2) dups else dups

/-- The map `consume-counts` returns. -/
structure ConsumeCounts (K : Type u) (V : Type v) where
  distribution : Assoc ℕ ℕ
  dupCounts : Assoc K (Assoc V ℕ)

/-- `consume-counts`, walking the processes in some order. -/
def consumeCounts (order : SetOrder Name) (history : List (KafkaOp K V)) : ConsumeCounts K V :=
  let counts := (history.foldl consumeStep ({} : ConsumeState K V)).counts
  let triples := (order.walk counts.keys.toFinset).flatMap fun process =>
    consumedTriples ((counts.lookup process).getD ∅)
  { distribution := triples.foldl
      (fun dist t => Assoc.alter t.2.2 (fun n => n.getD 0 + 1) dist) ∅
    dupCounts := triples.foldl dupStep ∅ }

/-! ## What the loop counts -/

/-- How often a process has consumed a value so far. -/
def countOf (counts : Assoc Name (Assoc K (Assoc V ℕ))) (process : Name) (k : K) (v : V) : ℕ :=
  ((counts.lookup process).bind fun inner => Assoc.lookup₂ inner k v).getD 0

theorem countOf_countRead (counts : Assoc Name (Assoc K (Assoc V ℕ))) (process p : Name)
    (e : K × V) (k : K) (v : V) :
    countOf (countRead process counts e) p k v =
      countOf counts p k v + if p = process ∧ e = (k, v) then 1 else 0 := by
  unfold countOf countRead
  rw [Assoc.lookup_alter]
  by_cases hp : p = process
  · subst hp
    rw [if_pos rfl, Option.bind_some, Assoc.lookup₂_alter₂]
    have hinner : Assoc.lookup₂ ((counts.lookup p).getD ∅) k v =
        (counts.lookup p).bind fun inner => Assoc.lookup₂ inner k v := by
      cases counts.lookup p <;> rfl
    by_cases he : e = (k, v)
    · subst he
      rw [if_pos ⟨rfl, rfl⟩, if_pos ⟨rfl, rfl⟩, Option.getD_some, hinner]
    · rw [if_neg fun h => he (Prod.ext h.1.symm h.2.symm), if_neg fun h => he h.2, hinner]
      rfl
  · rw [if_neg hp, if_neg fun h => hp h.1]
    rfl

theorem countOf_foldl_countRead (counts : Assoc Name (Assoc K (Assoc V ℕ))) (process p : Name)
    (l : List (K × V)) (k : K) (v : V) :
    countOf (l.foldl (countRead process) counts) p k v =
      countOf counts p k v + if p = process then l.count (k, v) else 0 := by
  induction l generalizing counts with
  | nil => simp
  | cons e l ih =>
    rw [List.foldl_cons, ih, countOf_countRead, List.count_cons]
    by_cases hp : p = process <;> by_cases he : e = (k, v) <;> simp [hp, he]
    omega

theorem count_readPairs (op : KafkaOp K V) (k : K) (v : V) :
    (readPairs op).count (k, v) = (op.readsOf k).count v := by
  cases hlookup : (opReads op).lookup k with
  | none =>
    have hnone : op.readsOf k = [] := by rw [← listAt_opReads, listAt, hlookup]; rfl
    rw [hnone, List.count_nil, List.count_eq_zero]
    intro hmem
    obtain ⟨e, he, hpair⟩ := List.mem_flatMap.mp hmem
    obtain ⟨v', -, heq⟩ := List.mem_map.mp hpair
    have hk : e.1 = k := congrArg Prod.fst heq
    rw [← hk, Assoc.mem_entries_iff.mp he] at hlookup
    cases hlookup
  | some vs =>
    have hreads : op.readsOf k = vs := by rw [← listAt_opReads, listAt, hlookup]; rfl
    have hfilter := Assoc.filter_flatMap_entries hlookup
      (fun k vs => vs.map fun v => (k, v)) Prod.fst fun k vs a ha => by
        obtain ⟨v, -, rfl⟩ := List.mem_map.mp ha
        rfl
    have hcount : ((readPairs op).filter fun a => decide (a.1 = k)).count (k, v) =
        (readPairs op).count (k, v) := List.count_filter (decide_eq_true rfl)
    rw [← hcount, readPairs, hfilter, hreads]
    exact List.count_map_of_injective vs _ (fun _ _ h => (Prod.mk.inj h).2) v

/-! ## What a history says -/

namespace KafkaOp

/-- An ok `:subscribe` of a process. -/
def subscribes (op : KafkaOp K V) (process : Name) : Bool :=
  decide (op.type = .ok) && decide (op.process = process) &&
    match op.call with
    | .subscribe _ => true
    | _ => false

/-- An ok `:assign` of a process. -/
def assigns (op : KafkaOp K V) (process : Name) : Bool :=
  decide (op.type = .ok) && decide (op.process = process) &&
    match op.call with
    | .assign _ => true
    | _ => false

end KafkaOp

/-- The process has completed a subscribe. -/
def everSubscribed (before : List (KafkaOp K V)) (process : Name) : Bool :=
  before.any fun op => op.subscribes process

/-- The most recent ok subscription operation of the process is a subscribe. -/
def subscribedLast (before : List (KafkaOp K V)) (process : Name) : Bool :=
  ((before.filter fun op => op.subscribes process || op.assigns process).getLast?.map
    fun op => op.subscribes process).getD false

/-- The ok operations of a process that may read, invoked while it is active. -/
def pollsWhile (active : List (KafkaOp K V) → Name → Bool) (history : List (KafkaOp K V))
    (process : Name) : List (KafkaOp K V) :=
  (history.zipIdx.filter fun e => decide (e.1.type = .ok) && decide (e.1.process = process) &&
    e.1.readable && active (history.take e.2) process).map Prod.fst

/-- How often a process polled a value while it was active. -/
def polledWhile (active : List (KafkaOp K V) → Name → Bool) (history : List (KafkaOp K V))
    (process : Name) (k : K) (v : V) : ℕ :=
  ((pollsWhile active history process).flatMap fun op => op.readsOf k).count v

omit [DecidableEq K] [DecidableEq V] in
theorem pollsWhile_snoc (active : List (KafkaOp K V) → Name → Bool)
    (history : List (KafkaOp K V)) (op : KafkaOp K V) (process : Name) :
    pollsWhile active (history ++ [op]) process = pollsWhile active history process ++
      if (decide (op.type = .ok) && decide (op.process = process) && op.readable &&
        active history process) = true then [op] else [] := by
  have hprior : (history.zipIdx.filter fun e => decide (e.1.type = .ok) &&
      decide (e.1.process = process) && e.1.readable &&
        active ((history ++ [op]).take e.2) process) =
      history.zipIdx.filter fun e => decide (e.1.type = .ok) && decide (e.1.process = process) &&
        e.1.readable && active (history.take e.2) process := by
    apply List.filter_congr
    intro e he
    have hlt : e.2 < history.length := by
      have hbound := List.snd_lt_of_mem_zipIdx he
      omega
    rw [List.take_append_of_le_length hlt.le]
  rw [pollsWhile, List.zipIdx_append, List.filter_append, List.map_append, hprior, pollsWhile]
  congr 1
  rw [List.zipIdx_singleton, List.filter_singleton, Nat.zero_add, List.take_left]
  cases (decide (op.type = .ok) && decide (op.process = process) && op.readable &&
    active history process) <;> rfl

theorem polledWhile_snoc (active : List (KafkaOp K V) → Name → Bool)
    (history : List (KafkaOp K V)) (op : KafkaOp K V) (process : Name) (k : K) (v : V) :
    polledWhile active (history ++ [op]) process k v = polledWhile active history process k v +
      if (decide (op.type = .ok) && decide (op.process = process) && op.readable &&
        active history process) = true then (op.readsOf k).count v else 0 := by
  rw [polledWhile, pollsWhile_snoc, List.flatMap_append, List.count_append, polledWhile]
  congr 1
  split_ifs with hactive
  · rw [List.flatMap_singleton]
  · rfl

theorem mem_subscribed_consumeStep (state : ConsumeState K V) (op : KafkaOp K V) (p : Name) :
    p ∈ (consumeStep state op).subscribed ↔ p ∈ state.subscribed ∨ op.subscribes p = true := by
  unfold consumeStep KafkaOp.subscribes
  by_cases hok : op.type = .ok
  · rw [if_neg (not_not.mpr hok)]
    cases op.call with
    | subscribe topics => simp [hok, or_comm, eq_comm]
    | mops f value => cases f <;> simp <;> split <;> rfl
    | _ => simp
  · simp [hok]

/-- Only an ok read of a subscribed process is counted. -/
theorem counts_consumeStep (state : ConsumeState K V) (op : KafkaOp K V) :
    (consumeStep state op).counts =
      if op.type = .ok ∧ op.readable = true ∧ op.process ∈ state.subscribed
      then (readPairs op).foldl (countRead op.process) state.counts else state.counts := by
  unfold consumeStep KafkaOp.readable
  by_cases hok : op.type = .ok
  · rw [if_neg (not_not.mpr hok)]
    cases op.call with
    | mops f value =>
      by_cases hmem : op.process ∈ state.subscribed <;> cases f <;> simp [hok, hmem]
    | _ => simp
  · rw [if_pos hok, if_neg fun h => hok h.1]

theorem countOf_consumeStep (state : ConsumeState K V) (op : KafkaOp K V) (p : Name) (k : K)
    (v : V) :
    countOf (consumeStep state op).counts p k v = countOf state.counts p k v +
      if op.type = .ok ∧ op.process = p ∧ op.readable = true ∧ p ∈ state.subscribed
      then (op.readsOf k).count v else 0 := by
  rw [counts_consumeStep]
  by_cases hp : p = op.process
  · subst hp
    by_cases hcounted : op.type = .ok ∧ op.readable = true ∧ op.process ∈ state.subscribed
    · rw [if_pos hcounted, if_pos ⟨hcounted.1, rfl, hcounted.2⟩, countOf_foldl_countRead,
        if_pos rfl, count_readPairs]
    · rw [if_neg hcounted, if_neg fun h => hcounted ⟨h.1, h.2.2⟩, Nat.add_zero]
  · have hnot : ¬ (op.type = .ok ∧ op.process = p ∧ op.readable = true ∧
        p ∈ state.subscribed) := fun h => hp h.2.1.symm
    rw [if_neg hnot, Nat.add_zero]
    split_ifs
    · rw [countOf_foldl_countRead, if_neg hp, Nat.add_zero]
    · rfl

/-- The loop counts what each process polled since it first subscribed. -/
theorem counts_eq (history : List (KafkaOp K V)) :
    (∀ p, p ∈ (history.foldl consumeStep ({} : ConsumeState K V)).subscribed ↔
      everSubscribed history p = true) ∧
    ∀ p k v, countOf (history.foldl consumeStep ({} : ConsumeState K V)).counts p k v =
      polledWhile everSubscribed history p k v := by
  induction history using List.reverseRecOn with
  | nil => exact ⟨fun p => by simp [everSubscribed], fun p k v => rfl⟩
  | append_singleton history op ih =>
    obtain ⟨hsubscribed, hcounts⟩ := ih
    rw [List.foldl_append, List.foldl_cons, List.foldl_nil]
    constructor
    · intro p
      rw [mem_subscribed_consumeStep, hsubscribed, everSubscribed, everSubscribed, List.any_append,
        List.any_cons, List.any_nil, Bool.or_false, Bool.or_eq_true]
    · intro p k v
      rw [countOf_consumeStep, hcounts, polledWhile_snoc]
      simp only [Bool.and_eq_true, decide_eq_true_iff, hsubscribed, and_assoc]

/-! ## The duplicates -/

/-- The last count above one of a value in a list of triples stands. -/
theorem lookup₂_foldl_dupStep (triples : List (K × V × ℕ)) (k : K) (v : V) :
    Assoc.lookup₂ (triples.foldl dupStep ∅) k v =
      ((triples.filter fun t => decide (t.1 = k ∧ t.2.1 = v ∧ 1 < t.2.2)).getLast?).map
        fun t => t.2.2 := by
  induction triples using List.reverseRecOn with
  | nil => rfl
  | append_singleton triples t ih =>
    rw [List.foldl_append, List.foldl_cons, List.foldl_nil, List.filter_append, dupStep]
    by_cases hdup : 1 < t.2.2
    · rw [if_pos hdup, Assoc.lookup₂_alter₂]
      by_cases hkey : k = t.1 ∧ v = t.2.1
      · rw [if_pos hkey, List.filter_singleton, hkey.1, hkey.2]
        simp [hdup]
      · have hnot : ¬ (t.1 = k ∧ t.2.1 = v ∧ 1 < t.2.2) := fun h => hkey ⟨h.1.symm, h.2.1.symm⟩
        rw [if_neg hkey, List.filter_singleton, decide_eq_false hnot, ih]
        simp
    · have hnot : ¬ (t.1 = k ∧ t.2.1 = v ∧ 1 < t.2.2) := fun h => hdup h.2.2
      rw [if_neg hdup, List.filter_singleton, decide_eq_false hnot, ih]
      simp

theorem filter_and {A : Type*} (p q : A → Prop) [DecidablePred p] [DecidablePred q] (l : List A) :
    (l.filter fun a => decide (p a ∧ q a)) =
      (l.filter fun a => decide (p a)).filter fun a => decide (q a) := by
  rw [List.filter_filter]
  apply List.filter_congr
  intro a _
  rw [Bool.decide_and, Bool.and_comm]

/-- The triple of a process for one value, if it consumed it more than once. -/
theorem filter_consumedTriples (counts : Assoc K (Assoc V ℕ)) (k : K) (v : V) :
    ((consumedTriples counts).filter fun t => decide (t.1 = k ∧ t.2.1 = v ∧ 1 < t.2.2)) =
      match Assoc.lookup₂ counts k v with
      | none => []
      | some n => if 1 < n then [(k, v, n)] else [] := by
  rw [filter_and (fun t : K × V × ℕ => t.1 = k), filter_and (fun t : K × V × ℕ => t.2.1 = v),
    Assoc.lookup₂]
  cases hlookup : counts.lookup k with
  | none =>
    have hnone : (consumedTriples counts).filter (fun t => decide (t.1 = k)) = [] := by
      rw [List.filter_eq_nil_iff]
      intro t ht
      obtain ⟨e, he, htriple⟩ := List.mem_flatMap.mp ht
      obtain ⟨e', -, rfl⟩ := List.mem_map.mp htriple
      rw [decide_eq_true_iff]
      rintro rfl
      rw [Assoc.mem_entries_iff.mp he] at hlookup
      cases hlookup
    rw [hnone]
    rfl
  | some inner =>
    have hkey := Assoc.filter_flatMap_entries hlookup
      (fun k (inner : Assoc V ℕ) => inner.entries.map fun e' => (k, e'.1, e'.2)) Prod.fst
      fun k inner a ha => by
        obtain ⟨e', -, rfl⟩ := List.mem_map.mp ha
        rfl
    rw [consumedTriples, hkey, Option.bind_some]
    cases hinner : inner.lookup v with
    | none =>
      have hnone : (inner.entries.map fun e' => (k, e'.1, e'.2)).filter
          (fun t => decide (t.2.1 = v)) = [] := by
        rw [List.filter_eq_nil_iff]
        intro t ht
        obtain ⟨e', he', rfl⟩ := List.mem_map.mp ht
        rw [decide_eq_true_iff]
        rintro rfl
        rw [Assoc.mem_entries_iff.mp he'] at hinner
        cases hinner
      rw [hnone]
      rfl
    | some n =>
      have hvalue := Assoc.filter_flatMap_entries hinner (fun v n => [(k, v, n)])
        (fun t => t.2.1) fun v n a ha => by rw [List.mem_singleton.mp ha]
      rw [← List.map_eq_flatMap] at hvalue
      rw [hvalue, List.filter_singleton]
      by_cases hdup : 1 < n <;> simp [hdup]

/-- The greatest number of times some process of the history polled a value while it was
active. -/
def mostPolled (active : List (KafkaOp K V) → Name → Bool) (history : List (KafkaOp K V)) (k : K)
    (v : V) : ℕ :=
  (history.map fun op => polledWhile active history op.process k v).foldl max 0

/-- The process has polled a value since it first subscribed. -/
def consumes (history : List (KafkaOp K V)) (process : Name) : Bool :=
  (pollsWhile everSubscribed history process).any fun op => !(readPairs op).isEmpty

/-- The processes that have. -/
def consumers (history : List (KafkaOp K V)) : Finset Name :=
  ((history.map KafkaOp.process).filter fun process => consumes history process).toFinset

theorem mem_foldl_countRead (counts : Assoc Name (Assoc K (Assoc V ℕ))) (process p : Name)
    (l : List (K × V)) :
    p ∈ l.foldl (countRead process) counts ↔ p ∈ counts ∨ p = process ∧ l.isEmpty = false := by
  induction l generalizing counts with
  | nil => simp
  | cons e l ih =>
    have hstep : p ∈ countRead process counts e ↔ p ∈ counts ∨ p = process := by
      rw [← AList.lookup_isSome, ← AList.lookup_isSome, countRead, Assoc.lookup_alter]
      by_cases hp : p = process <;> simp [hp]
    rw [List.foldl_cons, ih, hstep, List.isEmpty_cons]
    tauto

/-- The loop has counts for the processes that consume. -/
theorem mem_counts (history : List (KafkaOp K V)) (p : Name) :
    p ∈ (history.foldl consumeStep ({} : ConsumeState K V)).counts ↔
      consumes history p = true := by
  induction history using List.reverseRecOn with
  | nil => simp [consumes, pollsWhile, AList.notMem_empty]
  | append_singleton history op ih =>
    have hsubscribed := (counts_eq history).1
    have hconsumes : consumes (history ++ [op]) p = (consumes history p ||
        (decide (op.type = .ok) && decide (op.process = p) && op.readable &&
          everSubscribed history p && !(readPairs op).isEmpty)) := by
      rw [consumes, pollsWhile_snoc, List.any_append, consumes]
      cases (decide (op.type = .ok) && decide (op.process = p) && op.readable &&
        everSubscribed history p) <;> simp
    rw [List.foldl_append, List.foldl_cons, List.foldl_nil, counts_consumeStep, hconsumes]
    simp only [Bool.or_eq_true, Bool.and_eq_true, decide_eq_true_iff, ← hsubscribed, ← ih,
      Bool.not_eq_true']
    by_cases hcounted : op.type = .ok ∧ op.readable = true ∧
        op.process ∈ (history.foldl consumeStep ({} : ConsumeState K V)).subscribed
    · rw [if_pos hcounted, mem_foldl_countRead]
      refine or_congr Iff.rfl ⟨?_, ?_⟩
      · rintro ⟨rfl, hne⟩
        exact ⟨⟨⟨⟨hcounted.1, rfl⟩, hcounted.2.1⟩, hcounted.2.2⟩, hne⟩
      · rintro ⟨⟨⟨⟨-, hp⟩, -⟩, -⟩, hne⟩
        exact ⟨hp.symm, hne⟩
    · rw [if_neg hcounted]
      refine (or_iff_left ?_).symm
      rintro ⟨⟨⟨⟨hok, rfl⟩, hreadable⟩, hmem⟩, -⟩
      exact hcounted ⟨hok, hreadable, hmem⟩

/-- The counts map's processes. -/
theorem keys_counts (history : List (KafkaOp K V)) :
    (history.foldl consumeStep ({} : ConsumeState K V)).counts.keys.toFinset =
      consumers history := by
  ext p
  rw [List.mem_toFinset, ← AList.mem_keys, mem_counts, consumers, List.mem_toFinset,
    List.mem_filter, List.mem_map]
  constructor
  · intro hconsumes
    refine ⟨?_, hconsumes⟩
    obtain ⟨op, hop, -⟩ := List.any_eq_true.mp hconsumes
    obtain ⟨e, he, rfl⟩ := List.mem_map.mp hop
    obtain ⟨hmem, hpoll⟩ := List.mem_filter.mp he
    simp only [Bool.and_eq_true, decide_eq_true_iff] at hpoll
    exact ⟨e.1, List.fst_mem_of_mem_zipIdx hmem, hpoll.1.1.2⟩
  · exact fun h => h.2

/-- The count of a value that stands: that of the last process which polled it more than
once since it first subscribed. -/
def lastDup (order : SetOrder Name) (history : List (KafkaOp K V)) (k : K) (v : V) : Option ℕ :=
  (((order.walk (consumers history)).map fun p => polledWhile everSubscribed history p k v).filter
    fun n => decide (1 < n)).getLast?

theorem lookup₂_dupCounts (order : SetOrder Name) (history : List (KafkaOp K V)) (k : K) (v : V) :
    Assoc.lookup₂ (consumeCounts order history).dupCounts k v = lastDup order history k v := by
  have hcounts := (counts_eq history).2
  have hkeys := keys_counts history
  rw [consumeCounts]
  dsimp only
  rw [lookup₂_foldl_dupStep, hkeys, List.filter_flatMap, lastDup]
  generalize (history.foldl consumeStep ({} : ConsumeState K V)).counts = counts at hcounts
  have hprocess : ∀ p, ((consumedTriples ((counts.lookup p).getD ∅)).filter
      fun t => decide (t.1 = k ∧ t.2.1 = v ∧ 1 < t.2.2)) =
      ([polledWhile everSubscribed history p k v].filter fun n => decide (1 < n)).map
        fun n => (k, v, n) := by
    intro p
    rw [filter_consumedTriples, ← hcounts, countOf]
    have hlookup : Assoc.lookup₂ ((counts.lookup p).getD ∅) k v =
        (counts.lookup p).bind fun inner => Assoc.lookup₂ inner k v := by
      cases counts.lookup p <;> rfl
    rw [hlookup]
    cases (counts.lookup p).bind fun inner => Assoc.lookup₂ inner k v with
    | none => rfl
    | some n =>
      rw [Option.getD_some, List.filter_singleton]
      by_cases hdup : 1 < n <;> simp [hdup]
  have hall : ∀ ps : List Name, (ps.flatMap fun p =>
      (consumedTriples ((counts.lookup p).getD ∅)).filter
        fun t => decide (t.1 = k ∧ t.2.1 = v ∧ 1 < t.2.2)) =
      ((ps.map fun p => polledWhile everSubscribed history p k v).filter
        fun n => decide (1 < n)).map fun n => (k, v, n) := by
    intro ps
    induction ps with
    | nil => rfl
    | cons p ps ih =>
      rw [List.flatMap_cons, ih, hprocess, ← List.map_append, ← List.filter_append]
      rfl
  rw [hall, List.getLast?_map, Option.map_map]
  exact Option.map_id_fun ▸ rfl

/-! ## When the counts are right -/

/-- The values counted as duplicates are those that some process polled more than once
while its most recent subscription operation was a subscribe, with the greatest number of
times one did. -/
def DupCountsExact (result : ConsumeCounts K V) (history : List (KafkaOp K V)) : Prop :=
  ∀ k v, Assoc.lookup₂ result.dupCounts k v =
    if 1 < mostPolled subscribedLast history k v
    then some (mostPolled subscribedLast history k v) else none

omit [DecidableEq K] [DecidableEq V] in
theorem everSubscribed_of_subscribedLast {before : List (KafkaOp K V)} {process : Name}
    (hlast : subscribedLast before process = true) : everSubscribed before process = true := by
  unfold subscribedLast at hlast
  cases hop : (before.filter fun op => op.subscribes process || op.assigns process).getLast? with
  | none =>
    rw [hop] at hlast
    cases hlast
  | some op =>
    rw [hop] at hlast
    exact List.any_eq_true.mpr ⟨op, (List.mem_filter.mp (List.mem_of_getLast? hop)).1, hlast⟩

theorem polledWhile_subscribedLast_le (history : List (KafkaOp K V)) (process : Name) (k : K)
    (v : V) :
    polledWhile subscribedLast history process k v ≤
      polledWhile everSubscribed history process k v := by
  induction history using List.reverseRecOn with
  | nil => exact le_rfl
  | append_singleton history op ih =>
    rw [polledWhile_snoc, polledWhile_snoc]
    apply Nat.add_le_add ih
    split_ifs with hlast hever
    · exact le_rfl
    · rw [Bool.and_eq_true] at hlast
      exact absurd (Bool.and_eq_true_iff.mpr
        ⟨hlast.1, everSubscribed_of_subscribedLast hlast.2⟩) hever
    · exact Nat.zero_le _
    · exact le_rfl

theorem foldl_max_le_iff {l : List ℕ} {m : ℕ} : l.foldl max 0 ≤ m ↔ ∀ n ∈ l, n ≤ m := by
  have hfold : ∀ (l : List ℕ) (b : ℕ), l.foldl max b ≤ m ↔ b ≤ m ∧ ∀ n ∈ l, n ≤ m := by
    intro l
    induction l with
    | nil => intro b; simp
    | cons n l ih =>
      intro b
      rw [List.foldl_cons, ih, List.forall_mem_cons, max_le_iff, and_assoc]
  rw [hfold, and_iff_right (Nat.zero_le m)]

/-- A process that polled a value since it first subscribed is among the consumers. -/
theorem mem_consumers {history : List (KafkaOp K V)} {process : Name} {k : K} {v : V}
    (hpolled : 0 < polledWhile everSubscribed history process k v) :
    process ∈ consumers history := by
  rw [← keys_counts, List.mem_toFinset, ← AList.mem_keys, ← AList.lookup_isSome]
  rw [← (counts_eq history).2, countOf] at hpolled
  cases hlookup : (history.foldl consumeStep ({} : ConsumeState K V)).counts.lookup process with
  | some inner => rfl
  | none =>
    rw [hlookup] at hpolled
    exact absurd hpolled (lt_irrefl 0)

/-- A process subscribes, then assigns itself a key, and reads value 10 twice. -/
def assignedTwice : List (KafkaOp ℕ ℕ) :=
  [⟨0, 0, .int 0, .ok, .subscribe [0]⟩, ⟨1, 1, .int 0, .ok, .assign [0]⟩,
    ⟨2, 2, .int 0, .ok, .mops .poll [.poll (some (AList.singleton 0 [(some 0, 10)]))]⟩,
    ⟨3, 3, .int 0, .ok, .mops .poll [.poll (some (AList.singleton 0 [(some 0, 10)]))]⟩]

/-- Processes in any order. -/
noncomputable def anyOrder : SetOrder Name where
  walk := Finset.toList
  mem_walk := Finset.mem_toList
  nodup_walk := Finset.nodup_toList

end Jepsen.Tests.Kafka
