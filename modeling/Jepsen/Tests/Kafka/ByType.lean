/-
# Reads by type, writers and readers

The analysis of a Kafka history starts with three indexes of its completions: the
values read for each key, by the type of the reading operation; the operation
that wrote each value; and the operations that read it.
-/

import Jepsen.Tests.Kafka.Op

namespace Jepsen.Tests.Kafka

open Jepsen.Library

universe u v

variable {K : Type u} {V : Type v} [DecidableEq K] [DecidableEq V]

/-! ## Reads by type -/

/-- `(->> ops (map op-reads) (map (partial map-vals set)) (reduce ...))` -/
def readSets (ops : List (KafkaOp K V)) : Assoc K (Finset V) :=
  (∅ : Assoc K (Finset V)).unionAll
    (ops.map fun op => Assoc.mapVals (fun _ vs => vs.toFinset) (opReads op))

/-- `reads-by-type` -/
def readsByType (history : List (KafkaOp K V)) : Assoc ClientType (Assoc K (Finset V)) :=
  let completions := (history.filter fun op => decide (op.type ≠ .invoke)).filter KafkaOp.readable
  Assoc.mapVals (fun _ ops => readSets ops) (Assoc.groupBy KafkaOp.type completions)

/-- `(:ok reads-by-type)`; its `nil` is the empty map here. -/
def okReads (reads : Assoc ClientType (Assoc K (Finset V))) : Assoc K (Finset V) :=
  (reads.lookup .ok).getD ∅

/-- `must-have-committed?` -/
def mustHaveCommitted (readsByType : Assoc ClientType (Assoc K (Finset V))) (op : KafkaOp K V) :
    Bool :=
  decide (op.type = .ok) ||
    (decide (op.type = .info) &&
      (opWrites op).entries.any fun e =>
        e.2.any fun v => decide (v ∈ (okReads readsByType).valuesAt e.1))

/-- The operation is ok, or is of unknown outcome with one of its sends read. -/
def MustHaveCommitted (readsByType : Assoc ClientType (Assoc K (Finset V))) (op : KafkaOp K V) :
    Prop :=
  op.type = .ok ∨
    op.type = .info ∧ ∃ k v, op.Sends k v ∧ v ∈ (okReads readsByType).valuesAt k

theorem mustHaveCommitted_iff {readsByType : Assoc ClientType (Assoc K (Finset V))}
    {op : KafkaOp K V} :
    mustHaveCommitted readsByType op = true ↔ MustHaveCommitted readsByType op := by
  have hany : ((opWrites op).entries.any fun e =>
      e.2.any fun v => decide (v ∈ (okReads readsByType).valuesAt e.1)) = true ↔
        ∃ k v, op.Sends k v ∧ v ∈ (okReads readsByType).valuesAt k := by
    simp only [List.any_eq_true, decide_eq_true_iff]
    constructor
    · rintro ⟨e, he, v, hv, hread⟩
      have hlookup : (opWrites op).lookup e.1 = some e.2 := Assoc.mem_entries_iff.mp he
      refine ⟨e.1, v, mem_listAt_opWrites.mp ?_, hread⟩
      rw [listAt, hlookup]
      exact hv
    · rintro ⟨k, v, hsends, hread⟩
      have hmem := mem_listAt_opWrites.mpr hsends
      rw [listAt] at hmem
      cases hlookup : (opWrites op).lookup k with
      | none =>
        rw [hlookup] at hmem
        cases hmem
      | some vs =>
        rw [hlookup] at hmem
        exact ⟨⟨k, vs⟩, Assoc.mem_entries_iff.mpr hlookup, v, hmem, hread⟩
  rw [mustHaveCommitted, Bool.or_eq_true, Bool.and_eq_true, decide_eq_true_iff,
    decide_eq_true_iff, hany]
  rfl

theorem mem_readSets {ops : List (KafkaOp K V)} {k : K} :
    k ∈ readSets ops ↔ ∃ op ∈ ops, op.Polls k := by
  rw [readSets, Assoc.mem_unionAll]
  constructor
  · intro hmem
    cases hmem with
    | inl hempty => exact absurd hempty (AList.notMem_empty k)
    | inr hsome =>
      obtain ⟨m, hm, hk⟩ := hsome
      obtain ⟨op, hop, rfl⟩ := List.mem_map.mp hm
      exact ⟨op, hop, mem_opReads.mp (Assoc.mem_mapVals.mp hk)⟩
  · rintro ⟨op, hop, hpolls⟩
    right
    exact ⟨_, List.mem_map_of_mem hop, Assoc.mem_mapVals.mpr (mem_opReads.mpr hpolls)⟩

theorem valuesAt_mapVals_toFinset (m : Assoc K (List V)) (k : K) :
    (Assoc.mapVals (fun _ vs => vs.toFinset) m).valuesAt k = (listAt m k).toFinset := by
  rw [Assoc.valuesAt, Assoc.lookup_mapVals, listAt]
  cases m.lookup k <;> rfl

theorem mem_valuesAt_readSets {ops : List (KafkaOp K V)} {k : K} {v : V} :
    v ∈ (readSets ops).valuesAt k ↔ ∃ op ∈ ops, v ∈ op.readsOf k := by
  rw [readSets, Assoc.mem_valuesAt_unionAll]
  constructor
  · intro hmem
    cases hmem with
    | inl hempty => cases hempty
    | inr hsome =>
      obtain ⟨m, hm, hv⟩ := hsome
      obtain ⟨op, hop, rfl⟩ := List.mem_map.mp hm
      rw [valuesAt_mapVals_toFinset, List.mem_toFinset, listAt_opReads] at hv
      exact ⟨op, hop, hv⟩
  · rintro ⟨op, hop, hv⟩
    right
    refine ⟨_, List.mem_map_of_mem hop, ?_⟩
    rw [valuesAt_mapVals_toFinset, List.mem_toFinset, listAt_opReads]
    exact hv

/-- The completions of a history that are ok. -/
def okOps (history : List (KafkaOp K V)) : List (KafkaOp K V) :=
  ((history.filter fun op => decide (op.type ≠ .invoke)).filter KafkaOp.readable).filter
    fun op => decide (op.type = .ok)

omit [DecidableEq K] [DecidableEq V] in
theorem mem_okOps {history : List (KafkaOp K V)} {op : KafkaOp K V} :
    op ∈ okOps history ↔ op ∈ history ∧ op.type = .ok ∧ op.readable = true := by
  simp only [okOps, List.mem_filter, decide_eq_true_iff]
  constructor
  · rintro ⟨⟨⟨hmem, -⟩, hreadable⟩, hok⟩
    exact ⟨hmem, hok, hreadable⟩
  · rintro ⟨hmem, hok, hreadable⟩
    refine ⟨⟨⟨hmem, ?_⟩, hreadable⟩, hok⟩
    rw [hok]
    nofun

theorem okReads_readsByType (history : List (KafkaOp K V)) :
    okReads (readsByType history) = readSets (okOps history) := by
  rw [okReads, readsByType, Assoc.lookup_mapVals, Assoc.lookup_groupBy]
  split
  · rfl
  · rename_i hnone
    have hnil : okOps history = [] := by
      rw [okOps, List.filter_eq_nil_iff]
      intro op hop
      rw [decide_eq_true_iff]
      intro hok
      exact hnone (hok ▸ List.mem_map_of_mem hop)
    rw [hnil]
    rfl

/-- Key `k` is in the ok reads if some ok operation polled it, even without
reading anything. -/
theorem mem_okReads {history : List (KafkaOp K V)} {k : K} :
    k ∈ okReads (readsByType history) ↔ ∃ op ∈ history, op.type = .ok ∧ op.Polls k := by
  rw [okReads_readsByType, mem_readSets]
  constructor
  · rintro ⟨op, hop, hpolls⟩
    obtain ⟨hmem, hok, -⟩ := mem_okOps.mp hop
    exact ⟨op, hmem, hok, hpolls⟩
  · rintro ⟨op, hmem, hok, hpolls⟩
    exact ⟨op, mem_okOps.mpr ⟨hmem, hok, readable_of_polls hpolls⟩, hpolls⟩

theorem mem_valuesAt_okReads {history : List (KafkaOp K V)} {k : K} {v : V} :
    v ∈ (okReads (readsByType history)).valuesAt k ↔
      ∃ op ∈ history, op.type = .ok ∧ v ∈ op.readsOf k := by
  rw [okReads_readsByType, mem_valuesAt_readSets]
  constructor
  · rintro ⟨op, hop, hv⟩
    obtain ⟨hmem, hok, -⟩ := mem_okOps.mp hop
    exact ⟨op, hmem, hok, hv⟩
  · rintro ⟨op, hmem, hok, hv⟩
    have hreadable := readable_of_polls (polls_of_mem_readsOf hv)
    exact ⟨op, mem_okOps.mpr ⟨hmem, hok, hreadable⟩, hv⟩

/-! ## Writers and readers -/

/-- `(assoc writer-of k (assoc (get writer-of k {}) v op))` -/
def putWriter (op : KafkaOp K V) (k : K) (writers : Assoc K (Assoc V (KafkaOp K V))) (v : V) :
    Assoc K (Assoc V (KafkaOp K V)) :=
  Assoc.alter₂ k v (fun _ => op) writers

/-- The loops of `writer-of` over what one operation wrote. -/
def putWriters (writers : Assoc K (Assoc V (KafkaOp K V))) (op : KafkaOp K V) :
    Assoc K (Assoc V (KafkaOp K V)) :=
  (opWrites op).entries.foldl (fun writers e => e.2.foldl (putWriter op e.1) writers) writers

/-- `writer-of` -/
def writerOf (history : List (KafkaOp K V)) : Assoc K (Assoc V (KafkaOp K V)) :=
  (history.filter fun op => decide (op.type ≠ .invoke)).foldl putWriters ∅

/-- The loops of `readers-of` over what one operation read. -/
def putReaders (readers : Assoc K (Assoc V (List (KafkaOp K V)))) (op : KafkaOp K V) :
    Assoc K (Assoc V (List (KafkaOp K V))) :=
  (opReads op).entries.foldl (fun readers e =>
    e.2.foldl (fun readers v =>
      Assoc.alter₂ e.1 v (fun ops => ops.getD [] ++ [op]) readers) readers) readers

/-- `readers-of` -/
def readersOf (history : List (KafkaOp K V)) : Assoc K (Assoc V (List (KafkaOp K V))) :=
  (history.filter fun op => decide (op.type ≠ .invoke)).foldl putReaders ∅

instance (op : KafkaOp K V) (k : K) (v : V) : Decidable (op.Sends k v) :=
  decidable_of_iff _ mem_listAt_opWrites

/-- The completion that sent a value last; it is the one `writer-of` keeps. -/
def lastSender (history : List (KafkaOp K V)) (k : K) (v : V) : Option (KafkaOp K V) :=
  (history.filter fun op => decide (op.type ≠ .invoke)).reverse.find? fun op =>
    decide (op.Sends k v)

theorem lookup₂_putWriters (writers : Assoc K (Assoc V (KafkaOp K V))) (op : KafkaOp K V) (k : K)
    (v : V) :
    Assoc.lookup₂ (putWriters writers op) k v =
      if op.Sends k v then some op else Assoc.lookup₂ writers k v := by
  have hvalues : ∀ (k' : K) (vs : List V) (writers : Assoc K (Assoc V (KafkaOp K V))),
      Assoc.lookup₂ (vs.foldl (putWriter op k') writers) k v =
        if k = k' ∧ v ∈ vs then some op else Assoc.lookup₂ writers k v := by
    intro k' vs
    induction vs with
    | nil => simp
    | cons v' vs ih =>
      intro writers
      rw [List.foldl_cons, ih, putWriter, Assoc.lookup₂_alter₂]
      by_cases hk : k = k'
      · by_cases hv : v = v' <;> simp [hk, hv]
      · simp [hk]
  have hentries : ∀ (es : List (Σ _ : K, List V)) (writers : Assoc K (Assoc V (KafkaOp K V))),
      Assoc.lookup₂
          (es.foldl (fun writers e => e.2.foldl (putWriter op e.1) writers) writers) k v =
        if ∃ e ∈ es, k = e.1 ∧ v ∈ e.2 then some op else Assoc.lookup₂ writers k v := by
    intro es
    induction es with
    | nil => simp
    | cons e es ih =>
      intro writers
      rw [List.foldl_cons, ih, hvalues]
      by_cases hlater : ∃ e ∈ es, k = e.1 ∧ v ∈ e.2
      · simp [hlater]
      · by_cases hhere : k = e.1 ∧ v ∈ e.2 <;> simp [hlater, hhere]
  have hsends : (∃ e ∈ (opWrites op).entries, k = e.1 ∧ v ∈ e.2) ↔ op.Sends k v := by
    rw [← mem_listAt_opWrites, listAt]
    constructor
    · rintro ⟨e, he, hk, hv⟩
      have hlookup : (opWrites op).lookup e.1 = some e.2 := Assoc.mem_entries_iff.mp he
      rw [hk, hlookup]
      exact hv
    · intro hmem
      cases hlookup : (opWrites op).lookup k with
      | none =>
        rw [hlookup] at hmem
        cases hmem
      | some vs =>
        rw [hlookup] at hmem
        exact ⟨⟨k, vs⟩, Assoc.mem_entries_iff.mpr hlookup, rfl, hmem⟩
  rw [putWriters, hentries]
  simp only [hsends]

theorem lookup₂_writerOf (history : List (KafkaOp K V)) (k : K) (v : V) :
    Assoc.lookup₂ (writerOf history) k v = lastSender history k v := by
  have hfold : ∀ (ops : List (KafkaOp K V)) (writers : Assoc K (Assoc V (KafkaOp K V))),
      Assoc.lookup₂ (ops.foldl putWriters writers) k v =
        (ops.reverse.find? fun op => decide (op.Sends k v)).or (Assoc.lookup₂ writers k v) := by
    intro ops
    induction ops with
    | nil => simp
    | cons op ops ih =>
      intro writers
      rw [List.foldl_cons, ih, lookup₂_putWriters, List.reverse_cons, List.find?_append]
      by_cases hsends : op.Sends k v <;> simp [hsends]
  rw [writerOf, hfold]
  exact Option.or_none

end Jepsen.Tests.Kafka
