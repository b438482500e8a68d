/-
# Kafka operations

A transaction of the Kafka workload is a list of micro-operations. A send names a
key and a value and, once it has completed, the offset the broker chose; a poll
returns offsets and values for any number of keys. What an operation wrote and
read is collected per key, in the order of its micro-operations.
-/

import Jepsen.Generator.TranslationTable
import Jepsen.Library.Multimap

namespace Jepsen.Tests.Kafka

open Jepsen.Library
open Jepsen.Generator (Name)

universe u v w

/-- Clojure's `seq`: `nil` for a collection without elements. -/
def seq {α : Type u} : List α → Option (List α)
  | [] => none
  | a :: as => some (a :: as)

@[simp]
theorem getD_seq {α : Type u} (l : List α) : (seq l).getD [] = l := by
  cases l <;> rfl

/-- What a send names: a value, or a vector `[offset value]`. -/
inductive Sent (V : Type v)
  | literal (value : V)
  | pair (offset : Option ℕ) (value : V)
  deriving DecidableEq

/-- `[offset value]`; a literal value has no offset. -/
def Sent.toPair {V : Type v} : Sent V → Option ℕ × V
  | .literal value => (none, value)
  | .pair offset value => (offset, value)

/-- A micro-operation: `[:send k v]`, `[:poll]` or `[:poll {k pairs}]`. -/
inductive Mop (K : Type u) (V : Type v)
  | send (k : K) (v : Sent V)
  | poll (reads : Option (Assoc K (List (Option ℕ × V))))
  deriving DecidableEq

/-- The `:f` of an operation whose value is a list of micro-operations. -/
inductive TxnF
  | txn | send | poll
  deriving DecidableEq

/-- `:f` and `:value` of an operation. -/
inductive Call (K : Type u) (V : Type v)
  | mops (f : TxnF) (value : List (Mop K V))
  | assign (value : List K)
  | subscribe (value : List K)
  /-- `:crash` and `:debug-topic-partitions`. -/
  | other (f : String)
  deriving DecidableEq

/-- The `:type` of an operation in a client history. -/
inductive ClientType
  | invoke | ok | fail | info
  deriving DecidableEq

/-- An operation of a Kafka test. -/
structure KafkaOp (K : Type u) (V : Type v) where
  index : ℕ
  time : ℤ
  process : Name
  type : ClientType
  call : Call K V
  deriving DecidableEq

variable {K : Type u} {V : Type v} {R : Type w} [DecidableEq K]

/-! ## Writes and reads of an operation -/

/-- One step of `op-writes-helper`. -/
def writesOfMop (f : Option ℕ × V → R) (writes : Assoc K (List R)) : Mop K V → Assoc K (List R)
  | .send k v => writes.extend k [f v.toPair]
  | .poll _ => writes

/-- `op-writes-helper`; its `nil` is the empty map here. -/
def opWritesHelper (op : KafkaOp K V) (f : Option ℕ × V → R) : Assoc K (List R) :=
  match op.call with
  | .mops .txn value => value.foldl (writesOfMop f) ∅
  | .mops .send value => value.foldl (writesOfMop f) ∅
  | _ => ∅

/-- `op-writes` -/
def opWrites (op : KafkaOp K V) : Assoc K (List V) := opWritesHelper op Prod.snd

/-- One step of `op-reads-helper`. -/
def readsOfMop (f : Option ℕ × V → R) (res : Assoc K (List R)) : Mop K V → Assoc K (List R)
  | .poll (some reads) => reads.entries.foldl (fun res e => res.extend e.1 (e.2.map f)) res
  | .poll none => res
  | .send _ _ => res

/-- `op-reads-helper`; its `nil` is the empty map here. -/
def opReadsHelper (op : KafkaOp K V) (f : Option ℕ × V → R) : Assoc K (List R) :=
  match op.call with
  | .mops .txn value => value.foldl (readsOfMop f) ∅
  | .mops .poll value => value.foldl (readsOfMop f) ∅
  | _ => ∅

/-- `op-reads` -/
def opReads (op : KafkaOp K V) : Assoc K (List V) := opReadsHelper op Prod.snd

/-! ## What they collect -/

namespace KafkaOp

/-- The micro-operations whose sends count as writes. -/
def sendingMops (op : KafkaOp K V) : List (Mop K V) :=
  match op.call with
  | .mops .txn value => value
  | .mops .send value => value
  | _ => []

/-- The micro-operations whose polls count as reads. -/
def pollingMops (op : KafkaOp K V) : List (Mop K V) :=
  match op.call with
  | .mops .txn value => value
  | .mops .poll value => value
  | _ => []

/-- The operation sends value `v` to key `k`. -/
def Sends (op : KafkaOp K V) (k : K) (v : V) : Prop :=
  ∃ sent, Mop.send k sent ∈ op.sendingMops ∧ sent.toPair.2 = v

/-- The operation polls key `k`, though perhaps without reading anything. -/
def Polls (op : KafkaOp K V) (k : K) : Prop :=
  ∃ reads, Mop.poll (some reads) ∈ op.pollingMops ∧ k ∈ reads

/-- The values the operation reads from key `k`, in order. -/
def readsOf (op : KafkaOp K V) (k : K) : List V :=
  op.pollingMops.flatMap fun mop =>
    match mop with
    | .poll (some reads) => ((reads.lookup k).getD []).map Prod.snd
    | _ => []

end KafkaOp

/-- What one micro-operation appends to the writes. -/
def Mop.sentEntries : Mop K V → List (Σ _ : K, List V)
  | .send k v => [⟨k, [v.toPair.2]⟩]
  | .poll _ => []

/-- What one micro-operation appends to the reads. -/
def Mop.polledEntries : Mop K V → List (Σ _ : K, List V)
  | .poll (some reads) => reads.entries.map fun e => ⟨e.1, e.2.map Prod.snd⟩
  | _ => []

theorem foldl_writesOfMop (m : Assoc K (List V)) (value : List (Mop K V)) :
    value.foldl (writesOfMop Prod.snd) m = m.extendAll (value.flatMap Mop.sentEntries) := by
  induction value generalizing m with
  | nil => rfl
  | cons mop value ih =>
    rw [List.foldl_cons, ih]
    cases mop with
    | send k v => rfl
    | poll reads => rfl

theorem opWrites_eq_extendAll (op : KafkaOp K V) :
    opWrites op = (∅ : Assoc K (List V)).extendAll (op.sendingMops.flatMap Mop.sentEntries) := by
  unfold opWrites opWritesHelper KafkaOp.sendingMops
  split
  · exact foldl_writesOfMop ∅ _
  · exact foldl_writesOfMop ∅ _
  · rfl

theorem foldl_readsOfMop (m : Assoc K (List V)) (value : List (Mop K V)) :
    value.foldl (readsOfMop Prod.snd) m = m.extendAll (value.flatMap Mop.polledEntries) := by
  induction value generalizing m with
  | nil => rfl
  | cons mop value ih =>
    rw [List.foldl_cons, ih, List.flatMap_cons, Assoc.extendAll, Assoc.extendAll,
      List.foldl_append]
    cases mop with
    | send k v => rfl
    | poll reads =>
      cases reads with
      | none => rfl
      | some reads => rw [Mop.polledEntries, List.foldl_map, readsOfMop]

theorem opReads_eq_extendAll (op : KafkaOp K V) :
    opReads op =
      (∅ : Assoc K (List V)).extendAll (op.pollingMops.flatMap Mop.polledEntries) := by
  unfold opReads opReadsHelper KafkaOp.pollingMops
  split
  · exact foldl_readsOfMop ∅ _
  · exact foldl_readsOfMop ∅ _
  · rfl

/-- The values stored for a key, none where the key is missing. -/
def listAt (m : Assoc K (List V)) (k : K) : List V := (m.lookup k).getD []

theorem listAt_extendAll_empty (l : List (Σ _ : K, List V)) (k : K) :
    listAt ((∅ : Assoc K (List V)).extendAll l) k = Assoc.appended l k := by
  rw [listAt, Assoc.lookup_extendAll]
  by_cases hmem : k ∈ l.map Sigma.fst
  · rw [if_pos hmem]
    rfl
  · rw [if_neg hmem, Assoc.appended_of_notMem hmem]
    rfl

theorem mem_extendAll_empty {l : List (Σ _ : K, List V)} {k : K} :
    k ∈ (∅ : Assoc K (List V)).extendAll l ↔ k ∈ l.map Sigma.fst := by
  rw [← AList.lookup_isSome, Assoc.lookup_extendAll]
  by_cases hmem : k ∈ l.map Sigma.fst
  · simp [hmem]
  · simp [hmem]

theorem mem_listAt_opWrites {op : KafkaOp K V} {k : K} {v : V} :
    v ∈ listAt (opWrites op) k ↔ op.Sends k v := by
  rw [opWrites_eq_extendAll, listAt_extendAll_empty, Assoc.mem_appended]
  unfold KafkaOp.Sends
  constructor
  · rintro ⟨e, he, hk, hv⟩
    obtain ⟨mop, hmop, hentry⟩ := List.mem_flatMap.mp he
    cases mop with
    | poll reads => cases hentry
    | send k' sent =>
      rw [Mop.sentEntries, List.mem_singleton] at hentry
      subst hentry
      cases hk
      exact ⟨sent, hmop, (List.mem_singleton.mp hv).symm⟩
  · rintro ⟨sent, hmop, hv⟩
    refine ⟨⟨k, [sent.toPair.2]⟩, ?_, rfl, ?_⟩
    · exact List.mem_flatMap.mpr ⟨_, hmop, List.mem_singleton_self _⟩
    · rw [hv]
      exact List.mem_singleton_self v

theorem appended_polledEntries (mop : Mop K V) (k : K) :
    Assoc.appended mop.polledEntries k =
      match mop with
      | .poll (some reads) => ((reads.lookup k).getD []).map Prod.snd
      | _ => [] := by
  cases mop with
  | send k' v => rfl
  | poll reads =>
    cases reads with
    | none => rfl
    | some reads =>
      have hentries : ∀ l : List (Σ _ : K, List (Option ℕ × V)), l.NodupKeys →
          Assoc.appended (l.map fun e => (⟨e.1, e.2.map Prod.snd⟩ : Σ _ : K, List V)) k =
            ((l.dlookup k).getD []).map Prod.snd := by
        intro l hl
        induction l with
        | nil => rfl
        | cons e l ih =>
          obtain ⟨k', pairs⟩ := e
          obtain ⟨hnot, htail⟩ := List.nodupKeys_cons.mp hl
          have hsplit : Assoc.appended ((⟨k', pairs⟩ :: l : List (Σ _ : K, _)).map
                fun e => (⟨e.1, e.2.map Prod.snd⟩ : Σ _ : K, List V)) k =
              (if k' = k then pairs.map Prod.snd else []) ++
                Assoc.appended (l.map fun e => (⟨e.1, e.2.map Prod.snd⟩ : Σ _ : K, List V)) k :=
            rfl
          rw [hsplit, ih htail]
          by_cases heq : k = k'
          · subst heq
            have hnone : l.dlookup k = none := List.dlookup_eq_none.mpr hnot
            rw [if_pos rfl, hnone, List.dlookup_cons_eq]
            exact List.append_nil _
          · rw [if_neg (Ne.symm heq), List.dlookup_cons_ne _ _ heq]
            rfl
      exact hentries reads.entries reads.nodupKeys

theorem listAt_opReads (op : KafkaOp K V) (k : K) : listAt (opReads op) k = op.readsOf k := by
  rw [opReads_eq_extendAll, listAt_extendAll_empty, Assoc.appended, List.flatMap_assoc]
  apply List.flatMap_congr
  intro mop _
  exact appended_polledEntries mop k

theorem mem_opReads {op : KafkaOp K V} {k : K} : k ∈ opReads op ↔ op.Polls k := by
  rw [opReads_eq_extendAll, mem_extendAll_empty, List.mem_map]
  unfold KafkaOp.Polls
  constructor
  · rintro ⟨e, he, hk⟩
    obtain ⟨mop, hmop, hentry⟩ := List.mem_flatMap.mp he
    cases mop with
    | send k' sent => cases hentry
    | poll reads =>
      cases reads with
      | none => cases hentry
      | some reads =>
        obtain ⟨e', he', rfl⟩ := List.mem_map.mp hentry
        refine ⟨reads, hmop, ?_⟩
        rw [← hk]
        exact AList.mem_keys.mpr (List.mem_map_of_mem he')
  · rintro ⟨reads, hmop, hk⟩
    obtain ⟨e, he, hfst⟩ := List.mem_map.mp (AList.mem_keys.mp hk)
    refine ⟨⟨e.1, e.2.map Prod.snd⟩, ?_, hfst⟩
    exact List.mem_flatMap.mpr ⟨_, hmop, List.mem_map_of_mem he⟩

theorem lookup_opReads (op : KafkaOp K V) (k : K) :
    (opReads op).lookup k = if k ∈ opReads op then some (op.readsOf k) else none := by
  by_cases hmem : k ∈ opReads op
  · rw [if_pos hmem, ← listAt_opReads, listAt]
    obtain ⟨vs, hvs⟩ := Option.isSome_iff_exists.mp (AList.lookup_isSome.mpr hmem)
    rw [hvs]
    rfl
  · rw [if_neg hmem]
    exact AList.lookup_eq_none.mpr hmem

/-- `(filter (comp #{:txn :poll} :f))` -/
def KafkaOp.readable (op : KafkaOp K V) : Bool :=
  match op.call with
  | .mops .txn _ => true
  | .mops .poll _ => true
  | _ => false

omit [DecidableEq K] in
theorem readable_of_polls {op : KafkaOp K V} {k : K} (hpolls : op.Polls k) :
    op.readable = true := by
  obtain ⟨reads, hmop, -⟩ := hpolls
  unfold KafkaOp.pollingMops at hmop
  unfold KafkaOp.readable
  split at hmop
  · rfl
  · rfl
  · cases hmop

theorem polls_of_mem_readsOf {op : KafkaOp K V} {k : K} {v : V} (hv : v ∈ op.readsOf k) :
    op.Polls k := by
  obtain ⟨mop, hmop, hread⟩ := List.mem_flatMap.mp hv
  cases mop with
  | send k' sent => cases hread
  | poll reads =>
    cases reads with
    | none => cases hread
    | some reads =>
      refine ⟨reads, hmop, ?_⟩
      rw [← AList.lookup_isSome]
      cases hlookup : reads.lookup k with
      | some pairs => rfl
      | none =>
        simp only [hlookup] at hread
        cases hread

end Jepsen.Tests.Kafka
