/-
# Unseen messages

After every ok operation, `unseen` counts for each key the values that have been
acknowledged and not read yet. The loop carries on with what is unseen in place
of all that was sent. A merge of two maps keeps the keys that only one of them
has, so a key that is read before anything was sent to it shows up as unseen.
-/

import Jepsen.Tests.Kafka.ByType

namespace Jepsen.Tests.Kafka

open Jepsen.Library

universe u v

variable {K : Type u} {V : Type v} [DecidableEq K] [DecidableEq V]

/-! ## The loop -/

/-- One observation of `unseen`. -/
structure UnseenEntry (K : Type u) (V : Type v) where
  time : ℤ
  unseen : Assoc K ℕ
  /-- Only the last observation has `:messages`. -/
  messages : Option (Assoc K (Finset V)) := none

/-- What the loop carries: the observations, what was sent and what was polled. -/
structure UnseenState (K : Type u) (V : Type v) where
  out : List (UnseenEntry K V)
  sent : Assoc K (Finset V)
  polled : Assoc K (Finset V)

/-- `(-> m bm/from (bm/map-values ->set))` -/
def valueSets (m : Assoc K (List V)) : Assoc K (Finset V) :=
  Assoc.mapVals (fun _ vs => vs.toFinset) m

/-- One turn of the loop. -/
def unseenStep (state : UnseenState K V) (op : KafkaOp K V) : UnseenState K V :=
  let sent' := Assoc.mergeUnion state.sent (valueSets (opWrites op))
  let polled' := Assoc.mergeUnion state.polled (valueSets (opReads op))
  -- What haven't we seen?
  let unseen := Assoc.mergeWith (· \ ·) sent' polled'
  { out := state.out ++ [{ time := op.time, unseen := Assoc.mapVals (fun _ vs => vs.card) unseen }]
    sent := unseen
    polled := polled' }

/-- The state of the loop after some operations. -/
def unseenState (ops : List (KafkaOp K V)) : UnseenState K V := ops.foldl unseenStep ⟨[], ∅, ∅⟩

/-- `(h/has-f? #{:poll :send :txn})` -/
def KafkaOp.isTxn (op : KafkaOp K V) : Bool :=
  match op.call with
  | .mops _ _ => true
  | _ => false

/-- The ok operations `unseen` goes through. -/
def okTxns (history : List (KafkaOp K V)) : List (KafkaOp K V) :=
  (history.filter fun op => decide (op.type = .ok)).filter KafkaOp.isTxn

/-- `unseen` -/
def unseen (history : List (KafkaOp K V)) : Option (List (UnseenEntry K V)) :=
  let state := unseenState (okTxns history)
  (seq state.out).map fun out =>
    out.modify (out.length - 1) fun e => { e with messages := some state.sent }

/-! ## What was acknowledged, and what was read -/

/-- The values acknowledged by the sends of some ok operations. -/
def acknowledged (ops : List (KafkaOp K V)) (k : K) : Finset V :=
  (ops.flatMap fun op => listAt (opWrites op) k).toFinset

/-- The values returned by the polls of some ok operations. -/
def returned (ops : List (KafkaOp K V)) (k : K) : Finset V :=
  (ops.flatMap fun op => op.readsOf k).toFinset

theorem mem_acknowledged {ops : List (KafkaOp K V)} {k : K} {v : V} :
    v ∈ acknowledged ops k ↔ ∃ op ∈ ops, op.Sends k v := by
  simp only [acknowledged, List.mem_toFinset, List.mem_flatMap, mem_listAt_opWrites]

theorem mem_returned {ops : List (KafkaOp K V)} {k : K} {v : V} :
    v ∈ returned ops k ↔ ∃ op ∈ ops, v ∈ op.readsOf k := by
  simp only [returned, List.mem_toFinset, List.mem_flatMap]

theorem acknowledged_snoc (ops : List (KafkaOp K V)) (op : KafkaOp K V) (k : K) :
    acknowledged (ops ++ [op]) k = acknowledged ops k ∪ (listAt (opWrites op) k).toFinset := by
  rw [acknowledged, List.flatMap_append, List.toFinset_append, List.flatMap_singleton]
  rfl

theorem returned_snoc (ops : List (KafkaOp K V)) (op : KafkaOp K V) (k : K) :
    returned (ops ++ [op]) k = returned ops k ∪ (op.readsOf k).toFinset := by
  rw [returned, List.flatMap_append, List.toFinset_append, List.flatMap_singleton]
  rfl

/-- The operation sends something to key `k`. -/
def KafkaOp.SendsTo (op : KafkaOp K V) (k : K) : Prop := ∃ v, op.Sends k v

/-- The operation sends to key `k` or polls it. -/
def KafkaOp.Mentions (op : KafkaOp K V) (k : K) : Prop := op.SendsTo k ∨ op.Polls k

/-- No operation reads a key that neither it nor an operation before sent to, or
polled. -/
def NoBlindRead (ops : List (KafkaOp K V)) : Prop :=
  ∀ pre op post, ops = pre ++ op :: post → ∀ k v, v ∈ op.readsOf k →
    op.SendsTo k ∨ ∃ earlier ∈ pre, earlier.Mentions k

/-- The observations, one after each ok operation, count the values acknowledged so
far and not returned yet, and `:messages` are those values at the end. -/
def UnseenExact (history : List (KafkaOp K V)) : Prop :=
  let entries := (unseen history).getD []
  entries.length = (okTxns history).length ∧
    (∀ pre op post, okTxns history = pre ++ op :: post →
      ∃ e, entries[pre.length]? = some e ∧ e.time = op.time ∧
        ∀ k, (e.unseen.lookup k).getD 0 =
          (acknowledged (pre ++ [op]) k \ returned (pre ++ [op]) k).card) ∧
    ∀ e, entries.getLast? = some e → ∃ messages, e.messages = some messages ∧
      ∀ k, messages.valuesAt k =
        acknowledged (okTxns history) k \ returned (okTxns history) k

/-! ## One turn -/

theorem unseenState_snoc (ops : List (KafkaOp K V)) (op : KafkaOp K V) :
    unseenState (ops ++ [op]) = unseenStep (unseenState ops) op := by
  rw [unseenState, List.foldl_append]
  rfl

theorem valuesAt_valueSets (m : Assoc K (List V)) (k : K) :
    (valueSets m).valuesAt k = (listAt m k).toFinset := valuesAt_mapVals_toFinset m k

theorem mem_valueSets_opWrites {op : KafkaOp K V} {k : K} :
    k ∈ valueSets (opWrites op) ↔ op.SendsTo k := by
  rw [valueSets, Assoc.mem_mapVals, opWrites_eq_extendAll, mem_extendAll_empty, List.mem_map]
  unfold KafkaOp.SendsTo KafkaOp.Sends
  constructor
  · rintro ⟨e, he, hk⟩
    obtain ⟨mop, hmop, hentry⟩ := List.mem_flatMap.mp he
    cases mop with
    | poll reads => cases hentry
    | send k' sent =>
      rw [Mop.sentEntries, List.mem_singleton] at hentry
      subst hentry
      cases hk
      exact ⟨_, sent, hmop, rfl⟩
  · rintro ⟨v, sent, hmop, hv⟩
    exact ⟨⟨k, [sent.toPair.2]⟩, List.mem_flatMap.mpr ⟨_, hmop, List.mem_singleton_self _⟩, rfl⟩

theorem mem_valueSets_opReads {op : KafkaOp K V} {k : K} :
    k ∈ valueSets (opReads op) ↔ op.Polls k := by
  rw [valueSets, Assoc.mem_mapVals, mem_opReads]

/-- A key that only the second map has keeps its values in the difference. -/
theorem valuesAt_difference (m₁ m₂ : Assoc K (Finset V)) (k : K) [Decidable (k ∈ m₁)] :
    Assoc.valuesAt (Assoc.mergeWith (· \ ·) m₁ m₂) k =
      if k ∈ m₁ then m₁.valuesAt k \ m₂.valuesAt k else m₂.valuesAt k := by
  rw [Assoc.valuesAt, Assoc.lookup_mergeWith]
  split
  · rename_i hmem
    rw [Assoc.lookup_eq_valuesAt hmem]
    cases hm₂ : m₂.lookup k with
    | none => simp [Assoc.valuesAt, hm₂]
    | some vs => simp [Assoc.valuesAt, hm₂]
  · rename_i hmem
    rw [AList.lookup_eq_none.mpr hmem]
    rfl

theorem valuesAt_polled (ops : List (KafkaOp K V)) (k : K) :
    (unseenState ops).polled.valuesAt k = returned ops k := by
  induction ops using List.reverseRecOn with
  | nil => rfl
  | append_singleton ops op ih =>
    rw [unseenState_snoc, returned_snoc, ← ih, ← listAt_opReads, ← valuesAt_valueSets]
    exact Assoc.valuesAt_mergeUnion _ _ k

theorem mem_polled {ops : List (KafkaOp K V)} {k : K} :
    k ∈ (unseenState ops).polled ↔ ∃ op ∈ ops, op.Polls k := by
  induction ops using List.reverseRecOn with
  | nil => simp [unseenState]
  | append_singleton ops op ih =>
    have hstep : k ∈ (unseenState (ops ++ [op])).polled ↔
        k ∈ (unseenState ops).polled ∨ k ∈ valueSets (opReads op) := by
      rw [unseenState_snoc]
      exact Assoc.mem_mergeWith
    rw [hstep, ih, mem_valueSets_opReads]
    simp only [List.mem_append, List.mem_singleton, or_and_right, exists_or, exists_eq_left]

/-- What is carried on as sent has every key that was mentioned. -/
theorem mem_sent {ops : List (KafkaOp K V)} {k : K} :
    k ∈ (unseenState ops).sent ↔ ∃ op ∈ ops, op.Mentions k := by
  induction ops using List.reverseRecOn with
  | nil => simp [unseenState]
  | append_singleton ops op ih =>
    have hstep : k ∈ (unseenState (ops ++ [op])).sent ↔
        (k ∈ (unseenState ops).sent ∨ k ∈ valueSets (opWrites op)) ∨
          k ∈ (unseenState ops).polled ∨ k ∈ valueSets (opReads op) := by
      rw [unseenState_snoc]
      exact Assoc.mem_mergeWith.trans (or_congr Assoc.mem_mergeWith Assoc.mem_mergeWith)
    rw [hstep, ih, mem_polled, mem_valueSets_opWrites, mem_valueSets_opReads]
    simp only [List.mem_append, List.mem_singleton, or_and_right, exists_or, exists_eq_left]
    constructor
    · intro h
      rcases h with (hsent | hsends) | (hpolled | hpolls)
      · exact Or.inl hsent
      · exact Or.inr (Or.inl hsends)
      · obtain ⟨earlier, hmem, hpolls⟩ := hpolled
        exact Or.inl ⟨earlier, hmem, Or.inr hpolls⟩
      · exact Or.inr (Or.inr hpolls)
    · intro h
      rcases h with hsent | hsends | hpolls
      · exact Or.inl (Or.inl hsent)
      · exact Or.inl (Or.inr hsends)
      · exact Or.inr (Or.inr hpolls)

/-- The values that are unseen after one more operation. -/
theorem valuesAt_sent_snoc (ops : List (KafkaOp K V)) (op : KafkaOp K V) (k : K) :
    ((op.SendsTo k ∨ ∃ earlier ∈ ops, earlier.Mentions k) →
      (unseenState (ops ++ [op])).sent.valuesAt k =
        ((unseenState ops).sent.valuesAt k ∪ (listAt (opWrites op) k).toFinset) \
          returned (ops ++ [op]) k) ∧
    (¬ (op.SendsTo k ∨ ∃ earlier ∈ ops, earlier.Mentions k) →
      (unseenState (ops ++ [op])).sent.valuesAt k = returned (ops ++ [op]) k) := by
  classical
  have hpolled := valuesAt_polled (ops ++ [op]) k
  rw [unseenState_snoc] at hpolled ⊢
  have hmem : k ∈ Assoc.mergeUnion (unseenState ops).sent (valueSets (opWrites op)) ↔
      op.SendsTo k ∨ ∃ earlier ∈ ops, earlier.Mentions k := by
    rw [Assoc.mergeUnion, Assoc.mem_mergeWith, mem_sent, mem_valueSets_opWrites, or_comm]
  have hstep : (unseenStep (unseenState ops) op).sent.valuesAt k = _ :=
    valuesAt_difference (Assoc.mergeUnion (unseenState ops).sent (valueSets (opWrites op)))
      (unseenStep (unseenState ops) op).polled k
  constructor
  · intro hmentioned
    rw [hstep, if_pos (hmem.mpr hmentioned), hpolled, Assoc.valuesAt_mergeUnion,
      valuesAt_valueSets]
  · intro hnot
    rw [hstep, if_neg (mt hmem.mp hnot), hpolled]

/-! ## The whole loop -/

omit [DecidableEq V] in
theorem noBlindRead_of_append {ops later : List (KafkaOp K V)}
    (hseen : NoBlindRead (ops ++ later)) : NoBlindRead ops := by
  intro pre op post heq
  apply hseen pre op (post ++ later)
  rw [heq, List.append_assoc]
  rfl

theorem returned_eq_empty {ops : List (KafkaOp K V)} {k : K}
    (hnone : ¬ ∃ op ∈ ops, op.Mentions k) : returned ops k = ∅ := by
  apply Finset.eq_empty_of_forall_notMem
  intro v hv
  obtain ⟨op, hop, hread⟩ := mem_returned.mp hv
  exact hnone ⟨op, hop, Or.inr (polls_of_mem_readsOf hread)⟩

theorem acknowledged_eq_empty {ops : List (KafkaOp K V)} {k : K}
    (hnone : ¬ ∃ op ∈ ops, op.Mentions k) : acknowledged ops k = ∅ := by
  apply Finset.eq_empty_of_forall_notMem
  intro v hv
  obtain ⟨op, hop, hsends⟩ := mem_acknowledged.mp hv
  exact hnone ⟨op, hop, Or.inl ⟨v, hsends⟩⟩

/-- Pruning what was seen changes nothing: as long as no read is blind, what the loop
carries is what was acknowledged and not returned. -/
theorem valuesAt_sent {ops : List (KafkaOp K V)} (hseen : NoBlindRead ops) (k : K) :
    (unseenState ops).sent.valuesAt k = acknowledged ops k \ returned ops k := by
  induction ops using List.reverseRecOn with
  | nil => rfl
  | append_singleton ops op ih =>
    have hih := ih (noBlindRead_of_append hseen)
    obtain ⟨hmentioned, hnot⟩ := valuesAt_sent_snoc ops op k
    by_cases hcase : op.SendsTo k ∨ ∃ earlier ∈ ops, earlier.Mentions k
    · rw [hmentioned hcase, hih, acknowledged_snoc, returned_snoc]
      ext v
      simp only [Finset.mem_sdiff, Finset.mem_union]
      tauto
    · have hreads : op.readsOf k = [] := by
        apply List.eq_nil_iff_forall_not_mem.mpr
        intro v hv
        exact hcase (hseen ops op [] rfl k v hv)
      obtain ⟨hsends, hops⟩ := not_or.mp hcase
      have hwrites : (listAt (opWrites op) k).toFinset = ∅ := by
        apply Finset.eq_empty_of_forall_notMem
        intro v hv
        exact hsends ⟨v, mem_listAt_opWrites.mp (List.mem_toFinset.mp hv)⟩
      rw [hnot hcase, acknowledged_snoc, returned_snoc, hreads, hwrites,
        acknowledged_eq_empty hops, returned_eq_empty hops]
      rfl

theorem length_out (ops : List (KafkaOp K V)) : (unseenState ops).out.length = ops.length := by
  induction ops using List.reverseRecOn with
  | nil => rfl
  | append_singleton ops op ih =>
    rw [unseenState_snoc, unseenStep, List.length_append, ih, List.length_append]
    rfl

/-- The observation after an operation depends on the operations up to it. -/
theorem getElem?_out (pre : List (KafkaOp K V)) (op : KafkaOp K V) (post : List (KafkaOp K V)) :
    (unseenState (pre ++ op :: post)).out[pre.length]? =
      some ⟨op.time,
        Assoc.mapVals (fun _ vs => vs.card) (unseenState (pre ++ [op])).sent, none⟩ := by
  induction post using List.reverseRecOn with
  | nil =>
    rw [unseenState_snoc]
    change (_ ++ [_])[_]? = _
    rw [← length_out pre, List.getElem?_concat_length]
    rfl
  | append_singleton post last ih =>
    have hassoc : pre ++ op :: (post ++ [last]) = (pre ++ op :: post) ++ [last] := by simp
    have hlt : pre.length < (unseenState (pre ++ op :: post)).out.length := by
      rw [length_out]
      simp
    rw [hassoc, unseenState_snoc, ← ih]
    exact List.getElem?_append_left hlt

theorem getD_unseen (history : List (KafkaOp K V)) :
    (unseen history).getD [] =
      (unseenState (okTxns history)).out.modify ((okTxns history).length - 1)
        fun e => { e with messages := some (unseenState (okTxns history)).sent } := by
  rw [unseen, ← length_out]
  cases (unseenState (okTxns history)).out with
  | nil => rfl
  | cons e out => rfl

theorem getElem?_unseen {history pre post : List (KafkaOp K V)} {op : KafkaOp K V}
    (heq : okTxns history = pre ++ op :: post) :
    ∃ e, ((unseen history).getD [])[pre.length]? = some e ∧ e.time = op.time ∧
      ∀ k, (e.unseen.lookup k).getD 0 =
        ((unseenState (pre ++ [op])).sent.valuesAt k).card := by
  have hcount : ∀ k, ((Assoc.mapVals (fun _ vs => vs.card)
      (unseenState (pre ++ [op])).sent).lookup k).getD 0 =
        ((unseenState (pre ++ [op])).sent.valuesAt k).card := by
    intro k
    rw [Assoc.lookup_mapVals, Assoc.valuesAt]
    cases (unseenState (pre ++ [op])).sent.lookup k <;> rfl
  have hout := getElem?_out pre op post
  rw [← heq] at hout
  rw [getD_unseen, List.getElem?_modify, hout]
  refine ⟨_, rfl, ?_, ?_⟩
  · split <;> rfl
  · intro k
    rw [← hcount k]
    split <;> rfl

/-- The observations are right exactly if no ok operation reads a key blindly. -/
theorem unseen_exact_iff (history : List (KafkaOp K V)) :
    UnseenExact history ↔ NoBlindRead (okTxns history) := by
  constructor
  · rintro ⟨-, hentries, -⟩ pre op post heq k v hread
    by_contra hblind
    obtain ⟨e, he, -, hcount⟩ := hentries pre op post heq
    obtain ⟨e', he', -, hcount'⟩ := getElem?_unseen heq
    rw [he] at he'
    cases he'
    have hkept := (valuesAt_sent_snoc pre op k).2 hblind
    have hnone : ¬ ∃ op' ∈ pre ++ [op], op'.SendsTo k := by
      rintro ⟨op', hmem, hsends⟩
      cases List.mem_append.mp hmem with
      | inl hpre => exact hblind (Or.inr ⟨op', hpre, Or.inl hsends⟩)
      | inr hlast =>
        rw [List.mem_singleton.mp hlast] at hsends
        exact hblind (Or.inl hsends)
    have hacknowledged : acknowledged (pre ++ [op]) k = ∅ := by
      apply Finset.eq_empty_of_forall_notMem
      intro v' hv'
      obtain ⟨op', hmem, hsends⟩ := mem_acknowledged.mp hv'
      exact hnone ⟨op', hmem, v', hsends⟩
    have hreturned : v ∈ returned (pre ++ [op]) k :=
      mem_returned.mpr ⟨op, List.mem_append_right _ (List.mem_singleton_self op), hread⟩
    have hzero := (hcount k).symm.trans (hcount' k)
    rw [hkept, hacknowledged, Finset.empty_sdiff, Finset.card_empty] at hzero
    exact absurd (Finset.card_eq_zero.mp hzero.symm) (Finset.ne_empty_of_mem hreturned)
  · intro hseen
    refine ⟨?_, ?_, ?_⟩
    · rw [getD_unseen, List.length_modify, length_out]
    · intro pre op post heq
      obtain ⟨e, he, htime, hcount⟩ := getElem?_unseen heq
      have hall : NoBlindRead ((pre ++ [op]) ++ post) := by
        rw [List.append_assoc]
        exact heq ▸ hseen
      have hpre := noBlindRead_of_append hall
      refine ⟨e, he, htime, ?_⟩
      intro k
      rw [hcount, valuesAt_sent hpre]
    · intro e hlast
      rw [List.getLast?_eq_getElem?, getD_unseen, List.length_modify, length_out,
        List.getElem?_modify] at hlast
      simp only [if_true] at hlast
      obtain ⟨e', -, rfl⟩ := Option.map_eq_some_iff.mp hlast
      exact ⟨_, rfl, valuesAt_sent hseen⟩

/-- A poll of a key nobody is known to have sent to. -/
def blindPoll : List (KafkaOp ℕ ℕ) :=
  [⟨0, 0, .int 0, .ok, .mops .poll [.poll (some (AList.singleton 0 [(some 0, 10)]))]⟩]

/-- The value that was read is the one that is reported as unseen. -/
theorem blindPoll_unseen :
    ¬ UnseenExact blindPoll ∧
      ∃ e, unseen blindPoll = some [e] ∧ e.unseen.lookup 0 = some 1 ∧
        ∃ messages, e.messages = some messages ∧ messages.lookup 0 = some {10} := by
  refine ⟨?_, _, rfl, rfl, _, rfl, rfl⟩
  rintro ⟨-, hentries, -⟩
  obtain ⟨e, he, -, hcount⟩ := hentries [] _ [] rfl
  cases he
  cases hcount 0

end Jepsen.Tests.Kafka
