/-
# Skipped and repeated polls

One process polls each key in order: what it reads first should follow, in the
version order, on what it read last. The checker remembers for every key the last
ok operation that polled it, and drops keys a new assignment leaves out. An
operation that polled a key in vain is remembered too, and then nothing is
compared.
-/

import Jepsen.Tests.Kafka.VersionOrders

namespace Jepsen.Tests.Kafka

open Jepsen.Library

universe u v

variable {K : Type u} {V : Type v} [DecidableEq K] [DecidableEq V]

/-! ## The loop over one process -/

inductive PollErrorType
  | skip | nonmonotonic
  deriving DecidableEq

/-- An error between two polls of one process. -/
structure PollError (K : Type u) (V : Type v) where
  type : PollErrorType
  key : K
  delta : ℤ
  /-- The `:skipped` values, for `:skip`. -/
  skipped : List V
  /-- The `:values`, for `:nonmonotonic`. -/
  values : List V
  ops : KafkaOp K V × KafkaOp K V
  deriving DecidableEq

/-- `(map voi (range i i'))`; the invariant of a version order keeps the range within
the vector. -/
def VersionOrder.valuesBetween (vo : VersionOrder V) (i i' : ℕ) : List V :=
  (List.range' i (i' - i)).filterMap fun n => vo.byIndex[n]?

/-- The errors of one key: the last operation that read it, and now this one. -/
def pollErrors (versionOrders : Assoc K (VersionOrder V)) (k : K) (lastOp op : KafkaOp K V)
    (reads : List V) : List (PollError K V) :=
  match versionOrders.lookup k, ((opReads lastOp).lookup k).bind List.getLast?, reads.head? with
  | some vo, some v, some v' =>
      match vo.byValue.lookup v, vo.byValue.lookup v' with
      | some i, some i' =>
          let delta : ℤ := i' - i
          (if 1 < delta then
            -- We can show that this op skipped an index!
            [{ type := .skip, key := k, delta := delta, skipped := vo.valuesBetween (i + 1) i',
               values := [], ops := (lastOp, op) }]
          else []) ++
          (if delta < 1 then
            -- Aha, this wasn't monotonic!
            [{ type := .nonmonotonic, key := k, delta := delta, skipped := [], values := [v, v'],
               ops := (lastOp, op) }]
          else [])
      -- One of the indexes is unknown, and delta is taken to be 1
      | _, _ => []
  | _, _, _ => []

/-- The errors that one operation adds. -/
def turnErrors (versionOrders : Assoc K (VersionOrder V))
    (lastReads : Assoc K (KafkaOp K V)) (op : KafkaOp K V) : List (PollError K V) :=
  (opReads op).entries.flatMap fun e =>
    match lastReads.lookup e.1 with
    | none => []
    | some lastOp => pollErrors versionOrders e.1 lastOp op e.2

/-- `(if (#{:invoke :fail} (:type op)) last-reads (select-keys last-reads (:value op)))` -/
def keepAssigned (lastReads : Assoc K (KafkaOp K V)) (op : KafkaOp K V) (ks : List K) :
    Assoc K (KafkaOp K V) :=
  match op.type with
  | .invoke | .fail => lastReads
  | .ok | .info => lastReads.selectKeys ks

/-- One operation of the process. -/
def pollStep (versionOrders : Assoc K (VersionOrder V))
    (state : List (PollError K V) × Assoc K (KafkaOp K V)) (op : KafkaOp K V) :
    List (PollError K V) × Assoc K (KafkaOp K V) :=
  match op.call with
  | .assign ks => (state.1, keepAssigned state.2 op ks)
  | .subscribe ks => (state.1, keepAssigned state.2 op ks)
  | .mops .txn _ | .mops .poll _ =>
      (state.1 ++ turnErrors versionOrders state.2 op,
        match op.type with
        | .ok => Assoc.insertAll (opReads op).keys op state.2
        | .invoke | .fail | .info => state.2)
  | .mops .send _ => state
  | .other _ => state

/-- The state of the loop after some operations. -/
def pollState (versionOrders : Assoc K (VersionOrder V)) (ops : List (KafkaOp K V)) :
    List (PollError K V) × Assoc K (KafkaOp K V) :=
  ops.foldl (pollStep versionOrders) ([], ∅)

/-- `poll-skip+nonmonotonic-cases-per-process` -/
def pollSkipNonmonotonicCases (versionOrders : Assoc K (VersionOrder V))
    (ops : List (KafkaOp K V)) : List (PollError K V) :=
  (pollState versionOrders ops).1

/-! ## Turns -/

variable {versionOrders : Assoc K (VersionOrder V)}

theorem pollState_snoc (ops : List (KafkaOp K V)) (op : KafkaOp K V) :
    pollState versionOrders (ops ++ [op]) =
      pollStep versionOrders (pollState versionOrders ops) op := by
  rw [pollState, List.foldl_append]
  rfl

/-- What an operation adds; one that reads nothing adds nothing. -/
theorem pollStep_errors (state : List (PollError K V) × Assoc K (KafkaOp K V))
    (op : KafkaOp K V) :
    (pollStep versionOrders state op).1 =
      state.1 ++ turnErrors versionOrders state.2 op := by
  have hnone : op.pollingMops = [] → turnErrors versionOrders state.2 op = [] := by
    intro hnil
    rw [turnErrors, opReads_eq_extendAll, hnil]
    rfl
  unfold pollStep
  cases hcall : op.call with
  | assign ks => rw [hnone (by rw [KafkaOp.pollingMops, hcall]), List.append_nil]
  | subscribe ks => rw [hnone (by rw [KafkaOp.pollingMops, hcall]), List.append_nil]
  | other f => rw [hnone (by rw [KafkaOp.pollingMops, hcall]), List.append_nil]
  | mops f value =>
    cases f with
    | txn => rfl
    | poll => rfl
    | send => rw [hnone (by rw [KafkaOp.pollingMops, hcall]), List.append_nil]

theorem pollErrors_spec {k : K} {lastOp op : KafkaOp K V} {reads : List V} {e : PollError K V}
    (he : e ∈ pollErrors versionOrders k lastOp op reads) : e.key = k ∧ e.ops = (lastOp, op) := by
  unfold pollErrors at he
  split at he
  · split at he
    · rcases List.mem_append.mp he with hskip | hnonmonotonic
      · split at hskip
        · cases List.mem_singleton.mp hskip
          exact ⟨rfl, rfl⟩
        · cases hskip
      · split at hnonmonotonic
        · cases List.mem_singleton.mp hnonmonotonic
          exact ⟨rfl, rfl⟩
        · cases hnonmonotonic
    · cases he
  · cases he

theorem turnErrors_op {lastReads : Assoc K (KafkaOp K V)} {op : KafkaOp K V} {e : PollError K V}
    (he : e ∈ turnErrors versionOrders lastReads op) : e.ops.2 = op := by
  obtain ⟨entry, -, he⟩ := List.mem_flatMap.mp he
  split at he
  · cases he
  · rw [(pollErrors_spec he).2]

/-- The errors of one key that an operation adds. -/
theorem filter_turnErrors (lastReads : Assoc K (KafkaOp K V)) {op : KafkaOp K V} {k : K}
    (hpolls : op.Polls k) :
    (turnErrors versionOrders lastReads op).filter (fun e => decide (e.key = k)) =
      match lastReads.lookup k with
      | none => []
      | some lastOp => pollErrors versionOrders k lastOp op (op.readsOf k) := by
  have hlookup : (opReads op).lookup k = some (op.readsOf k) := by
    rw [lookup_opReads, if_pos (mem_opReads.mpr hpolls)]
  apply Assoc.filter_flatMap_entries hlookup
    (fun k reads =>
      match lastReads.lookup k with
      | none => []
      | some lastOp => pollErrors versionOrders k lastOp op reads)
  intro k' reads e he
  split at he
  · cases he
  · exact (pollErrors_spec he).1

/-- Every error is one that the turn of its second operation added. -/
theorem pollErrors_op {ops : List (KafkaOp K V)} {e : PollError K V}
    (he : e ∈ (pollState versionOrders ops).1) : e.ops.2 ∈ ops := by
  induction ops using List.reverseRecOn with
  | nil => cases he
  | append_singleton ops op ih =>
    rw [pollState_snoc, pollStep_errors] at he
    cases List.mem_append.mp he with
    | inl hbefore => exact List.mem_append_left _ (ih hbefore)
    | inr hturn =>
      rw [turnErrors_op hturn]
      exact List.mem_append_right _ (List.mem_singleton_self op)

/-- If an operation occurs once, the errors that name it second are those of its turn. -/
theorem filter_pollState {before after : List (KafkaOp K V)} {op : KafkaOp K V}
    (hbefore : op ∉ before) (hafter : op ∉ after) :
    ((pollState versionOrders (before ++ op :: after)).1.filter
        fun e => decide (e.ops.2 = op)) =
      turnErrors versionOrders (pollState versionOrders before).2 op := by
  induction after using List.reverseRecOn with
  | nil =>
    rw [pollState_snoc, pollStep_errors, List.filter_append]
    have hold : ((pollState versionOrders before).1.filter
        fun e => decide (e.ops.2 = op)) = [] := by
      rw [List.filter_eq_nil_iff]
      intro e he
      rw [decide_eq_true_iff]
      intro heq
      exact hbefore (heq ▸ pollErrors_op he)
    have hturn : ((turnErrors versionOrders (pollState versionOrders before).2 op).filter
        fun e => decide (e.ops.2 = op)) =
          turnErrors versionOrders (pollState versionOrders before).2 op := by
      rw [List.filter_eq_self]
      intro e he
      exact decide_eq_true (turnErrors_op he)
    rw [hold, hturn, List.nil_append]
  | append_singleton after last ih =>
    have hassoc : before ++ op :: (after ++ [last]) = (before ++ op :: after) ++ [last] := by simp
    obtain ⟨hnot, hlast⟩ := not_or.mp (mt List.mem_append.mpr hafter)
    have hne : last ≠ op := fun heq => hlast (List.mem_singleton.mpr heq.symm)
    have hnew : ((turnErrors versionOrders
        (pollState versionOrders (before ++ op :: after)).2 last).filter
          fun e => decide (e.ops.2 = op)) = [] := by
      rw [List.filter_eq_nil_iff]
      intro e he
      rw [decide_eq_true_iff, turnErrors_op he]
      exact hne
    rw [hassoc, pollState_snoc, pollStep_errors, List.filter_append, hnew, List.append_nil]
    exact ih hnot

/-! ## The last operation that read a key -/

/-- An ok or crashed assignment or subscription that leaves key `k` out. -/
def KafkaOp.Drops (op : KafkaOp K V) (k : K) : Prop :=
  (op.type = .ok ∨ op.type = .info) ∧
    ∃ ks, (op.call = .assign ks ∨ op.call = .subscribe ks) ∧ k ∉ ks

theorem pollStep_lastReads_of_polls (state : List (PollError K V) × Assoc K (KafkaOp K V))
    {op : KafkaOp K V} {k : K} (hok : op.type = .ok) (hpolls : op.Polls k) :
    (pollStep versionOrders state op).2.lookup k = some op := by
  have hkeys : k ∈ (opReads op).keys := AList.mem_keys.mp (mem_opReads.mpr hpolls)
  have hinsert : (Assoc.insertAll (opReads op).keys op state.2).lookup k = some op := by
    rw [Assoc.lookup_insertAll, if_pos hkeys]
  obtain ⟨reads, hmop, -⟩ := hpolls
  unfold KafkaOp.pollingMops at hmop
  unfold pollStep
  cases hcall : op.call with
  | assign ks => simp only [hcall, List.not_mem_nil] at hmop
  | subscribe ks => simp only [hcall, List.not_mem_nil] at hmop
  | other f => simp only [hcall, List.not_mem_nil] at hmop
  | mops f value =>
    cases f with
    | txn => simpa only [hok] using hinsert
    | poll => simpa only [hok] using hinsert
    | send => simp only [hcall, List.not_mem_nil] at hmop

omit [DecidableEq V] in
/-- An assignment that does not drop a key keeps its last operation. -/
theorem lookup_keepAssigned {lastReads : Assoc K (KafkaOp K V)} {op : KafkaOp K V} {ks : List K}
    {k : K} (hkept : op.type = .ok ∨ op.type = .info → k ∈ ks) :
    (keepAssigned lastReads op ks).lookup k = lastReads.lookup k := by
  unfold keepAssigned
  cases htype : op.type with
  | invoke => rfl
  | fail => rfl
  | ok => exact (Assoc.lookup_selectKeys lastReads ks k).trans (if_pos (hkept (Or.inl htype)))
  | info => exact (Assoc.lookup_selectKeys lastReads ks k).trans (if_pos (hkept (Or.inr htype)))

/-- Any other operation leaves it as it is. -/
theorem pollStep_lastReads_of_not (state : List (PollError K V) × Assoc K (KafkaOp K V))
    {op : KafkaOp K V} {k : K} (hnot : ¬ (op.type = .ok ∧ op.Polls k)) (hkept : ¬ op.Drops k) :
    (pollStep versionOrders state op).2.lookup k = state.2.lookup k := by
  have hassigned : ∀ ks, op.call = .assign ks ∨ op.call = .subscribe ks →
      (keepAssigned state.2 op ks).lookup k = state.2.lookup k := by
    intro ks hcall
    apply lookup_keepAssigned
    intro htype
    by_contra hout
    exact hkept ⟨htype, ks, hcall, hout⟩
  have hreads : (match op.type with
      | .ok => Assoc.insertAll (opReads op).keys op state.2
      | .invoke | .fail | .info => state.2).lookup k = state.2.lookup k := by
    cases htype : op.type with
    | invoke => rfl
    | fail => rfl
    | info => rfl
    | ok =>
      apply (Assoc.lookup_insertAll _ _ _ _).trans
      rw [if_neg]
      intro hmem
      exact hnot ⟨htype, mem_opReads.mp (AList.mem_keys.mpr hmem)⟩
  unfold pollStep
  cases hcall : op.call with
  | assign ks => exact hassigned ks (Or.inl hcall)
  | subscribe ks => exact hassigned ks (Or.inr hcall)
  | other f => rfl
  | mops f value =>
    cases f with
    | txn => exact hreads
    | poll => exact hreads
    | send => rfl

/-- After an ok operation polled a key, its last operation is that one, or a later
one that polled the key. -/
theorem lookup_lastReads (versionOrders : Assoc K (VersionOrder V))
    (before : List (KafkaOp K V)) {mid : List (KafkaOp K V)} {first : KafkaOp K V} {k : K} (hok : first.type = .ok) (hpolls : first.Polls k) (hkept : ∀ op ∈ mid, ¬ op.Drops k) :
    (∃ last ∈ mid, last.type = .ok ∧ last.Polls k ∧
        (pollState versionOrders (before ++ first :: mid)).2.lookup k = some last) ∨
      (¬ ∃ op ∈ mid, op.type = .ok ∧ op.Polls k) ∧
        (pollState versionOrders (before ++ first :: mid)).2.lookup k = some first := by
  induction mid using List.reverseRecOn with
  | nil =>
    right
    rw [pollState_snoc]
    exact ⟨by simp, pollStep_lastReads_of_polls _ hok hpolls⟩
  | append_singleton mid op ih =>
    have hassoc : before ++ first :: (mid ++ [op]) = (before ++ first :: mid) ++ [op] := by simp
    have hop := hkept op (List.mem_append_right _ (List.mem_singleton_self op))
    have hmid := ih fun op' hop' => hkept op' (List.mem_append_left _ hop')
    rw [hassoc, pollState_snoc]
    by_cases hreads : op.type = .ok ∧ op.Polls k
    · left
      exact ⟨op, List.mem_append_right _ (List.mem_singleton_self op), hreads.1, hreads.2,
        pollStep_lastReads_of_polls _ hreads.1 hreads.2⟩
    · rw [pollStep_lastReads_of_not _ hreads hop]
      cases hmid with
      | inl hlast =>
        obtain ⟨last, hmem, hlastOk, hlastPolls, hlookup⟩ := hlast
        exact Or.inl ⟨last, List.mem_append_left _ hmem, hlastOk, hlastPolls, hlookup⟩
      | inr hnone =>
        refine Or.inr ⟨?_, hnone.2⟩
        rintro ⟨op', hmem, hok', hpolls'⟩
        cases List.mem_append.mp hmem with
        | inl hmid' => exact hnone.1 ⟨op', hmid', hok', hpolls'⟩
        | inr hlast =>
          rw [List.mem_singleton.mp hlast] at hok' hpolls'
          exact hreads ⟨hok', hpolls'⟩

/-! ## Successive reads of a key -/

/-- Two operations of one process that read a key one after the other: an ok
operation whose last read has index `i`, and the next one to read a value of the
key, the first of which has index `j`. The key is not dropped in between. -/
structure ReadPair (versionOrders : Assoc K (VersionOrder V)) (k : K) where
  before : List (KafkaOp K V)
  first : KafkaOp K V
  mid : List (KafkaOp K V)
  next : KafkaOp K V
  after : List (KafkaOp K V)
  /-- The operations of a process are in the order of their indexes. -/
  ordered : (before ++ first :: mid ++ next :: after).Pairwise fun a b => a.index < b.index
  first_ok : first.type = .ok
  silent : ∀ op ∈ mid, op.readsOf k = []
  kept : ∀ op ∈ mid, ¬ op.Drops k
  last : V
  head : V
  last_read : (first.readsOf k).getLast? = some last
  head_read : (next.readsOf k).head? = some head
  vo : VersionOrder V
  vo_known : versionOrders.lookup k = some vo
  i : ℕ
  j : ℕ
  last_known : vo.byValue.lookup last = some i
  head_known : vo.byValue.lookup head = some j

namespace ReadPair

variable {k : K} (pair : ReadPair versionOrders k)

/-- The operations of the process. -/
def ops : List (KafkaOp K V) := pair.before ++ pair.first :: pair.mid ++ pair.next :: pair.after

/-- The errors there should be for the pair. -/
def expected : List (PollError K V) :=
  if pair.i + 1 < pair.j then
    [{ type := .skip, key := k, delta := pair.j - pair.i,
       skipped := (pair.vo.byIndex.drop (pair.i + 1)).take (pair.j - (pair.i + 1)),
       values := [], ops := (pair.first, pair.next) }]
  else if pair.j ≤ pair.i then
    [{ type := .nonmonotonic, key := k, delta := pair.j - pair.i, skipped := [],
       values := [pair.last, pair.head], ops := (pair.first, pair.next) }]
  else []

/-- The errors reported for the pair and the key are those there should be. -/
def Exact : Prop :=
  ((pollSkipNonmonotonicCases versionOrders pair.ops).filter fun e =>
    decide (e.key = k ∧ e.ops = (pair.first, pair.next))) = pair.expected

end ReadPair

omit [DecidableEq K] in
theorem valuesBetween_eq (vo : VersionOrder V) (i i' : ℕ) :
    vo.valuesBetween i i' = (vo.byIndex.drop i).take (i' - i) := by
  rw [VersionOrder.valuesBetween]
  generalize i' - i = n
  induction n generalizing i with
  | zero => rfl
  | succ n ih =>
    rw [List.range'_succ, List.filterMap_cons, ih]
    by_cases hlt : i < vo.byIndex.length
    · rw [List.getElem?_eq_getElem hlt, List.drop_eq_getElem_cons hlt, List.take_succ_cons]
    · rw [List.getElem?_eq_none_iff.mpr (by omega), List.drop_eq_nil_of_le (by omega),
        List.drop_eq_nil_of_le (by omega), List.take_nil, List.take_nil]

/-- A range between two known indexes never leaves the vector. -/
theorem valuesBetween_length {vo : VersionOrder V} {v : V} {i i' : ℕ}
    (hknown : vo.byValue.lookup v = some i') : (vo.valuesBetween i i').length = i' - i := by
  obtain ⟨hlt, -⟩ := List.getElem?_eq_some_iff.mp (vo.indexed hknown)
  rw [valuesBetween_eq, List.length_take, List.length_drop]
  omega

/-- Against an operation that read nothing, nothing is reported. -/
theorem pollErrors_of_silent {k : K} {lastOp op : KafkaOp K V} {reads : List V}
    (hsilent : lastOp.readsOf k = []) : pollErrors versionOrders k lastOp op reads = [] := by
  have hlast : ((opReads lastOp).lookup k).bind List.getLast? = none := by
    rw [lookup_opReads, hsilent]
    split <;> rfl
  unfold pollErrors
  rw [hlast]
  cases versionOrders.lookup k <;> rfl

namespace ReadPair

variable {k : K} (pair : ReadPair versionOrders k)

theorem first_polls : pair.first.Polls k :=
  polls_of_mem_readsOf (List.mem_of_getLast? pair.last_read)

theorem next_polls : pair.next.Polls k :=
  polls_of_mem_readsOf (List.mem_of_head? pair.head_read)

/-- Against the first operation of the pair, the pair's errors are reported. -/
theorem pollErrors_first :
    pollErrors versionOrders k pair.first pair.next (pair.next.readsOf k) = pair.expected := by
  have hlast : ((opReads pair.first).lookup k).bind List.getLast? = some pair.last := by
    rw [lookup_opReads, if_pos (mem_opReads.mpr pair.first_polls)]
    exact pair.last_read
  unfold pollErrors expected
  simp only [pair.vo_known, hlast, pair.head_read, pair.last_known, pair.head_known,
    valuesBetween_eq]
  by_cases hskip : pair.i + 1 < pair.j
  · have hlt : (1 : ℤ) < (pair.j : ℤ) - pair.i := by omega
    rw [if_pos hlt, if_neg (by omega), if_pos hskip]
    rfl
  · by_cases hback : pair.j ≤ pair.i
    · rw [if_neg (by omega), if_pos (by omega), if_neg hskip, if_pos hback]
      rfl
    · rw [if_neg (by omega), if_neg (by omega), if_neg hskip, if_neg hback]
      rfl

theorem next_notMem : pair.next ∉ pair.before ++ pair.first :: pair.mid ∧
    pair.next ∉ pair.after := by
  obtain ⟨-, hafter, hcross⟩ := List.pairwise_append.mp pair.ordered
  constructor
  · intro hmem
    exact lt_irrefl _ (hcross pair.next hmem pair.next List.mem_cons_self)
  · intro hmem
    exact lt_irrefl _ ((List.pairwise_cons.mp hafter).1 pair.next hmem)

theorem ne_of_mem_mid {op : KafkaOp K V} (hop : op ∈ pair.mid) : op ≠ pair.first := by
  intro heq
  obtain ⟨hbefore, -, -⟩ := List.pairwise_append.mp pair.ordered
  obtain ⟨-, hfirst, -⟩ := List.pairwise_append.mp hbefore
  have hlt := (List.pairwise_cons.mp hfirst).1 op hop
  rw [heq] at hlt
  exact lt_irrefl _ hlt

/-- The errors of the pair are those of the second operation's turn for the key,
against the first. -/
theorem filter_cases :
    ((pollSkipNonmonotonicCases versionOrders pair.ops).filter fun e =>
      decide (e.key = k ∧ e.ops = (pair.first, pair.next))) =
    ((match (pollState versionOrders (pair.before ++ pair.first :: pair.mid)).2.lookup k with
      | none => []
      | some lastOp => pollErrors versionOrders k lastOp pair.next (pair.next.readsOf k)).filter
        fun e => decide (e.ops.1 = pair.first)) := by
  obtain ⟨hbefore, hafter⟩ := pair.next_notMem
  rw [← filter_turnErrors _ pair.next_polls, ← filter_pollState hbefore hafter,
    List.filter_filter, List.filter_filter, pollSkipNonmonotonicCases, ops]
  apply List.filter_congr
  intro e _
  rw [← Bool.decide_and, ← Bool.decide_and, decide_eq_decide, Prod.ext_iff]
  tauto

end ReadPair

/-- The errors of a pair of successive reads are exactly those there should be if and
only if it neither skips nor goes back, or no ok operation polled the key in vain in
between. -/
theorem readPair_exact_iff {k : K} (pair : ReadPair versionOrders k) :
    pair.Exact ↔
      pair.j = pair.i + 1 ∨ ∀ op ∈ pair.mid, op.type = .ok → ¬ op.Polls k := by
  have hself : pair.expected.filter (fun e => decide (e.ops.1 = pair.first)) =
      pair.expected := by
    rw [List.filter_eq_self]
    intro e he
    rw [← pair.pollErrors_first] at he
    exact decide_eq_true (congrArg Prod.fst (pollErrors_spec he).2)
  unfold ReadPair.Exact
  rw [pair.filter_cases]
  have hlast := lookup_lastReads versionOrders pair.before pair.first_ok pair.first_polls
    pair.kept
  cases hlast with
  | inl hlater =>
    obtain ⟨last, hmem, hok, hpolls, hlookup⟩ := hlater
    simp only [hlookup, pollErrors_of_silent (pair.silent last hmem), List.filter_nil]
    constructor
    · intro hnil
      left
      unfold ReadPair.expected at hnil
      split at hnil
      · cases hnil
      · split at hnil
        · cases hnil
        · omega
    · intro h
      cases h with
      | inl hnext =>
        unfold ReadPair.expected
        rw [if_neg (by omega), if_neg (by omega)]
      | inr hnone => exact absurd hpolls (hnone last hmem hok)
  | inr hfirst =>
    obtain ⟨hnone, hlookup⟩ := hfirst
    simp only [hlookup, pair.pollErrors_first, hself, true_iff]
    right
    intro op hop hok hpolls
    exact hnone ⟨op, hop, hok, hpolls⟩

/-- The log of key 0 holds 10, 11 and 12. -/
def threeOrdered : Assoc ℕ (VersionOrder ℕ) :=
  AList.singleton 0 (keyOrder (.ascending ℕ)
    [some (.single 10), some (.single 11), some (.single 12)])

def pollOf (index : ℕ) (pairs : List (Option ℕ × ℕ)) : KafkaOp ℕ ℕ :=
  ⟨index, index, .int 0, .ok, .mops .poll [.poll (some (AList.singleton 0 pairs))]⟩

/-- A process reads 10, polls in vain, and goes on with 12. -/
def skipAfterEmptyPoll : ReadPair threeOrdered 0 where
  before := []
  first := pollOf 0 [(some 0, 10)]
  mid := [pollOf 1 []]
  next := pollOf 2 [(some 2, 12)]
  after := []
  ordered := by decide
  first_ok := rfl
  silent := by decide
  kept := by
    intro op hop
    cases List.mem_singleton.mp hop
    rintro ⟨-, ks, hcall, -⟩
    cases hcall with
    | inl hassign => cases hassign
    | inr hsubscribe => cases hsubscribe
  last := 10
  head := 12
  last_read := rfl
  head_read := rfl
  vo := _
  vo_known := rfl
  i := 0
  j := 2
  last_known := rfl
  head_known := rfl

/-- The skipped value 11 is not reported. -/
theorem skipAfterEmptyPoll_not_exact :
    ¬ skipAfterEmptyPoll.Exact ∧
      pollSkipNonmonotonicCases threeOrdered skipAfterEmptyPoll.ops = [] := by
  constructor
  · intro hexact
    cases hexact
  · rfl

end Jepsen.Tests.Kafka
