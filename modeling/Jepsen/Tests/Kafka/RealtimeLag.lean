/-
# Realtime lag

How far behind was a poll? For each key, `expired` tells from when on each offset was
no longer the last of the log: element `i` is the time at which an operation first
showed that offset `i` exists. A process's offsets tell the furthest it has come on
each key; its lag on a key is the time since the next offset came into existence.
-/

import Jepsen.Tests.Kafka.MaxOffsets

namespace Jepsen.Tests.Kafka

open Jepsen.Library
open Jepsen.Generator (Name)

universe u v

variable {K : Type u} {V : Type v} [DecidableEq K]

/-! ## Expiry times -/

/-- An assoc on vectors at an arbitrary index, with nils up to it. -/
def Expired.assocv {A : Type u} (v : List (Option A)) (i : ℕ) (value : A) : List (Option A) :=
  if i < v.length then v.set i (some value)
  else if i = v.length then v ++ [some value]
  else (v ++ List.replicate (i - v.length) none) ++ [some value]

/-- `(get v i)` -/
def getv {A : Type u} (v : List (Option A)) (i : ℕ) : Option A := v[i]?.join

/-- The loop that zips backwards from index `n - 1`, filling in the time, until it hits an
index that is filled or the start of the vector. -/
def zipBackwards (time : ℤ) : ℕ → List (Option ℤ) → List (Option ℤ)
  | 0, expired => expired
  | i + 1, expired =>
      if (getv expired i).isSome then expired
      else zipBackwards time i (Expired.assocv expired i time)

/-- The vector of a key. -/
def expiredOf (expired : Assoc K (List (Option ℤ))) (k : K) : List (Option ℤ) :=
  (expired.lookup k).getD []

/-- The body of the reduction that finds the expiry times. -/
def expireStep (expired : Assoc K (List (Option ℤ))) (op : KafkaOp K V) :
    Assoc K (List (Option ℤ)) :=
  (opMaxOffsets op).entries.foldl (fun expired e =>
    AList.insert e.1 (zipBackwards op.time (e.2 + 1).toNat (expiredOf expired e.1)) expired)
    expired

/-- The times at which each offset of each key was known to exist. -/
def expiryTimes (history : List (KafkaOp K V)) : Assoc K (List (Option ℤ)) :=
  history.foldl expireStep ∅

/-! ## Lags -/

/-- `{:process, :key, :time, :lag}` -/
structure Lag (K : Type u) where
  process : Name
  key : K
  time : ℤ
  lag : ℤ
  deriving DecidableEq

/-- A lag is asked of a completion without invocation. -/
structure NullPointer where
  deriving DecidableEq

/-- The time from an expiry to an invocation, none before it; what never expired has no
lag. -/
def lagSince (invokeTime : ℤ) : Option ℤ → ℤ
  | none => 0
  | some expiredAt => max (invokeTime - expiredAt) 0

/-- The accumulators of the loop that finds the lags. -/
structure LagState (K : Type u) where
  processOffsets : Assoc Name (Assoc K ℤ) := ∅
  lags : List (Lag K) := []

/-- A process's offsets. -/
def LagState.offsets (state : LagState K) (process : Name) : Assoc K ℤ :=
  (state.processOffsets.lookup process).getD ∅

/-- The offsets of a process that assigns itself some keys: those it has, -1 for others. -/
def assignOffsets (offsets : Assoc K ℤ) (value : List K) : Assoc K ℤ :=
  Assoc.mergeWith (fun _ offset => offset) (Assoc.insertAll value (-1) ∅)
    (Assoc.selectKeys offsets value)

/-- The lags of an operation, for every key its process has an offset of. -/
def lagsOf (expired : Assoc K (List (Option ℤ))) (invokeTime : ℤ) (process : Name)
    (offsets : Assoc K ℤ) : List (Lag K) :=
  offsets.entries.map fun e =>
    { process := process
      key := e.1
      time := invokeTime
      lag := lagSince invokeTime (getv (expiredOf expired e.1) (e.2 + 1).toNat) }

/-- The lags of an operation whose invocation may be missing: that is noticed at the first
key. -/
def opLags (expired : Assoc K (List (Option ℤ))) (invokeTime : Option ℤ) (process : Name)
    (offsets : Assoc K ℤ) : Except NullPointer (List (Lag K)) :=
  match invokeTime with
  | some invokeTime => .ok (lagsOf expired invokeTime process offsets)
  | none => if offsets.entries.isEmpty then .ok [] else .error {}

/-- The branch of the loop for `:poll` and `:txn`. The invocation of an operation is looked
up in the history. -/
def addLags (invocation : KafkaOp K V → Option (KafkaOp K V))
    (expired : Assoc K (List (Option ℤ))) (state : LagState K) (op : KafkaOp K V) :
    Except NullPointer (LagState K) :=
  let invokeTime := (invocation op).map KafkaOp.time
  let offsets' := Assoc.mergeWith max (state.offsets op.process) (opMaxOffsets op)
  match opLags expired invokeTime op.process offsets' with
  | .error t => .error t
  | .ok lags' => .ok
      { processOffsets := state.processOffsets.insert op.process offsets'
        lags := state.lags ++ lags' }

/-- The body of the loop that finds the lags. -/
def lagStep (invocation : KafkaOp K V → Option (KafkaOp K V))
    (expired : Assoc K (List (Option ℤ))) (state : LagState K) (op : KafkaOp K V) :
    Except NullPointer (LagState K) :=
  if op.type ≠ .ok then .ok state
  else
    match op.call with
    | .assign value => .ok { state with
        processOffsets :=
          state.processOffsets.insert op.process (assignOffsets (state.offsets op.process) value) }
    | .subscribe _ => .ok { state with
        processOffsets := state.processOffsets.insert op.process ∅ }
    | .mops .txn _ | .mops .poll _ => addLags invocation expired state op
    | _ => .ok state

/-- `realtime-lag` -/
def realtimeLag (invocation : KafkaOp K V → Option (KafkaOp K V))
    (history : List (KafkaOp K V)) : Except NullPointer (List (Lag K)) :=
  match history.foldlM (lagStep invocation (expiryTimes history)) {} with
  | .error t => .error t
  | .ok state => .ok state.lags

/-! ## The backward loop -/

/-- Every element of the vector is filled. -/
def NoHoles {A : Type u} (v : List (Option A)) : Prop := ∀ i < v.length, (getv v i).isSome

/-- Behind a vector without holes the loop fills the nils it meets, back to the vector. -/
theorem zipBackwards_nils {v : List (Option ℤ)} (hv : NoHoles v) (time : ℤ) (a b : ℕ) :
    zipBackwards time (v.length + a) (v ++ List.replicate a none ++ List.replicate b (some time)) =
      v ++ List.replicate (a + b) (some time) := by
  induction a generalizing b with
  | zero =>
    rw [Nat.add_zero, List.replicate_zero, List.append_nil, Nat.zero_add]
    cases hlength : v.length with
    | zero => rfl
    | succ n =>
      have hfilled : (getv (v ++ List.replicate b (some time)) n).isSome := by
        rw [getv, List.getElem?_append_left (by omega)]
        exact hv n (by omega)
      rw [zipBackwards, if_pos hfilled]
  | succ a ih =>
    have hhole : (getv (v ++ List.replicate (a + 1) none ++ List.replicate b (some time))
        (v.length + a)).isSome = false := by
      rw [getv, List.getElem?_append_left (by simp), List.getElem?_append_right (by omega),
        Nat.add_sub_cancel_left, List.getElem?_replicate, if_pos (by omega)]
      rfl
    have hset : Expired.assocv (v ++ List.replicate (a + 1) none ++ List.replicate b (some time))
        (v.length + a) time =
        v ++ List.replicate a none ++ List.replicate (b + 1) (some time) := by
      rw [Expired.assocv, if_pos (by simp; omega), List.append_assoc, List.set_append_right _ _ (by omega),
        Nat.add_sub_cancel_left, List.replicate_succ' , List.append_assoc,
        List.set_append_right _ _ (by simp), List.length_replicate, Nat.sub_self,
        List.append_assoc, List.replicate_succ (n := b)]
      rfl
    rw [← Nat.add_assoc, zipBackwards, hhole, if_neg Bool.false_ne_true, hset, ih]
    congr 2
    omega

/-- From an index on, the loop leaves a vector without holes as it is and fills what is
missing of it up to the index. -/
theorem zipBackwards_eq {v : List (Option ℤ)} (hv : NoHoles v) (time : ℤ) (n : ℕ) :
    zipBackwards time n v = v ++ List.replicate (n - v.length) (some time) := by
  by_cases hn : n ≤ v.length
  · cases n with
    | zero => simp [zipBackwards]
    | succ n =>
      rw [zipBackwards, if_pos (hv n (by omega)), Nat.sub_eq_zero_of_le hn, List.replicate_zero,
        List.append_nil]
  · obtain ⟨a, rfl⟩ : ∃ a, n = v.length + a + 1 := ⟨n - v.length - 1, by omega⟩
    have hhole : (getv v (v.length + a)).isSome = false := by
      rw [getv, List.getElem?_eq_none (by omega)]
      rfl
    have hset : Expired.assocv v (v.length + a) time =
        v ++ List.replicate a none ++ List.replicate 1 (some time) := by
      rw [Expired.assocv, if_neg (by omega)]
      split_ifs with ha
      · have hzero : a = 0 := by omega
        subst hzero
        simp
      · rw [Nat.add_sub_cancel_left]
        rfl
    rw [zipBackwards, hhole, if_neg Bool.false_ne_true, hset, zipBackwards_nils hv]
    congr 2
    omega

/-! ## What the vectors hold -/

theorem opMaxOffsets_of_not_reports {op : KafkaOp K V} (hop : ¬ op.Reports) :
    opMaxOffsets op = ∅ := by
  have hpoll : opMaxPollOffsets op = ∅ := by
    unfold opMaxPollOffsets
    cases htype : op.type with
    | ok => exact absurd (Or.inl htype) hop
    | info => exact absurd (Or.inr htype) hop
    | _ => rfl
  have hsend : opMaxSendOffsets op = ∅ := by
    unfold opMaxSendOffsets
    cases htype : op.type with
    | ok => exact absurd (Or.inl htype) hop
    | info => exact absurd (Or.inr htype) hop
    | _ => rfl
  rw [opMaxOffsets, hpoll, hsend]
  rfl

theorem neg_one_le_offsetAt_opMaxOffsets (op : KafkaOp K V) (k : K) :
    -1 ≤ offsetAt (opMaxOffsets op) k := by
  by_cases hop : op.Reports
  · rw [offsetAt_opMaxOffsets hop]
    exact neg_one_le_highest _
  · rw [opMaxOffsets_of_not_reports hop]
    exact le_rfl

/-- An operation lengthens the vector of each of its keys, up to the offset it shows. -/
theorem expiredOf_expireStep (expired : Assoc K (List (Option ℤ))) (op : KafkaOp K V) (k : K) :
    expiredOf (expireStep expired op) k =
      zipBackwards op.time (offsetAt (opMaxOffsets op) k + 1).toNat (expiredOf expired k) := by
  have hfold : ∀ (l : List (Σ _ : K, ℤ)) (expired : Assoc K (List (Option ℤ))), l.NodupKeys →
      expiredOf (l.foldl (fun expired e => AList.insert e.1
        (zipBackwards op.time (e.2 + 1).toNat (expiredOf expired e.1)) expired) expired) k =
      zipBackwards op.time ((l.dlookup k).getD (-1) + 1).toNat (expiredOf expired k) := by
    intro l
    induction l with
    | nil => exact fun _ _ => rfl
    | cons e l ih =>
      intro expired hl
      obtain ⟨k', o⟩ := e
      obtain ⟨hnot, htail⟩ := List.nodupKeys_cons.mp hl
      rw [List.foldl_cons, ih _ htail]
      by_cases heq : k = k'
      · subst heq
        have hnone : l.dlookup k = none := List.dlookup_eq_none.mpr hnot
        rw [hnone, List.dlookup_cons_eq, expiredOf, AList.lookup_insert]
        rfl
      · rw [List.dlookup_cons_ne _ _ heq, expiredOf, AList.lookup_insert_ne heq]
        rfl
  exact hfold (opMaxOffsets op).entries expired (opMaxOffsets op).nodupKeys

/-- The first operation that shows an offset of a key. -/
def firstShowing (history : List (KafkaOp K V)) (k : K) (offset : ℤ) : Option (KafkaOp K V) :=
  history.find? fun op => decide (offset ≤ offsetAt (opMaxOffsets op) k)

theorem noHoles_of_getElem? {A : Type*} {v : List (Option A)} {f : ℕ → Option A}
    (hv : ∀ i, v[i]? = (f i).map some) : NoHoles v := by
  intro i hi
  rw [getv, hv]
  cases hf : f i with
  | some a => rfl
  | none =>
    have hnone := hv i
    rw [hf, List.getElem?_eq_getElem hi] at hnone
    cases hnone

/-- Element `i` of a key's vector is the time of the first operation to show offset `i`, and
the vector ends where no operation has shown the offset. -/
theorem getElem?_expiryTimes (history : List (KafkaOp K V)) (k : K) (i : ℕ) :
    (expiredOf (expiryTimes history) k)[i]? =
      ((firstShowing history k i).map KafkaOp.time).map some := by
  induction history using List.reverseRecOn generalizing i with
  | nil => rfl
  | append_singleton history op ih =>
    have hlength : ∀ j : ℕ, j < (expiredOf (expiryTimes history) k).length ↔
        (firstShowing history k j).isSome := by
      intro j
      have hsome := isSome_getElem? (expiredOf (expiryTimes history) k) j
      rw [ih, Option.isSome_map, Option.isSome_map] at hsome
      exact iff_of_eq hsome.symm
    have hunfold : expiredOf (expiryTimes (history ++ [op])) k =
        zipBackwards op.time (offsetAt (opMaxOffsets op) k + 1).toNat
          (expiredOf (expiryTimes history) k) := by
      rw [← expiredOf_expireStep, expiryTimes, List.foldl_append]
      rfl
    rw [hunfold, zipBackwards_eq (noHoles_of_getElem? ih), firstShowing, List.find?_append]
    change _ = (((firstShowing history k i).or _).map KafkaOp.time).map some
    cases hfirst : firstShowing history k i with
    | some first =>
      have hi : i < (expiredOf (expiryTimes history) k).length := by
        rw [hlength, hfirst]
        rfl
      rw [List.getElem?_append_left hi, ih, hfirst]
      rfl
    | none =>
      have hi : (expiredOf (expiryTimes history) k).length ≤ i := by
        rw [← not_lt, hlength, hfirst]
        exact Bool.false_ne_true
      rw [List.getElem?_append_right hi, List.getElem?_replicate, Option.none_or,
        List.find?_singleton]
      by_cases hshown : (i : ℤ) ≤ offsetAt (opMaxOffsets op) k
      · rw [decide_eq_true hshown, if_pos rfl, if_pos (by omega)]
        rfl
      · rw [decide_eq_false hshown, if_neg Bool.false_ne_true, if_neg (by omega)]
        rfl

/-! ## What a process has interacted with -/

namespace KafkaOp

/-- An ok `:poll` or `:txn`. -/
def isOkPoll (op : KafkaOp K V) : Bool :=
  decide (op.type = .ok) &&
    match op.call with
    | .mops .txn _ | .mops .poll _ => true
    | _ => false

/-- An ok operation takes a key away from its process: a subscribe, or an assign that leaves
it out. -/
def drops (op : KafkaOp K V) (k : K) : Bool :=
  decide (op.type = .ok) &&
    match op.call with
    | .subscribe _ => true
    | .assign value => decide (k ∉ value)
    | _ => false

/-- An ok operation has its process follow a key: an assign, or a poll of it. -/
def follows (op : KafkaOp K V) (k : K) : Bool :=
  decide (op.type = .ok) &&
    match op.call with
    | .assign value => decide (k ∈ value)
    | .mops .txn _ | .mops .poll _ => decide (k ∈ opMaxOffsets op)
    | _ => false

end KafkaOp

/-- What a process did since a key was last taken away from it. -/
def sinceDropped (history : List (KafkaOp K V)) (process : Name) (k : K) : List (KafkaOp K V) :=
  ((history.filter fun op => decide (op.process = process)).reverse.takeWhile
    fun op => !op.drops k).reverse

/-- The highest offset of a key that a process polled, or sent in a transaction, since the
key was last taken away from it, -1 if there is none. -/
def interacted (history : List (KafkaOp K V)) (process : Name) (k : K) : ℤ :=
  ((sinceDropped history process k).filter KafkaOp.isOkPoll).foldl
    (fun offset op => max offset (offsetAt (opMaxOffsets op) k)) (-1)

/-- The process follows the key. -/
def FollowsKey (history : List (KafkaOp K V)) (process : Name) (k : K) : Prop :=
  ∃ op ∈ sinceDropped history process k, op.follows k = true

theorem sinceDropped_snoc (history : List (KafkaOp K V)) (op : KafkaOp K V) (process : Name)
    (k : K) :
    sinceDropped (history ++ [op]) process k =
      if op.process = process then
        if op.drops k then [] else sinceDropped history process k ++ [op]
      else sinceDropped history process k := by
  unfold sinceDropped
  rw [List.filter_append, List.filter_singleton]
  by_cases hprocess : op.process = process
  · rw [if_pos hprocess, decide_eq_true hprocess, cond_true, List.reverse_append,
      List.reverse_singleton, List.singleton_append, List.takeWhile_cons]
    cases op.drops k with
    | true => rfl
    | false => exact List.reverse_cons
  · rw [if_neg hprocess, decide_eq_false hprocess, cond_false, List.append_nil]

/-- The offsets of a process after one of its operations. -/
def offsetsAfter (offsets : Assoc K ℤ) (op : KafkaOp K V) : Assoc K ℤ :=
  if op.type ≠ .ok then offsets
  else
    match op.call with
    | .assign value => assignOffsets offsets value
    | .subscribe _ => ∅
    | .mops .txn _ | .mops .poll _ => Assoc.mergeWith max offsets (opMaxOffsets op)
    | _ => offsets

theorem lookup_assignOffsets (offsets : Assoc K ℤ) (value : List K) (k : K) :
    (assignOffsets offsets value).lookup k =
      if k ∈ value then some (offsetAt offsets k) else none := by
  rw [assignOffsets, Assoc.lookup_mergeWith, Assoc.lookup_insertAll, Assoc.lookup_selectKeys]
  by_cases hmem : k ∈ value
  · rw [if_pos hmem, if_pos hmem, if_pos hmem, offsetAt]
    cases offsets.lookup k <;> rfl
  · rw [if_neg hmem, if_neg hmem, if_neg hmem]
    rfl

/-- The offset of a key after an operation. -/
theorem offsetAt_offsetsAfter {offsets : Assoc K ℤ} {k : K} (hfloor : -1 ≤ offsetAt offsets k)
    (op : KafkaOp K V) :
    offsetAt (offsetsAfter offsets op) k =
      if op.drops k then -1
      else if op.isOkPoll then max (offsetAt offsets k) (offsetAt (opMaxOffsets op) k)
      else offsetAt offsets k := by
  unfold offsetsAfter KafkaOp.drops KafkaOp.isOkPoll
  by_cases hok : op.type = .ok
  · rw [if_neg (not_not_intro hok), decide_eq_true hok, Bool.true_and, Bool.true_and]
    cases op.call with
    | subscribe value => rfl
    | other f => rfl
    | assign value =>
      change ((assignOffsets offsets value).lookup k).getD (-1) = _
      rw [lookup_assignOffsets]
      by_cases hmem : k ∈ value <;> simp [hmem]
    | mops f value =>
      cases f with
      | send => rfl
      | txn => exact offsetAt_mergeWith hfloor (neg_one_le_offsetAt_opMaxOffsets op k)
      | poll => exact offsetAt_mergeWith hfloor (neg_one_le_offsetAt_opMaxOffsets op k)
  · rw [if_pos hok, decide_eq_false hok]
    rfl

theorem mem_mergeWith_max {m m' : Assoc K ℤ} {k : K} :
    k ∈ Assoc.mergeWith max m m' ↔ k ∈ m ∨ k ∈ m' := by
  rw [← AList.lookup_isSome, ← AList.lookup_isSome, ← AList.lookup_isSome,
    Assoc.lookup_mergeWith]
  cases m.lookup k <;> cases m'.lookup k <;> simp

/-- The keys of a process after an operation. -/
theorem mem_offsetsAfter {offsets : Assoc K ℤ} {k : K} (op : KafkaOp K V) :
    k ∈ offsetsAfter offsets op ↔ op.drops k = false ∧ (k ∈ offsets ∨ op.follows k = true) := by
  unfold offsetsAfter KafkaOp.drops KafkaOp.follows
  by_cases hok : op.type = .ok
  · rw [if_neg (not_not_intro hok), decide_eq_true hok, Bool.true_and, Bool.true_and]
    cases op.call with
    | subscribe value => simp
    | other f => simp
    | assign value =>
      dsimp only
      rw [← AList.lookup_isSome, lookup_assignOffsets]
      by_cases hmem : k ∈ value <;> simp [hmem]
    | mops f value =>
      cases f with
      | send => simp
      | txn => simp [mem_mergeWith_max]
      | poll => simp [mem_mergeWith_max]
  · rw [if_pos hok, decide_eq_false hok]
    simp

theorem interacted_snoc (history : List (KafkaOp K V)) (op : KafkaOp K V) (k : K) :
    interacted (history ++ [op]) op.process k =
      if op.drops k then -1
      else if op.isOkPoll then
        max (interacted history op.process k) (offsetAt (opMaxOffsets op) k)
      else interacted history op.process k := by
  unfold interacted
  rw [sinceDropped_snoc, if_pos rfl]
  cases op.drops k with
  | true => rfl
  | false =>
    rw [if_neg Bool.false_ne_true, if_neg Bool.false_ne_true, List.filter_append,
      List.filter_singleton, List.foldl_append]
    cases op.isOkPoll <;> rfl

theorem followsKey_snoc (history : List (KafkaOp K V)) (op : KafkaOp K V) (k : K) :
    FollowsKey (history ++ [op]) op.process k ↔
      op.drops k = false ∧ (FollowsKey history op.process k ∨ op.follows k = true) := by
  unfold FollowsKey
  rw [sinceDropped_snoc, if_pos rfl]
  cases op.drops k with
  | true => simp
  | false => simp [or_and_right, exists_or]

/-! ## The loop over the history -/

/-- What the loop knows of the processes: whose keys they follow and how far they came. -/
structure Interacted (history : List (KafkaOp K V)) (state : LagState K) : Prop where
  offset : ∀ process k, offsetAt (state.offsets process) k = interacted history process k
  key : ∀ process k, k ∈ state.offsets process ↔ FollowsKey history process k

theorem neg_one_le_interacted (history : List (KafkaOp K V)) (process : Name) (k : K) :
    -1 ≤ interacted history process k := by
  unfold interacted
  generalize (sinceDropped history process k).filter KafkaOp.isOkPoll = ops
  induction ops using List.reverseRecOn with
  | nil => exact le_rfl
  | append_singleton ops op ih =>
    rw [List.foldl_append]
    exact ih.trans (le_max_left _ _)

/-- The state after an operation, in terms of the offsets of its process. -/
theorem Interacted.snoc {history : List (KafkaOp K V)} {state state' : LagState K}
    (h : Interacted history state) {op : KafkaOp K V}
    (hoffsets : ∀ process, state'.offsets process =
      if process = op.process then offsetsAfter (state.offsets process) op
      else state.offsets process) :
    Interacted (history ++ [op]) state' := by
  refine ⟨fun process k => ?_, fun process k => ?_⟩
  · rw [hoffsets]
    by_cases hprocess : process = op.process
    · subst hprocess
      have hfloor : -1 ≤ offsetAt (state.offsets op.process) k := by
        rw [h.offset]
        exact neg_one_le_interacted _ _ _
      rw [if_pos rfl, offsetAt_offsetsAfter hfloor, interacted_snoc, h.offset]
    · rw [if_neg hprocess, h.offset]
      unfold interacted
      rw [sinceDropped_snoc, if_neg (Ne.symm hprocess)]
  · rw [hoffsets]
    by_cases hprocess : process = op.process
    · subst hprocess
      rw [if_pos rfl, mem_offsetsAfter, followsKey_snoc, h.key]
    · rw [if_neg hprocess, h.key]
      unfold FollowsKey
      rw [sinceDropped_snoc, if_neg (Ne.symm hprocess)]

omit [DecidableEq K] in
theorem LagState.offsets_insert (state : LagState K) (process process' : Name)
    (offsets : Assoc K ℤ) (lags : List (Lag K)) :
    LagState.offsets ⟨state.processOffsets.insert process offsets, lags⟩ process' =
      if process' = process then offsets else state.offsets process' := by
  unfold LagState.offsets
  dsimp only
  rw [Assoc.lookup_insert_eq_ite]
  by_cases heq : process' = process
  · rw [if_pos heq, if_pos heq]
    rfl
  · rw [if_neg heq, if_neg heq]

/-- The lags that an operation adds, given the offsets of its process after it. -/
def lagsAdded (invocation : KafkaOp K V → Option (KafkaOp K V))
    (expired : Assoc K (List (Option ℤ))) (offsets : Assoc K ℤ) (op : KafkaOp K V) :
    List (Lag K) :=
  if op.isOkPoll then
    (invocation op).elim [] fun inv => lagsOf expired inv.time op.process offsets
  else []

theorem addLags_spec {invocation : KafkaOp K V → Option (KafkaOp K V)} {op : KafkaOp K V}
    (hinvoked : (invocation op).isSome) (expired : Assoc K (List (Option ℤ)))
    (state : LagState K) :
    ∃ state', addLags invocation expired state op = .ok state' ∧
      (∀ process, state'.offsets process =
        if process = op.process then
          Assoc.mergeWith max (state.offsets process) (opMaxOffsets op)
        else state.offsets process) ∧
      state'.lags = state.lags ++ (invocation op).elim [] fun inv =>
        lagsOf expired inv.time op.process (state'.offsets op.process) := by
  obtain ⟨inv, hinv⟩ := Option.isSome_iff_exists.mp hinvoked
  unfold addLags
  rw [hinv]
  refine ⟨_, rfl, fun process => ?_, ?_⟩
  · rw [LagState.offsets_insert]
    split_ifs with hprocess
    · rw [hprocess]
    · rfl
  · rw [LagState.offsets_insert, if_pos rfl]
    rfl

/-- One step: the offsets of the process change, and an ok `:poll` or `:txn` with an
invocation adds its lags. -/
theorem lagStep_spec {invocation : KafkaOp K V → Option (KafkaOp K V)}
    {op : KafkaOp K V} (hinvoked : op.isOkPoll = true → (invocation op).isSome)
    (expired : Assoc K (List (Option ℤ))) (state : LagState K) :
    ∃ state', lagStep invocation expired state op = .ok state' ∧
      (∀ process, state'.offsets process =
        if process = op.process then offsetsAfter (state.offsets process) op
        else state.offsets process) ∧
      state'.lags = state.lags ++ lagsAdded invocation expired (state'.offsets op.process) op := by
  have hsame : ∀ process, state.offsets process =
      if process = op.process then state.offsets process else state.offsets process :=
    fun process => (ite_self _).symm
  unfold lagStep offsetsAfter lagsAdded
  unfold KafkaOp.isOkPoll at hinvoked ⊢
  by_cases hok : op.type = .ok
  · simp only [hok, ne_eq, not_true_eq_false, if_false, decide_true, Bool.true_and] at hinvoked ⊢
    cases hcall : op.call with
    | assign value =>
      refine ⟨_, rfl, fun process => ?_, (List.append_nil _).symm⟩
      rw [LagState.offsets_insert]
      split_ifs with hprocess
      · rw [hprocess]
      · rfl
    | subscribe value =>
      exact ⟨_, rfl, fun process => LagState.offsets_insert _ _ _ _ _, (List.append_nil _).symm⟩
    | other f => exact ⟨state, rfl, hsame, (List.append_nil _).symm⟩
    | mops f value =>
      rw [hcall] at hinvoked
      cases f with
      | send => exact ⟨state, rfl, hsame, (List.append_nil _).symm⟩
      | txn => exact addLags_spec (hinvoked rfl) expired state
      | poll => exact addLags_spec (hinvoked rfl) expired state
  · refine ⟨state, ?_, ?_, ?_⟩
    · rw [if_pos hok]
    · simp only [ne_eq, hok, not_false_eq_true, if_true]
      exact hsame
    · rw [decide_eq_false hok]
      exact (List.append_nil _).symm

/-- The time of the first operation that shows a higher offset of a key. -/
def exceededAt (history : List (KafkaOp K V)) (k : K) (offset : ℤ) : Option ℤ :=
  (history.find? fun op => decide (offset < offsetAt (opMaxOffsets op) k)).map KafkaOp.time

/-- A lag, of an ok `:poll` or `:txn` with a history before it, is the time from the first
operation that shows a higher offset than its process has interacted with. -/
def IsLag (invocation : KafkaOp K V → Option (KafkaOp K V)) (history before : List (KafkaOp K V))
    (op : KafkaOp K V) (lag : Lag K) : Prop :=
  op.isOkPoll = true ∧ lag.process = op.process ∧
    FollowsKey (before ++ [op]) op.process lag.key ∧
    ∃ inv, invocation op = some inv ∧ lag.time = inv.time ∧
      lag.lag = lagSince inv.time
        (exceededAt history lag.key (interacted (before ++ [op]) op.process lag.key))

theorem getv_expiryTimes (history : List (KafkaOp K V)) (k : K) {offset : ℤ}
    (hfloor : -1 ≤ offset) :
    getv (expiredOf (expiryTimes history) k) (offset + 1).toNat = exceededAt history k offset := by
  have hnext : ((offset + 1).toNat : ℤ) = offset + 1 := Int.toNat_of_nonneg (by omega)
  rw [getv, getElem?_expiryTimes, hnext, exceededAt, firstShowing]
  simp only [Int.add_one_le_iff]
  cases history.find? fun op => decide (offset < offsetAt (opMaxOffsets op) k) <;> rfl

/-- The lags an operation adds are those of the keys its process follows. -/
theorem mem_lagsAdded {invocation : KafkaOp K V → Option (KafkaOp K V)}
    {history before : List (KafkaOp K V)} {op : KafkaOp K V} {state : LagState K}
    (h : Interacted (before ++ [op]) state) (lag : Lag K) :
    lag ∈ lagsAdded invocation (expiryTimes history) (state.offsets op.process) op ↔
      IsLag invocation history before op lag := by
  unfold lagsAdded IsLag
  cases op.isOkPoll with
  | false => simp
  | true =>
    cases invocation op with
    | none => simp
    | some inv =>
      rw [if_pos rfl, Option.elim_some, lagsOf, List.mem_map]
      have hvalue : ∀ k offset, (state.offsets op.process).lookup k = some offset →
          interacted (before ++ [op]) op.process k = offset := by
        intro k offset hlookup
        rw [← h.offset, offsetAt, hlookup]
        rfl
      have hexpired : ∀ k offset, (state.offsets op.process).lookup k = some offset →
          getv (expiredOf (expiryTimes history) k) (offset + 1).toNat =
            exceededAt history k offset := by
        intro k offset hlookup
        exact getv_expiryTimes history k (hvalue k offset hlookup ▸ neg_one_le_interacted _ _ _)
      constructor
      · intro hlag
        obtain ⟨⟨k, offset⟩, he, rfl⟩ := hlag
        have hlookup := Assoc.mem_entries_iff.mp he
        have hkey : k ∈ state.offsets op.process := AList.lookup_isSome.mp (by rw [hlookup]; rfl)
        refine ⟨rfl, rfl, (h.key _ _).mp hkey, inv, rfl, rfl, ?_⟩
        dsimp only
        rw [hvalue k offset hlookup, hexpired k offset hlookup]
      · rintro ⟨-, hprocess, hfollows, inv', hinv, htime, hlag⟩
        obtain rfl := Option.some.inj hinv
        obtain ⟨offset, hlookup⟩ := Option.isSome_iff_exists.mp
          (AList.lookup_isSome.mpr ((h.key _ _).mpr hfollows))
        refine ⟨⟨lag.key, offset⟩, Assoc.mem_entries_iff.mpr hlookup, ?_⟩
        rw [hvalue _ _ hlookup, ← hexpired _ _ hlookup] at hlag
        cases lag
        rw [Lag.mk.injEq]
        exact ⟨hprocess.symm, rfl, htime.symm, hlag.symm⟩

/-- What a list with one more element at its end splits into. -/
theorem exists_split_snoc {A : Type*} {P : List A → A → Prop} {l : List A} {a : A} :
    (∃ before x after, l ++ [a] = before ++ x :: after ∧ P before x) ↔
      (∃ before x after, l = before ++ x :: after ∧ P before x) ∨ P l a := by
  constructor
  · rintro ⟨before, x, after, happ, hP⟩
    cases after using List.reverseRecOn with
    | nil =>
      obtain ⟨rfl, hx⟩ := List.append_inj' happ rfl
      exact Or.inr (List.singleton_inj.mp hx ▸ hP)
    | append_singleton after x' =>
      rw [← List.cons_append, ← List.append_assoc] at happ
      exact Or.inl ⟨before, x, after, List.append_inj_left' happ rfl, hP⟩
  · intro h
    cases h with
    | inl hsplit =>
      obtain ⟨before, x, after, rfl, hP⟩ := hsplit
      exact ⟨before, x, after ++ [a], by rw [List.append_assoc, List.cons_append], hP⟩
    | inr hlast => exact ⟨l, a, [], rfl, hlast⟩

/-- The loop gets through a history whose polls have invocations, and has found the lags of
what it got through. -/
theorem foldlM_lagStep {invocation : KafkaOp K V → Option (KafkaOp K V)}
    (history : List (KafkaOp K V)) {ops : List (KafkaOp K V)}
    (hinvoked : ∀ op ∈ ops, op.isOkPoll = true → (invocation op).isSome) :
    ∃ state, ops.foldlM (lagStep invocation (expiryTimes history)) {} = .ok state ∧
      Interacted ops state ∧
      ∀ lag, lag ∈ state.lags ↔
        ∃ before op after, ops = before ++ op :: after ∧
          IsLag invocation history before op lag := by
  induction ops using List.reverseRecOn with
  | nil =>
    refine ⟨{}, rfl, ⟨fun _ _ => rfl, fun process k => ?_⟩, fun lag => ?_⟩
    · exact iff_of_false (AList.notMem_empty k) fun ⟨_, hop, _⟩ => List.not_mem_nil hop
    · refine iff_of_false List.not_mem_nil fun ⟨before, op, after, happ, _⟩ => ?_
      exact absurd happ.symm (by simp)
  | append_singleton ops op ih =>
    obtain ⟨state, hstate, hinteracted, hlags⟩ :=
      ih fun op hop => hinvoked op (List.mem_append_left _ hop)
    obtain ⟨state', hstep, hoffsets, hadded⟩ :=
      lagStep_spec (hinvoked op (List.mem_append_right _ (List.mem_singleton_self op)))
        (expiryTimes history) state
    have hinteracted' := hinteracted.snoc hoffsets
    refine ⟨state', ?_, hinteracted', fun lag => ?_⟩
    · rw [List.foldlM_append, hstate]
      change [op].foldlM (lagStep invocation (expiryTimes history)) state = .ok state'
      rw [List.foldlM_cons, hstep]
      rfl
    · rw [hadded, List.mem_append, hlags, mem_lagsAdded hinteracted', exists_split_snoc]

/-- In a history whose polls have invocations, the lags are exactly the times from the first
operation that shows a higher offset than the process has interacted with. The vectors have
no holes, so the loop back over one fills what is missing and touches nothing else. -/
theorem realtimeLag_spec {invocation : KafkaOp K V → Option (KafkaOp K V)}
    {history : List (KafkaOp K V)}
    (hinvoked : ∀ op ∈ history, op.isOkPoll = true → (invocation op).isSome) :
    (∃ lags, realtimeLag invocation history = .ok lags ∧
      ∀ lag, lag ∈ lags ↔ ∃ before op after, history = before ++ op :: after ∧
        IsLag invocation history before op lag) ∧
    ∀ before after, history = before ++ after → ∀ k,
      NoHoles (expiredOf (expiryTimes before) k) ∧
        ∀ time n, zipBackwards time n (expiredOf (expiryTimes before) k) =
          expiredOf (expiryTimes before) k ++
            List.replicate (n - (expiredOf (expiryTimes before) k).length) (some time) := by
  refine ⟨?_, fun before after _ k => ?_⟩
  · obtain ⟨state, hstate, -, hlags⟩ := foldlM_lagStep history hinvoked
    refine ⟨state.lags, ?_, hlags⟩
    rw [realtimeLag, hstate]
  · have hholes : NoHoles (expiredOf (expiryTimes before) k) :=
      noHoles_of_getElem? (getElem?_expiryTimes before k)
    exact ⟨hholes, zipBackwards_eq hholes⟩

/-! ## A process that has sent -/

/-- A process sends to key 0 at offset 3, and then polls without receiving anything. -/
def sendThenPoll : List (KafkaOp ℕ ℕ) :=
  [⟨0, 0, .int 0, .invoke, .assign [0]⟩, ⟨1, 0, .int 0, .ok, .assign [0]⟩,
    ⟨2, 1, .int 0, .invoke, .mops .send [.send 0 (.literal 7)]⟩,
    ⟨3, 2, .int 0, .ok, .mops .send [.send 0 (.pair (some 3) 7)]⟩,
    ⟨4, 10, .int 0, .invoke, .mops .poll [.poll none]⟩,
    ⟨5, 11, .int 0, .ok, .mops .poll [.poll (some ∅)]⟩]

/-- Its invocations are the operations just before the completions. -/
def sendThenPollInvocation (op : KafkaOp ℕ ℕ) : Option (KafkaOp ℕ ℕ) :=
  sendThenPoll[op.index - 1]?

theorem sendThenPoll_spec :
    ∃ lags, realtimeLag sendThenPollInvocation sendThenPoll = .ok lags ∧
      ∀ lag, lag ∈ lags ↔ ∃ before op after, sendThenPoll = before ++ op :: after ∧
        IsLag sendThenPollInvocation sendThenPoll before op lag :=
  (realtimeLag_spec (by decide)).1

/-- The highest offset of a key in any ok operation of a process since the key was last
taken away from it. -/
def touched (history : List (KafkaOp K V)) (process : Name) (k : K) : ℤ :=
  ((sinceDropped history process k).filter fun op => decide (op.type = .ok)).foldl
    (fun offset op => max offset (offsetAt (opMaxOffsets op) k)) (-1)

/-- The process has touched offset 3, beyond which there is nothing, but the poll has a lag
from the first operation that showed an offset. -/
theorem sendThenPoll_lag :
    touched sendThenPoll (.int 0) 0 = 3 ∧ exceededAt sendThenPoll 0 3 = none ∧
      realtimeLag sendThenPollInvocation sendThenPoll =
        .ok [⟨.int 0, 0, 10, 8⟩] ∧
      (8 : ℤ) ≠ lagSince 10 (exceededAt sendThenPoll 0 (touched sendThenPoll (.int 0) 0)) := by
  decide

end Jepsen.Tests.Kafka
