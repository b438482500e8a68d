/-
# Lost writes

A write is lost if its value should have been read and was not. What should have
been read of a key is bounded by the values that were: every value whose last
index is at most the greatest first index of a value that was read. The checker
skips read values whose offset is unknown, but not a key that has no others.
-/

import Jepsen.Tests.Kafka.LogIndex
import Jepsen.Tests.Kafka.VersionOrdersSpec

namespace Jepsen.Tests.Kafka

open Jepsen.Library

universe u v

/-- What the analysis may throw. -/
inductive Thrown (K : Type u) (V : Type v)
  | indexOutOfBounds
  /-- `{:type :no-writer-of}` -/
  | noWriterOf (key : K) (value : V)
  /-- `{:type :no-writer-of-value}` -/
  | noWriterOfValue (key : K) (value : V)
  deriving DecidableEq

/-- `(subvec v 0 end)` -/
def subvec {A : Type u} (v : List A) (stop : ℤ) : Option (List A) :=
  if 0 ≤ stop ∧ stop ≤ v.length then some (v.take stop.toNat) else none

/-- `(nth v i)` -/
def nth {A : Type u} (v : List A) (i : ℤ) : Option A :=
  if 0 ≤ i then v[i.toNat]? else none

variable {K : Type u} {V : Type v} [DecidableEq K] [LinearOrder V]

/-- A value that should have been read. -/
structure LostWrite (K : Type u) (V : Type v) where
  key : K
  value : V
  index : Option ℕ
  maxReadIndex : ℤ
  writer : KafkaOp K V
  maxRead : Option (KafkaOp K V)

section Cases

variable (order : SetOrder V) (orders : Assoc K (VersionOrder V))
  (readsByType : Assoc ClientType (Assoc K (Finset V)))
  (writerOf : Assoc K (Assoc V (KafkaOp K V))) (readersOf : Assoc K (Assoc V (List (KafkaOp K V))))

/-- `(:log (get version-orders k))` -/
def logOf (k : K) : Log V := ((orders.lookup k).map VersionOrder.log).getD []

/-- The latest of the earliest indices of some values, or -1. -/
def maxReadBound (log : Log V) (vs : Finset V) : ℤ :=
  ((order.walk vs).filterMap fun v => (logValueFirstIndex order log).lookup v).foldl
    (fun bound i => max bound i) (-1)

/-- `(filter (fn double-check [v] ...) lost)`, with the writer of each value that
is kept. -/
def doubleCheck (k : K) : List V → Except (Thrown K V) (List (V × KafkaOp K V))
  | [] => .ok []
  | v :: lost =>
      match Assoc.lookup₂ writerOf k v with
      | none => .error (.noWriterOf k v)
      | some w =>
          match doubleCheck k lost with
          | .error t => .error t
          | .ok checked =>
              .ok (if mustHaveCommitted readsByType w then (v, w) :: checked else checked)

/-- The lost writes of one key, of which the values `vs` were read. -/
def keyLostWrites (k : K) (vs : Finset V) : Except (Thrown K V) (List (LostWrite K V)) :=
  let log := logOf orders k
  let lastIndexValues := logLastIndexValues order log
  let bound := maxReadBound order log vs
  match subvec lastIndexValues (bound + 1) with
  | none => .error .indexOutOfBounds
  | some observed =>
      let mustRead := (observed.flatMap fun b => b.walk order).eraseDups
      match nth lastIndexValues bound with
      | none => .error .indexOutOfBounds
      | some last =>
          let maxRead := ((last.walk order).head?.bind fun v =>
            Assoc.lookup₂ readersOf k v).bind List.head?
          match doubleCheck readsByType writerOf k (mustRead.filter fun v => decide (v ∉ vs)) with
          | .error t => .error t
          | .ok lost => .ok (lost.map fun (v, w) =>
              { key := k
                value := v
                index := (logValueFirstIndex order log).lookup v
                maxReadIndex := bound
                writer := w
                maxRead := maxRead })

/-- `lost-write-cases`, its sequence realized to the end. -/
def lostWriteCases : Except (Thrown K V) (Option (List (LostWrite K V))) :=
  match Assoc.traverseEntries (keyLostWrites order orders readsByType writerOf readersOf)
      (okReads readsByType).entries with
  | .error t => .error t
  | .ok cases => .ok (seq (cases.flatMap Sigma.snd))

end Cases

/-- `lost-write-cases`, on the analysis of a history. -/
def lostWrites (order : SetOrder V) (plan : FoldPlan (KafkaOp K V))
    (history : List (KafkaOp K V)) : Except (Thrown K V) (Option (List (LostWrite K V))) :=
  lostWriteCases order (versionOrders order plan (readsByType history)).orders
    (readsByType history) (writerOf history) (readersOf history)

/-! ## The bound -/

omit [LinearOrder V] in
theorem foldl_max (l : List ℕ) (b : ℤ) :
    let m := l.foldl (fun bound i => max bound (i : ℤ)) b
    (m = b ∨ ∃ i ∈ l, m = i) ∧ b ≤ m ∧ ∀ i ∈ l, (i : ℤ) ≤ m := by
  induction l generalizing b with
  | nil => exact ⟨Or.inl rfl, le_refl b, nofun⟩
  | cons j l ih =>
    obtain ⟨hattained, hle, hall⟩ := ih (max b j)
    refine ⟨?_, (le_max_left b j).trans hle, ?_⟩
    · cases hattained with
      | inl heq =>
        by_cases hj : b ≤ j
        · exact Or.inr ⟨j, List.mem_cons_self, heq.trans (max_eq_right hj)⟩
        · exact Or.inl (heq.trans (max_eq_left (not_le.mp hj).le))
      | inr hmem =>
        obtain ⟨i, hi, heq⟩ := hmem
        exact Or.inr ⟨i, List.mem_cons_of_mem j hi, heq⟩
    · intro i hi
      cases List.mem_cons.mp hi with
      | inl heq =>
        subst heq
        exact (le_max_right b i).trans hle
      | inr htail => exact hall i htail

/-- Index `B` is the greatest first index of the values `vs`. -/
def ReadUpTo (log : Log V) (vs : Finset V) (B : ℕ) : Prop :=
  (∃ v ∈ vs, FirstIndex log.reduceOption v B) ∧
    ∀ v ∈ vs, ∀ i, FirstIndex log.reduceOption v i → i ≤ B

theorem mem_firstIndexes (order : SetOrder V) (log : Log V) (vs : Finset V) (i : ℕ) :
    (i ∈ (order.walk vs).filterMap fun v => (logValueFirstIndex order log).lookup v) ↔
      ∃ v ∈ vs, FirstIndex log.reduceOption v i := by
  simp only [List.mem_filterMap, order.mem_walk, lookup_logValueFirstIndex]

theorem maxReadBound_eq (order : SetOrder V) {log : Log V} {vs : Finset V} {B : ℕ}
    (hbound : ReadUpTo log vs B) : maxReadBound order log vs = B := by
  obtain ⟨⟨v, hv, hfirst⟩, hgreatest⟩ := hbound
  obtain ⟨hattained, -, hall⟩ := foldl_max
    ((order.walk vs).filterMap fun v => (logValueFirstIndex order log).lookup v) (-1)
  have hge := hall B ((mem_firstIndexes order log vs B).mpr ⟨v, hv, hfirst⟩)
  cases hattained with
  | inl hneg =>
    rw [hneg] at hge
    omega
  | inr hmem =>
    obtain ⟨i, hi, heq⟩ := hmem
    obtain ⟨v', hv', hfirst'⟩ := (mem_firstIndexes order log vs i).mp hi
    have hle := hgreatest v' hv' i hfirst'
    unfold maxReadBound
    omega

/-- Either some value that was read has an index, and then there is a greatest, or
the bound is -1. -/
theorem maxReadBound_cases (order : SetOrder V) (log : Log V) (vs : Finset V) :
    (∃ B, ReadUpTo log vs B ∧ maxReadBound order log vs = B) ∨
      (∀ v ∈ vs, ∀ i, ¬ FirstIndex log.reduceOption v i) ∧ maxReadBound order log vs = -1 := by
  obtain ⟨hattained, -, hall⟩ := foldl_max
    ((order.walk vs).filterMap fun v => (logValueFirstIndex order log).lookup v) (-1)
  cases hattained with
  | inl hneg =>
    right
    refine ⟨?_, hneg⟩
    intro v hv i hfirst
    have hge := hall i ((mem_firstIndexes order log vs i).mpr ⟨v, hv, hfirst⟩)
    rw [hneg] at hge
    omega
  | inr hmem =>
    left
    obtain ⟨B, hB, heq⟩ := hmem
    refine ⟨B, ⟨(mem_firstIndexes order log vs B).mp hB, ?_⟩, heq⟩
    intro v hv i hfirst
    have hle := hall i ((mem_firstIndexes order log vs i).mpr ⟨v, hv, hfirst⟩)
    rw [heq] at hle
    omega

/-- The prefix of the values to be read never ends behind the vector. -/
theorem maxReadBound_lt (order : SetOrder V) (log : Log V) (vs : Finset V) :
    maxReadBound order log vs + 1 ≤ (logLastIndexValues order log).length := by
  rw [length_logLastIndexValues]
  cases maxReadBound_cases order log vs with
  | inl hsome =>
    obtain ⟨B, ⟨⟨v, -, ⟨s, hget, -⟩, -⟩, -⟩, heq⟩ := hsome
    have hlt := lt_length_of_get hget
    omega
  | inr hnone => omega

/-! ## Lost writes of a key -/

section Key

variable (order : SetOrder V) (orders : Assoc K (VersionOrder V))
  (readsByType : Assoc ClientType (Assoc K (Finset V)))
  (writerOf : Assoc K (Assoc V (KafkaOp K V))) (readersOf : Assoc K (Assoc V (List (KafkaOp K V))))

theorem doubleCheck_eq_ok {k : K} {lost : List V}
    (hwriter : ∀ v ∈ lost, ∃ w, Assoc.lookup₂ writerOf k v = some w) :
    ∃ checked, doubleCheck readsByType writerOf k lost = .ok checked ∧
      ∀ v w, (v, w) ∈ checked ↔ v ∈ lost ∧ Assoc.lookup₂ writerOf k v = some w ∧
        MustHaveCommitted readsByType w := by
  induction lost with
  | nil => exact ⟨[], rfl, by simp⟩
  | cons v lost ih =>
    obtain ⟨w, hw⟩ := hwriter v List.mem_cons_self
    obtain ⟨checked, hchecked, hspec⟩ := ih fun v' hv' => hwriter v' (List.mem_cons_of_mem v hv')
    rw [doubleCheck, hw, hchecked]
    refine ⟨_, rfl, ?_⟩
    intro v' w'
    by_cases hcommitted : MustHaveCommitted readsByType w
    · rw [if_pos (mustHaveCommitted_iff.mpr hcommitted), List.mem_cons, hspec, List.mem_cons]
      constructor
      · intro h
        cases h with
        | inl heq =>
          cases heq
          exact ⟨Or.inl rfl, hw, hcommitted⟩
        | inr htail => exact ⟨Or.inr htail.1, htail.2⟩
      · rintro ⟨hmem, hw', hcommitted'⟩
        cases hmem with
        | inl heq =>
          subst heq
          rw [hw] at hw'
          cases hw'
          exact Or.inl rfl
        | inr htail => exact Or.inr ⟨htail, hw', hcommitted'⟩
    · rw [if_neg (mt mustHaveCommitted_iff.mp hcommitted), hspec, List.mem_cons]
      constructor
      · rintro ⟨hmem, hrest⟩
        exact ⟨Or.inr hmem, hrest⟩
      · rintro ⟨hmem, hw', hcommitted'⟩
        cases hmem with
        | inl heq =>
          subst heq
          rw [hw] at hw'
          cases hw'
          exact absurd hcommitted' hcommitted
        | inr htail => exact ⟨htail, hw', hcommitted'⟩

/-- The values of a prefix of the vector are those whose last index is in it. -/
theorem mem_observed {log : Log V} {B : ℕ} {v : V} :
    v ∈ ((logLastIndexValues order log).take (B + 1)).flatMap (fun b => b.walk order) ↔
      ∃ i, LastIndex log.reduceOption v i ∧ i ≤ B := by
  rw [List.mem_flatMap]
  constructor
  · rintro ⟨b, hb, hv⟩
    obtain ⟨i, hget⟩ := List.mem_iff_getElem?.mp hb
    rw [List.getElem?_take] at hget
    split at hget
    · rename_i hlt
      refine ⟨i, ?_, Nat.le_of_lt_succ hlt⟩
      rw [← mem_bucketAt_logLastIndexValues order, bucketAt, hget]
      exact hv
    · cases hget
  · rintro ⟨i, hlast, hle⟩
    rw [← mem_bucketAt_logLastIndexValues order, bucketAt] at hlast
    cases hget : (logLastIndexValues order log)[i]? with
    | none =>
      rw [hget] at hlast
      cases hlast
    | some b =>
      rw [hget] at hlast
      refine ⟨b, List.mem_iff_getElem?.mpr ⟨i, ?_⟩, hlast⟩
      rw [List.getElem?_take, if_pos (Nat.lt_succ_of_le hle)]
      exact hget

/-- What makes a value a lost write of a key. -/
def IsLost (k : K) (vs : Finset V) (B : ℕ) (v : V) : Prop :=
  (∃ i, LastIndex (logOf orders k).reduceOption v i ∧ i ≤ B) ∧ v ∉ vs ∧
    ∃ w, Assoc.lookup₂ writerOf k v = some w ∧ MustHaveCommitted readsByType w

/-- With a bound, the lost writes of a key are found. -/
theorem keyLostWrites_eq_ok {k : K} {vs : Finset V} {B : ℕ}
    (hbound : ReadUpTo (logOf orders k) vs B)
    (hwriter : ∀ v i, LastIndex (logOf orders k).reduceOption v i →
      ∃ w, Assoc.lookup₂ writerOf k v = some w) :
    ∃ lost, keyLostWrites order orders readsByType writerOf readersOf k vs = .ok lost ∧
      (∀ e ∈ lost, e.key = k) ∧
      ∀ v, (∃ e ∈ lost, e.value = v) ↔ IsLost orders readsByType writerOf k vs B v := by
  have hB := maxReadBound_eq order hbound
  have hlt := maxReadBound_lt order (logOf orders k) vs
  rw [hB] at hlt
  have hsubvec : subvec (logLastIndexValues order (logOf orders k)) ((B : ℤ) + 1) =
      some ((logLastIndexValues order (logOf orders k)).take (B + 1)) := by
    rw [subvec, if_pos ⟨by omega, hlt⟩]
    rfl
  have hlength : B < (logLastIndexValues order (logOf orders k)).length := by omega
  have hnth : nth (logLastIndexValues order (logOf orders k)) (B : ℤ) =
      some (logLastIndexValues order (logOf orders k))[B] := by
    rw [nth, if_pos (by omega), Int.toNat_natCast, List.getElem?_eq_getElem hlength]
  have hmem : ∀ v, v ∈ ((((logLastIndexValues order (logOf orders k)).take (B + 1)).flatMap
      (fun b => b.walk order)).eraseDups.filter fun v => decide (v ∉ vs)) ↔
        (∃ i, LastIndex (logOf orders k).reduceOption v i ∧ i ≤ B) ∧ v ∉ vs := by
    intro v
    rw [List.mem_filter, List.mem_eraseDups, mem_observed, decide_eq_true_iff]
  obtain ⟨checked, hchecked, hspec⟩ := doubleCheck_eq_ok readsByType writerOf (k := k)
    fun v hv => by
      obtain ⟨⟨i, hlast, -⟩, -⟩ := (hmem v).mp hv
      exact hwriter v i hlast
  unfold keyLostWrites
  simp only [hB, hsubvec, hnth, hchecked]
  refine ⟨_, rfl, ?_, ?_⟩
  · intro e he
    obtain ⟨x, -, rfl⟩ := List.mem_map.mp he
    rfl
  · intro v
    unfold IsLost
    constructor
    · rintro ⟨e, he, hvalue⟩
      obtain ⟨x, hx, rfl⟩ := List.mem_map.mp he
      obtain ⟨hlost, hw, hcommitted⟩ := (hspec x.1 x.2).mp hx
      obtain ⟨hlast, hnot⟩ := (hmem x.1).mp hlost
      rw [← hvalue]
      exact ⟨hlast, hnot, x.2, hw, hcommitted⟩
    · rintro ⟨hlast, hnot, w, hw, hcommitted⟩
      have hx := (hspec v w).mpr ⟨(hmem v).mpr ⟨hlast, hnot⟩, hw, hcommitted⟩
      exact ⟨_, List.mem_map_of_mem hx, rfl⟩

/-- Without one, looking for the operation that read furthest fails. -/
theorem keyLostWrites_eq_error {k : K} {vs : Finset V}
    (hunknown : ∀ v ∈ vs, ∀ i, ¬ FirstIndex (logOf orders k).reduceOption v i) :
    keyLostWrites order orders readsByType writerOf readersOf k vs = .error .indexOutOfBounds := by
  have hB : maxReadBound order (logOf orders k) vs = -1 := by
    cases maxReadBound_cases order (logOf orders k) vs with
    | inl hsome =>
      obtain ⟨B, ⟨⟨v, hv, hfirst⟩, -⟩, -⟩ := hsome
      exact absurd hfirst (hunknown v hv B)
    | inr hnone => exact hnone.2
  have hsubvec : subvec (logLastIndexValues order (logOf orders k)) ((-1 : ℤ) + 1) = some [] := by
    rw [subvec, if_pos ⟨by omega, by omega⟩]
    rfl
  have hnth : nth (logLastIndexValues order (logOf orders k)) (-1 : ℤ) = none := by
    rw [nth, if_neg (by omega)]
  unfold keyLostWrites
  simp only [hB, hsubvec, hnth]

end Key

/-! ## Lost writes of a history -/

/-- Value `v` is in the log. -/
def Logged (log : Log V) (v : V) : Prop := ∃ o, Holds log o v

/-- Index `B` is the greatest first index of a value some ok operation read. -/
def IsReadBound (history : List (KafkaOp K V)) (log : Log V) (k : K) (B : ℕ) : Prop :=
  (∃ op ∈ history, op.type = .ok ∧ ∃ v ∈ op.readsOf k, FirstIndex log.reduceOption v B) ∧
    ∀ op ∈ history, op.type = .ok → ∀ v ∈ op.readsOf k, ∀ i,
      FirstIndex log.reduceOption v i → i ≤ B

/-- Value `v` of key `k` should have been read and was not: its last index is at
most the bound, and its writer must have committed. -/
def LostOn (history : List (KafkaOp K V)) (log : Log V) (k : K) (B : ℕ) (v : V) : Prop :=
  (∃ i, LastIndex log.reduceOption v i ∧ i ≤ B) ∧
    (∀ op ∈ history, op.type = .ok → v ∉ op.readsOf k) ∧
    ∃ w, lastSender history k v = some w ∧ MustHaveCommitted (readsByType history) w

/-- The cases are the lost writes of every key that has a bound. -/
def LostWritesExact (history : List (KafkaOp K V)) (orders : Assoc K (VersionOrder V))
    (cases : List (LostWrite K V)) : Prop :=
  ∀ k B, IsReadBound history (logOf orders k) k B → ∀ v,
    (∃ e ∈ cases, e.key = k ∧ e.value = v) ↔ LostOn history (logOf orders k) k B v

omit [LinearOrder V] in
theorem mem_reduceOption_iff {log : Log V} {v : V} :
    (∃ s, s ∈ log.reduceOption ∧ v ∈ s.1) ↔ Logged log v := by
  constructor
  · rintro ⟨s, hs, hv⟩
    obtain ⟨o, hget⟩ := List.mem_iff_getElem?.mp (List.reduceOption_mem_iff.mp hs)
    exact ⟨o, s, hget, hv⟩
  · rintro ⟨o, s, hget, hv⟩
    exact ⟨s, List.reduceOption_mem_iff.mpr (List.mem_of_getElem? hget), hv⟩

theorem exists_firstIndex_iff {log : Log V} {v : V} :
    (∃ i, FirstIndex log.reduceOption v i) ↔ Logged log v := by
  rw [← mem_reduceOption_iff]
  constructor
  · rintro ⟨i, ⟨s, hget, hv⟩, -⟩
    exact ⟨s, List.mem_of_getElem? hget, hv⟩
  · rintro ⟨s, hs, hv⟩
    obtain ⟨i, hget⟩ := List.mem_iff_getElem?.mp hs
    have hex : ∃ (i : ℕ) (s : NonemptySet V), log.reduceOption[i]? = some s ∧ v ∈ s.1 :=
      ⟨i, s, hget, hv⟩
    classical
    refine ⟨Nat.find hex, Nat.find_spec hex, ?_⟩
    intro j hj t ht hv'
    exact Nat.find_min hex hj ⟨t, ht, hv'⟩

theorem readUpTo_iff {history : List (KafkaOp K V)} {log : Log V} {k : K} {B : ℕ} :
    ReadUpTo log ((okReads (readsByType history)).valuesAt k) B ↔ IsReadBound history log k B := by
  unfold ReadUpTo IsReadBound
  simp only [mem_valuesAt_okReads]
  constructor
  · rintro ⟨⟨v, ⟨op, hop, hok, hv⟩, hfirst⟩, hall⟩
    exact ⟨⟨op, hop, hok, v, hv, hfirst⟩,
      fun op' hop' hok' v' hv' i hi => hall v' ⟨op', hop', hok', hv'⟩ i hi⟩
  · rintro ⟨⟨op, hop, hok, v, hv, hfirst⟩, hall⟩
    refine ⟨⟨v, ⟨op, hop, hok, hv⟩, hfirst⟩, ?_⟩
    rintro v' ⟨op', hop', hok', hv'⟩ i hi
    exact hall op' hop' hok' v' hv' i hi

theorem isLost_iff {history : List (KafkaOp K V)} {orders : Assoc K (VersionOrder V)} {k : K}
    {B : ℕ} {v : V} :
    IsLost orders (readsByType history) (writerOf history) k
        ((okReads (readsByType history)).valuesAt k) B v ↔
      LostOn history (logOf orders k) k B v := by
  unfold IsLost LostOn
  rw [mem_valuesAt_okReads, lookup₂_writerOf]
  have hnot : (¬ ∃ op ∈ history, op.type = .ok ∧ v ∈ op.readsOf k) ↔
      ∀ op ∈ history, op.type = .ok → v ∉ op.readsOf k := by
    constructor
    · intro hnone op hop hok hv
      exact hnone ⟨op, hop, hok, hv⟩
    · rintro hall ⟨op, hop, hok, hv⟩
      exact hall op hop hok hv
  rw [hnot]

/-- The lost writes are found exactly if every key that an ok operation polled has a
value that was read by one and whose offset is known; the prefix of the values to
be read never ends behind the vector. -/
theorem lostWrites_exact_iff (order : SetOrder V) (plan : FoldPlan (KafkaOp K V))
    (history : List (KafkaOp K V))
    (hwriter : ∀ k v,
      Logged (logOf (versionOrders order plan (readsByType history)).orders k) v →
        ∃ w, lastSender history k v = some w) :
    let orders := (versionOrders order plan (readsByType history)).orders
    ((∃ cases, lostWrites order plan history = .ok cases ∧
        LostWritesExact history orders (cases.getD [])) ↔
      ∀ k, (∃ op ∈ history, op.type = .ok ∧ op.Polls k) →
        ∃ op ∈ history, op.type = .ok ∧ ∃ v ∈ op.readsOf k, Logged (logOf orders k) v) ∧
    ∀ k, maxReadBound order (logOf orders k) ((okReads (readsByType history)).valuesAt k) + 1 ≤
      (logLastIndexValues order (logOf orders k)).length := by
  intro orders
  have hentry : ∀ k vs, (⟨k, vs⟩ : Σ _ : K, Finset V) ∈ (okReads (readsByType history)).entries →
      vs = (okReads (readsByType history)).valuesAt k := by
    intro k vs hmem
    rw [Assoc.valuesAt, Assoc.mem_entries_iff.mp hmem]
    rfl
  have hwriterOf : ∀ k v i, LastIndex (logOf orders k).reduceOption v i →
      ∃ w, Assoc.lookup₂ (writerOf history) k v = some w := by
    rintro k v i ⟨⟨s, hget, hv⟩, -⟩
    rw [lookup₂_writerOf]
    exact hwriter k v (mem_reduceOption_iff.mp ⟨s, List.mem_of_getElem? hget, hv⟩)
  have hkey : ∀ k B, IsReadBound history (logOf orders k) k B →
      ∃ lost, keyLostWrites order orders (readsByType history) (writerOf history)
          (readersOf history) k ((okReads (readsByType history)).valuesAt k) = .ok lost ∧
        (∀ e ∈ lost, e.key = k) ∧
        ∀ v, (∃ e ∈ lost, e.value = v) ↔ LostOn history (logOf orders k) k B v := by
    intro k B hbound
    obtain ⟨lost, hlost, hkeys, hspec⟩ := keyLostWrites_eq_ok order orders (readsByType history)
      (writerOf history) (readersOf history) (readUpTo_iff.mpr hbound) (hwriterOf k)
    exact ⟨lost, hlost, hkeys, fun v => (hspec v).trans isLost_iff⟩
  refine ⟨⟨?_, ?_⟩, fun k => maxReadBound_lt order _ _⟩
  · rintro ⟨cases, hcases, -⟩ k hpolled
    rw [← mem_okReads, ← AList.lookup_isSome] at hpolled
    obtain ⟨vs, hlookup⟩ := Option.isSome_iff_exists.mp hpolled
    have hmem : (⟨k, vs⟩ : Σ _ : K, Finset V) ∈ (okReads (readsByType history)).entries :=
      Assoc.mem_entries_iff.mpr hlookup
    have hall : ∀ e ∈ (okReads (readsByType history)).entries, ∃ lost,
        keyLostWrites order orders (readsByType history) (writerOf history) (readersOf history)
          e.1 e.2 = .ok lost := by
      rw [← Assoc.exists_traverseEntries_eq_ok]
      unfold lostWrites lostWriteCases at hcases
      split at hcases
      · cases hcases
      · rename_i found hfound
        exact ⟨found, hfound⟩
    obtain ⟨lost, hlost⟩ := hall _ hmem
    by_contra hnone
    have hunknown : ∀ v ∈ vs, ∀ i, ¬ FirstIndex (logOf orders k).reduceOption v i := by
      intro v hv i hfirst
      rw [hentry k vs hmem, mem_valuesAt_okReads] at hv
      obtain ⟨op, hop, hok, hread⟩ := hv
      exact hnone ⟨op, hop, hok, v, hread, exists_firstIndex_iff.mp ⟨i, hfirst⟩⟩
    have herror := keyLostWrites_eq_error order orders (readsByType history) (writerOf history)
      (readersOf history) hunknown
    rw [herror] at hlost
    cases hlost
  · intro hknown
    have hbound : ∀ k, k ∈ okReads (readsByType history) →
        ∃ B, IsReadBound history (logOf orders k) k B := by
      intro k hmem
      obtain ⟨op, hop, hok, v, hv, hlogged⟩ := hknown k (mem_okReads.mp hmem)
      obtain ⟨i, hfirst⟩ := exists_firstIndex_iff.mpr hlogged
      cases maxReadBound_cases order (logOf orders k)
          ((okReads (readsByType history)).valuesAt k) with
      | inl hsome =>
        obtain ⟨B, hB, -⟩ := hsome
        exact ⟨B, readUpTo_iff.mp hB⟩
      | inr hnone =>
        exact absurd hfirst
          (hnone.1 v (mem_valuesAt_okReads.mpr ⟨op, hop, hok, hv⟩) i)
    have hall : ∀ e ∈ (okReads (readsByType history)).entries, ∃ lost,
        keyLostWrites order orders (readsByType history) (writerOf history) (readersOf history)
          e.1 e.2 = .ok lost := by
      intro e he
      obtain ⟨B, hB⟩ := hbound e.1 (AList.mem_keys.mpr (List.mem_map_of_mem he))
      obtain ⟨lost, hlost, -⟩ := hkey e.1 B hB
      rw [hentry e.1 e.2 he]
      exact ⟨lost, hlost⟩
    obtain ⟨found, hfound⟩ := Assoc.exists_traverseEntries_eq_ok.mpr hall
    refine ⟨seq (found.flatMap Sigma.snd), ?_, ?_⟩
    · unfold lostWrites lostWriteCases
      rw [hfound]
    · intro k B hB v
      rw [getD_seq]
      obtain ⟨lost, hlost, hkeys, hspec⟩ := hkey k B hB
      rw [← hspec]
      constructor
      · rintro ⟨e, he, hk, hvalue⟩
        obtain ⟨entry, hentryMem, he⟩ := List.mem_flatMap.mp he
        obtain ⟨vs, hmem, hlost'⟩ := (Assoc.mem_of_traverseEntries_eq_ok hfound entry).mp hentryMem
        have hB' := hbound entry.1 (AList.mem_keys.mpr (List.mem_map_of_mem hmem))
        obtain ⟨B', hB'⟩ := hB'
        obtain ⟨lost', hlost'', hkeys', -⟩ := hkey entry.1 B' hB'
        rw [hentry entry.1 vs hmem, hlost''] at hlost'
        cases hlost'
        have hsame : entry.1 = k := (hkeys' e he).symm.trans hk
        rw [hsame, hlost] at hlost''
        cases hlost''
        exact ⟨e, he, hvalue⟩
      · rintro ⟨e, he, hvalue⟩
        obtain ⟨⟨op, hop, hok, v', hv', -⟩, -⟩ := hB
        have hmem : k ∈ okReads (readsByType history) :=
          mem_okReads.mpr ⟨op, hop, hok, polls_of_mem_readsOf hv'⟩
        obtain ⟨vs, hlookup⟩ := Option.isSome_iff_exists.mp (AList.lookup_isSome.mpr hmem)
        have hmemEntry : (⟨k, vs⟩ : Σ _ : K, Finset V) ∈
            (okReads (readsByType history)).entries := Assoc.mem_entries_iff.mpr hlookup
        have hfoundEntry : (⟨k, lost⟩ : Σ _ : K, List (LostWrite K V)) ∈ found := by
          rw [Assoc.mem_of_traverseEntries_eq_ok hfound]
          exact ⟨vs, hmemEntry, by rw [hentry k vs hmemEntry]; exact hlost⟩
        exact ⟨e, List.mem_flatMap.mpr ⟨_, hfoundEntry, he⟩, hkeys e he, hvalue⟩

theorem reported_of_logged {order : SetOrder V} {plan : FoldPlan (KafkaOp K V)}
    {readsByType : Assoc ClientType (Assoc K (Finset V))} {k : K} {v : V}
    (hlogged : Logged (logOf (versionOrders order plan readsByType).orders k) v) :
    ∃ o, Reported plan.elements readsByType k o v := by
  obtain ⟨o, s, hget, hv⟩ := hlogged
  unfold logOf at hget
  cases hlookup : (versionOrders order plan readsByType).orders.lookup k with
  | none =>
    rw [hlookup] at hget
    cases hget
  | some vorder =>
    rw [hlookup] at hget
    obtain ⟨log, hdatafied, rfl⟩ := mem_orders_entries.mp hlookup
    exact ⟨o, (holds_iff_reported (List.Perm.refl _) hdatafied o v).mp ⟨s, hget, hv⟩⟩

theorem isReadBound_of_eq (order : SetOrder V) {history : List (KafkaOp K V)} {log : Log V}
    {k : K} {B : ℕ}
    (hbound : maxReadBound order log ((okReads (readsByType history)).valuesAt k) = B) :
    IsReadBound history log k B := by
  cases maxReadBound_cases order log ((okReads (readsByType history)).valuesAt k) with
  | inl hsome =>
    obtain ⟨B', hB', heq⟩ := hsome
    have hsame : B' = B := by omega
    rw [← hsame]
    exact readUpTo_iff.mp hB'
  | inr hnone => omega

/-! ## A key that was polled in vain -/

/-- Values 10 and 11 are sent to key 0, and only 11 is read. -/
def skippedSend : List (KafkaOp ℕ ℕ) :=
  [⟨0, 0, .int 0, .ok, .mops .send [.send 0 (.pair (some 0) 10)]⟩,
    ⟨1, 1, .int 0, .ok, .mops .send [.send 0 (.pair (some 1) 11)]⟩,
    ⟨2, 2, .int 1, .ok, .mops .poll [.poll (some (AList.singleton 0 [(some 1, 11)]))]⟩]

/-- The same, and then key 1 is polled and has nothing. -/
def skippedSendEmptyPoll : List (KafkaOp ℕ ℕ) :=
  skippedSend ++
    [⟨3, 3, .int 1, .ok, .mops .poll [.poll (some (AList.singleton 1 []))]⟩]

theorem written_of_reported {history : List (KafkaOp ℕ ℕ)}
    (hmem : ∀ op ∈ history, op ∈ skippedSendEmptyPoll) {k o v : ℕ}
    (hreported : Reported history (readsByType history) k o v) :
    k = 0 ∧ (v = 10 ∨ v = 11) := by
  obtain ⟨op, hop, f, value, hcall, hmop⟩ := hreported
  have hop' := hmem op hop
  simp only [skippedSendEmptyPoll, skippedSend, List.cons_append, List.nil_append,
    List.mem_cons, List.not_mem_nil, or_false] at hop'
  rcases hop' with rfl | rfl | rfl | rfl <;> cases hcall <;>
    simp only [List.mem_singleton, Mop.send.injEq, Sent.pair.injEq, Mop.poll.injEq,
      reduceCtorEq, false_and, and_false, exists_false, or_false, false_or, Option.some.injEq] at hmop
  · exact ⟨hmop.2.1, Or.inl hmop.2.2.2⟩
  · exact ⟨hmop.2.1, Or.inr hmop.2.2.2⟩
  · obtain ⟨reads, pairs, rfl, hlookup, hpair⟩ := hmop
    have hentry := Assoc.mem_entries_iff.mpr hlookup
    cases List.mem_singleton.mp hentry
    cases List.mem_singleton.mp hpair
    exact ⟨rfl, Or.inr rfl⟩
  · obtain ⟨reads, pairs, rfl, hlookup, hpair⟩ := hmop
    have hentry := Assoc.mem_entries_iff.mpr hlookup
    cases List.mem_singleton.mp hentry
    cases hpair

theorem lostWrites_exact_iff_skippedSend :
    ∃ cases, lostWrites (.ascending ℕ) (.chunk skippedSend) skippedSend = .ok cases ∧
      LostWritesExact skippedSend
        (versionOrders (.ascending ℕ) (.chunk skippedSend) (readsByType skippedSend)).orders
        (cases.getD []) := by
  apply (lostWrites_exact_iff (.ascending ℕ) (.chunk skippedSend) skippedSend ?_).1.mpr
  · rintro k ⟨op, hop, -, hpolls⟩
    have hk : k = 0 := by
      rw [← mem_opReads] at hpolls
      simp only [skippedSend, List.mem_cons, List.not_mem_nil, or_false] at hop
      rcases hop with rfl | rfl | rfl
      · cases hpolls
      · cases hpolls
      · exact List.mem_singleton.mp (AList.mem_keys.mp hpolls)
    subst hk
    exact ⟨_, List.mem_cons_of_mem _ (List.mem_cons_of_mem _ List.mem_cons_self), rfl, 11,
      List.mem_singleton_self 11, 1, .single 11, rfl,
      Finset.mem_singleton_self 11⟩
  · intro k v hlogged
    obtain ⟨o, hreported⟩ := reported_of_logged hlogged
    have hmem : ∀ op ∈ skippedSend, op ∈ skippedSendEmptyPoll :=
      fun op hop => List.mem_append_left _ hop
    obtain ⟨rfl, rfl | rfl⟩ := written_of_reported hmem hreported
    · exact ⟨_, rfl⟩
    · exact ⟨_, rfl⟩

/-- Every logged value has a writer, and value 10 of key 0, which has a bound, should
have been read; but nothing is found, since key 1 was polled in vain. -/
theorem emptyPoll_lostWrites_throws :
    let orders := (versionOrders (.ascending ℕ) (.chunk skippedSendEmptyPoll)
      (readsByType skippedSendEmptyPoll)).orders
    (∀ k v, Logged (logOf orders k) v → ∃ w, lastSender skippedSendEmptyPoll k v = some w) ∧
      IsReadBound skippedSendEmptyPoll (logOf orders 0) 0 1 ∧
      LostOn skippedSendEmptyPoll (logOf orders 0) 0 1 10 ∧
      lostWrites (.ascending ℕ) (.chunk skippedSendEmptyPoll) skippedSendEmptyPoll =
        .error .indexOutOfBounds := by
  intro orders
  refine ⟨?_, isReadBound_of_eq (.ascending ℕ) rfl, ⟨⟨0, ?_, Nat.zero_le 1⟩, ?_, ?_⟩, rfl⟩
  · intro k v hlogged
    obtain ⟨o, hreported⟩ := reported_of_logged hlogged
    obtain ⟨rfl, rfl | rfl⟩ := written_of_reported (fun op hop => hop) hreported
    · exact ⟨_, rfl⟩
    · exact ⟨_, rfl⟩
  · exact (lookup_latestIndex (.ascending ℕ) _ _ _).mp rfl
  · decide
  · exact ⟨_, rfl, Or.inl rfl⟩

/-! ## Accesses within bounds -/

/-- The prefix and the element that the search for a key's lost writes takes from the
vector of last indexes exist. -/
def AccessesInBounds (order : SetOrder V) (log : Log V) (vs : Finset V) : Prop :=
  (subvec (logLastIndexValues order log) (maxReadBound order log vs + 1)).isSome ∧
    (nth (logLastIndexValues order log) (maxReadBound order log vs)).isSome

/-- The accesses are within bounds if and only if some value that was read has an index. -/
theorem accessesInBounds_iff (order : SetOrder V) {log : Log V} {vs : Finset V} :
    AccessesInBounds order log vs ↔ ∃ v ∈ vs, Logged log v := by
  have hlt := maxReadBound_lt order log vs
  cases maxReadBound_cases order log vs with
  | inl hsome =>
    obtain ⟨B, ⟨⟨v, hv, hfirst⟩, -⟩, heq⟩ := hsome
    refine iff_of_true ?_ ⟨v, hv, exists_firstIndex_iff.mp ⟨B, hfirst⟩⟩
    rw [heq] at hlt
    have hlength : B < (logLastIndexValues order log).length := by omega
    rw [AccessesInBounds, heq, subvec, nth, if_pos ⟨by omega, hlt⟩, if_pos (by omega),
      Int.toNat_natCast, List.getElem?_eq_getElem hlength]
    exact ⟨rfl, rfl⟩
  | inr hnone =>
    obtain ⟨hunknown, heq⟩ := hnone
    refine iff_of_false ?_ ?_
    · rw [AccessesInBounds, heq, nth, if_neg (by omega)]
      exact fun h => nomatch h.2
    · rintro ⟨v, hv, hlogged⟩
      obtain ⟨i, hfirst⟩ := exists_firstIndex_iff.mpr hlogged
      exact hunknown v hv i hfirst

omit [DecidableEq K] [LinearOrder V] in
theorem exists_of_traverseEntries_eq_error {A B ε : Type*} {f : K → A → Except ε B}
    {l : List (Σ _ : K, A)} {t : ε} (herror : Assoc.traverseEntries f l = .error t) :
    ∃ e ∈ l, f e.1 e.2 = .error t := by
  induction l with
  | nil => cases herror
  | cons e l ih =>
    rw [Assoc.traverseEntries] at herror
    cases hhead : f e.1 e.2 with
    | error t' =>
      rw [hhead] at herror
      rw [Except.error.inj herror] at hhead
      exact ⟨e, List.mem_cons_self, hhead⟩
    | ok w =>
      rw [hhead] at herror
      cases htail : Assoc.traverseEntries f l with
      | error t' =>
        rw [htail] at herror
        rw [Except.error.inj herror] at htail
        obtain ⟨e', he', hthrown⟩ := ih htail
        exact ⟨e', List.mem_cons_of_mem _ he', hthrown⟩
      | ok l' =>
        rw [htail] at herror
        cases herror

/-- `double-check` throws no index error. -/
theorem doubleCheck_ne_indexOutOfBounds
    {readsByType : Assoc ClientType (Assoc K (Finset V))}
    {writerOf : Assoc K (Assoc V (KafkaOp K V))} {k : K} {lost : List V} :
    doubleCheck readsByType writerOf k lost ≠ .error .indexOutOfBounds := by
  induction lost with
  | nil => exact nofun
  | cons v lost ih =>
    rw [doubleCheck]
    cases Assoc.lookup₂ writerOf k v with
    | none => exact nofun
    | some w =>
      cases hrest : doubleCheck readsByType writerOf k lost with
      | error t =>
        rw [hrest] at ih
        exact ih
      | ok checked =>
    intro hthrown
    cases hthrown

theorem keyLostWrites_ne_indexOutOfBounds {order : SetOrder V} {orders : Assoc K (VersionOrder V)}
    {readsByType : Assoc ClientType (Assoc K (Finset V))}
    {writerOf : Assoc K (Assoc V (KafkaOp K V))}
    {readersOf : Assoc K (Assoc V (List (KafkaOp K V)))} {k : K} {vs : Finset V}
    (hbounds : AccessesInBounds order (logOf orders k) vs) :
    keyLostWrites order orders readsByType writerOf readersOf k vs ≠
      .error .indexOutOfBounds := by
  obtain ⟨hsubvec, hnth⟩ := hbounds
  obtain ⟨observed, hobserved⟩ := Option.isSome_iff_exists.mp hsubvec
  obtain ⟨last, hlast⟩ := Option.isSome_iff_exists.mp hnth
  unfold keyLostWrites
  simp only [hobserved, hlast]
  cases hcheck : doubleCheck readsByType writerOf k
      ((observed.flatMap fun b => b.walk order).eraseDups.filter fun v => decide (v ∉ vs)) with
  | error t =>
    intro herror
    rw [Except.error.inj herror] at hcheck
    exact doubleCheck_ne_indexOutOfBounds hcheck
  | ok checked =>
    intro hthrown
    cases hthrown

/-- Every access is within bounds if and only if every key that an ok operation polled has
a value that was read by one and whose offset is known; then no index error is thrown. -/
theorem lostWrites_inBounds_iff (order : SetOrder V) (plan : FoldPlan (KafkaOp K V))
    (history : List (KafkaOp K V)) :
    let orders := (versionOrders order plan (readsByType history)).orders
    let polledKnown := ∀ k, (∃ op ∈ history, op.type = .ok ∧ op.Polls k) →
      ∃ op ∈ history, op.type = .ok ∧ ∃ v ∈ op.readsOf k, Logged (logOf orders k) v
    ((∀ e ∈ (okReads (readsByType history)).entries,
        AccessesInBounds order (logOf orders e.1) e.2) ↔ polledKnown) ∧
      (polledKnown → lostWrites order plan history ≠ .error .indexOutOfBounds) := by
  intro orders polledKnown
  have hiff : (∀ e ∈ (okReads (readsByType history)).entries,
      AccessesInBounds order (logOf orders e.1) e.2) ↔ polledKnown := by
    have hread : ∀ k vs, (okReads (readsByType history)).lookup k = some vs →
        (AccessesInBounds order (logOf orders k) vs ↔
          ∃ op ∈ history, op.type = .ok ∧ ∃ v ∈ op.readsOf k, Logged (logOf orders k) v) := by
      intro k vs hlookup
      have hvs : vs = (okReads (readsByType history)).valuesAt k := by
        rw [Assoc.valuesAt, hlookup]
        rfl
      rw [accessesInBounds_iff, hvs]
      constructor
      · rintro ⟨v, hv, hlogged⟩
        obtain ⟨op, hop, hok, hread⟩ := mem_valuesAt_okReads.mp hv
        exact ⟨op, hop, hok, v, hread, hlogged⟩
      · rintro ⟨op, hop, hok, v, hread, hlogged⟩
        exact ⟨v, mem_valuesAt_okReads.mpr ⟨op, hop, hok, hread⟩, hlogged⟩
    constructor
    · intro hall k hpolled
      rw [← mem_okReads, ← AList.lookup_isSome] at hpolled
      obtain ⟨vs, hlookup⟩ := Option.isSome_iff_exists.mp hpolled
      exact (hread k vs hlookup).mp (hall ⟨k, vs⟩ (Assoc.mem_entries_iff.mpr hlookup))
    · rintro hknown ⟨k, vs⟩ he
      have hlookup := Assoc.mem_entries_iff.mp he
      have hpolled := mem_okReads.mp (AList.lookup_isSome.mp (by rw [hlookup]; rfl))
      exact (hread k vs hlookup).mpr (hknown k hpolled)
  refine ⟨hiff, fun hknown herror => ?_⟩
  have hbounds := hiff.mpr hknown
  have htraverse : Assoc.traverseEntries (keyLostWrites order orders (readsByType history)
      (writerOf history) (readersOf history)) (okReads (readsByType history)).entries =
      .error .indexOutOfBounds := by
    unfold lostWrites lostWriteCases at herror
    split at herror
    · rename_i t ht
      rw [Except.error.inj herror] at ht
      exact ht
    · cases herror
  obtain ⟨e, he, hthrown⟩ := exists_of_traverseEntries_eq_error htraverse
  exact keyLostWrites_ne_indexOutOfBounds (hbounds e he) hthrown

/-- A value is read whose offset no send and no poll tells. -/
def readWithoutOffset : List (KafkaOp ℕ ℕ) :=
  [⟨0, 0, .int 0, .ok, .mops .send [.send 0 (.pair none 10)]⟩,
    ⟨1, 1, .int 1, .ok, .mops .poll [.poll (some (AList.singleton 0 [(none, 10)]))]⟩]

/-- A key none of whose read values has a known offset has no element at the bound. -/
theorem readWithoutOffset_throws :
    lostWrites (.ascending ℕ) (.chunk readWithoutOffset) readWithoutOffset =
      .error .indexOutOfBounds := rfl

end Jepsen.Tests.Kafka
