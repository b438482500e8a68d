/-
# First and last indexes of a log

The dense indexes of a log number its offsets that hold values. A value that was
reported at several offsets has a first and a last index. Both are built by a
reduction over the log: the first keeps what it has, the last replaces it. The
last indexes are then inverted into a vector of the values whose last index each
index is.
-/

import Jepsen.Tests.Kafka.VersionOrders

namespace Jepsen.Tests.Kafka

open Jepsen.Library

universe u v

variable {V : Type v} [DecidableEq V]

/-! ## Reductions over the log -/

/-- One step of the reduction in `log->value->first-index`. -/
def earliestStep (order : SetOrder V) (state : Assoc V ℕ × ℕ) (values : NonemptySet V) :
    Assoc V ℕ × ℕ :=
  let (earliest, i) := state
  ((order.walk values.1).foldl (fun earliest value =>
    if value ∈ earliest then earliest else earliest.insert value i) earliest, i + 1)

/-- `log->value->first-index` -/
def logValueFirstIndex (order : SetOrder V) (log : Log V) : Assoc V ℕ :=
  (log.reduceOption.foldl (earliestStep order) (∅, 0)).1

/-- One step of the reduction in `log->last-index->values`. -/
def latestStep (order : SetOrder V) (state : Assoc V ℕ × ℕ) (values : NonemptySet V) :
    Assoc V ℕ × ℕ :=
  let (latest, i) := state
  (Assoc.insertAll (order.walk values.1) i latest, i + 1)

/-- The map of values to their latest indexes in `log->last-index->values`. -/
def latestIndex (order : SetOrder V) (log : Log V) : Assoc V ℕ :=
  (log.reduceOption.foldl (latestStep order) (∅, 0)).1

/-- What the vector of last indexes stores: `nil` where it was grown, and then
`conj` makes a list of it, not a set. -/
inductive Bucket (V : Type v)
  | hole
  | list (values : List V)
  | set (values : Finset V)

namespace Bucket

def conj : Bucket V → V → Bucket V
  | .hole, value => .list [value]
  | .list values, value => .list (value :: values)
  | .set values, value => .set (insert value values)

/-- The values in the order in which a traversal meets them. -/
def walk (order : SetOrder V) : Bucket V → List V
  | .hole => []
  | .list values => values
  | .set values => order.walk values

theorem mem_walk_conj (order : SetOrder V) (b : Bucket V) (v w : V) :
    w ∈ (b.conj v).walk order ↔ w = v ∨ w ∈ b.walk order := by
  cases b with
  | hole => simp [conj, walk]
  | list values => simp [conj, walk]
  | set values => simp [conj, walk, order.mem_walk]

end Bucket

/-- `assocv` -/
def assocv (v : List (Bucket V)) (i : ℕ) (value : Bucket V) : List (Bucket V) :=
  if i < v.length then v.set i value
  else v ++ List.replicate (i - v.length) .hole ++ [value]

/-- `(let [values (get log index #{})] (assocv log index (conj values value)))` -/
def conjAt (log : List (Bucket V)) (e : Σ _ : V, ℕ) : List (Bucket V) :=
  assocv log e.2 (((log[e.2]?).getD (.set ∅)).conj e.1)

/-- `log->last-index->values` -/
def logLastIndexValues (order : SetOrder V) (log : Log V) : List (Bucket V) :=
  (latestIndex order log).entries.foldl conjAt []

/-! ## First and last indexes -/

/-- Index `i` is the first index of value `v`. -/
def FirstIndex (dense : List (NonemptySet V)) (v : V) (i : ℕ) : Prop :=
  (∃ s, dense[i]? = some s ∧ v ∈ s.1) ∧ ∀ j < i, ∀ s, dense[j]? = some s → v ∉ s.1

/-- Index `i` is the last index of value `v`. -/
def LastIndex (dense : List (NonemptySet V)) (v : V) (i : ℕ) : Prop :=
  (∃ s, dense[i]? = some s ∧ v ∈ s.1) ∧ ∀ j, i < j → ∀ s, dense[j]? = some s → v ∉ s.1

omit [DecidableEq V] in
theorem lt_length_of_get {dense : List (NonemptySet V)} {i : ℕ} {s : NonemptySet V}
    (hget : dense[i]? = some s) : i < dense.length :=
  (List.getElem?_eq_some_iff.mp hget).1

omit [DecidableEq V] in
theorem getElem?_append_singleton {dense : List (NonemptySet V)} {s t : NonemptySet V} {i : ℕ} :
    (dense ++ [s])[i]? = some t ↔ dense[i]? = some t ∨ i = dense.length ∧ s = t := by
  by_cases hlt : i < dense.length
  · rw [List.getElem?_append_left hlt]
    constructor
    · exact Or.inl
    · intro h
      cases h with
      | inl hget => exact hget
      | inr hlast => omega
  · have hnone : dense[i]? = none := by
      rw [List.getElem?_eq_none_iff]
      omega
    rw [List.getElem?_append_right (by omega), hnone]
    by_cases heq : i = dense.length
    · subst heq
      simp
    · have hpos : ∃ n, i - dense.length = n + 1 := ⟨i - dense.length - 1, by omega⟩
      obtain ⟨n, hn⟩ := hpos
      simp [hn, heq]

omit [DecidableEq V] in
theorem firstIndex_snoc {dense : List (NonemptySet V)} {s : NonemptySet V} {v : V} {i : ℕ} :
    FirstIndex (dense ++ [s]) v i ↔ FirstIndex dense v i ∨
      i = dense.length ∧ v ∈ s.1 ∧
        ∀ (j : ℕ) (t : NonemptySet V), dense[j]? = some t → v ∉ t.1 := by
  unfold FirstIndex
  simp only [getElem?_append_singleton]
  constructor
  · rintro ⟨⟨t, hget, hv⟩, hbefore⟩
    cases hget with
    | inl hget => exact Or.inl ⟨⟨t, hget, hv⟩, fun j hj t' ht' => hbefore j hj t' (Or.inl ht')⟩
    | inr hlast =>
      obtain ⟨rfl, rfl⟩ := hlast
      exact Or.inr ⟨rfl, hv, fun j t' ht' => hbefore j (lt_length_of_get ht') t' (Or.inl ht')⟩
  · intro h
    cases h with
    | inl hfirst =>
      obtain ⟨⟨t, hget, hv⟩, hbefore⟩ := hfirst
      refine ⟨⟨t, Or.inl hget, hv⟩, ?_⟩
      intro j hj t' ht'
      cases ht' with
      | inl hget' => exact hbefore j hj t' hget'
      | inr hlast =>
        have hlt := lt_length_of_get hget
        omega
    | inr hlast =>
      obtain ⟨rfl, hv, hnone⟩ := hlast
      refine ⟨⟨s, Or.inr ⟨rfl, rfl⟩, hv⟩, ?_⟩
      intro j hj t' ht'
      cases ht' with
      | inl hget' => exact hnone j t' hget'
      | inr hlast => omega

omit [DecidableEq V] in
theorem lastIndex_snoc {dense : List (NonemptySet V)} {s : NonemptySet V} {v : V} {i : ℕ} :
    LastIndex (dense ++ [s]) v i ↔
      i = dense.length ∧ v ∈ s.1 ∨ v ∉ s.1 ∧ LastIndex dense v i := by
  unfold LastIndex
  simp only [getElem?_append_singleton]
  constructor
  · rintro ⟨⟨t, hget, hv⟩, hafter⟩
    cases hget with
    | inl hget =>
      right
      have hlt := lt_length_of_get hget
      exact ⟨hafter dense.length hlt s (Or.inr ⟨rfl, rfl⟩),
        ⟨t, hget, hv⟩, fun j hj t' ht' => hafter j hj t' (Or.inl ht')⟩
    | inr hlast =>
      obtain ⟨rfl, rfl⟩ := hlast
      exact Or.inl ⟨rfl, hv⟩
  · intro h
    cases h with
    | inl hlast =>
      obtain ⟨rfl, hv⟩ := hlast
      refine ⟨⟨s, Or.inr ⟨rfl, rfl⟩, hv⟩, ?_⟩
      intro j hj t' ht'
      cases ht' with
      | inl hget' =>
        have hlt := lt_length_of_get hget'
        omega
      | inr hlast' => omega
    | inr hold =>
      obtain ⟨hnot, ⟨t, hget, hv⟩, hafter⟩ := hold
      refine ⟨⟨t, Or.inl hget, hv⟩, ?_⟩
      intro j hj t' ht'
      cases ht' with
      | inl hget' => exact hafter j hj t' hget'
      | inr hlast' =>
        obtain ⟨-, rfl⟩ := hlast'
        exact hnot

/-- The first index that `keep`ing an entry stores for a value. -/
theorem lookup_foldl_keep (vs : List V) (i : ℕ) (m : Assoc V ℕ) (x : V) :
    (vs.foldl (fun earliest value =>
      if value ∈ earliest then earliest else earliest.insert value i) m).lookup x =
      if x ∈ vs ∧ x ∉ m then some i else m.lookup x := by
  induction vs generalizing m with
  | nil => simp
  | cons v vs ih =>
    rw [List.foldl_cons, ih]
    by_cases hv : v ∈ m
    · rw [if_pos hv]
      by_cases hx : x = v
      · subst hx
        simp [hv]
      · simp [hx]
    · rw [if_neg hv]
      by_cases hx : x = v
      · subst hx
        simp [hv]
      · simp [hx, AList.lookup_insert_ne hx]

theorem lookup_logValueFirstIndex (order : SetOrder V) (log : Log V) (v : V) (i : ℕ) :
    (logValueFirstIndex order log).lookup v = some i ↔ FirstIndex log.reduceOption v i := by
  have hfold : ∀ dense : List (NonemptySet V), ∃ earliest,
      dense.foldl (earliestStep order) (∅, 0) = (earliest, dense.length) ∧
      ∀ v i, earliest.lookup v = some i ↔ FirstIndex dense v i := by
    intro dense
    induction dense using List.reverseRecOn with
    | nil =>
      refine ⟨∅, rfl, ?_⟩
      intro v i
      simp [FirstIndex]
    | append_singleton dense s ih =>
      obtain ⟨earliest, hstate, hspec⟩ := ih
      rw [List.foldl_append, hstate, List.length_append]
      refine ⟨_, rfl, ?_⟩
      intro v i
      have hknown : v ∉ earliest ↔
          ∀ (j : ℕ) (t : NonemptySet V), dense[j]? = some t → v ∉ t.1 := by
        rw [← AList.lookup_eq_none, Option.eq_none_iff_forall_ne_some]
        constructor
        · intro hnone j t hget hv
          -- A value that occurs at all has a first index.
          have hex : ∃ (j : ℕ) (t : NonemptySet V), dense[j]? = some t ∧ v ∈ t.1 :=
            ⟨j, t, hget, hv⟩
          classical
          apply hnone (Nat.find hex)
          refine (hspec v _).mpr ⟨Nat.find_spec hex, ?_⟩
          intro j' hj' t' ht' hv'
          exact Nat.find_min hex hj' ⟨t', ht', hv'⟩
        · intro hnot j hj
          obtain ⟨⟨t, hget, hv⟩, -⟩ := (hspec v j).mp hj
          exact hnot j t hget hv
      rw [firstIndex_snoc, ← hknown]
      simp only [lookup_foldl_keep, order.mem_walk]
      by_cases hnew : v ∈ s.1 ∧ v ∉ earliest
      · have hnone := AList.lookup_eq_none.mpr hnew.2
        have hnotFirst : ¬ FirstIndex dense v i := by
          rw [← hspec, hnone]
          nofun
        simp [hnew, hnotFirst, eq_comm]
      · rw [if_neg hnew, hspec]
        constructor
        · exact Or.inl
        · intro h
          cases h with
          | inl hfirst => exact hfirst
          | inr hlast => exact absurd hlast.2 hnew
  obtain ⟨earliest, hstate, hspec⟩ := hfold log.reduceOption
  rw [logValueFirstIndex, hstate]
  exact hspec v i

theorem lookup_latestIndex (order : SetOrder V) (log : Log V) (v : V) (i : ℕ) :
    (latestIndex order log).lookup v = some i ↔ LastIndex log.reduceOption v i := by
  have hfold : ∀ dense : List (NonemptySet V), ∃ latest,
      dense.foldl (latestStep order) (∅, 0) = (latest, dense.length) ∧
      ∀ v i, latest.lookup v = some i ↔ LastIndex dense v i := by
    intro dense
    induction dense using List.reverseRecOn with
    | nil =>
      refine ⟨∅, rfl, ?_⟩
      intro v i
      simp [LastIndex]
    | append_singleton dense s ih =>
      obtain ⟨latest, hstate, hspec⟩ := ih
      rw [List.foldl_append, hstate, List.length_append]
      refine ⟨_, rfl, ?_⟩
      intro v i
      rw [lastIndex_snoc, ← hspec]
      simp only [Assoc.lookup_insertAll, order.mem_walk]
      by_cases hv : v ∈ s.1
      · simp [hv, eq_comm]
      · simp [hv]
  obtain ⟨latest, hstate, hspec⟩ := hfold log.reduceOption
  rw [latestIndex, hstate]
  exact hspec v i

/-! ## The vector of last indexes -/

/-- The values a traversal of the vector meets at an index. -/
def bucketAt (order : SetOrder V) (log : List (Bucket V)) (i : ℕ) : List V :=
  ((log[i]?).map fun b => b.walk order).getD []

omit [DecidableEq V] in
theorem getElem?_assocv (v : List (Bucket V)) (i j : ℕ) (b : Bucket V) :
    (assocv v i b)[j]? =
      if j = i then some b
      else if j < v.length then v[j]?
      else if j < i then some .hole
      else none := by
  unfold assocv
  split
  · rename_i hlt
    rw [List.getElem?_set]
    by_cases hij : j = i
    · subst hij
      rw [if_pos rfl, if_pos hlt, if_pos rfl]
    · rw [if_neg (Ne.symm hij), if_neg hij]
      by_cases hj : j < v.length
      · rw [if_pos hj]
      · rw [if_neg hj, if_neg (by omega), List.getElem?_eq_none_iff]
        omega
  · rename_i hge
    by_cases hj : j < v.length
    · rw [if_neg (by omega), if_pos hj, List.append_assoc, List.getElem?_append_left hj]
    · rw [if_neg hj, List.append_assoc, List.getElem?_append_right (by omega)]
      by_cases hji : j < i
      · rw [if_neg (by omega), if_pos hji, List.getElem?_append_left (by simp; omega),
          List.getElem?_replicate_of_lt (by omega)]
      · rw [if_neg hji, List.getElem?_append_right (by simp; omega), List.length_replicate]
        by_cases hij : j = i
        · subst hij
          simp
        · rw [if_neg hij, List.getElem?_eq_none_iff, List.length_singleton]
          omega

omit [DecidableEq V] in
theorem length_assocv (v : List (Bucket V)) (i : ℕ) (b : Bucket V) :
    (assocv v i b).length = max v.length (i + 1) := by
  unfold assocv
  split
  · rw [List.length_set]
    omega
  · simp only [List.length_append, List.length_replicate, List.length_singleton]
    omega

theorem mem_bucketAt_conjAt (order : SetOrder V) (log : List (Bucket V)) (e : Σ _ : V, ℕ) (i : ℕ)
    (w : V) :
    w ∈ bucketAt order (conjAt log e) i ↔
      w ∈ bucketAt order log i ∨ (⟨w, i⟩ : Σ _ : V, ℕ) = e := by
  obtain ⟨v, j⟩ := e
  unfold bucketAt conjAt
  rw [getElem?_assocv]
  by_cases hij : i = j
  · subst hij
    rw [if_pos rfl, Option.map_some, Option.getD_some, Bucket.mem_walk_conj, or_comm]
    have hdefault : (Bucket.set (∅ : Finset V)).walk order = [] := by
      apply List.eq_nil_iff_forall_not_mem.mpr
      intro x hx
      exact Finset.notMem_empty x (order.mem_walk.mp hx)
    cases log[i]? with
    | none => simp [hdefault]
    | some b => simp
  · have hne : (⟨w, i⟩ : Σ _ : V, ℕ) ≠ ⟨v, j⟩ := fun h => hij (by cases h; rfl)
    simp only [hij, hne, if_false, or_false]
    by_cases hlt : i < log.length
    · rw [if_pos hlt]
    · have hnone : log[i]? = none := List.getElem?_eq_none_iff.mpr (by omega)
      rw [if_neg hlt, hnone]
      by_cases hhole : i < j
      · simp [hhole, Bucket.walk]
      · simp [hhole]

theorem mem_bucketAt_foldl (order : SetOrder V) (es : List (Σ _ : V, ℕ)) (log : List (Bucket V))
    (i : ℕ) (w : V) :
    w ∈ bucketAt order (es.foldl conjAt log) i ↔ w ∈ bucketAt order log i ∨ ⟨w, i⟩ ∈ es := by
  induction es generalizing log with
  | nil => simp
  | cons e es ih => rw [List.foldl_cons, ih, mem_bucketAt_conjAt, or_assoc, List.mem_cons]

theorem lt_length_foldl_conjAt (es : List (Σ _ : V, ℕ)) (log : List (Bucket V)) (i : ℕ) :
    i < (es.foldl conjAt log).length ↔ i < log.length ∨ ∃ e ∈ es, i ≤ e.2 := by
  induction es generalizing log with
  | nil => simp
  | cons e es ih =>
    rw [List.foldl_cons, ih, conjAt, length_assocv, lt_max_iff, or_assoc, Nat.lt_succ_iff]
    simp only [List.mem_cons, exists_eq_or_imp]

/-- Every value is at its last index. -/
theorem mem_bucketAt_logLastIndexValues (order : SetOrder V) (log : Log V) (i : ℕ) (w : V) :
    w ∈ bucketAt order (logLastIndexValues order log) i ↔ LastIndex log.reduceOption w i := by
  rw [logLastIndexValues, mem_bucketAt_foldl, ← lookup_latestIndex order, Assoc.mem_entries_iff]
  constructor
  · intro h
    cases h with
    | inl hnil => cases hnil
    | inr hlookup => exact hlookup
  · exact Or.inr

/-- The vector has an index for each offset that has values, since the values of
the last offset have their last index there. -/
theorem length_logLastIndexValues (order : SetOrder V) (log : Log V) :
    (logLastIndexValues order log).length = log.reduceOption.length := by
  have hlt : ∀ i, i < (logLastIndexValues order log).length ↔ i < log.reduceOption.length := by
    intro i
    rw [logLastIndexValues, lt_length_foldl_conjAt]
    constructor
    · intro h
      cases h with
      | inl hnil => cases hnil
      | inr hentry =>
        obtain ⟨e, he, hle⟩ := hentry
        have hlast := (lookup_latestIndex order log e.1 e.2).mp (Assoc.mem_entries_iff.mp he)
        obtain ⟨⟨s, hget, -⟩, -⟩ := hlast
        exact lt_of_le_of_lt hle (lt_length_of_get hget)
    · intro hi
      right
      have hend : log.reduceOption.length - 1 < log.reduceOption.length := by omega
      have hget := List.getElem?_eq_getElem hend
      obtain ⟨v, hv⟩ := (log.reduceOption[log.reduceOption.length - 1]).2
      have hlast : LastIndex log.reduceOption v (log.reduceOption.length - 1) := by
        refine ⟨⟨_, hget, hv⟩, ?_⟩
        intro j hj s hget'
        have hlt' := lt_length_of_get hget'
        omega
      exact ⟨⟨v, log.reduceOption.length - 1⟩,
        Assoc.mem_entries_iff.mpr ((lookup_latestIndex order log v _).mpr hlast), by simp; omega⟩
  apply Nat.le_antisymm
  · exact Nat.le_of_not_lt fun h => lt_irrefl _ ((hlt _).mp h)
  · exact Nat.le_of_not_lt fun h => lt_irrefl _ ((hlt _).mpr h)

end Jepsen.Tests.Kafka
