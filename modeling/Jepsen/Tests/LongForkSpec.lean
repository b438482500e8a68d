/-
# Long forks as incomparable reads

On reads of the same keys that agree where both see a value, `read-compare`
decides the order of the sets of keys seen, in whatever order it walks the keys.
The checker then finds a fork exactly if two reads of a group are incomparable.
-/

import Jepsen.Tests.LongFork

namespace Jepsen.Tests.LongFork

open Jepsen.History Jepsen.Library
open Jepsen.Generator (Name)

universe u v

variable {K : Type u} {V : Type v} [DecidableEq K] [DecidableEq V]

/-! ## The order of reads -/

/-- The read has a value for the key. -/
def Sees (m : Assoc K (Option V)) (k : K) : Prop := ∃ v, m.lookup k = some (some v)

/-- The first read sees a key that the second misses. -/
def Beyond (a b : Assoc K (Option V)) : Prop := ∃ k, Sees a k ∧ ¬ Sees b k

/-- The first read sees all that the second does, and more. -/
def Dominates (a b : Assoc K (Option V)) : Prop := (∀ k, Sees b k → Sees a k) ∧ Beyond a b

/-- Reads of the same keys that never see two values of one key. -/
structure Compatible (a b : Assoc K (Option V)) : Prop where
  keys : ∀ k, k ∈ a ↔ k ∈ b
  values : ∀ k v w, a.lookup k = some (some v) → b.lookup k = some (some w) → v = w

omit [DecidableEq V] in
theorem Compatible.symm {a b : Assoc K (Option V)} (h : Compatible a b) : Compatible b a :=
  ⟨fun k => (h.keys k).symm, fun k v w hv hw => (h.values k w v hw hv).symm⟩

def sees (m : Assoc K (Option V)) (k : K) : Bool := (m.lookup k).join.isSome

def beyond (a b : Assoc K (Option V)) (ks : List K) : Bool := ks.any fun k => sees a k && !sees b k

omit [DecidableEq V] in
theorem sees_iff {m : Assoc K (Option V)} {k : K} : sees m k = true ↔ Sees m k := by
  unfold sees Sees
  cases m.lookup k with
  | none => simp
  | some v => cases v <;> simp

omit [DecidableEq V] in
/-- What is seen is a key, so all keys of the first read decide. -/
theorem beyond_iff {a b : Assoc K (Option V)} {ks : List K} (hks : ∀ k, k ∈ ks ↔ k ∈ a) :
    beyond a b ks = true ↔ Beyond a b := by
  rw [beyond, List.any_eq_true]
  constructor
  · rintro ⟨k, -, hk⟩
    rw [Bool.and_eq_true, sees_iff, Bool.not_eq_true', ← Bool.not_eq_true, sees_iff] at hk
    exact ⟨k, hk⟩
  · rintro ⟨k, hsees, hnot⟩
    refine ⟨k, (hks k).mpr ?_, ?_⟩
    · obtain ⟨v, hv⟩ := hsees
      exact AList.lookup_isSome.mp (by rw [hv]; rfl)
    · rw [Bool.and_eq_true, sees_iff, Bool.not_eq_true', ← Bool.not_eq_true, sees_iff]
      exact ⟨hsees, hnot⟩

/-- The result of a comparison, from whether each read is beyond the other. -/
def ranking : Bool → Bool → Option ℤ
  | false, false => some 0
  | true, false => some (-1)
  | false, true => some 1
  | true, true => none

theorem ranking_swap (x y : Bool) : ranking y x = (ranking x y).map fun res => -res := by
  cases x <;> cases y <;> rfl

/-- The reduction keeps the ranking of the keys walked so far, and stops when they
are incomparable. -/
theorem compareKeys_eq {a b : Assoc K (Option V)} (hcompatible : Compatible a b) (ks : List K)
    (hks : ∀ k ∈ ks, k ∈ a) {x y : Bool} {res : ℤ} (hres : ranking x y = some res) :
    compareKeys a b res ks = .ok (ranking (x || beyond a b ks) (y || beyond b a ks)) := by
  induction ks generalizing x y res with
  | nil => simp [compareKeys, beyond, hres]
  | cons k ks ih =>
    have htail := fun {x y : Bool} {res : ℤ} (hres : ranking x y = some res) =>
      ih (fun k' hk' => hks k' (List.mem_cons_of_mem k hk')) hres
    obtain ⟨va, hva⟩ := Option.isSome_iff_exists.mp
      (AList.lookup_isSome.mpr (hks k List.mem_cons_self))
    obtain ⟨vb, hvb⟩ := Option.isSome_iff_exists.mp
      (AList.lookup_isSome.mpr ((hcompatible.keys k).mp (hks k List.mem_cons_self)))
    have hbeyond : ∀ {m m' : Assoc K (Option V)} {v v' : Option V}, m.lookup k = some v →
        m'.lookup k = some v' →
        beyond m m' (k :: ks) = ((v.isSome && !v'.isSome) || beyond m m' ks) := by
      intro m m' v v' hv hv'
      simp [beyond, sees, hv, hv']
    rw [hbeyond hva hvb, hbeyond hvb hva]
    simp only [compareKeys, hva, hvb, Option.join_some]
    cases va with
    | none =>
      cases vb with
      | none => simpa using htail hres
      | some w =>
        simp only [reduceCtorEq, if_false]
        cases x with
        | true =>
          cases y with
          | true => cases hres
          | false =>
            obtain rfl := Option.some.inj hres
            simp [ranking]
        | false =>
          have hnonneg : ¬ res < 0 := by
            cases y <;> (obtain rfl := Option.some.inj hres; decide)
          rw [if_neg hnonneg, htail (x := false) (y := true) rfl]
          simp
    | some v =>
      cases vb with
      | none =>
        simp only [reduceCtorEq, if_false]
        cases y with
        | true =>
          cases x with
          | true => cases hres
          | false =>
            obtain rfl := Option.some.inj hres
            simp [ranking]
        | false =>
          have hnonpos : ¬ 0 < res := by
            cases x <;> (obtain rfl := Option.some.inj hres; decide)
          rw [if_neg hnonpos, htail (x := true) (y := false) rfl]
          simp
      | some w =>
        obtain rfl := hcompatible.values k v w hva hvb
        simpa using htail hres

theorem readCompare_eq {a b : Assoc K (Option V)} (hcompatible : Compatible a b) :
    readCompare a b = .ok (ranking (beyond a b a.keys) (beyond b a a.keys)) := by
  have hperm : a.keys.Perm b.keys :=
    (List.perm_ext_iff_of_nodup a.keys_nodup b.keys_nodup).mpr fun k => hcompatible.keys k
  rw [readCompare, if_neg (not_not.mpr hperm.length_eq),
    compareKeys_eq hcompatible a.keys (fun k hk => hk) (x := false) (y := false) rfl]
  simp

/-- Comparing two reads the other way negates the result. -/
theorem readCompare_swap {a b : Assoc K (Option V)} (hcompatible : Compatible a b) :
    ∃ res, readCompare a b = .ok res ∧ readCompare b a = .ok (res.map fun res => -res) := by
  have hsame : ∀ m m' : Assoc K (Option V), beyond m m' b.keys = beyond m m' a.keys := by
    intro m m'
    rw [Bool.eq_iff_iff]
    unfold beyond
    simp only [List.any_eq_true]
    constructor
    · rintro ⟨k, hk, h⟩
      exact ⟨k, (hcompatible.keys k).mpr hk, h⟩
    · rintro ⟨k, hk, h⟩
      exact ⟨k, (hcompatible.keys k).mp hk, h⟩
  refine ⟨_, readCompare_eq hcompatible, ?_⟩
  rw [readCompare_eq hcompatible.symm, hsame, hsame, ranking_swap]

/-- `read-compare` returns -1, 0, 1 or nil as the first read dominates, equals, is
dominated by or is incomparable to the second. -/
theorem readCompare_iff {a b : Assoc K (Option V)} (hcompatible : Compatible a b) :
    (readCompare a b = .ok (some (-1)) ↔ Dominates a b) ∧
    (readCompare a b = .ok (some 0) ↔ ∀ k, a.lookup k = b.lookup k) ∧
    (readCompare a b = .ok (some 1) ↔ Dominates b a) ∧
    (readCompare a b = .ok none ↔ Beyond a b ∧ Beyond b a) := by
  have hab : beyond a b a.keys = true ↔ Beyond a b := beyond_iff fun k => Iff.rfl
  have hba : beyond b a a.keys = true ↔ Beyond b a := beyond_iff fun k => hcompatible.keys k
  have hdominates : ∀ a b : Assoc K (Option V), Dominates a b ↔ Beyond a b ∧ ¬ Beyond b a := by
    intro a b
    unfold Dominates Beyond
    push Not
    exact and_comm
  have hequal : (∀ k, a.lookup k = b.lookup k) ↔ ¬ Beyond a b ∧ ¬ Beyond b a := by
    constructor
    · intro heq
      constructor <;> (rintro ⟨k, ⟨v, hv⟩, hnot⟩; exact hnot ⟨v, by simp_all⟩)
    · rintro ⟨hnotAb, hnotBa⟩ k
      cases hva : a.lookup k with
      | none =>
        have hnot : k ∉ b := fun hmem =>
          AList.lookup_eq_none.mp hva ((hcompatible.keys k).mpr hmem)
        exact (AList.lookup_eq_none.mpr hnot).symm
      | some va =>
        obtain ⟨vb, hvb⟩ := Option.isSome_iff_exists.mp (AList.lookup_isSome.mpr
          ((hcompatible.keys k).mp (AList.lookup_isSome.mp (by rw [hva]; rfl))))
        rw [hvb]
        cases va with
        | none =>
          cases vb with
          | none => rfl
          | some w => exact absurd ⟨k, ⟨w, hvb⟩, fun ⟨v, hv⟩ => by simp [hva] at hv⟩ hnotBa
        | some v =>
          cases vb with
          | none => exact absurd ⟨k, ⟨v, hva⟩, fun ⟨w, hw⟩ => by simp [hvb] at hw⟩ hnotAb
          | some w => rw [hcompatible.values k v w hva hvb]
  rw [readCompare_eq hcompatible, hdominates, hdominates, hequal, ← hab, ← hba]
  cases beyond a b a.keys <;> cases beyond b a a.keys <;> simp [ranking]

/-! ## Pairs of reads -/

/-- A set of two is walked one way or the other. -/
theorem walk_pair {α : Type*} [DecidableEq α] (order : SetOrder α) {a b : α} (hne : a ≠ b) :
    order.walk {a, b} = [a, b] ∨ order.walk {a, b} = [b, a] := by
  have hlen := order.length_walk {a, b}
  rw [Finset.card_pair hne] at hlen
  obtain ⟨x, y, hwalk⟩ := List.length_eq_two.mp hlen
  have hmem : ∀ z, z ∈ [x, y] ↔ z = a ∨ z = b := by
    intro z
    rw [← hwalk, order.mem_walk]
    simp
  have hxy : x ≠ y := by
    have hnodup := order.nodup_walk {a, b}
    rw [hwalk] at hnodup
    simpa using hnodup
  rw [hwalk]
  rcases (hmem x).mp (by simp) with rfl | rfl
  · rcases (hmem y).mp (by simp) with rfl | rfl
    · exact absurd rfl hxy
    · exact Or.inl rfl
  · rcases (hmem y).mp (by simp) with rfl | rfl
    · exact Or.inr rfl
    · exact absurd rfl hxy

/-- The pairs are the two-element sets of different elements. -/
theorem mem_distinctPairs {α : Type*} [DecidableEq α] {order : SetOrder α} {coll pair : List α} :
    pair ∈ distinctPairs order coll ↔
      ∃ a ∈ coll, ∃ b ∈ coll, a ≠ b ∧ pair = order.walk {a, b} := by
  unfold distinctPairs
  rw [List.mem_map]
  constructor
  · rintro ⟨s, hs, rfl⟩
    obtain ⟨a, ha, hset⟩ := List.mem_flatMap.mp (List.mem_eraseDups.mp hs)
    obtain ⟨b, hb, rfl⟩ := List.mem_map.mp hset
    obtain ⟨hmem, hne⟩ := List.mem_filter.mp hb
    exact ⟨a, ha, b, hmem, of_decide_eq_true hne, rfl⟩
  · rintro ⟨a, ha, b, hb, hne, rfl⟩
    refine ⟨{a, b}, List.mem_eraseDups.mpr (List.mem_flatMap.mpr ⟨a, ha, ?_⟩), rfl⟩
    exact List.mem_map.mpr ⟨b, List.mem_filter.mpr ⟨hb, decide_eq_true hne⟩, rfl⟩

/-- Two different elements are compared, in one order or the other. -/
theorem pair_mem_distinctPairs {α : Type*} [DecidableEq α] (order : SetOrder α) {coll : List α}
    {a b : α} (ha : a ∈ coll) (hb : b ∈ coll) (hne : a ≠ b) :
    [a, b] ∈ distinctPairs order coll ∨ [b, a] ∈ distinctPairs order coll := by
  rcases walk_pair order hne with hwalk | hwalk
  · exact Or.inl (mem_distinctPairs.mpr ⟨a, ha, b, hb, hne, hwalk.symm⟩)
  · exact Or.inr (mem_distinctPairs.mpr ⟨a, ha, b, hb, hne, hwalk.symm⟩)

theorem mem_of_mem_distinctPairs {α : Type*} [DecidableEq α] {order : SetOrder α}
    {coll pair : List α} (hpair : pair ∈ distinctPairs order coll) :
    ∃ a ∈ coll, ∃ b ∈ coll, pair = [a, b] := by
  obtain ⟨a, ha, b, hb, hne, rfl⟩ := mem_distinctPairs.mp hpair
  rcases walk_pair order hne with hwalk | hwalk
  · exact ⟨a, ha, b, hb, hwalk⟩
  · exact ⟨b, hb, a, ha, hwalk⟩

omit [DecidableEq V] in
theorem mem_readOpValueMap {op : TxnOp K V} {k : K} :
    k ∈ readOpValueMap op ↔ k ∈ opReadKeys op := by
  have hfold : ∀ (mops : List (Mop K V)) (m : Assoc K (Option V)),
      k ∈ mops.foldl (fun m mop => m.insert mop.key mop.value) m ↔
        k ∈ m ∨ k ∈ mops.map Mop.key := by
    intro mops
    induction mops with
    | nil => simp
    | cons mop mops ih =>
      intro m
      rw [List.foldl_cons, ih, AList.mem_insert, List.map_cons, List.mem_cons]
      tauto
  rw [readOpValueMap, hfold, opReadKeys, List.mem_toFinset]
  simp

/-! ## Forks -/

/-- Each of two completed reads of one group sees a key that the other misses. -/
def HasLongFork (history : List (TxnOp K V)) : Prop :=
  ∃ r ∈ reads history, ∃ r' ∈ reads history, opReadKeys r = opReadKeys r' ∧
    Beyond (readOpValueMap r) (readOpValueMap r') ∧ Beyond (readOpValueMap r') (readOpValueMap r)

/-- Each key is written at most once, and each completed read reads a group of `n`
keys. -/
structure Grouped (n : ℕ) (history : List (TxnOp K V)) : Prop where
  once : (writtenKeys history).Nodup
  groups : ∀ r ∈ reads history, (opReadKeys r).card = n

/-- Reads of one key do not see two values, as when they see `nil` or what was written. -/
def Consistent (history : List (TxnOp K V)) : Prop :=
  ∀ r ∈ reads history, ∀ r' ∈ reads history, ∀ k v w,
    (readOpValueMap r).lookup k = some (some v) →
    (readOpValueMap r').lookup k = some (some w) → v = w

omit [DecidableEq V] in
/-- Consistent reads of one group can be compared. -/
theorem Consistent.compatible {history : List (TxnOp K V)} (hconsistent : Consistent history)
    {r r' : TxnOp K V} (hr : r ∈ reads history) (hr' : r' ∈ reads history)
    (hkeys : opReadKeys r = opReadKeys r') :
    Compatible (readOpValueMap r) (readOpValueMap r') where
  keys := fun k => by rw [mem_readOpValueMap, mem_readOpValueMap, hkeys]
  values := hconsistent r hr r' hr'

omit [DecidableEq V] in
/-- Keys that are written once are no multiple writes. -/
theorem multipleWrites_eq_none {ks : Finset K} {written : List K} (hnodup : written.Nodup)
    (hdisjoint : ∀ k ∈ written, k ∉ ks) : multipleWrites ks written = none := by
  induction written generalizing ks with
  | nil => rfl
  | cons k written ih =>
    rw [List.nodup_cons] at hnodup
    rw [multipleWrites, if_neg (hdisjoint k List.mem_cons_self)]
    apply ih hnodup.2
    intro k' hk' hmem
    rcases Finset.mem_insert.mp hmem with rfl | hmem
    · exact hnodup.1 hk'
    · exact hdisjoint k' (List.mem_cons_of_mem k hk') hmem

omit [DecidableEq V] in
/-- Reads of `n` keys each are grouped by their keys. -/
theorem groups_eq_ok {n : ℕ} {readOps : List (TxnOp K V)}
    (hsizes : ∀ r ∈ readOps, (opReadKeys r).card = n) :
    ∃ gs, groups n readOps = .ok gs ∧ ∀ ops, ops ∈ gs ↔ ∃ r ∈ readOps,
      ops = readOps.filter fun r' => decide (opReadKeys r' = opReadKeys r) := by
  have hentry : ∀ e : (Σ _ : Finset K, List (TxnOp K V)),
      e ∈ (Assoc.groupBy opReadKeys readOps).entries ↔ ∃ r ∈ readOps, opReadKeys r = e.1 ∧
        e.2 = readOps.filter fun r' => decide (opReadKeys r' = e.1) := by
    intro e
    rw [show e = ⟨e.1, e.2⟩ from rfl, Assoc.mem_entries_iff, Assoc.lookup_groupBy]
    constructor
    · intro h
      split at h
      · rename_i hmem
        obtain ⟨r, hr, hkeys⟩ := List.mem_map.mp hmem
        exact ⟨r, hr, hkeys, (Option.some.inj h).symm⟩
      · cases h
    · rintro ⟨r, hr, hkeys, hops⟩
      rw [if_pos (List.mem_map.mpr ⟨r, hr, hkeys⟩), hops]
  have hmapM : ∀ entries : List (Σ _ : Finset K, List (TxnOp K V)),
      (∀ e ∈ entries, e.1.card = n) →
      entries.mapM (fun e => if e.1.card ≠ n
        then (.error (.groupSize e.2.head? n e.1) : Except (IllegalHistory K V) _)
        else .ok e.2) = .ok (entries.map Sigma.snd) := by
    intro entries hall
    induction entries with
    | nil => rfl
    | cons e entries ih =>
      rw [List.mapM_cons, if_neg (not_not.mpr (hall e List.mem_cons_self)),
        ih fun e' he' => hall e' (List.mem_cons_of_mem e he')]
      rfl
  refine ⟨_, hmapM _ fun e he => ?_, fun ops => ?_⟩
  · obtain ⟨r, hr, hkeys, -⟩ := (hentry e).mp he
    rw [← hkeys]
    exact hsizes r hr
  · rw [List.mem_map]
    constructor
    · rintro ⟨e, he, rfl⟩
      obtain ⟨r, hr, hkeys, hops⟩ := (hentry e).mp he
      exact ⟨r, hr, by rw [hkeys]; exact hops⟩
    · rintro ⟨r, hr, rfl⟩
      exact ⟨⟨opReadKeys r, _⟩, (hentry _).mpr ⟨r, hr, rfl, rfl⟩, rfl⟩

/-- A pair that is incomparable is a fork. -/
theorem fork_mem_findForks {order : SetOrder (TxnOp K V)} {ops : List (TxnOp K V)}
    {a b : TxnOp K V} (hpair : [a, b] ∈ distinctPairs order ops)
    (hcompare : readCompare (readOpValueMap a) (readOpValueMap b) = .ok none) :
    .ok (a, b) ∈ findForks order ops := by
  rw [findForks, List.mem_filterMap]
  refine ⟨_, hpair, ?_⟩
  simp only [hcompare]

/-- Among reads that can be compared, the search finds the incomparable pairs and
throws nothing. -/
theorem mem_findForks {order : SetOrder (TxnOp K V)} {ops : List (TxnOp K V)}
    (hcompatible : ∀ a ∈ ops, ∀ b ∈ ops, Compatible (readOpValueMap a) (readOpValueMap b)) :
    (∀ fork ∈ findForks order ops, ∃ a ∈ ops, ∃ b ∈ ops, fork = .ok (a, b) ∧
      Beyond (readOpValueMap a) (readOpValueMap b) ∧
      Beyond (readOpValueMap b) (readOpValueMap a)) ∧
    ∀ a ∈ ops, ∀ b ∈ ops, Beyond (readOpValueMap a) (readOpValueMap b) →
      Beyond (readOpValueMap b) (readOpValueMap a) → ∃ fork, fork ∈ findForks order ops := by
  constructor
  · intro fork hfork
    rw [findForks, List.mem_filterMap] at hfork
    obtain ⟨pair, hpair, hfork⟩ := hfork
    obtain ⟨a, ha, b, hb, rfl⟩ := mem_of_mem_distinctPairs hpair
    obtain ⟨-, -, -, hnone⟩ := readCompare_iff (hcompatible a ha b hb)
    obtain ⟨res, hres, -⟩ := readCompare_swap (hcompatible a ha b hb)
    simp only [hres] at hfork
    cases res with
    | none => exact ⟨a, ha, b, hb, (Option.some.inj hfork).symm, hnone.mp hres⟩
    | some res => cases hfork
  · intro a ha b hb hab hba
    have hne : a ≠ b := by
      rintro rfl
      obtain ⟨k, hsees, hnot⟩ := hab
      exact hnot hsees
    rcases pair_mem_distinctPairs order ha hb hne with hpair | hpair
    · obtain ⟨-, -, -, hnone⟩ := readCompare_iff (hcompatible a ha b hb)
      exact ⟨_, fork_mem_findForks hpair (hnone.mpr ⟨hab, hba⟩)⟩
    · obtain ⟨-, -, -, hnone⟩ := readCompare_iff (hcompatible b hb a ha)
      exact ⟨_, fork_mem_findForks hpair (hnone.mpr ⟨hba, hab⟩)⟩

/-- On consistent reads of groups of `n` keys the checker throws nothing, and its
verdict is false exactly if there is a long fork. Reads of one group can then be
compared, and `read-compare` decides their order. -/
theorem checker_invalid_iff (order : SetOrder (TxnOp K V)) {n : ℕ} {history : List (TxnOp K V)}
    (hgrouped : Grouped n history) (hconsistent : Consistent history) :
    (∃ result, checker order n history = .ok result ∧
      (result.isInvalid ↔ HasLongFork history)) ∧
    (∀ r ∈ reads history, ∀ r' ∈ reads history, opReadKeys r = opReadKeys r' →
      Compatible (readOpValueMap r) (readOpValueMap r')) ∧
    ∀ a b : Assoc K (Option V), Compatible a b →
      (∃ res, readCompare a b = .ok res ∧ readCompare b a = .ok (res.map fun res => -res)) ∧
      (readCompare a b = .ok (some (-1)) ↔ Dominates a b) ∧
      (readCompare a b = .ok (some 0) ↔ ∀ k, a.lookup k = b.lookup k) ∧
      (readCompare a b = .ok (some 1) ↔ Dominates b a) ∧
      (readCompare a b = .ok none ↔ Beyond a b ∧ Beyond b a) := by
  constructor
  · obtain ⟨gs, hgs, hmem⟩ := groups_eq_ok hgrouped.groups
    have hgroup : ∀ ops ∈ gs, ∀ a ∈ ops, a ∈ reads history ∧
        ∀ b ∈ ops, opReadKeys a = opReadKeys b := by
      intro ops hops a ha
      obtain ⟨r, -, rfl⟩ := (hmem ops).mp hops
      obtain ⟨hread, hkeys⟩ := List.mem_filter.mp ha
      refine ⟨hread, fun b hb => ?_⟩
      rw [of_decide_eq_true hkeys, of_decide_eq_true (List.mem_filter.mp hb).2]
    have hcompatible : ∀ ops ∈ gs, ∀ a ∈ ops, ∀ b ∈ ops,
        Compatible (readOpValueMap a) (readOpValueMap b) := by
      intro ops hops a ha b hb
      obtain ⟨hread, hkeys⟩ := hgroup ops hops a ha
      exact hconsistent.compatible hread (hgroup ops hops b hb).1 (hkeys b hb)
    have hforks : (∃ fork, fork ∈ gs.flatMap (findForks order)) ↔ HasLongFork history := by
      constructor
      · rintro ⟨fork, hfork⟩
        obtain ⟨ops, hops, hfork⟩ := List.mem_flatMap.mp hfork
        obtain ⟨a, ha, b, hb, -, hab, hba⟩ := (mem_findForks (hcompatible ops hops)).1 fork hfork
        obtain ⟨hread, hkeys⟩ := hgroup ops hops a ha
        exact ⟨a, hread, b, (hgroup ops hops b hb).1, hkeys b hb, hab, hba⟩
      · rintro ⟨r, hr, r', hr', hkeys, hab, hba⟩
        have hops := (hmem _).mpr ⟨r, hr, rfl⟩
        obtain ⟨fork, hfork⟩ := (mem_findForks (hcompatible _ hops)).2
          r (List.mem_filter.mpr ⟨hr, decide_eq_true rfl⟩)
          r' (List.mem_filter.mpr ⟨hr', decide_eq_true hkeys.symm⟩) hab hba
        exact ⟨fork, List.mem_flatMap.mpr ⟨_, hops, hfork⟩⟩
    have hnone : ensureNoMultipleWritesToOneKey history = none :=
      multipleWrites_eq_none hgrouped.once fun k _ => Finset.notMem_empty k
    unfold checker ensureNoLongForks
    simp only [hnone, hgs]
    cases hlist : gs.flatMap (findForks order) with
    | nil =>
      refine ⟨_, rfl, ?_⟩
      rw [← hforks, hlist]
      constructor
      · rintro ⟨forks, hverdict⟩
        cases hverdict
      · rintro ⟨fork, hfork⟩
        cases hfork
    | cons fork forks =>
      have hin : fork ∈ gs.flatMap (findForks order) := by
        rw [hlist]
        exact List.mem_cons_self
      obtain ⟨ops, hops, hfork⟩ := List.mem_flatMap.mp hin
      obtain ⟨a, -, b, -, rfl, -, -⟩ := (mem_findForks (hcompatible ops hops)).1 fork hfork
      exact ⟨_, rfl, fun _ => hforks.mp ⟨_, hin⟩, fun _ => ⟨_, rfl⟩⟩
  · exact ⟨fun r hr r' hr' hkeys => hconsistent.compatible hr hr' hkeys,
      fun a b hcompatible => ⟨readCompare_swap hcompatible, readCompare_iff hcompatible⟩⟩

/-! ## A value that nobody wrote -/

/-- Process 0 reads key 0 as 2 and process 1 reads it as 1, which is all that is
written to it. -/
def unwrittenRead : List (TxnOp ℕ ℕ) :=
  [⟨0, .int 0, .invoke, [⟨.w, 0, some 1⟩]⟩, ⟨1, .int 0, .ok, [⟨.w, 0, some 1⟩]⟩,
    ⟨2, .int 0, .invoke, [⟨.r, 0, none⟩, ⟨.r, 1, none⟩]⟩,
    ⟨3, .int 0, .ok, [⟨.r, 0, some 2⟩, ⟨.r, 1, none⟩]⟩,
    ⟨4, .int 1, .invoke, [⟨.r, 0, none⟩, ⟨.r, 1, none⟩]⟩,
    ⟨5, .int 1, .ok, [⟨.r, 0, some 1⟩, ⟨.r, 1, none⟩]⟩]

/-- Of two keys, process 0 sees only one and process 1 only the other. -/
def forked : List (TxnOp ℕ ℕ) :=
  [⟨0, .int 0, .invoke, [⟨.w, 0, some 1⟩]⟩, ⟨1, .int 1, .invoke, [⟨.w, 1, some 1⟩]⟩,
    ⟨2, .int 2, .invoke, [⟨.r, 0, none⟩, ⟨.r, 1, none⟩]⟩,
    ⟨3, .int 3, .invoke, [⟨.r, 1, none⟩, ⟨.r, 0, none⟩]⟩,
    ⟨4, .int 2, .ok, [⟨.r, 0, some 1⟩, ⟨.r, 1, none⟩]⟩,
    ⟨5, .int 3, .ok, [⟨.r, 1, some 1⟩, ⟨.r, 0, none⟩]⟩]

theorem reads_forked : reads forked = [⟨4, .int 2, .ok, [⟨.r, 0, some 1⟩, ⟨.r, 1, none⟩]⟩,
    ⟨5, .int 3, .ok, [⟨.r, 1, some 1⟩, ⟨.r, 0, none⟩]⟩] := rfl

theorem consistent_forked : Consistent forked := by
  have hone : ∀ r ∈ reads forked, ∀ mop ∈ r.value, mop.value = none ∨ mop.value = some 1 := by
    decide
  have hlookup : ∀ r ∈ reads forked, ∀ k v, (readOpValueMap r).lookup k = some (some v) →
      v = 1 := by
    rw [reads_forked]
    simp only [List.mem_cons, List.not_mem_nil, or_false, forall_eq_or_imp, forall_eq,
      readOpValueMap, List.foldl_cons, List.foldl_nil, Assoc.lookup_insert_eq_ite]
    constructor <;> (intro k v; split <;> [skip; split] <;> simp [eq_comm])
  intro r hr r' hr' k v w hv hw
  rw [hlookup r hr k v hv, hlookup r' hr' k w hw]

/-- The checker finds the fork. -/
theorem checker_invalid_iff_forked :
    ∃ order result, checker order 2 forked = .ok result ∧ result.isInvalid := by
  obtain ⟨⟨result, hresult, hiff⟩, -⟩ := checker_invalid_iff
    ⟨Finset.toList, Finset.mem_toList, Finset.nodup_toList⟩
    (show Grouped 2 forked from ⟨by decide, by decide⟩) consistent_forked
  refine ⟨_, result, hresult, hiff.mpr ?_⟩
  refine ⟨_, by rw [reads_forked]; exact List.mem_cons_self, _,
    by rw [reads_forked]; exact List.mem_cons_of_mem _ List.mem_cons_self, by decide,
    ⟨0, ⟨1, rfl⟩, ?_⟩, ⟨1, ⟨1, rfl⟩, ?_⟩⟩
  · rintro ⟨v, hv⟩
    cases hv
  · rintro ⟨v, hv⟩
    cases hv

/-- Key 0 is written once and each read has two keys, but the search throws. -/
theorem unwrittenRead_illegal :
    Grouped 2 unwrittenRead ∧
      ∀ order, ∃ key reads, checker order 2 unwrittenRead = .error (.distinctValues key reads) := by
  refine ⟨⟨by decide, by decide⟩, fun order => ?_⟩
  have hpairs : distinctPairs order (reads unwrittenRead) =
      [order.walk {⟨3, .int 0, .ok, [⟨.r, 0, some 2⟩, ⟨.r, 1, none⟩]⟩,
        ⟨5, .int 1, .ok, [⟨.r, 0, some 1⟩, ⟨.r, 1, none⟩]⟩}] := by
    rw [distinctPairs, show ((reads unwrittenRead).flatMap fun a =>
      ((reads unwrittenRead).filter fun b => decide (a ≠ b)).map fun b =>
        ({a, b} : Finset (TxnOp ℕ ℕ))).eraseDups =
      [{⟨3, .int 0, .ok, [⟨.r, 0, some 2⟩, ⟨.r, 1, none⟩]⟩,
        ⟨5, .int 1, .ok, [⟨.r, 0, some 1⟩, ⟨.r, 1, none⟩]⟩}] from by decide]
    rfl
  have hforks : ∃ key reads', findForks order (reads unwrittenRead) =
      [.error (.distinctValues key reads')] := by
    rw [findForks, hpairs]
    rcases walk_pair order (a := ⟨3, .int 0, .ok, [⟨.r, 0, some 2⟩, ⟨.r, 1, none⟩]⟩)
      (b := ⟨5, .int 1, .ok, [⟨.r, 0, some 1⟩, ⟨.r, 1, none⟩]⟩) (by decide) with hwalk | hwalk
    · rw [hwalk]
      exact ⟨_, _, rfl⟩
    · rw [hwalk]
      exact ⟨_, _, rfl⟩
  obtain ⟨key, reads', hforks⟩ := hforks
  have hgroups : groups 2 (reads unwrittenRead) = .ok [reads unwrittenRead] := rfl
  refine ⟨key, reads', ?_⟩
  rw [checker, show ensureNoMultipleWritesToOneKey unwrittenRead = none from rfl]
  simp only [ensureNoLongForks, hgroups, List.flatMap_cons, hforks]
  rfl


end Jepsen.Tests.LongFork
