/-
# Checking keys on their own

A lifted checker cuts a history into one subhistory for each key. The cut is a
fold that may run on chunks of the history: operations with a tuple go to the
subhistory of its key, all others to every subhistory, and the subhistories of
consecutive chunks are concatenated. The verdict merges those of the keys.
-/

import Jepsen.Checker.Valid
import Jepsen.Independent.ConcurrentGenerator
import Jepsen.Library.ChunkedFold
import Jepsen.Library.Multimap

namespace Jepsen.Independent

open Jepsen.History Jepsen.Library
open Jepsen.Checker (Valid CheckThrown SafeResult checkSafe mergeValid)

universe u v w

variable {K : Type u} {A : Type v} [DecidableEq K]

/-! ## Subhistories -/

/-- `history-keys` -/
def historyKeys (history : List (Op (Value K A))) : Finset K :=
  history.foldl (fun ks op =>
    match op.value with
    | .tuple k _ => insert k ks
    | _ => ks) ∅

/-- Subhistories by key, unless a key had none to add to. -/
abbrev Subhistories (K : Type u) (A : Type v) : Type (max u v) :=
  Except CheckThrown (Assoc K (List (Op (Value K A))))

/-- The reducer of `subhistories`. -/
def reduceSubhistories (subhistories : Assoc K (List (Op (Value K A)))) (op : Op (Value K A)) :
    Subhistories K A :=
  match op.value with
  -- Op belongs in a specific subhistory
  | .tuple k v =>
      match subhistories.lookup k with
      | none => .error .nullPointer
      | some subhistory => .ok (subhistories.insert k (subhistory ++ [{ op with value := v }]))
  -- This belongs in every subhistory.
  | _ => .ok (Assoc.mapVals (fun _ subhistory => subhistory ++ [op]) subhistories)

/-- Put what two chunks have for a key, one after the other. -/
def putConcat (shs₁ shs₂ shs : Assoc K (List (Op (Value K A)))) (k : K) :
    Except CheckThrown (Assoc K (List (Op (Value K A)))) :=
  match shs₁.lookup k, shs₂.lookup k with
  | some sh₁, some sh₂ => .ok (shs.insert k (sh₁ ++ sh₂))
  | _, _ => .error .nullPointer

/-- The combiner of `subhistories`. -/
def combineSubhistories (ks : List K) (shs₁ shs₂ : Assoc K (List (Op (Value K A)))) :
    Except CheckThrown (Assoc K (List (Op (Value K A)))) :=
  ks.foldlM (putConcat shs₁ shs₂) shs₁

/-- The fold of `subhistories`, over the keys in some order. -/
def subhistoriesFolder (ks : List K) : Folder (Op (Value K A)) (Subhistories K A) where
  init := .ok (Assoc.insertAll ks [] ∅)
  reduce subhistories op := subhistories.bind fun subhistories =>
    reduceSubhistories subhistories op
  combine shs₁ shs₂ := shs₁.bind fun shs₁ => shs₂.bind fun shs₂ => combineSubhistories ks shs₁ shs₂

/-- `subhistories`, carried out by a plan over the chunks of the history. -/
def subhistories (order : SetOrder K) (ks : Finset K) (plan : FoldPlan (Op (Value K A))) :
    Subhistories K A :=
  (subhistoriesFolder (order.walk ks)).run plan

/-! ## The lifted checker -/

/-- The map a lifted checker returns. -/
structure LiftedResult (K : Type u) (R : Type v) (E : Type w) where
  valid : Valid
  /-- Sorted by key. -/
  results : List (K × SafeResult R E)
  failures : List K

/-- `checker`, on the keys and the subhistories of a history. A result is a failure
if its `:valid?` is `false` or missing. -/
def checker {R : Type v} {E : Type w} [LinearOrder K] (order : SetOrder K)
    (check : K → List (Op (Value K A)) → Except E (Option Valid × R))
    (plan : FoldPlan (Op (Value K A))) : Except CheckThrown (LiftedResult K R E) :=
  match subhistories order (historyKeys plan.elements) plan with
  | .error t => .error t
  | .ok shs =>
      let results := (shs.entries.map fun e => (e.1, checkSafe (check e.1 e.2))).insertionSort
        fun a b => a.1 ≤ b.1
      let failures := (results.filter fun r => decide (r.2.valid = none ∨
        r.2.valid = some .false)).map Prod.fst
      match mergeValid (results.map fun r => r.2.valid) with
      | .error t => .error t
      | .ok valid => .ok ⟨valid, results, failures⟩

/-! ## The subsequence of a key -/

/-- An operation as the subhistory of a key has it, if it does. -/
def select (k : K) (op : Op (Value K A)) : Option (Op (Value K A)) :=
  match op.value with
  | .tuple k' v => if k' = k then some { op with value := v } else none
  | _ => some op

/-- The operations whose value is untupled or tupled with the key, unwrapped, in
their order. -/
def subsequence (k : K) (history : List (Op (Value K A))) : List (Op (Value K A)) :=
  history.filterMap (select k)

/-- Every key of the operations is one of `ks`. -/
def KeysWithin (ks : List K) (history : List (Op (Value K A))) : Prop :=
  ∀ op ∈ history, ∀ k v, op.value = .tuple k v → k ∈ ks

theorem mem_historyKeys {history : List (Op (Value K A))} {k : K} :
    k ∈ historyKeys history ↔ ∃ op ∈ history, ∃ v, op.value = .tuple k v := by
  induction history using List.reverseRecOn with
  | nil => simp [historyKeys]
  | append_singleton history op ih =>
    rw [historyKeys, List.foldl_append, List.foldl_cons, List.foldl_nil, ← historyKeys]
    simp only [List.mem_append, List.mem_singleton, or_and_right, exists_or, exists_eq_left]
    rw [← ih]
    cases op.value with
    | tuple k' v => simp [or_comm, eq_comm]
    | _ => simp

/-- The fold has, for every key, the subsequence of the operations folded so far. -/
def Sorted (ks : List K) (history : List (Op (Value K A))) (shs : Subhistories K A) : Prop :=
  KeysWithin ks history → ∃ m, shs = .ok m ∧
    ∀ k, m.lookup k = if k ∈ ks then some (subsequence k history) else none

theorem reduceSubhistories_eq_ok {ks : List K} {history : List (Op (Value K A))}
    {op : Op (Value K A)} {m : Assoc K (List (Op (Value K A)))}
    (hop : ∀ k v, op.value = .tuple k v → k ∈ ks)
    (hm : ∀ k, m.lookup k = if k ∈ ks then some (subsequence k history) else none) :
    ∃ m', reduceSubhistories m op = .ok m' ∧
      ∀ k, m'.lookup k = if k ∈ ks then some (subsequence k (history ++ [op])) else none := by
  have hsnoc : ∀ k, subsequence k (history ++ [op]) =
      subsequence k history ++ (select k op).toList := by
    intro k
    rw [subsequence, List.filterMap_append, ← subsequence]
    cases hselect : select k op <;> simp [hselect]
  -- An operation without a tuple goes to every key.
  have hevery : (∀ k, select k op = some op) →
      ∀ k, (Assoc.mapVals (fun _ sh => sh ++ [op]) m).lookup k =
        if k ∈ ks then some (subsequence k (history ++ [op])) else none := by
    intro hselect k
    rw [Assoc.lookup_mapVals, hm k, hsnoc, hselect]
    split <;> rfl
  unfold reduceSubhistories
  cases hvalue : op.value with
  | nil => exact ⟨_, rfl, hevery fun k => by simp [select, hvalue]⟩
  | plain a => exact ⟨_, rfl, hevery fun k => by simp [select, hvalue]⟩
  | tuple k' v =>
    have hk' := hop k' v hvalue
    simp only [hm k', if_pos hk']
    refine ⟨_, rfl, fun k => ?_⟩
    rw [Assoc.lookup_insert_eq_ite, hm k, hsnoc]
    by_cases heq : k = k'
    · subst heq
      simp [select, hvalue, hk']
    · simp [select, hvalue, heq, Ne.symm heq]

theorem combineSubhistories_eq_ok {ks : List K} {history history' : List (Op (Value K A))}
    {m m' : Assoc K (List (Op (Value K A)))}
    (hm : ∀ k, m.lookup k = if k ∈ ks then some (subsequence k history) else none)
    (hm' : ∀ k, m'.lookup k = if k ∈ ks then some (subsequence k history') else none) :
    ∃ m'', combineSubhistories ks m m' = .ok m'' ∧
      ∀ k, m''.lookup k = if k ∈ ks then some (subsequence k (history ++ history')) else none := by
  have hfold : ∀ (walked : List K) (shs : Assoc K (List (Op (Value K A)))),
      (∀ k ∈ walked, k ∈ ks) →
      ∃ m'', walked.foldlM (putConcat m m') shs = .ok m'' ∧
        ∀ k, m''.lookup k =
          if k ∈ walked then some (subsequence k (history ++ history')) else shs.lookup k := by
    intro walked
    induction walked with
    | nil => exact fun shs _ => ⟨shs, rfl, fun k => rfl⟩
    | cons k' walked ih =>
      intro shs hwalked
      have hk' := hwalked k' List.mem_cons_self
      obtain ⟨m'', hfold, hlookup⟩ :=
        ih (shs.insert k' (subsequence k' history ++ subsequence k' history'))
          fun k hk => hwalked k (List.mem_cons_of_mem k' hk)
      refine ⟨m'', ?_, fun k => ?_⟩
      · rw [List.foldlM_cons, putConcat, hm k', hm' k', if_pos hk', if_pos hk']
        exact hfold
      · rw [hlookup k, Assoc.lookup_insert_eq_ite]
        by_cases heq : k = k'
        · subst heq
          simp [subsequence]
        · simp [heq]
  obtain ⟨m'', hm'', hlookup⟩ := hfold ks m fun k hk => hk
  refine ⟨m'', hm'', fun k => ?_⟩
  rw [hlookup k, hm k]
  by_cases hk : k ∈ ks <;> simp [hk]

/-- The fold of `subhistories` sorts operations by key. -/
theorem tracks_sorted (ks : List K) :
    (subhistoriesFolder ks : Folder (Op (Value K A)) _).Tracks (Sorted ks) where
  init := fun _ => ⟨_, rfl, fun k => Assoc.lookup_insertAll ks [] ∅ k⟩
  reduce := by
    intro history shs op hsorted hwithin
    obtain ⟨m, rfl, hm⟩ := hsorted fun op' hop' => hwithin op' (List.mem_append_left _ hop')
    exact reduceSubhistories_eq_ok
      (hwithin op (List.mem_append_right _ (List.mem_singleton_self op))) hm
  combine := by
    intro history history' shs shs' hsorted hsorted' hwithin
    obtain ⟨m, rfl, hm⟩ := hsorted fun op' hop' => hwithin op' (List.mem_append_left _ hop')
    obtain ⟨m', rfl, hm'⟩ := hsorted' fun op' hop' => hwithin op' (List.mem_append_right _ hop')
    exact combineSubhistories_eq_ok hm hm'

/-- Whatever the chunks, the subhistory of each key is its subsequence. -/
theorem subhistories_eq_ok (order : SetOrder K) (plan : FoldPlan (Op (Value K A))) :
    ∃ shs, subhistories order (historyKeys plan.elements) plan = .ok shs ∧
      ∀ k, shs.lookup k = if k ∈ historyKeys plan.elements
        then some (subsequence k plan.elements) else none := by
  have hwithin : KeysWithin (order.walk (historyKeys plan.elements)) plan.elements :=
    fun op hop k v hvalue => order.mem_walk.mpr (mem_historyKeys.mpr ⟨op, hop, v, hvalue⟩)
  obtain ⟨shs, hshs, hlookup⟩ := (tracks_sorted _).run plan hwithin
  refine ⟨shs, hshs, fun k => ?_⟩
  rw [hlookup k]
  simp only [order.mem_walk]

/-- The subhistory of each key is the subsequence of the operations whose value is
untupled or tupled with it, and the lifted checker is valid exactly if the checker is
valid on each of them. -/
theorem checker_valid_iff {R : Type v} {E : Type w} [LinearOrder K] (order : SetOrder K)
    (history : List (Op (Value K A))) (plan : FoldPlan (Op (Value K A)))
    (hplan : plan.elements = history) :
    (∃ shs, subhistories order (historyKeys history) plan = .ok shs ∧
      ∀ k, shs.lookup k =
        if k ∈ historyKeys history then some (subsequence k history) else none) ∧
    ∀ check : K → List (Op (Value K A)) → Except E (Option Valid × R),
      (∃ result, checker order check plan = .ok result ∧ result.valid = .true) ↔
        ∀ k ∈ historyKeys history, ∃ rest, check k (subsequence k history) =
          .ok (some .true, rest) := by
  subst hplan
  obtain ⟨shs, hshs, hlookup⟩ := subhistories_eq_ok order plan
  refine ⟨⟨shs, hshs, hlookup⟩, fun check => ?_⟩
  have hentry : ∀ e : (Σ _ : K, List (Op (Value K A))), e ∈ shs.entries ↔
      e.1 ∈ historyKeys plan.elements ∧ e.2 = subsequence e.1 plan.elements := by
    intro e
    rw [show e = ⟨e.1, e.2⟩ from rfl, Assoc.mem_entries_iff, hlookup]
    split
    · rename_i hmem
      simp [hmem, eq_comm]
    · rename_i hmem
      simp [hmem]
  have hvalid : (∃ result, checker order check plan = .ok result ∧ result.valid = .true) ↔
      mergeValid (((shs.entries.map fun e => (e.1, checkSafe (check e.1 e.2))).insertionSort
        fun a b => a.1 ≤ b.1).map fun r => r.2.valid) = .ok .true := by
    unfold checker
    simp only [hshs]
    cases mergeValid (((shs.entries.map fun e => (e.1, checkSafe (check e.1 e.2))).insertionSort
        fun a b => a.1 ≤ b.1).map fun r => r.2.valid) with
    | error t => simp
    | ok valid => simp
  rw [hvalid, Jepsen.Checker.mergeValid_eq_true_iff]
  simp only [List.mem_map, List.mem_insertionSort, forall_exists_index, and_imp,
    forall_apply_eq_imp_iff₂]
  constructor
  · intro hall k hk
    exact Jepsen.Checker.checkSafe_valid_eq_true_iff.mp
      (hall ⟨k, subsequence k plan.elements⟩ ((hentry _).mpr ⟨hk, rfl⟩))
  · intro hall e he
    obtain ⟨hmem, hseq⟩ := (hentry e).mp he
    rw [hseq]
    exact Jepsen.Checker.checkSafe_valid_eq_true_iff.mpr (hall e.1 hmem)

/-- Operations of two keys, with one of neither between them. -/
def keyed : List (Op (Value ℕ ℕ)) :=
  [⟨0, 0, .invoke, .int 0, some "foo", .tuple 0 (.plain 10), false, none⟩,
    ⟨1, 1, .info, .nemesis, some "start", .nil, false, none⟩,
    ⟨2, 2, .invoke, .int 1, some "foo", .tuple 1 (.plain 11), false, none⟩,
    ⟨3, 3, .invoke, .int 2, some "foo", .tuple 0 (.plain 12), false, none⟩]

/-- Cut after the second operation, the subhistory of key 0 has three operations. -/
theorem checker_valid_iff_keyed :
    ∃ shs, subhistories (.ascending ℕ) (historyKeys keyed)
        (.combine (.combine (.chunk []) (.chunk (keyed.take 2))) (.chunk (keyed.drop 2))) =
      .ok shs ∧ (shs.lookup 0).map (List.map Op.value) = some [.plain 10, .nil, .plain 12] := by
  obtain ⟨⟨shs, hshs, hlookup⟩, -⟩ := checker_valid_iff (R := Unit) (E := Unit) (.ascending ℕ)
    keyed (.combine (.combine (.chunk []) (.chunk (keyed.take 2))) (.chunk (keyed.drop 2))) rfl
  refine ⟨shs, hshs, ?_⟩
  rw [hlookup 0]
  decide

end Jepsen.Independent
