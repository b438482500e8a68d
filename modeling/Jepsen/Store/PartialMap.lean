/-
# Partial maps

A PartialMap is a map and a pointer to the rest of it, which is another PartialMap in
the same file. Keys of the first map hide those of the rest; a key that is removed is
removed from every one of them.
-/

import Jepsen.Library.Assoc

namespace Jepsen.Store

open Jepsen.Library

universe u v

variable {K : Type u} {V : Type v} [DecidableEq K]

/-! ## Maps and their rest -/

/-- A PartialMap, with the rest it has read, or nil. -/
inductive PartialMap (K : Type u) (V : Type v)
  | nil
  | level (m : Assoc K V) (restId : Option ℕ) (restMap : PartialMap K V)

namespace PartialMap

/-- `get` -/
def get (key : K) (default : V) : PartialMap K V → V
  | nil => default
  | level m _ restMap =>
    -- Try to retrieve from this map, or from the rest map.
    if key ∈ m then (m.lookup key).getD default else restMap.get key default

/-- `assoc`, onto the top-level map. -/
def assoc (key : K) (value : V) : PartialMap K V → PartialMap K V
  | nil => level (AList.insert key value ∅) none nil
  | level m restId restMap => level (m.insert key value) restId restMap

/-- `dissoc`, at every level. -/
def dissoc (key : K) : PartialMap K V → PartialMap K V
  | nil => nil
  | level m restId restMap => level (m.erase key) restId (restMap.dissoc key)

/-- `keys`, of all levels, without repeats. -/
def keys : PartialMap K V → List K
  | nil => []
  | level m _ restMap => (m.keys ++ restMap.keys).dedup

end PartialMap

/-! ## Reading -/

/-- The partial-map blocks of a file by their ids, each with the id of the rest or zero. -/
abbrev MapBlocks (K : Type u) (V : Type v) := ℕ → Option (ℕ × Assoc K V)

/-- `read-partial-map-block`, and the rest of it, up to a number of blocks. -/
def readPartialMap (file : MapBlocks K V) : ℕ → ℕ → Option (PartialMap K V)
  | 0, _ => none
  | blocks + 1, id => do
    let (restId, m) ← file id
    if restId = 0 then pure (.level m none .nil)
    else do
      let restMap ← readPartialMap file blocks restId
      pure (.level m (some restId) restMap)

/-- The maps of a chain of blocks. -/
inductive Chain (file : MapBlocks K V) : ℕ → List (Assoc K V) → Prop
  | last {id : ℕ} {m : Assoc K V} (hblock : file id = some (0, m)) : Chain file id [m]
  | rest {id restId : ℕ} {m : Assoc K V} {maps : List (Assoc K V)}
      (hblock : file id = some (restId, m)) (hrest : restId ≠ 0)
      (hchain : Chain file restId maps) : Chain file id (m :: maps)

/-- The maps of a chain as one, where the earlier ones take precedence. -/
def merged (maps : List (Assoc K V)) : Assoc K V := maps.foldr (· ∪ ·) ∅

/-! ## Sequences of operations -/

/-- An operation on a map. -/
inductive MapCall (K : Type u) (V : Type v)
  | assoc (key : K) (value : V)
  | dissoc (key : K)
  | get (key : K) (default : V)
  | keys

/-- What an operation returns that is not a map. -/
inductive Answer (K : Type u) (V : Type v)
  | value (v : V)
  | keys (ks : List K)

/-- The answers of a PartialMap. -/
def PartialMap.answers : PartialMap K V → List (MapCall K V) → List (Answer K V)
  | _, [] => []
  | map, .assoc key value :: calls => (map.assoc key value).answers calls
  | map, .dissoc key :: calls => (map.dissoc key).answers calls
  | map, .get key default :: calls => .value (map.get key default) :: map.answers calls
  | map, .keys :: calls => .keys map.keys :: map.answers calls

/-- The answers of a plain map. -/
def plainAnswers : Assoc K V → List (MapCall K V) → List (Answer K V)
  | _, [] => []
  | map, .assoc key value :: calls => plainAnswers (map.insert key value) calls
  | map, .dissoc key :: calls => plainAnswers (map.erase key) calls
  | map, .get key default :: calls =>
    .value ((map.lookup key).getD default) :: plainAnswers map calls
  | map, .keys :: calls => .keys map.keys :: plainAnswers map calls

/-- Answers agree: values are equal, and keys are the same ones, without repeats. -/
inductive Agree : Answer K V → Answer K V → Prop
  | value (v : V) : Agree (.value v) (.value v)
  | keys {ks ks' : List K} (hnodup : ks.Nodup) (hperm : ks.Perm ks') : Agree (.keys ks) (.keys ks')

/-! ## What a PartialMap looks up -/

namespace PartialMap

/-- What is found under a key. -/
def lookup (key : K) : PartialMap K V → Option V
  | nil => none
  | level m _ restMap => (m.lookup key).or (restMap.lookup key)

theorem get_eq (key : K) (default : V) (map : PartialMap K V) :
    map.get key default = (map.lookup key).getD default := by
  induction map with
  | nil => rfl
  | level m restId restMap ih =>
    unfold get lookup
    split_ifs with hmem
    · obtain ⟨value, hvalue⟩ := Option.isSome_iff_exists.mp (AList.lookup_isSome.mpr hmem)
      rw [hvalue]
      rfl
    · rw [AList.lookup_eq_none.mpr hmem, Option.none_or, ih]

theorem lookup_assoc (key key' : K) (value : V) (map : PartialMap K V) :
    (map.assoc key value).lookup key' =
      if key' = key then some value else map.lookup key' := by
  cases map with
  | nil =>
    unfold assoc lookup
    rw [Assoc.lookup_insert_eq_ite]
    split_ifs <;> rfl
  | level m restId restMap =>
    unfold assoc lookup
    rw [Assoc.lookup_insert_eq_ite]
    split_ifs <;> rfl

theorem lookup_dissoc (key key' : K) (map : PartialMap K V) :
    (map.dissoc key).lookup key' = if key' = key then none else map.lookup key' := by
  induction map with
  | nil => exact (ite_self none).symm
  | level m restId restMap ih =>
    unfold dissoc lookup
    rw [ih]
    by_cases hkey : key' = key
    · subst hkey
      rw [AList.lookup_erase, if_pos rfl, if_pos rfl]
      rfl
    · rw [AList.lookup_erase_ne hkey, if_neg hkey, if_neg hkey]

theorem mem_keys {key : K} {map : PartialMap K V} :
    key ∈ map.keys ↔ (map.lookup key).isSome := by
  induction map with
  | nil => simp [keys, lookup]
  | level m restId restMap ih =>
    unfold keys lookup
    rw [List.mem_dedup, List.mem_append, ih, ← AList.mem_keys, ← AList.lookup_isSome,
      Option.isSome_or, Bool.or_eq_true]

theorem nodup_keys (map : PartialMap K V) : map.keys.Nodup := by
  cases map with
  | nil => exact List.nodup_nil
  | level m restId restMap => exact List.nodup_dedup _

end PartialMap

/-! ## Refinement -/

/-- A PartialMap stands for a plain map. -/
def StandsFor (map : PartialMap K V) (plain : Assoc K V) : Prop :=
  ∀ key, map.lookup key = plain.lookup key

theorem StandsFor.assoc {map : PartialMap K V} {plain : Assoc K V} (h : StandsFor map plain)
    (key : K) (value : V) : StandsFor (map.assoc key value) (plain.insert key value) := by
  intro key'
  rw [PartialMap.lookup_assoc, Assoc.lookup_insert_eq_ite, h key']

theorem StandsFor.dissoc {map : PartialMap K V} {plain : Assoc K V} (h : StandsFor map plain)
    (key : K) : StandsFor (map.dissoc key) (plain.erase key) := by
  intro key'
  rw [PartialMap.lookup_dissoc]
  by_cases hkey : key' = key
  · rw [if_pos hkey, hkey, AList.lookup_erase]
  · rw [if_neg hkey, AList.lookup_erase_ne hkey, h key']

theorem StandsFor.agree_keys {map : PartialMap K V} {plain : Assoc K V}
    (h : StandsFor map plain) : Agree (V := V) (.keys map.keys) (.keys plain.keys) := by
  have hplain : plain.keys.Nodup := plain.nodupKeys
  apply Agree.keys map.nodup_keys
  rw [List.perm_ext_iff_of_nodup map.nodup_keys hplain]
  intro key
  rw [PartialMap.mem_keys, h key, AList.lookup_isSome, AList.mem_keys]

theorem StandsFor.answers {map : PartialMap K V} {plain : Assoc K V} (h : StandsFor map plain)
    (calls : List (MapCall K V)) :
    List.Forall₂ Agree (map.answers calls) (plainAnswers plain calls) := by
  induction calls generalizing map plain with
  | nil => exact .nil
  | cons call calls ih =>
    cases call with
    | assoc key value => exact ih (h.assoc key value)
    | dissoc key => exact ih (h.dissoc key)
    | get key default =>
      unfold PartialMap.answers plainAnswers
      rw [PartialMap.get_eq, h key]
      exact .cons (.value _) (ih h)
    | keys => exact .cons h.agree_keys (ih h)

/-- What is read from a chain of blocks stands for the merged maps. -/
theorem exists_readPartialMap {file : MapBlocks K V} {id : ℕ} {maps : List (Assoc K V)}
    (hchain : Chain file id maps) {blocks : ℕ} (hblocks : maps.length ≤ blocks) :
    ∃ map, readPartialMap file blocks id = some map ∧ StandsFor map (merged maps) := by
  induction hchain generalizing blocks with
  | @last id m hblock =>
    obtain ⟨blocks, rfl⟩ := Nat.exists_eq_add_of_le' hblocks
    refine ⟨.level m none .nil, ?_, ?_⟩
    · simp [readPartialMap, hblock]
    · intro key
      simp [PartialMap.lookup, merged]
  | @rest id restId m maps hblock hrest hchain ih =>
    obtain ⟨blocks, rfl⟩ := Nat.exists_eq_add_of_le' (Nat.le_trans (Nat.le_add_left 1 _) hblocks)
    obtain ⟨restMap, hread, hstands⟩ := ih (Nat.le_of_succ_le_succ hblocks)
    refine ⟨.level m (some restId) restMap, ?_, ?_⟩
    · simp [readPartialMap, hblock, hrest, hread]
    · intro key
      unfold PartialMap.lookup merged
      rw [List.foldr_cons, hstands key]
      by_cases hmem : key ∈ m
      · obtain ⟨value, hvalue⟩ := Option.isSome_iff_exists.mp (AList.lookup_isSome.mpr hmem)
        rw [AList.lookup_union_left hmem, hvalue]
        rfl
      · rw [AList.lookup_union_right hmem, AList.lookup_eq_none.mpr hmem]
        rfl

/-- A PartialMap is read from every chain of blocks, and answers every sequence of operations as
the merged map does. -/
theorem partialMap_agrees {file : MapBlocks K V} {id : ℕ} {maps : List (Assoc K V)}
    (hchain : Chain file id maps) {blocks : ℕ} (hblocks : maps.length ≤ blocks)
    (calls : List (MapCall K V)) :
    ∃ map, readPartialMap file blocks id = some map ∧
      List.Forall₂ Agree (map.answers calls) (plainAnswers (merged maps) calls) := by
  obtain ⟨map, hread, hstands⟩ := exists_readPartialMap hchain hblocks
  exact ⟨map, hread, hstands.answers calls⟩

/-- A shallow map, and the rest of it. -/
def waters : MapBlocks String (Option ℕ)
  | 2 => some (0, AList.insert "deep" (some 1) (AList.insert "shallow" none ∅))
  | 3 => some (2, AList.insert "shallow" (some 2) ∅)
  | _ => none

/-- The key of both is hidden, and then removed from both. -/
theorem waters_agrees : ∃ map, readPartialMap waters 2 3 = some map ∧
    List.Forall₂ Agree
      (map.answers [.get "shallow" none, .dissoc "shallow", .get "shallow" (some 0), .keys])
      (plainAnswers (merged [AList.insert "shallow" (some 2) ∅,
        AList.insert "deep" (some 1) (AList.insert "shallow" none ∅)])
        [.get "shallow" none, .dissoc "shallow", .get "shallow" (some 0), .keys]) :=
  partialMap_agrees (.rest rfl (by decide) (.last rfl)) le_rfl _

end Jepsen.Store
