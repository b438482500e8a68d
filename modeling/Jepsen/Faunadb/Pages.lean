/-
# Reads as unions of adds

Elements added together should be read together or not at all. The checker
indexes every element by the group it was added in, and crosses the groups of a
read off one by one. An element without a group crosses off nothing, and the
recursion goes on with the same read.
-/

import Jepsen.Library.Assoc

namespace Jepsen.Faunadb.Pages

open Jepsen.Library

universe u

variable {E : Type u} [DecidableEq E]

/-! ## Adds -/

/-- The `:type` of an op. -/
inductive OpType
  | invoke | ok | fail | info
  deriving DecidableEq

/-- An `:add` op, with the elements of its `:value`. -/
structure Add (E : Type u) where
  type : OpType
  value : List E
  deriving DecidableEq

/-- The groups that could possibly have succeeded: those invoked, without those that failed. -/
def adds (history : List (Add E)) : List (List E) :=
  let invokes := (history.filter fun op => op.type = .invoke).map Add.value
  let fails := (history.filter fun op => op.type = .fail).map Add.value
  (invokes.filter fun value => value ∉ fails).dedup

/-- Index an element by its group; none if it is in the index. -/
def assocElement (xs : Finset E) (idx : Assoc E (Finset E)) (x : E) :
    Option (Assoc E (Finset E)) :=
  -- Elements must be unique
  if x ∈ idx then none else some (idx.insert x xs)

/-- Index the elements of a group. -/
def assocGroup (idx : Assoc E (Finset E)) (xs : List E) : Option (Assoc E (Finset E)) :=
  xs.dedup.foldlM (assocElement xs.toFinset) idx

/-- The index of individual elements to all elements added in that group; none if an assertion
fails. -/
def index (groups : List (List E)) : Option (Assoc E (Finset E)) :=
  groups.foldlM assocGroup ∅

/-! ## Reads -/

/-- A group of which only a part was found. -/
structure Err (E : Type u) where
  expected : Finset E
  found : Finset E
  deriving DecidableEq

/-- The element that `first` finds in each set. -/
abbrev First (E : Type u) := (s : Finset E) → s.Nonempty → {e : E // e ∈ s}

/-- The group that an element is indexed by, with nil as no elements. -/
def groupOf (idx : Assoc E (Finset E)) (e : E) : Finset E := (idx.lookup e).getD ∅

/-- `read-errs`, up to a number of calls; none if it has not returned by then. -/
def readErrs (first : First E) (idx : Assoc E (Finset E)) :
    ℕ → Finset E → Finset (Err E) → Option (Finset (Err E))
  | 0, _, _ => none
  | calls + 1, read, errs =>
    if hread : read.Nonempty then
      let add := groupOf idx (first read hread)
      let errs' := if add ⊆ read then errs else insert ⟨add, read ∩ add⟩ errs
      readErrs first idx calls (read \ add) errs'
    else some errs

/-- The read is the union of some of the groups. -/
def IsUnion (groups : List (List E)) (read : Finset E) : Prop :=
  ∃ chosen ⊆ groups, ∀ e, e ∈ read ↔ ∃ xs ∈ chosen, e ∈ xs

/-- Whatever elements are picked, the recursion ends, without errors exactly for a union. -/
def Exact (groups : List (List E)) (idx : Assoc E (Finset E)) (read : Finset E) : Prop :=
  ∀ first : First E, ∃ calls errs, readErrs first idx calls read ∅ = some errs ∧
    (errs = ∅ ↔ IsUnion groups read)

/-! ## The index -/

/-- The index maps the elements of the groups, and only these, to their groups. -/
structure Indexes (idx : Assoc E (Finset E)) (groups : List (List E)) : Prop where
  lookup : ∀ xs ∈ groups, ∀ e ∈ xs, idx.lookup e = some xs.toFinset
  keys : ∀ e ∈ idx, ∃ xs ∈ groups, e ∈ xs

theorem foldlM_assocElement {xs : Finset E} {l : List E} {idx idx' : Assoc E (Finset E)}
    (hfold : l.foldlM (assocElement xs) idx = some idx') :
    (∀ e ∈ l, e ∉ idx) ∧ ∀ e, idx'.lookup e = if e ∈ l then some xs else idx.lookup e := by
  induction l generalizing idx with
  | nil =>
    cases hfold
    exact ⟨fun e he => absurd he List.not_mem_nil, fun e => by simp⟩
  | cons x l ih =>
    rw [List.foldlM_cons] at hfold
    obtain ⟨next, hnext, hrest⟩ := Option.bind_eq_some_iff.mp hfold
    unfold assocElement at hnext
    split_ifs at hnext with hx
    cases hnext
    obtain ⟨hnew, hlookup⟩ := ih hrest
    constructor
    · intro e he hidx
      rcases List.mem_cons.mp he with rfl | he
      · exact hx hidx
      · exact hnew e he (AList.mem_insert _ |>.mpr (Or.inr hidx))
    · intro e
      rw [hlookup, Assoc.lookup_insert_eq_ite]
      by_cases heq : e = x
      · simp [heq]
      · simp [heq]

theorem indexes_append {idx idx' : Assoc E (Finset E)} {groups : List (List E)} {xs : List E}
    (h : Indexes idx groups) (hgroup : assocGroup idx xs = some idx') :
    Indexes idx' (groups ++ [xs]) := by
  obtain ⟨hnew, hlookup⟩ := foldlM_assocElement hgroup
  simp only [List.mem_dedup] at hnew hlookup
  constructor
  · intro xs' hxs' e he
    rw [hlookup]
    rcases List.mem_append.mp hxs' with hold | hlast
    · have hidx := h.lookup xs' hold e he
      have hnot : e ∉ xs := fun hmem =>
        hnew e hmem (AList.lookup_isSome.mp (by rw [hidx]; rfl))
      rw [if_neg hnot]
      exact hidx
    · rw [List.mem_singleton] at hlast
      subst hlast
      rw [if_pos he]
  · intro e he
    have hsome := AList.lookup_isSome.mpr he
    rw [hlookup] at hsome
    split_ifs at hsome with hmem
    · exact ⟨xs, by simp, hmem⟩
    · obtain ⟨xs', hxs', he'⟩ := h.keys e (AList.lookup_isSome.mp hsome)
      exact ⟨xs', List.mem_append_left _ hxs', he'⟩

theorem index_indexes {groups : List (List E)} {idx : Assoc E (Finset E)}
    (hidx : index groups = some idx) : Indexes idx groups := by
  induction groups using List.reverseRecOn generalizing idx with
  | nil =>
    cases hidx
    exact ⟨fun xs hxs => absurd hxs List.not_mem_nil,
      fun e he => absurd he (AList.notMem_empty e)⟩
  | append_singleton groups xs ih =>
    unfold index at hidx
    rw [List.foldlM_append] at hidx
    obtain ⟨prior, hprior, hlast⟩ := Option.bind_eq_some_iff.mp hidx
    rw [List.foldlM_cons] at hlast
    obtain ⟨next, hnext, hrest⟩ := Option.bind_eq_some_iff.mp hlast
    cases hrest
    exact indexes_append (ih hprior) hnext

section
variable {idx : Assoc E (Finset E)} {groups : List (List E)}

theorem groupOf_eq (h : Indexes idx groups) {xs : List E} (hxs : xs ∈ groups) {e : E}
    (he : e ∈ xs) : groupOf idx e = xs.toFinset := by
  unfold groupOf
  rw [h.lookup xs hxs e he, Option.getD_some]

theorem groupOf_eq_empty {e : E} (he : e ∉ idx) : groupOf idx e = ∅ := by
  unfold groupOf
  rw [AList.lookup_eq_none.mpr he, Option.getD_none]

/-- An element that belongs to no group is in the group of no element. -/
theorem notMem_groupOf (h : Indexes idx groups) {e : E} (he : e ∉ idx) (e' : E) :
    e ∉ groupOf idx e' := by
  by_cases he' : e' ∈ idx
  · obtain ⟨xs, hxs, hmem⟩ := h.keys e' he'
    rw [groupOf_eq h hxs hmem, List.mem_toFinset]
    intro hmem'
    exact he (AList.lookup_isSome.mp (by rw [h.lookup xs hxs e hmem']; rfl))
  · rw [groupOf_eq_empty he']
    exact Finset.notMem_empty e

/-- Elements of one group have the same group. -/
theorem groupOf_of_mem (h : Indexes idx groups) {e e' : E} (he' : e' ∈ groupOf idx e) :
    groupOf idx e' = groupOf idx e := by
  by_cases he : e ∈ idx
  · obtain ⟨xs, hxs, hmem⟩ := h.keys e he
    rw [groupOf_eq h hxs hmem] at he' ⊢
    exact groupOf_eq h hxs (List.mem_toFinset.mp he')
  · rw [groupOf_eq_empty he] at he'
    exact absurd he' (Finset.notMem_empty e')

theorem mem_groupOf (h : Indexes idx groups) {e : E} (he : e ∈ idx) : e ∈ groupOf idx e := by
  obtain ⟨xs, hxs, hmem⟩ := h.keys e he
  rw [groupOf_eq h hxs hmem]
  exact List.mem_toFinset.mpr hmem

/-! ## The recursion -/

variable (first : First E)

/-- A read with an element of no group is never crossed off. -/
theorem readErrs_eq_none (h : Indexes idx groups) {e : E} (he : e ∉ idx) (calls : ℕ)
    {read : Finset E} (hread : e ∈ read) (errs : Finset (Err E)) :
    readErrs first idx calls read errs = none := by
  induction calls generalizing read errs with
  | zero => rfl
  | succ calls ih =>
    rw [readErrs, dif_pos ⟨e, hread⟩]
    exact ih (Finset.mem_sdiff.mpr ⟨hread, notMem_groupOf h he _⟩) _

/-- Where every element has a group, each call crosses one off; errors are found exactly if some
group is only partly read. -/
theorem readErrs_eq_some (h : Indexes idx groups) {calls : ℕ} {read : Finset E}
    (hcalls : read.card < calls) (hread : ∀ e ∈ read, e ∈ idx) (errs : Finset (Err E)) :
    ∃ errs', readErrs first idx calls read errs = some errs' ∧
      (errs' = ∅ ↔ errs = ∅ ∧ ∀ e ∈ read, groupOf idx e ⊆ read) := by
  induction calls generalizing read errs with
  | zero => omega
  | succ calls ih =>
    rw [readErrs]
    by_cases hne : read.Nonempty
    · rw [dif_pos hne]
      obtain ⟨e, he⟩ := first read hne
      dsimp only
      have hself := mem_groupOf h (hread e he)
      have hcard : (read \ groupOf idx e).card < read.card := by
        apply Finset.card_lt_card
        rw [Finset.ssubset_iff_of_subset Finset.sdiff_subset]
        exact ⟨e, he, fun hmem => (Finset.mem_sdiff.mp hmem).2 hself⟩
      have hsmall : (read \ groupOf idx e).card < calls := by omega
      obtain ⟨errs', heq, hiff⟩ := ih hsmall
        (fun e' he' => hread e' (Finset.mem_sdiff.mp he').1)
        (if groupOf idx e ⊆ read then errs
          else insert ⟨groupOf idx e, read ∩ groupOf idx e⟩ errs)
      refine ⟨errs', heq, hiff.trans ?_⟩
      by_cases hsub : groupOf idx e ⊆ read
      · rw [if_pos hsub]
        refine and_congr_right fun _ => ⟨fun hrest e' he' => ?_, fun hall e' he' => ?_⟩
        · by_cases hmem : e' ∈ groupOf idx e
          · rw [groupOf_of_mem h hmem]
            exact hsub
          · exact (hrest e' (Finset.mem_sdiff.mpr ⟨he', hmem⟩)).trans Finset.sdiff_subset
        · obtain ⟨he', hnot⟩ := Finset.mem_sdiff.mp he'
          intro x hx
          refine Finset.mem_sdiff.mpr ⟨hall e' he' hx, fun hx' => hnot ?_⟩
          rw [← groupOf_of_mem h hx', groupOf_of_mem h hx]
          exact mem_groupOf h (hread e' he')
      · rw [if_neg hsub]
        constructor
        · intro hrest
          exact absurd hrest.1 (Finset.insert_ne_empty _ _)
        · intro hall
          exact absurd (hall.2 e he) hsub
    · rw [dif_neg hne]
      rw [Finset.not_nonempty_iff_eq_empty] at hne
      subst hne
      exact ⟨errs, rfl, by simp⟩

/-- Where every element has a group, the unions are the reads with whole groups. -/
theorem isUnion_iff (h : Indexes idx groups) {read : Finset E} (hread : ∀ e ∈ read, e ∈ idx) :
    IsUnion groups read ↔ ∀ e ∈ read, groupOf idx e ⊆ read := by
  constructor
  · rintro ⟨chosen, hchosen, hmem⟩ e he
    obtain ⟨xs, hxs, hexs⟩ := (hmem e).mp he
    rw [groupOf_eq h (hchosen hxs) hexs]
    intro x hx
    exact (hmem x).mpr ⟨xs, hxs, List.mem_toFinset.mp hx⟩
  · intro hall
    refine ⟨groups.filter fun xs => xs.toFinset ⊆ read, List.filter_subset_self _, fun e => ?_⟩
    constructor
    · intro he
      obtain ⟨xs, hxs, hexs⟩ := h.keys e (hread e he)
      have hsub := hall e he
      rw [groupOf_eq h hxs hexs] at hsub
      exact ⟨xs, List.mem_filter.mpr ⟨hxs, decide_eq_true hsub⟩, hexs⟩
    · rintro ⟨xs, hxs, hexs⟩
      exact of_decide_eq_true (List.mem_filter.mp hxs).2 (List.mem_toFinset.mpr hexs)

end

/-- Pairwise disjoint groups can be indexed. -/
theorem exists_index {groups : List (List E)} (hdisjoint : groups.Pairwise List.Disjoint) :
    ∃ idx, index groups = some idx := by
  have hgroup : ∀ (xs : Finset E) (l : List E) (idx : Assoc E (Finset E)), l.Nodup →
      (∀ e ∈ l, e ∉ idx) → ∃ idx', l.foldlM (assocElement xs) idx = some idx' := by
    intro xs l
    induction l with
    | nil => exact fun idx _ _ => ⟨idx, rfl⟩
    | cons x l ih =>
      intro idx hnodup hnew
      rw [List.nodup_cons] at hnodup
      obtain ⟨idx', heq⟩ := ih (idx.insert x xs) hnodup.2 fun e he hmem => by
        rcases (AList.mem_insert _).mp hmem with rfl | hmem
        · exact hnodup.1 he
        · exact hnew e (List.mem_cons_of_mem x he) hmem
      refine ⟨idx', ?_⟩
      rw [List.foldlM_cons]
      unfold assocElement
      rw [if_neg (hnew x List.mem_cons_self)]
      exact heq
  induction groups using List.reverseRecOn with
  | nil => exact ⟨∅, rfl⟩
  | append_singleton groups xs ih =>
    rw [List.pairwise_append] at hdisjoint
    obtain ⟨idx, hidx⟩ := ih hdisjoint.1
    have h := index_indexes hidx
    obtain ⟨idx', hidx'⟩ := hgroup xs.toFinset xs.dedup idx (List.nodup_dedup xs) (by
      intro e he hmem
      obtain ⟨xs', hxs', he'⟩ := h.keys e hmem
      exact hdisjoint.2.2 xs' hxs' xs (List.mem_singleton_self xs) he'
        (List.mem_dedup.mp he))
    refine ⟨idx', ?_⟩
    unfold index at hidx ⊢
    rw [List.foldlM_append, hidx]
    change (assocGroup idx xs >>= fun idx => some idx) = some idx'
    rw [assocGroup, hidx']
    rfl

end Jepsen.Faunadb.Pages
