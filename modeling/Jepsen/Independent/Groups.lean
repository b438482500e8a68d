/-
# Groups of threads

`group-threads` cuts the sorted threads of a context into runs of `n`, so the
thread at position `i` belongs to group `i / n`. The maps that
`ConcurrentGenerator` initialises lazily all say so.
-/

import Jepsen.Generator.ContextInvariant
import Jepsen.Independent.Walk

namespace Jepsen.Independent

open Jepsen.Generator Jepsen.Generator.Context Jepsen.Library
open Stream' (Seq)

universe u v w

/-! ## Cutting a list -/

section Partition

variable {α : Type u} {n : ℕ} {coll : List α}

theorem length_partition (n : ℕ) (coll : List α) :
    (partition n coll).length = coll.length / n := by
  simp [partition]

theorem getElem?_partition {group : ℕ} {part : List α}
    (hpart : (partition n coll)[group]? = some part) :
    group < coll.length / n ∧ part = (coll.drop (group * n)).take n := by
  have hlt := (List.getElem?_eq_some_iff.mp hpart).1
  rw [length_partition] at hlt
  refine ⟨hlt, ?_⟩
  simpa [partition, hlt] using hpart.symm

/-- A part holds the elements whose position, divided by `n`, is its number. -/
theorem mem_of_getElem?_partition (hn : 0 < n) {group : ℕ} {part : List α}
    (hpart : (partition n coll)[group]? = some part) {a : α} :
    a ∈ part ↔ ∃ i, coll[i]? = some a ∧ i / n = group := by
  obtain ⟨-, rfl⟩ := getElem?_partition hpart
  rw [List.mem_iff_getElem?]
  constructor
  · rintro ⟨j, hj⟩
    rw [List.getElem?_take] at hj
    split at hj
    · rename_i hlt
      rw [List.getElem?_drop] at hj
      refine ⟨group * n + j, hj, ?_⟩
      rw [Nat.mul_comm, Nat.mul_add_div hn, Nat.div_eq_of_lt hlt, Nat.add_zero]
    · cases hj
  · rintro ⟨i, hi, rfl⟩
    refine ⟨i % n, ?_⟩
    rw [List.getElem?_take, if_pos (Nat.mod_lt i hn), List.getElem?_drop, Nat.mul_comm,
      Nat.div_add_mod]
    exact hi

/-- When `n` divides the length, no element is left over. -/
theorem exists_part (hdvd : n ∣ coll.length) {i : ℕ} (hi : i < coll.length) :
    ∃ part, (partition n coll)[i / n]? = some part := by
  have hlt : i / n < (partition n coll).length := by
    rw [length_partition]
    exact Nat.div_lt_div_of_lt_of_dvd hdvd hi
  exact ⟨_, List.getElem?_eq_getElem hlt⟩

end Partition

/-! ## From threads to groups -/

/-- An association list in which `k` has the value `v` only. -/
theorem lookup_eq_some_of_unique {α : Type u} {β : Type v} [DecidableEq α] {l : List (α × β)}
    {k : α} {v : β} (hmem : (k, v) ∈ l) (hunique : ∀ v', (k, v') ∈ l → v' = v) :
    l.lookup k = some v := by
  cases hlookup : l.lookup k with
  | none => exact absurd (List.lookup_eq_none_iff.mp hlookup _ hmem) (by simp)
  | some v' =>
    obtain ⟨l₁, l₂, rfl, -⟩ := List.lookup_eq_some_iff.mp hlookup
    rw [hunique v' (by simp)]

theorem mem_makeThreadToGroup {groups : List (List Name)} {thread : Name} {group : ℕ} :
    (thread, group) ∈ makeThreadToGroup groups ↔
      ∃ threads, groups[group]? = some threads ∧ thread ∈ threads := by
  simp only [makeThreadToGroup, List.mem_flatMap, List.mem_map, Prod.mk.injEq, Prod.exists,
    List.mk_mem_zipIdx_iff_getElem?]
  constructor
  · rintro ⟨threads, g, hthreads, t, ht, rfl, rfl⟩
    exact ⟨threads, hthreads, ht⟩
  · rintro ⟨threads, hthreads, ht⟩
    exact ⟨threads, group, hthreads, thread, ht, rfl, rfl⟩

variable {n : ℕ} {threads : List Name}

theorem mem_makeThreadToGroup_partition (hn : 0 < n) {thread : Name} {group : ℕ}
    (hmem : (thread, group) ∈ makeThreadToGroup (partition n threads)) :
    ∃ i, threads[i]? = some thread ∧ i / n = group := by
  obtain ⟨part, hpart, ht⟩ := mem_makeThreadToGroup.mp hmem
  exact (mem_of_getElem?_partition hn hpart).mp ht

/-- The group of the thread at position `i`. -/
theorem lookup_makeThreadToGroup (hn : 0 < n) (hdvd : n ∣ threads.length)
    (hnodup : threads.Nodup) {i : ℕ} {thread : Name} (hi : threads[i]? = some thread) :
    (makeThreadToGroup (partition n threads)).lookup thread = some (i / n) := by
  have hlt := (List.getElem?_eq_some_iff.mp hi).1
  apply lookup_eq_some_of_unique
  · obtain ⟨part, hpart⟩ := exists_part hdvd hlt
    exact mem_makeThreadToGroup.mpr
      ⟨part, hpart, (mem_of_getElem?_partition hn hpart).mpr ⟨i, hi, rfl⟩⟩
  · intro group hgroup
    obtain ⟨j, hj, rfl⟩ := mem_makeThreadToGroup_partition hn hgroup
    rw [(List.getElem?_inj hlt hnodup).mp (hi.trans hj.symm)]

/-- The source counts groups as one more than the largest group of a thread. -/
theorem groupCount_eq (hn : 0 < n) (hdvd : n ∣ threads.length) (hle : n ≤ threads.length) :
    ((makeThreadToGroup (partition n threads)).map Prod.snd).foldl max 0 + 1 =
      threads.length / n := by
  have hpos : 0 < threads.length / n := Nat.div_pos hle hn
  rw [List.foldl_eq_foldr]
  apply Nat.le_antisymm
  · apply Nat.succ_le_of_lt
    apply Nat.lt_of_le_pred hpos
    apply List.max_le_of_forall_le
    intro group hgroup
    obtain ⟨⟨thread, g⟩, hmem, rfl⟩ := List.mem_map.mp hgroup
    obtain ⟨part, hpart, -⟩ := mem_makeThreadToGroup.mp hmem
    exact Nat.le_pred_of_lt (getElem?_partition hpart).1
  · apply Nat.le_add_of_sub_le
    have hlast : (threads.length / n - 1) * n < threads.length := by
      calc (threads.length / n - 1) * n < threads.length / n * n :=
            Nat.mul_lt_mul_of_pos_right (Nat.sub_lt hpos Nat.one_pos) hn
        _ = threads.length := Nat.div_mul_cancel hdvd
    obtain ⟨part, hpart⟩ := exists_part hdvd hlast
    rw [Nat.mul_div_cancel _ hn] at hpart
    apply List.le_max_of_le (x := threads.length / n - 1) _ le_rfl
    refine List.mem_map.mpr ⟨(threads[(threads.length / n - 1) * n], _), ?_, rfl⟩
    refine mem_makeThreadToGroup.mpr ⟨part, hpart, (mem_of_getElem?_partition hn hpart).mpr ?_⟩
    exact ⟨_, List.getElem?_eq_getElem hlast, Nat.mul_div_cancel _ hn⟩

/-! ## The initialised fields -/

variable {K : Type u} {A : Type v} {γ : Type w}

/-- The lazily initialised fields, for the threads `threads`. -/
structure Grouped (n : ℕ) (threads : List Name) (groups : Groups K A γ) : Prop where
  dvd : n ∣ threads.length
  le : n ≤ threads.length
  groupToThreads : groups.groupToThreads = partition n threads
  threadToGroup : groups.threadToGroup = makeThreadToGroup (partition n threads)
  groupToContextFilter : groups.groupToContextFilter = (partition n threads).map fun threads =>
    lazyThreadFilter fun thread => decide (thread ∈ threads)
  length_gens : groups.gens.length = threads.length / n

theorem Grouped.setGens {groups : Groups K A γ} (hgrouped : Grouped n threads groups)
    {gens : Gens K A γ} (hlength : gens.length = groups.gens.length) :
    Grouped n threads { groups with gens := gens } :=
  { hgrouped with length_gens := hlength.trans hgrouped.length_gens }

theorem groupThreads_eq_ok {ctx : Context} {parts : List (List Name)}
    (hgroups : groupThreads n ctx = .ok parts) :
    n ≤ ctx.allThreadCount ∧ n ∣ ctx.allThreadCount ∧
      ∃ threads, sortThreads ctx.allThreads = .ok threads ∧ parts = partition n threads := by
  simp only [groupThreads] at hgroups
  split at hgroups
  · cases hgroups
  · rename_i hle
    split at hgroups
    · cases hgroups
    · rename_i hcount
      split at hgroups
      · cases hgroups
      · rename_i threads hthreads
        cases hgroups
        exact ⟨not_not.mp hle, ⟨_, not_not.mp hcount⟩, threads, hthreads, rfl⟩

/-- Initialising the groups gives the first keys to the groups in order. -/
theorem ConcurrentGenerator.start_of_none {this : ConcurrentGenerator K A γ} {ctx : Context}
    {groups : Groups K A γ} {rest : Seq K} (hnone : this.groups = none)
    (hthreads : sortThreads ctx.allThreads = .ok threads)
    (hcount : ctx.allThreadCount = threads.length)
    (hstart : this.start ctx = .ok (groups, rest)) :
    Grouped this.n threads groups ∧
      rest = this.keys.drop (threads.length / this.n) ∧
      groups.gens =
        (this.keys.take (threads.length / this.n)).map (fun k => tupleGen k (this.fgen k)) ++
          List.replicate (threads.length / this.n -
            (this.keys.take (threads.length / this.n)).length) none := by
  unfold start at hstart
  rw [hnone] at hstart
  simp only at hstart
  split at hstart
  · cases hstart
  · rename_i parts hparts
    obtain ⟨hle, hdvd, threads', hthreads', rfl⟩ := groupThreads_eq_ok hparts
    obtain rfl := Except.ok.inj (hthreads'.symm.trans hthreads)
    rw [hcount] at hle hdvd
    have hzip : List.zipWith tupleGen (this.keys.take (threads'.length / this.n))
        ((this.keys.take (threads'.length / this.n)).map this.fgen) =
        (this.keys.take (threads'.length / this.n)).map fun k =>
          (tupleGen k (this.fgen k) : Option (Map γ (Value K A))) := by
      rw [List.zipWith_map_right, List.zipWith_self]
    rw [groupCount_eq this.n_pos hdvd hle, hzip] at hstart
    obtain ⟨rfl, rfl⟩ := Prod.mk.inj (Except.ok.inj hstart)
    refine ⟨⟨hdvd, hle, rfl, rfl, rfl, ?_⟩, rfl, by rw [List.length_map]⟩
    have hshort := this.keys.length_take_le (n := threads'.length / this.n)
    simp only [List.length_append, List.length_map, List.length_replicate]
    omega

end Jepsen.Independent
