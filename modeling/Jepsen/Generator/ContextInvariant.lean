/-
# Contexts stay consistent

The bit sets, the process array and the process map are three representations
of one assignment. `WellFormed` is the invariant that ties them together; every
operation and every filter keeps it, and with it the arithmetic of replaced
process ids.
-/

import Jepsen.Generator.Context

namespace Jepsen.Generator

open Jepsen.Library

namespace Context

@[simp]
theorem testTable_intThreadCount (n : ℕ) : (testTable n).intThreadCount = n := rfl

@[simp]
theorem testTable_threadCount (n : ℕ) : (testTable n).threadCount = n + 1 := rfl

theorem mem_testTable_allNames {n : ℕ} {thread : Name} :
    thread ∈ (testTable n).allNames ↔
      (∃ i < n, thread = .int i) ∨ thread = .nemesis := by
  simp only [TranslationTable.allNames, testTable,
    TranslationTable.translationTable, List.mem_append, List.mem_map,
    List.mem_range, List.mem_singleton, Name.nemesis]
  constructor
  · rintro (⟨i, hi, rfl⟩ | ⟨k, rfl, rfl⟩)
    · exact Or.inl ⟨i, hi, rfl⟩
    · exact Or.inr rfl
  · rintro (⟨i, hi, rfl⟩ | rfl)
    · exact Or.inl ⟨i, hi, rfl⟩
    · exact Or.inr ⟨_, rfl, rfl⟩

theorem testTable_namedThreads_getElem? {n i : ℕ} {k : String} :
    (testTable n).namedThreads[i]? = some k ↔ i = 0 ∧ k = "nemesis" := by
  show (["nemesis"] : List String)[i]? = some k ↔ _
  cases i with
  | zero => simp [eq_comm]
  | succ i => simp

/-- In a test's table the dropped position is zero, so looking a thread up and
naming the index are inverse. -/
theorem indexToName_testTable_iff {n i : ℕ} {thread : Name} :
    (testTable n).indexToName i = some thread ↔
      thread ∈ (testTable n).allNames ∧ (testTable n).nameToIndex (some thread) = i := by
  rw [mem_testTable_allNames]
  by_cases hi : i < (testTable n).intThreadCount
  · rw [TranslationTable.indexToName_of_lt hi, Option.some.injEq]
    constructor
    · rintro rfl
      exact ⟨Or.inl ⟨i, hi, rfl⟩, rfl⟩
    · rintro ⟨⟨j, hj, rfl⟩ | rfl, hindex⟩
      · exact congrArg Name.int hindex.symm
      · exact absurd hindex (ne_of_gt hi)
  · rw [TranslationTable.indexToName_of_not_lt hi, Option.map_eq_some_iff]
    simp only [testTable_namedThreads_getElem?]
    constructor
    · rintro ⟨k, ⟨hzero, rfl⟩, rfl⟩
      have hle : n ≤ i := not_lt.mp hi
      have hindex : n = i := le_antisymm hle (Nat.sub_eq_zero_iff_le.mp hzero)
      exact ⟨Or.inr rfl, hindex⟩
    · rintro ⟨⟨j, hj, rfl⟩ | rfl, hindex⟩
      · obtain rfl : j = i := hindex
        exact absurd hj hi
      · obtain rfl : n = i := hindex
        exact ⟨"nemesis", ⟨Nat.sub_self n, rfl⟩, rfl⟩

theorem nameToIndex_testTable_lt {n : ℕ} {thread : Name}
    (hthread : thread ∈ (testTable n).allNames) :
    (testTable n).nameToIndex (some thread) < n + 1 := by
  rcases mem_testTable_allNames.mp hthread with ⟨i, hi, rfl⟩ | rfl
  · exact Nat.lt_succ_of_lt hi
  · exact Nat.lt_succ_self n

theorem nameToIndex_testTable_inj {n : ℕ} {s t : Name}
    (hs : s ∈ (testTable n).allNames) (ht : t ∈ (testTable n).allNames)
    (hindex : (testTable n).nameToIndex (some s) = (testTable n).nameToIndex (some t)) :
    s = t := by
  have hsname := indexToName_testTable_iff.mpr ⟨hs, rfl⟩
  have htname := indexToName_testTable_iff.mpr ⟨ht, rfl⟩
  rw [hindex] at hsname
  exact Option.some.inj (hsname.symm.trans htname)

/-- The invariant of every context that descends from `(context n)`. -/
structure WellFormed (n : ℕ) (ctx : Context) : Prop where
  table : ctx.translationTable = testTable n
  free_subset : ctx.freeThreadsBits ⊆ ctx.allThreadsBits
  all_lt : ∀ i ∈ ctx.allThreadsBits, i < n + 1
  next_lt : ctx.nextThreadIndex < n + 1
  length : ctx.threadIndexToProcess.length = n + 1
  /-- Integer thread `i` executes `i` plus a multiple of the thread count. -/
  client_process : ∀ i < n, ∃ c, ctx.threadIndexToProcess[i]? = some (.int (i + c * n))
  nemesis_process : ctx.threadIndexToProcess[n]? = some .nemesis
  inverse : ∀ thread process, ctx.processToThread process = some thread ↔
    thread ∈ (testTable n).allNames ∧ ctx.threadToProcess thread = some process

namespace WellFormed

variable {n : ℕ} {ctx : Context}

theorem threadToProcess_int (hwf : WellFormed n ctx) {i : ℕ} :
    ctx.threadToProcess (.int i) = ctx.threadIndexToProcess[i]? := by
  simp [threadToProcess, hwf.table]

theorem threadToProcess_nemesis (hwf : WellFormed n ctx) :
    ctx.threadToProcess .nemesis = some .nemesis := by
  rw [← hwf.nemesis_process]
  simp [threadToProcess, hwf.table, Name.nemesis]

theorem mem_allThreads_iff (hwf : WellFormed n ctx) {thread : Name} :
    thread ∈ ctx.allThreads ↔
      thread ∈ (testTable n).allNames ∧
        (testTable n).nameToIndex (some thread) ∈ ctx.allThreadsBits := by
  rw [allThreads, TranslationTable.mem_indicesToNames, hwf.table]
  constructor
  · rintro ⟨i, hi, hname⟩
    obtain ⟨hmem, rfl⟩ := indexToName_testTable_iff.mp hname
    exact ⟨hmem, hi⟩
  · rintro ⟨hmem, hi⟩
    exact ⟨_, hi, indexToName_testTable_iff.mpr ⟨hmem, rfl⟩⟩

theorem mem_freeThreads_iff (hwf : WellFormed n ctx) {thread : Name} :
    thread ∈ ctx.freeThreads ↔
      thread ∈ (testTable n).allNames ∧
        (testTable n).nameToIndex (some thread) ∈ ctx.freeThreadsBits := by
  rw [freeThreads, TranslationTable.mem_indicesToNames, hwf.table]
  constructor
  · rintro ⟨i, hi, hname⟩
    obtain ⟨hmem, rfl⟩ := indexToName_testTable_iff.mp hname
    exact ⟨hmem, hi⟩
  · rintro ⟨hmem, hi⟩
    exact ⟨_, hi, indexToName_testTable_iff.mpr ⟨hmem, rfl⟩⟩

theorem exists_process (hwf : WellFormed n ctx) {thread : Name}
    (hthread : thread ∈ (testTable n).allNames) :
    ∃ process, ctx.threadToProcess thread = some process := by
  rcases mem_testTable_allNames.mp hthread with ⟨i, hi, rfl⟩ | rfl
  · obtain ⟨c, hc⟩ := hwf.client_process i hi
    exact ⟨_, hwf.threadToProcess_int.trans hc⟩
  · exact ⟨_, hwf.threadToProcess_nemesis⟩

/-- The executing process determines the thread. -/
theorem thread_unique (hwf : WellFormed n ctx) {s t process : Name}
    (hs : s ∈ (testTable n).allNames) (ht : t ∈ (testTable n).allNames)
    (hsp : ctx.threadToProcess s = some process)
    (htp : ctx.threadToProcess t = some process) : s = t := by
  have hs' := (hwf.inverse s process).mpr ⟨hs, hsp⟩
  have ht' := (hwf.inverse t process).mpr ⟨ht, htp⟩
  exact Option.some.inj (hs'.symm.trans ht')

/-- An integer process runs on the integer thread it is congruent to. -/
theorem thread_of_int_process (hwf : WellFormed n ctx) {thread : Name} {p : ℕ}
    (hthread : thread ∈ (testTable n).allNames)
    (hprocess : ctx.threadToProcess thread = some (.int p)) :
    ∃ i < n, thread = .int i ∧ ∃ c, p = i + c * n := by
  rcases mem_testTable_allNames.mp hthread with ⟨i, hi, rfl⟩ | rfl
  · obtain ⟨c, hc⟩ := hwf.client_process i hi
    rw [hwf.threadToProcess_int, hc] at hprocess
    injection hprocess with hint
    injection hint with hp
    exact ⟨i, hi, rfl, c, hp.symm⟩
  · rw [hwf.threadToProcess_nemesis] at hprocess
    injection hprocess with hint
    cases hint

end WellFormed

/-! ## Every operation keeps the invariant -/

theorem wellFormed_context (n : ℕ) : WellFormed n (context n) := by
  have hget : ∀ i, (context n).threadIndexToProcess[i]? = (testTable n).indexToName i :=
    fun i => (TranslationTable.indexToName_eq_getElem? _ i).symm
  refine
    { table := rfl
      free_subset := subset_rfl
      all_lt := fun i hi => Finset.mem_range.mp hi
      next_lt := Nat.succ_pos n
      length := ?_
      client_process := fun i hi => ⟨0, ?_⟩
      nemesis_process := ?_
      inverse := fun thread process => ?_ }
  · simp [context, TranslationTable.allNames, testTable,
      TranslationTable.translationTable]
  · rw [hget, indexToName_testTable_iff, mem_testTable_allNames]
    exact ⟨Or.inl ⟨i, hi, by simp⟩, by simp⟩
  · rw [hget, indexToName_testTable_iff, mem_testTable_allNames]
    exact ⟨Or.inr rfl, rfl⟩
  · have hprocess : (context n).threadToProcess thread =
        (testTable n).indexToName ((testTable n).nameToIndex (some thread)) := hget _
    rw [hprocess, indexToName_testTable_iff]
    show (if process ∈ (testTable n).allNames then some process else none) = some thread ↔ _
    by_cases hmem : process ∈ (testTable n).allNames
    · rw [if_pos hmem, Option.some.injEq]
      constructor
      · rintro rfl
        exact ⟨hmem, hmem, rfl⟩
      · rintro ⟨hthread, -, hindex⟩
        exact nameToIndex_testTable_inj hmem hthread hindex
    · rw [if_neg hmem]
      simp [hmem]

theorem WellFormed.freeThread {n : ℕ} {ctx : Context} (hwf : WellFormed n ctx)
    (time : ℤ) {thread : Name} (hthread : thread ∈ ctx.allThreads) :
    WellFormed n (ctx.freeThread time thread) where
  table := hwf.table
  free_subset := by
    rw [freeThread_free, freeThread_all, hwf.table]
    exact Finset.insert_subset (hwf.mem_allThreads_iff.mp hthread).2 hwf.free_subset
  all_lt := hwf.all_lt
  next_lt := hwf.next_lt
  length := hwf.length
  client_process := hwf.client_process
  nemesis_process := hwf.nemesis_process
  inverse := hwf.inverse

theorem WellFormed.busyThread {n : ℕ} {ctx : Context} (hwf : WellFormed n ctx)
    (time : ℤ) (thread : Name) : WellFormed n (ctx.busyThread time thread) where
  table := hwf.table
  free_subset := (Finset.erase_subset _ _).trans hwf.free_subset
  all_lt := hwf.all_lt
  next_lt := by
    show (ctx.nextThreadIndex + 1) % ctx.translationTable.threadCount < n + 1
    rw [hwf.table, testTable_threadCount]
    exact Nat.mod_lt _ (Nat.succ_pos n)
  length := hwf.length
  client_process := hwf.client_process
  nemesis_process := hwf.nemesis_process
  inverse := hwf.inverse

theorem WellFormed.withTime {n : ℕ} {ctx : Context} (hwf : WellFormed n ctx)
    (time : ℤ) : WellFormed n (ctx.withTime time) :=
  { hwf with }

theorem WellFormed.makeThreadFilter {n : ℕ} {ctx : Context} (hwf : WellFormed n ctx)
    (pred : Name → Bool) (compiled : Context) :
    WellFormed n (makeThreadFilter pred compiled ctx) :=
  { hwf with
    free_subset := Finset.inter_subset_inter_left hwf.free_subset
    all_lt := fun i hi => hwf.all_lt i (Finset.mem_inter.mp hi).2 }

/-- The array slot written by `with-next-process`, read back. -/
theorem threadToProcess_set {n : ℕ} {ctx : Context} (hwf : WellFormed n ctx)
    {thread : Name} (hthread : thread ∈ (testTable n).allNames) (process' : Name)
    (processToThread : Name → Option Name)
    {other : Name} (hother : other ∈ (testTable n).allNames) :
    ({ ctx with
        threadIndexToProcess := ctx.threadIndexToProcess.set
          (ctx.translationTable.nameToIndex (some thread)) process'
        processToThread := processToThread } : Context).threadToProcess other =
      if other = thread then some process' else ctx.threadToProcess other := by
  have hlt : (testTable n).nameToIndex (some thread) < ctx.threadIndexToProcess.length := by
    rw [hwf.length]
    exact nameToIndex_testTable_lt hthread
  simp only [threadToProcess, hwf.table]
  by_cases heq : other = thread
  · subst heq
    rw [if_pos rfl, List.getElem?_set_self hlt]
  · have hne : (testTable n).nameToIndex (some thread) ≠
        (testTable n).nameToIndex (some other) := fun hindex =>
      heq (nameToIndex_testTable_inj hother hthread hindex.symm)
    rw [if_neg heq, List.getElem?_set_ne hne]

/-- No other thread executes the process that comes next on `thread`. -/
theorem WellFormed.nextProcess_fresh {n : ℕ} {ctx : Context} (hwf : WellFormed n ctx)
    {thread other process : Name} (hthread : thread ∈ (testTable n).allNames)
    (hother : other ∈ (testTable n).allNames)
    (hprocess : ctx.threadToProcess thread = some process)
    (hnext : ctx.threadToProcess other = some (nextProcess n process)) :
    other = thread := by
  rcases mem_testTable_allNames.mp hthread with ⟨i, hi, rfl⟩ | rfl
  · obtain ⟨c, hc⟩ := hwf.client_process i hi
    rw [hwf.threadToProcess_int, hc] at hprocess
    obtain rfl := Option.some.inj hprocess
    obtain ⟨j, hj, rfl, d, hd⟩ := hwf.thread_of_int_process hother hnext
    have hmod : (n + (i + c * n)) % n = (j + d * n) % n := congrArg (· % n) hd
    rw [Nat.add_mod_left, Nat.add_mul_mod_self_right, Nat.add_mul_mod_self_right,
      Nat.mod_eq_of_lt hi, Nat.mod_eq_of_lt hj] at hmod
    rw [hmod]
  · rw [hwf.threadToProcess_nemesis] at hprocess
    obtain rfl := Option.some.inj hprocess
    exact hwf.thread_unique hother hthread hnext hwf.threadToProcess_nemesis

theorem WellFormed.withNextProcess {n : ℕ} {ctx ctx' : Context}
    (hwf : WellFormed n ctx) {thread : Name} (hthread : thread ∈ (testTable n).allNames)
    (hnext : ctx.withNextProcess thread = some ctx') : WellFormed n ctx' := by
  obtain ⟨process, hprocess, rfl⟩ := withNextProcess_eq_some hnext
  have hcount : ctx.translationTable.intThreadCount = n := by rw [hwf.table]; rfl
  have hread := fun processToThread =>
    @threadToProcess_set n ctx hwf thread hthread
      (nextProcess ctx.translationTable.intThreadCount process) processToThread
  refine
    { table := hwf.table
      free_subset := hwf.free_subset
      all_lt := hwf.all_lt
      next_lt := hwf.next_lt
      length := ?_
      client_process := fun i hi => ?_
      nemesis_process := ?_
      inverse := fun other q => ?_ }
  · rw [List.length_set]
    exact hwf.length
  · have hmem : Name.int i ∈ (testTable n).allNames :=
      mem_testTable_allNames.mpr (Or.inl ⟨i, hi, rfl⟩)
    have hslot := hread ctx.processToThread hmem
    simp only [threadToProcess, hwf.table, TranslationTable.nameToIndex_int] at hslot
    simp only [hwf.table, hslot]
    obtain ⟨c, hc⟩ := hwf.client_process i hi
    by_cases heq : Name.int i = thread
    · subst heq
      rw [hwf.threadToProcess_int, hc] at hprocess
      obtain rfl := Option.some.inj hprocess
      refine ⟨c + 1, ?_⟩
      rw [if_pos rfl, testTable_intThreadCount, nextProcess]
      congr 2
      ring
    · exact ⟨c, by rw [if_neg heq]; exact hc⟩
  · have hmem : Name.nemesis ∈ (testTable n).allNames :=
      mem_testTable_allNames.mpr (Or.inr rfl)
    have hslot := hread ctx.processToThread hmem
    by_cases heq : Name.nemesis = thread
    · subst heq
      rw [hwf.threadToProcess_nemesis] at hprocess
      obtain rfl := Option.some.inj hprocess
      rw [if_pos rfl] at hslot
      simpa [threadToProcess, hwf.table, Name.nemesis, nextProcess] using hslot
    · rw [if_neg heq, hwf.threadToProcess_nemesis] at hslot
      simpa [threadToProcess, hwf.table, Name.nemesis] using hslot
  · have hfresh := fun other hother => @WellFormed.nextProcess_fresh n ctx hwf
      thread other process hthread hother hprocess
    rw [hcount] at hread ⊢
    show Function.update (Function.update ctx.processToThread process none)
      (nextProcess n process) (some thread) q = some other ↔ _
    constructor
    · intro hmap
      by_cases hq : q = nextProcess n process
      · subst hq
        rw [Function.update_self] at hmap
        obtain rfl := Option.some.inj hmap
        exact ⟨hthread, by rw [hread _ hthread, if_pos rfl]⟩
      · rw [Function.update_of_ne hq] at hmap
        by_cases hqp : q = process
        · rw [hqp, Function.update_self] at hmap
          cases hmap
        · rw [Function.update_of_ne hqp] at hmap
          obtain ⟨hother, hread'⟩ := (hwf.inverse other q).mp hmap
          have hne : other ≠ thread := by
            rintro rfl
            exact hqp (Option.some.inj (hread'.symm.trans hprocess))
          exact ⟨hother, by rw [hread _ hother, if_neg hne]; exact hread'⟩
    · rintro ⟨hother, hslot⟩
      rw [hread _ hother] at hslot
      by_cases heq : other = thread
      · subst heq
        rw [if_pos rfl] at hslot
        rw [← Option.some.inj hslot, Function.update_self]
      · rw [if_neg heq] at hslot
        have hq : q ≠ nextProcess n process := by
          rintro rfl
          exact heq (hfresh other hother hslot)
        have hqp : q ≠ process := by
          rintro rfl
          exact heq (hwf.thread_unique hother hthread hslot hprocess)
        rw [Function.update_of_ne hq, Function.update_of_ne hqp]
        exact (hwf.inverse other q).mpr ⟨hother, hslot⟩

/-- A thread of the test always has a process to replace. -/
theorem WellFormed.exists_withNextProcess {n : ℕ} {ctx : Context}
    (hwf : WellFormed n ctx) {thread : Name}
    (hthread : thread ∈ (testTable n).allNames) :
    ∃ ctx', ctx.withNextProcess thread = some ctx' := by
  obtain ⟨process, hprocess⟩ := hwf.exists_process hthread
  simp [Context.withNextProcess, hprocess]

end Context

end Jepsen.Generator
