/-
# Contexts over a whole history

A context is derived from `(context n)` by any sequence of `busy-thread`,
`free-thread`, `with-next-process` and thread filters, the filters compiled
against any context of the same test. Along such a history the replaced integer
processes are recorded, because the promise about them is about the future: a
process that was replaced is never assigned again.
-/

import Jepsen.Generator.ContextInvariant

namespace Jepsen.Generator

open Jepsen.Library

namespace Context

/-- The integer process a thread gives up when it is moved to its next one. -/
def replacedProcess (ctx : Context) (thread : Name) : List ℕ :=
  match ctx.threadToProcess thread with
  | some (.int p) => [p]
  | _ => []

/-- Contexts derived from `(context n)`, with the integer processes replaced on
the way. -/
inductive Derived (n : ℕ) : Context → List ℕ → Prop
  | fresh : Derived n (context n) []
  | busyThread {ctx : Context} {replaced : List ℕ} (time : ℤ) {thread : Name}
      (derived : Derived n ctx replaced) (mem : thread ∈ ctx.allThreads) :
      Derived n (ctx.busyThread time thread) replaced
  | freeThread {ctx : Context} {replaced : List ℕ} (time : ℤ) {thread : Name}
      (derived : Derived n ctx replaced) (mem : thread ∈ ctx.allThreads) :
      Derived n (ctx.freeThread time thread) replaced
  | withNextProcess {ctx ctx' : Context} {replaced : List ℕ} {thread : Name}
      (derived : Derived n ctx replaced) (mem : thread ∈ ctx.allThreads)
      (next : ctx.withNextProcess thread = some ctx') :
      Derived n ctx' (ctx.replacedProcess thread ++ replaced)
  | view {ctx compiled : Context} {replaced other : List ℕ} (pred : Name → Bool)
      (derived : Derived n ctx replaced) (compiledFrom : Derived n compiled other) :
      Derived n (makeThreadFilter pred compiled ctx) replaced

theorem Derived.wellFormed {n : ℕ} {ctx : Context} {replaced : List ℕ}
    (hderived : Derived n ctx replaced) : WellFormed n ctx := by
  induction hderived with
  | fresh => exact wellFormed_context n
  | busyThread time _ _ ih => exact ih.busyThread time _
  | freeThread time _ hmem ih => exact ih.freeThread time hmem
  | withNextProcess _ hmem hnext ih =>
      exact ih.withNextProcess (ih.mem_allThreads_iff.mp hmem).1 hnext
  | view pred _ _ ih _ => exact ih.makeThreadFilter pred _

/-- A replaced process lies below the process its thread executes now. -/
def Outgrown (n : ℕ) (ctx : Context) (p : ℕ) : Prop :=
  ∃ i < n, ∃ q, ctx.threadToProcess (.int i) = some (.int q) ∧ p % n = i ∧ p < q

theorem WellFormed.threadToProcess_withNextProcess {n : ℕ} {ctx ctx' : Context}
    (hwf : WellFormed n ctx) {thread other : Name}
    (hthread : thread ∈ (testTable n).allNames)
    (hother : other ∈ (testTable n).allNames)
    (hnext : ctx.withNextProcess thread = some ctx') :
    ctx'.threadToProcess other =
      if other = thread then (ctx.threadToProcess thread).map (nextProcess n)
      else ctx.threadToProcess other := by
  obtain ⟨process, hprocess, rfl⟩ := withNextProcess_eq_some hnext
  rw [threadToProcess_set hwf hthread _ _ hother, hprocess, hwf.table]
  rfl

theorem Outgrown.withNextProcess {n : ℕ} {ctx ctx' : Context} (hwf : WellFormed n ctx)
    {thread : Name} (hthread : thread ∈ (testTable n).allNames)
    (hnext : ctx.withNextProcess thread = some ctx') {p : ℕ}
    (hout : Outgrown n ctx p) : Outgrown n ctx' p := by
  obtain ⟨i, hi, q, hq, hmod, hlt⟩ := hout
  have hmem : Name.int i ∈ (testTable n).allNames :=
    mem_testTable_allNames.mpr (Or.inl ⟨i, hi, rfl⟩)
  have hread := hwf.threadToProcess_withNextProcess hthread hmem hnext
  by_cases heq : Name.int i = thread
  · rw [if_pos heq, ← heq, hq] at hread
    exact ⟨i, hi, n + q, hread, hmod, by omega⟩
  · rw [if_neg heq, hq] at hread
    exact ⟨i, hi, q, hread, hmod, hlt⟩

theorem outgrown_of_replaced {n : ℕ} {ctx ctx' : Context} (hwf : WellFormed n ctx)
    {thread : Name} (hthread : thread ∈ (testTable n).allNames)
    (hnext : ctx.withNextProcess thread = some ctx') {p : ℕ}
    (hp : p ∈ ctx.replacedProcess thread) : Outgrown n ctx' p := by
  have hread := hwf.threadToProcess_withNextProcess hthread hthread hnext
  rw [if_pos rfl] at hread
  unfold replacedProcess at hp
  split at hp
  · rename_i q hq
    obtain rfl : p = q := List.mem_singleton.mp hp
    obtain ⟨i, hi, rfl, c, hc⟩ := hwf.thread_of_int_process hthread hq
    rw [hq] at hread
    refine ⟨i, hi, n + p, hread, ?_, by omega⟩
    rw [hc, Nat.add_mul_mod_self_right, Nat.mod_eq_of_lt hi]
  · cases hp

theorem Derived.outgrown {n : ℕ} {ctx : Context} {replaced : List ℕ}
    (hderived : Derived n ctx replaced) : ∀ p ∈ replaced, Outgrown n ctx p := by
  induction hderived with
  | fresh => simp
  | busyThread _ _ _ ih => exact ih
  | freeThread _ _ _ ih => exact ih
  | withNextProcess hderived hmem hnext ih =>
      have hwf := hderived.wellFormed
      have hthread := (hwf.mem_allThreads_iff.mp hmem).1
      intro p hp
      rcases List.mem_append.mp hp with hp | hp
      · exact outgrown_of_replaced hwf hthread hnext hp
      · exact (ih p hp).withNextProcess hwf hthread hnext
  | view _ _ _ ih _ => exact ih

/-- An outgrown process is executed by no thread. -/
theorem Outgrown.unassigned {n : ℕ} {ctx : Context} (hwf : WellFormed n ctx) {p : ℕ}
    (hout : Outgrown n ctx p) {thread : Name}
    (hthread : thread ∈ (testTable n).allNames) :
    ctx.threadToProcess thread ≠ some (.int p) := by
  obtain ⟨i, hi, q, hq, hmod, hlt⟩ := hout
  intro hp
  obtain ⟨j, hj, rfl, c, rfl⟩ := hwf.thread_of_int_process hthread hp
  rw [Nat.add_mul_mod_self_right, Nat.mod_eq_of_lt hj] at hmod
  subst hmod
  rw [hp] at hq
  injection hq with hint
  injection hint with heq
  omega

/-- What a context, or a filtered view of one, guarantees to generators. -/
structure Consistent (n : ℕ) (ctx : Context) (replaced : List ℕ) : Prop where
  free_subset : ∀ thread ∈ ctx.freeThreads, thread ∈ ctx.allThreads
  process_thread : ∀ thread ∈ (testTable n).allNames, ∃ process,
    ctx.threadToProcess thread = some process ∧ ctx.processToThread process = some thread
  thread_process : ∀ process thread, ctx.processToThread process = some thread →
    thread ∈ (testTable n).allNames ∧ ctx.threadToProcess thread = some process
  congruent : ∀ i < n, ∃ p, ctx.threadToProcess (.int i) = some (.int p) ∧ p ≡ i [MOD n]
  distinct : ∀ s ∈ (testTable n).allNames, ∀ t ∈ (testTable n).allNames, s ≠ t →
    ctx.threadToProcess s ≠ ctx.threadToProcess t
  never_again : ∀ p ∈ replaced, ctx.processToThread (.int p) = none ∧
    ∀ thread ∈ (testTable n).allNames, ctx.threadToProcess thread ≠ some (.int p)
  next_lt : ctx.nextThreadIndex < ctx.translationTable.threadCount
  some_free_none : ctx.someFreeProcess = none ↔ ctx.freeThreads = []
  some_free_first : ∀ process, ctx.someFreeProcess = some process →
    ∃ thread ∈ ctx.freeThreads, ctx.threadToProcess thread = some process ∧
      ∀ other ∈ ctx.freeThreads,
        Bits.cyclicDistance (n + 1) ctx.nextThreadIndex
            ((testTable n).nameToIndex (some thread)) ≤
          Bits.cyclicDistance (n + 1) ctx.nextThreadIndex
            ((testTable n).nameToIndex (some other))

namespace WellFormed

variable {n : ℕ} {ctx : Context}

theorem exists_thread_of_bit (hwf : WellFormed n ctx) {i : ℕ}
    (hi : i ∈ ctx.freeThreadsBits) :
    ∃ thread ∈ ctx.freeThreads, (testTable n).nameToIndex (some thread) = i ∧
      ctx.threadIndexToProcess[i]? = ctx.threadToProcess thread := by
  have hlt : i < n + 1 := hwf.all_lt i (hwf.free_subset hi)
  obtain ⟨thread, hthread⟩ : ∃ thread, (testTable n).indexToName i = some thread := by
    rcases Nat.lt_succ_iff_lt_or_eq.mp hlt with hlt | rfl
    · exact ⟨.int i, indexToName_testTable_iff.mpr
        ⟨mem_testTable_allNames.mpr (Or.inl ⟨i, hlt, rfl⟩), rfl⟩⟩
    · exact ⟨.nemesis, indexToName_testTable_iff.mpr
        ⟨mem_testTable_allNames.mpr (Or.inr rfl), rfl⟩⟩
  obtain ⟨hmem, hindex⟩ := indexToName_testTable_iff.mp hthread
  refine ⟨thread, hwf.mem_freeThreads_iff.mpr ⟨hmem, hindex ▸ hi⟩, hindex, ?_⟩
  rw [threadToProcess, hwf.table, hindex]

theorem freeThreads_eq_nil_iff (hwf : WellFormed n ctx) :
    ctx.freeThreads = [] ↔ ctx.freeThreadsBits = ∅ := by
  constructor
  · intro hnil
    rw [Finset.eq_empty_iff_forall_notMem]
    intro i hi
    obtain ⟨thread, hthread, -, -⟩ := hwf.exists_thread_of_bit hi
    rw [hnil] at hthread
    cases hthread
  · intro hempty
    rw [List.eq_nil_iff_forall_not_mem]
    intro thread hthread
    have hbit := (hwf.mem_freeThreads_iff.mp hthread).2
    rw [hempty] at hbit
    exact absurd hbit (Finset.notMem_empty _)

/-- The process handed out is the one of the first free thread in cyclic order. -/
theorem someFreeProcess_first (hwf : WellFormed n ctx) {process : Name}
    (hsome : ctx.someFreeProcess = some process) :
    ∃ thread ∈ ctx.freeThreads, ctx.threadToProcess thread = some process ∧
      ∀ other ∈ ctx.freeThreads,
        Bits.cyclicDistance (n + 1) ctx.nextThreadIndex
            ((testTable n).nameToIndex (some thread)) ≤
          Bits.cyclicDistance (n + 1) ctx.nextThreadIndex
            ((testTable n).nameToIndex (some other)) := by
  rw [someFreeProcess_eq_bind, Option.bind_eq_some_iff] at hsome
  obtain ⟨i, hi, hprocess⟩ := hsome
  have hbits : ∀ j ∈ ctx.freeThreadsBits, j < n + 1 := fun j hj =>
    hwf.all_lt j (hwf.free_subset hj)
  obtain ⟨hmem, hleast⟩ := Bits.nextSetBitCyclic_least hbits hwf.next_lt hi
  obtain ⟨thread, hthread, rfl, hread⟩ := hwf.exists_thread_of_bit hmem
  exact ⟨thread, hthread, hread.symm.trans hprocess, fun other hother =>
    hleast _ (hwf.mem_freeThreads_iff.mp hother).2⟩

theorem someFreeProcess_eq_none_iff (hwf : WellFormed n ctx) :
    ctx.someFreeProcess = none ↔ ctx.freeThreads = [] := by
  rw [hwf.freeThreads_eq_nil_iff, someFreeProcess_eq_bind,
    ← Bits.nextSetBitCyclic_eq_none_iff ctx.nextThreadIndex]
  constructor
  · intro hnone
    by_contra hne
    obtain ⟨i, hi⟩ := Option.ne_none_iff_exists'.mp hne
    have hmem : i ∈ ctx.freeThreadsBits := by
      have hbits : ∀ j ∈ ctx.freeThreadsBits, j < n + 1 := fun j hj =>
        hwf.all_lt j (hwf.free_subset hj)
      exact (Bits.nextSetBitCyclic_least hbits hwf.next_lt hi).1
    obtain ⟨thread, hthread, -, hread⟩ := hwf.exists_thread_of_bit hmem
    obtain ⟨process, hprocess⟩ :=
      hwf.exists_process (hwf.mem_freeThreads_iff.mp hthread).1
    rw [hi, Option.bind_some, hread, hprocess] at hnone
    cases hnone
  · intro hnone
    rw [hnone, Option.bind_none]

end WellFormed

/-- Every context and every view derived from `(context n)` is consistent. -/
theorem derived_consistent {n : ℕ} {ctx : Context} {replaced : List ℕ}
    (hderived : Derived n ctx replaced) : Consistent n ctx replaced := by
  have hwf := hderived.wellFormed
  refine
    { free_subset := fun thread hthread => ?_
      process_thread := fun thread hthread => ?_
      thread_process := fun process thread => (hwf.inverse thread process).mp
      congruent := fun i hi => ?_
      distinct := fun s hs t ht hne heq => ?_
      never_again := fun p hp => ?_
      next_lt := by rw [hwf.table]; exact hwf.next_lt
      some_free_none := hwf.someFreeProcess_eq_none_iff
      some_free_first := fun _ => hwf.someFreeProcess_first }
  · obtain ⟨hmem, hbit⟩ := hwf.mem_freeThreads_iff.mp hthread
    exact hwf.mem_allThreads_iff.mpr ⟨hmem, hwf.free_subset hbit⟩
  · obtain ⟨process, hprocess⟩ := hwf.exists_process hthread
    exact ⟨process, hprocess, (hwf.inverse thread process).mpr ⟨hthread, hprocess⟩⟩
  · obtain ⟨c, hc⟩ := hwf.client_process i hi
    refine ⟨_, hwf.threadToProcess_int.trans hc, ?_⟩
    rw [Nat.ModEq, Nat.add_mul_mod_self_right]
  · obtain ⟨process, hprocess⟩ := hwf.exists_process hs
    exact hne (hwf.thread_unique hs ht hprocess (heq ▸ hprocess))
  · have hout := hderived.outgrown p hp
    refine ⟨?_, fun thread hthread => hout.unassigned hwf hthread⟩
    by_contra hne
    obtain ⟨thread, hthread⟩ := Option.ne_none_iff_exists'.mp hne
    obtain ⟨hmem, hread⟩ := (hwf.inverse thread _).mp hthread
    exact hout.unassigned hwf hmem hread

/-- Two integer threads; thread 0 takes an operation and crashes, and the
clients' view of the result is taken. -/
theorem derived_consistent_crashed :
    Consistent 2
      (makeThreadFilter (allBut .nemesis) (context 2)
        ((((context 2).busyThread 5 (.int 0)).withNextProcess (.int 0)).get (by decide)))
      [0] :=
  derived_consistent
    (.view (allBut .nemesis)
      (.withNextProcess (.busyThread 5 .fresh (by decide)) (by decide)
        (Option.some_get _).symm)
      .fresh)

end Context

end Jepsen.Generator
