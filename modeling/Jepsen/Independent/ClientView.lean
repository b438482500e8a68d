/-
# The clients of a test

`concurrent-generator` is restricted to clients, so the contexts it is asked in
are the interpreter's without the nemesis: their threads are `0 ... c - 1` for a
test of concurrency `c`, and thread `i` belongs to group `i / n`.
-/

import Jepsen.Generator.InterpreterJournal
import Jepsen.Independent.Groups

namespace Jepsen.Independent

open Jepsen.Generator Jepsen.Generator.Context Jepsen.Generator.Interpreter
open Jepsen.History Jepsen.Library

universe u v w

/-! ## Contexts of the interpreter -/

/-- A context of the loop: consistent, with every thread of the test. -/
structure Whole (c : ℕ) (ctx : Context) : Prop where
  wf : WellFormed c ctx
  all : ctx.allThreadsBits = Finset.range (c + 1)

namespace Whole

variable {c : ℕ} {ctx : Context}

theorem mem_allThreads (hwhole : Whole c ctx) {thread : Name}
    (hthread : thread ∈ (testTable c).allNames) : thread ∈ ctx.allThreads := by
  rw [hwhole.wf.mem_allThreads_iff, hwhole.all, Finset.mem_range]
  exact ⟨hthread, nameToIndex_testTable_lt hthread⟩

theorem freeThread (hwhole : Whole c ctx) (time : ℤ) {thread : Name}
    (hthread : thread ∈ (testTable c).allNames) : Whole c (ctx.freeThread time thread) :=
  ⟨hwhole.wf.freeThread time (hwhole.mem_allThreads hthread), hwhole.all⟩

theorem busyThread (hwhole : Whole c ctx) (time : ℤ) (thread : Name) :
    Whole c (ctx.busyThread time thread) :=
  ⟨hwhole.wf.busyThread time thread, hwhole.all⟩

theorem withTime (hwhole : Whole c ctx) (time : ℤ) : Whole c (ctx.withTime time) :=
  ⟨hwhole.wf.withTime time, hwhole.all⟩

theorem step {γ : Type w} {V : Type u} [Protocol γ V] {env : Env V} {s s' : State γ V}
    {l : Label V} (hwhole : Whole c s.ctx) (hstep : Step env s l s') : Whole c s'.ctx := by
  cases hstep with
  | take => exact hwhole
  | finish => exact hwhole
  | complete time hpolled hcomplete =>
    obtain ⟨thread, gen, ctx, hthread, -, hreplace, rfl⟩ := State.complete_eq_ok hcomplete
    have hnames := ((hwhole.wf.inverse _ _).mp hthread).1
    have hfree := hwhole.freeThread time hnames
    have hreplaced := replaced_of_replaceProcess hfree.wf hnames hreplace
    exact ⟨hreplaced.wf, hreplaced.all.trans hfree.all⟩
  | wait oracle time hwait =>
    rw [State.generate_eq_waiting hwait]
    exact hwhole.withTime time
  | dispatch oracle time hdispatch =>
    obtain ⟨gen', -, -, hnext⟩ := State.generate_eq_dispatched hdispatch
    obtain ⟨thread, gen, -, -, rfl⟩ := State.dispatch_eq_ok hnext
    exact (hwhole.withTime time).busyThread _ _

end Whole

theorem whole_context (c : ℕ) : Whole c (context c) := ⟨wellFormed_context c, rfl⟩

/-! ## Their clients -/

/-- The context `clients` hands on. -/
def clientView (ctx : Context) : Context := ctx.lazyThreadFilter (allBut .nemesis)

/-- The client threads of a test. -/
def clientThreads (c : ℕ) : List Name := (List.range c).map .int

@[simp]
theorem length_clientThreads (c : ℕ) : (clientThreads c).length = c := by simp [clientThreads]

theorem getElem?_clientThreads {c i : ℕ} {thread : Name} :
    (clientThreads c)[i]? = some thread ↔ i < c ∧ thread = .int i := by
  by_cases hi : i < c
  · simp [clientThreads, hi, eq_comm]
  · simp [clientThreads, hi]

theorem nodup_clientThreads (c : ℕ) : (clientThreads c).Nodup :=
  List.nodup_range.map fun _ _ h => by injection h

theorem sortThreads_clientThreads (c : ℕ) :
    sortThreads (clientThreads c) = .ok (clientThreads c) := by
  have hall : (clientThreads c).all Name.isInteger = true := by
    simp [clientThreads, Name.isInteger]
  have hsorted : (clientThreads c).Pairwise fun a b => threadLe a b := by
    rw [clientThreads, List.pairwise_map]
    exact List.pairwise_lt_range.imp fun h => decide_eq_true h.le
  rw [sortThreads, if_pos hall, hsorted.insertionSort_eq]

/-- The group of a client thread; the nemesis is in none. -/
theorem Grouped.lookup_eq {K : Type u} {A : Type v} {γ : Type w} {c n : ℕ}
    {groups : Groups K A γ} (hgrouped : Grouped n (clientThreads c) groups) (hn : 0 < n)
    {thread : Name} :
    groups.threadToGroup.lookup thread =
      match thread with
      | .int i => if i < c then some (i / n) else none
      | .keyword _ => none := by
  rw [hgrouped.threadToGroup]
  have hnot : (∀ i < c, thread ≠ .int i) →
      (makeThreadToGroup (partition n (clientThreads c))).lookup thread = none := by
    intro hthread
    rw [List.lookup_eq_none_iff]
    rintro ⟨t, group⟩ hmem
    obtain ⟨i, hi, -⟩ := mem_makeThreadToGroup_partition hn hmem
    obtain ⟨hlt, rfl⟩ := getElem?_clientThreads.mp hi
    simpa using hthread i hlt
  cases thread with
  | int i =>
    by_cases hi : i < c
    · simp only [if_pos hi]
      exact lookup_makeThreadToGroup hn hgrouped.dvd (nodup_clientThreads c)
        (getElem?_clientThreads.mpr ⟨hi, rfl⟩)
    · simp only [if_neg hi]
      exact hnot fun j hj heq => hi (by injection heq with heq; omega)
  | keyword k => exact hnot fun i _ heq => by cases heq

section View

variable {c : ℕ} {ctx : Context}

theorem clientBits_eq (hwhole : Whole c ctx) :
    (ctx.allThreadsBits.filter fun i =>
      (ctx.translationTable.indexToName i).any (allBut .nemesis)) = Finset.range c := by
  rw [hwhole.all, hwhole.wf.table]
  ext i
  rw [Finset.mem_filter, Finset.mem_range, Finset.mem_range]
  by_cases hi : i < c
  · have hname : (testTable c).indexToName i = some (.int i) :=
      TranslationTable.indexToName_of_lt hi
    rw [hname]
    simp [allBut, Name.nemesis, hi, Nat.lt_succ_of_lt hi]
  · constructor
    · rintro ⟨hlt, hany⟩
      obtain rfl : i = c := by omega
      have hname : (testTable i).indexToName i = some .nemesis :=
        indexToName_testTable_iff.mpr ⟨mem_testTable_allNames.mpr (Or.inr rfl), rfl⟩
      rw [hname] at hany
      simp [allBut] at hany
    · exact fun h => absurd h hi

theorem clientView_all (hwhole : Whole c ctx) :
    (clientView ctx).allThreadsBits = Finset.range c := by
  show (ctx.allThreadsBits.filter _) ∩ ctx.allThreadsBits = _
  rw [clientBits_eq hwhole, hwhole.all]
  exact Finset.inter_eq_left.mpr (Finset.range_subset_range.mpr (Nat.le_succ c))

theorem clientView_free (hwhole : Whole c ctx) :
    (clientView ctx).freeThreadsBits = Finset.range c ∩ ctx.freeThreadsBits := by
  show (ctx.allThreadsBits.filter _) ∩ ctx.freeThreadsBits = _
  rw [clientBits_eq hwhole]

theorem wellFormed_clientView (hwhole : Whole c ctx) : WellFormed c (clientView ctx) :=
  hwhole.wf.makeThreadFilter _ _

theorem clientView_allThreads (hwhole : Whole c ctx) :
    (clientView ctx).allThreads = clientThreads c := by
  have htable : (clientView ctx).translationTable = testTable c := hwhole.wf.table
  rw [allThreads, clientView_all hwhole, htable, TranslationTable.indicesToNames]
  have hrange : (List.range ((Finset.range c).sup id + 1)).filter (· ∈ Finset.range c) =
      List.range c := by
    cases c with
    | zero => rfl
    | succ c =>
      have hsup : (Finset.range (c + 1)).sup id = c := by
        apply le_antisymm
        · exact Finset.sup_le fun i hi => Nat.lt_succ_iff.mp (Finset.mem_range.mp hi)
        · exact Finset.le_sup (f := id) (Finset.self_mem_range_succ c)
      rw [hsup, List.filter_eq_self]
      intro i hi
      simpa using hi
  rw [hrange, clientThreads, ← List.filterMap_eq_map]
  apply List.filterMap_congr
  intro i hi
  exact TranslationTable.indexToName_of_lt (List.mem_range.mp hi)

theorem clientView_allThreadCount (hwhole : Whole c ctx) :
    (clientView ctx).allThreadCount = c := by
  rw [allThreadCount, clientView_all hwhole, Finset.card_range]

theorem mem_freeThreads_clientView (hwhole : Whole c ctx) {thread : Name} :
    thread ∈ (clientView ctx).freeThreads ↔
      ∃ i < c, thread = .int i ∧ thread ∈ ctx.freeThreads := by
  rw [(wellFormed_clientView hwhole).mem_freeThreads_iff, hwhole.wf.mem_freeThreads_iff,
    clientView_free hwhole, Finset.mem_inter, Finset.mem_range]
  constructor
  · rintro ⟨hmem, hlt, hfree⟩
    rcases mem_testTable_allNames.mp hmem with ⟨i, hi, rfl⟩ | rfl
    · exact ⟨i, hi, rfl, hmem, hfree⟩
    · exact absurd hlt (lt_irrefl c)
  · rintro ⟨i, hi, rfl, hmem, hfree⟩
    exact ⟨hmem, hi, hfree⟩

end View

end Jepsen.Independent
