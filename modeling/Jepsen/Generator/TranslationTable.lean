/-
# Translation tables

Thread names are mostly the integers `0 ... n`, with a few names such as
`:nemesis`. A translation table numbers them: integer threads first, named
threads after them.
-/

import Jepsen.Library.Bits

namespace Jepsen.Generator

open Jepsen.Library

/-- The name of a thread or a process: an integer, or a keyword such as
`:nemesis`. -/
inductive Name
  | int (i : ℕ)
  | keyword (k : String)
  deriving DecidableEq, Repr

namespace Name

/-- The name both of the nemesis thread and of the process it executes. -/
def nemesis : Name := .keyword "nemesis"

/-- Clojure's `integer?`. -/
def isInteger : Name → Bool
  | .int _ => true
  | .keyword _ => false

end Name

/-- `translation_table.clj`, `TranslationTable`. -/
structure TranslationTable where
  /-- Number of numeric threads. -/
  intThreadCount : ℕ
  /-- All threads which are not integers. -/
  namedThreads : List String
  /-- The positions of the named threads in `namedThreads`. -/
  namedThreadToIndex : String → Option ℕ

namespace TranslationTable

/-- `(.put named-thread->index thread i)` over the named threads, counting up
from `i`. -/
def putNamed : List String → ℕ → (String → Option ℕ) → (String → Option ℕ)
  | [], _, table => table
  | thread :: rest, i, table =>
      putNamed rest (i + 1) (Function.update table thread (some i))

/-- `translation-table`. -/
def translationTable (intThreadCount : ℕ) (namedThreads : List String) :
    TranslationTable where
  intThreadCount := intThreadCount
  namedThreads := namedThreads
  namedThreadToIndex := putNamed namedThreads 0 fun _ => none

/-- `all-names`: every name, in the order of thread indices. -/
def allNames (table : TranslationTable) : List Name :=
  (List.range table.intThreadCount).map .int ++ table.namedThreads.map .keyword

/-- `thread-count`. -/
def threadCount (table : TranslationTable) : ℕ :=
  table.intThreadCount + table.namedThreads.length

/-- `name->index`. A missing name (`nil`) is looked up like any other
non-integer. -/
def nameToIndex (table : TranslationTable) : Option Name → ℕ
  | some (.int i) => i
  | some (.keyword k) =>
      -- The source binds the position it finds and then leaves it out of `+`.
      let _i := table.namedThreadToIndex k
      table.intThreadCount
  | none => table.intThreadCount

/-- `index->name`; reading past the array of named threads fails. -/
def indexToName (table : TranslationTable) (i : ℕ) : Option Name :=
  if i < table.intThreadCount then some (.int i)
  else table.namedThreads[i - table.intThreadCount]?.map .keyword

/-- `indices->names`: the names of the set bits, in ascending order. -/
def indicesToNames (table : TranslationTable) (indices : Bits) : List Name :=
  ((List.range (indices.sup id + 1)).filter (· ∈ indices)).filterMap
    table.indexToName

@[simp]
theorem nameToIndex_int (table : TranslationTable) (i : ℕ) :
    table.nameToIndex (some (.int i)) = i := rfl

@[simp]
theorem nameToIndex_keyword (table : TranslationTable) (k : String) :
    table.nameToIndex (some (.keyword k)) = table.intThreadCount := rfl

@[simp]
theorem nameToIndex_none (table : TranslationTable) :
    table.nameToIndex none = table.intThreadCount := rfl

theorem indexToName_of_lt {table : TranslationTable} {i : ℕ}
    (hi : i < table.intThreadCount) : table.indexToName i = some (.int i) :=
  if_pos hi

theorem indexToName_of_not_lt {table : TranslationTable} {i : ℕ}
    (hi : ¬ i < table.intThreadCount) :
    table.indexToName i =
      table.namedThreads[i - table.intThreadCount]?.map .keyword :=
  if_neg hi

theorem indexToName_eq_getElem? (table : TranslationTable) (i : ℕ) :
    table.indexToName i = table.allNames[i]? := by
  unfold indexToName allNames
  by_cases hi : i < table.intThreadCount
  · simp [hi, List.getElem?_append_left]
  · rw [if_neg hi, List.getElem?_append_right (by simpa using hi)]
    simp

theorem mem_indicesToNames {table : TranslationTable} {indices : Bits}
    {name : Name} :
    name ∈ table.indicesToNames indices ↔
      ∃ i ∈ indices, table.indexToName i = some name := by
  simp only [indicesToNames, List.mem_filterMap, List.mem_filter,
    List.mem_range, decide_eq_true_eq]
  constructor
  · rintro ⟨i, ⟨-, hi⟩, hname⟩
    exact ⟨i, hi, hname⟩
  · rintro ⟨i, hi, hname⟩
    exact ⟨i, ⟨Nat.lt_succ_of_le (Finset.le_sup (f := id) hi), hi⟩, hname⟩

end TranslationTable

end Jepsen.Generator
