/-
# Which translation tables are bijections

Names and indices are meant to be two ways of writing the same threads. The lookup of a
name drops the position it finds among the named threads, so every named thread has the
index of the first one. With one named thread nothing is lost; with more, all but the
first are. A name that is not in the table has an index of the table as soon as there is a
named thread at all.
-/

import Jepsen.Generator.TranslationTable

namespace Jepsen.Generator.TranslationTable

open Jepsen.Library

/-- `names->indices` -/
def namesToIndices (table : TranslationTable) (names : List Name) : Bits :=
  names.foldl (fun bs name => insert (table.nameToIndex (some name)) bs) ∅

theorem mem_namesToIndices {table : TranslationTable} {names : List Name} {i : ℕ} :
    i ∈ table.namesToIndices names ↔ ∃ name ∈ names, table.nameToIndex (some name) = i := by
  have hfold : ∀ bs : Bits,
      i ∈ names.foldl (fun bs name => insert (table.nameToIndex (some name)) bs) bs ↔
        i ∈ bs ∨ ∃ name ∈ names, table.nameToIndex (some name) = i := by
    induction names with
    | nil => simp
    | cons name names ih =>
      intro bs
      rw [List.foldl_cons, ih, Finset.mem_insert, List.exists_mem_cons_iff, eq_comm]
      tauto
  rw [namesToIndices, hfold]
  simp

/-! ## What a bijection is -/

/-- `name->index` and `index->name` are mutually inverse. -/
structure NamesInverse (table : TranslationTable) : Prop where
  indexed : ∀ name ∈ table.allNames, table.nameToIndex (some name) < table.threadCount ∧
    table.indexToName (table.nameToIndex (some name)) = some name
  named : ∀ i < table.threadCount, ∃ name ∈ table.allNames,
    table.indexToName i = some name ∧ table.nameToIndex (some name) = i

/-- `names->indices` and `indices->names` are mutually inverse on subsets. -/
structure SetsInverse (table : TranslationTable) : Prop where
  indexed : ∀ names ⊆ table.allNames,
    table.namesToIndices names ⊆ Finset.range table.threadCount ∧
      ∀ name, name ∈ table.indicesToNames (table.namesToIndices names) ↔ name ∈ names
  named : ∀ indices ⊆ Finset.range table.threadCount,
    table.indicesToNames indices ⊆ table.allNames ∧
      table.namesToIndices (table.indicesToNames indices) = indices

/-- A name that is not in the table has no index of the table. -/
def MissingInvalid (table : TranslationTable) : Prop :=
  ∀ name : Option Name, (∀ known ∈ table.allNames, name ≠ some known) →
    ¬ table.nameToIndex name < table.threadCount

/-- Names and indices are two ways of writing the same threads. -/
structure Bijective (table : TranslationTable) : Prop where
  names : table.NamesInverse
  sets : table.SetsInverse
  missing : table.MissingInvalid

variable {table : TranslationTable}

/-! ## Names -/

theorem length_allNames (table : TranslationTable) :
    table.allNames.length = table.threadCount := by
  rw [allNames, threadCount, List.length_append, List.length_map, List.length_map,
    List.length_range]

theorem int_mem_allNames {i : ℕ} : Name.int i ∈ table.allNames ↔ i < table.intThreadCount := by
  simp [allNames]

theorem keyword_mem_allNames {k : String} :
    Name.keyword k ∈ table.allNames ↔ k ∈ table.namedThreads := by
  simp [allNames]

/-- The index of every named thread is that of the first. -/
theorem indexToName_nameToIndex_keyword (table : TranslationTable) (k : String) :
    table.indexToName (table.nameToIndex (some (.keyword k))) =
      table.namedThreads.head?.map .keyword := by
  rw [nameToIndex_keyword, indexToName_of_not_lt (lt_irrefl _), Nat.sub_self,
    List.head?_eq_getElem?]

/-- With one named thread, every name has an index of its own. -/
theorem namesInverse_of_length_le (hle : table.namedThreads.length ≤ 1) :
    table.NamesInverse where
  indexed := by
    intro name hname
    cases name with
    | int i =>
      have hi := int_mem_allNames.mp hname
      exact ⟨Nat.lt_add_right _ hi, indexToName_of_lt hi⟩
    | keyword k =>
      have hk := keyword_mem_allNames.mp hname
      have hone : table.namedThreads = [k] := by
        obtain ⟨first, hfirst⟩ := List.length_eq_one_iff.mp
          (le_antisymm hle (List.length_pos_of_mem hk))
        rw [hfirst] at hk ⊢
        rw [List.mem_singleton.mp hk]
      refine ⟨?_, ?_⟩
      · rw [nameToIndex_keyword, threadCount, hone]
        exact Nat.lt_succ_self _
      · rw [indexToName_nameToIndex_keyword, hone]
        rfl
  named := by
    intro i hi
    by_cases hint : i < table.intThreadCount
    · exact ⟨.int i, int_mem_allNames.mpr hint, indexToName_of_lt hint, rfl⟩
    · have hnamed : i = table.intThreadCount ∧ 0 < table.namedThreads.length := by
        rw [threadCount] at hi
        omega
      obtain ⟨rfl, hpos⟩ := hnamed
      refine ⟨.keyword (table.namedThreads[0]), keyword_mem_allNames.mpr (List.getElem_mem hpos),
        ?_, rfl⟩
      rw [indexToName_of_not_lt hint, Nat.sub_self, List.getElem?_eq_getElem hpos]
      rfl

/-- With two, the second index is no name's. -/
theorem length_le_of_namesInverse (h : table.NamesInverse) : table.namedThreads.length ≤ 1 := by
  by_contra hlt
  have hi : table.intThreadCount + 1 < table.threadCount := by
    rw [threadCount]
    omega
  obtain ⟨name, hname, -, hindex⟩ := h.named _ hi
  cases name with
  | int i =>
    have hlt := int_mem_allNames.mp hname
    rw [nameToIndex_int] at hindex
    omega
  | keyword k =>
    rw [nameToIndex_keyword] at hindex
    omega

/-! ## Sets of names -/

theorem NamesInverse.setsInverse (h : table.NamesInverse) : table.SetsInverse where
  indexed := by
    intro names hnames
    refine ⟨fun i hi => ?_, fun name => ?_⟩
    · obtain ⟨name, hname, rfl⟩ := mem_namesToIndices.mp hi
      exact Finset.mem_range.mpr (h.indexed name (hnames hname)).1
    · rw [mem_indicesToNames]
      refine ⟨fun hmem => ?_, fun hname => ?_⟩
      · obtain ⟨i, hi, hname⟩ := hmem
        obtain ⟨name', hname', rfl⟩ := mem_namesToIndices.mp hi
        rw [(h.indexed name' (hnames hname')).2] at hname
        rwa [← Option.some.inj hname]
      · exact ⟨_, mem_namesToIndices.mpr ⟨name, hname, rfl⟩, (h.indexed name (hnames hname)).2⟩
  named := by
    intro indices hindices
    have hnamed : ∀ i ∈ indices, ∃ name ∈ table.allNames,
        table.indexToName i = some name ∧ table.nameToIndex (some name) = i :=
      fun i hi => h.named i (Finset.mem_range.mp (hindices hi))
    refine ⟨fun name hname => ?_, ?_⟩
    · obtain ⟨i, hi, hindex⟩ := mem_indicesToNames.mp hname
      obtain ⟨name', hmem, hname', -⟩ := hnamed i hi
      rw [hindex] at hname'
      rwa [Option.some.inj hname']
    · ext i
      rw [mem_namesToIndices]
      refine ⟨fun hmem => ?_, fun hi => ?_⟩
      · obtain ⟨name, hname, rfl⟩ := hmem
        obtain ⟨j, hj, hindex⟩ := mem_indicesToNames.mp hname
        obtain ⟨name', -, hname', hj'⟩ := hnamed j hj
        rw [hindex] at hname'
        rw [Option.some.inj hname', hj']
        exact hj
      · obtain ⟨name, -, hname, hindex⟩ := hnamed i hi
        exact ⟨name, mem_indicesToNames.mpr ⟨i, hi, hname⟩, hindex⟩

/-- The sets of one name are enough to tell names apart. -/
theorem SetsInverse.namesInverse (h : table.SetsInverse) : table.NamesInverse where
  indexed := by
    intro name hname
    have hsub : [name] ⊆ table.allNames := fun other hother => List.mem_singleton.mp hother ▸ hname
    have hindices : table.namesToIndices [name] = {table.nameToIndex (some name)} := rfl
    obtain ⟨hrange, hmem⟩ := h.indexed [name] hsub
    rw [hindices] at hrange hmem
    obtain ⟨i, hi, hindex⟩ := mem_indicesToNames.mp ((hmem name).mpr List.mem_cons_self)
    rw [Finset.mem_singleton] at hi
    exact ⟨Finset.mem_range.mp (hrange (Finset.mem_singleton_self _)), hi ▸ hindex⟩
  named := by
    intro i hi
    have hsub : {i} ⊆ Finset.range table.threadCount :=
      Finset.singleton_subset_iff.mpr (Finset.mem_range.mpr hi)
    obtain ⟨hnames, hindices⟩ := h.named {i} hsub
    have hmem : i ∈ table.namesToIndices (table.indicesToNames {i}) := by
      rw [hindices]
      exact Finset.mem_singleton_self i
    obtain ⟨name, hname, hindex⟩ := mem_namesToIndices.mp hmem
    obtain ⟨j, hj, hname'⟩ := mem_indicesToNames.mp hname
    rw [Finset.mem_singleton.mp hj] at hname'
    exact ⟨name, hnames hname, hname', hindex⟩

/-! ## Names that are not in the table -/

/-- The first integer that is no thread has the index of the first named thread. -/
theorem missingInvalid_iff : table.MissingInvalid ↔ table.namedThreads = [] := by
  refine ⟨fun h => ?_, fun h name hmissing => ?_⟩
  · have hmissing : ∀ known ∈ table.allNames,
        some (Name.int table.intThreadCount) ≠ some known := by
      intro known hknown heq
      rw [← Option.some.inj heq] at hknown
      exact absurd (int_mem_allNames.mp hknown) (lt_irrefl _)
    have hle := not_lt.mp (h _ hmissing)
    rw [nameToIndex_int, threadCount] at hle
    exact List.eq_nil_of_length_eq_zero (by omega)
  · have hcount : table.threadCount = table.intThreadCount := by
      rw [threadCount, h, List.length_nil, Nat.add_zero]
    rw [hcount]
    cases name with
    | none => exact lt_irrefl _
    | some name =>
      cases name with
      | int i => exact fun hi => hmissing _ (int_mem_allNames.mpr hi) rfl
      | keyword k => exact lt_irrefl _

/-! ## Tables -/

/-- Names and indices are mutually inverse, one by one and as sets, if and only if there is at
most one named thread; and missing names have no valid index, so that the table is a
bijection, if and only if there is none. -/
theorem translationTable_bijective_iff (intThreadCount : ℕ) (namedThreads : List String) :
    ((translationTable intThreadCount namedThreads).NamesInverse ↔ namedThreads.length ≤ 1) ∧
    ((translationTable intThreadCount namedThreads).SetsInverse ↔ namedThreads.length ≤ 1) ∧
    ((translationTable intThreadCount namedThreads).MissingInvalid ↔ namedThreads = []) ∧
    ((translationTable intThreadCount namedThreads).Bijective ↔ namedThreads = []) := by
  have hnames : (translationTable intThreadCount namedThreads).NamesInverse ↔
      namedThreads.length ≤ 1 :=
    ⟨fun h => length_le_of_namesInverse h, fun h => namesInverse_of_length_le h⟩
  refine ⟨hnames, ⟨fun h => hnames.mp h.namesInverse, fun h => (hnames.mpr h).setsInverse⟩,
    missingInvalid_iff, fun h => missingInvalid_iff.mp h.missing, fun h => ?_⟩
  have hinverse := hnames.mpr (h ▸ Nat.zero_le 1)
  exact ⟨hinverse, hinverse.setsInverse, missingInvalid_iff.mpr h⟩

/-- A table of one integer thread and two named ones: the second has the index of the first, and
the integer 1, which is no thread, has it too. -/
theorem twoNamed_not_bijective :
    ¬ (translationTable 1 ["nemesis", "clock"]).NamesInverse ∧
      ¬ (translationTable 1 ["nemesis", "clock"]).MissingInvalid := by
  refine ⟨fun h => ?_, fun h => ?_⟩
  · have hclock := (h.indexed (.keyword "clock") (by decide)).2
    revert hclock
    decide
  · exact h (some (.int 1)) (by decide) (by decide)

end Jepsen.Generator.TranslationTable
