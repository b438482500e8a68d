/-
# When each remote log has its own local name

A map of log files is returned as it is, so its names are distinct if it is
injective. A sequence is mapped properly if no entry stands before a path, no two
paths differ in trailing slashes alone, and neither the entries nor the names that
are left of the paths clash.
-/

import Jepsen.Db.LogFiles

namespace Jepsen.Db

open Jepsen.Library
open Jepsen.Util hiding split join

/-- Each of the log files of a sequence can have its own name. -/
structure Separate (items : List Item) : Prop where
  /-- No entry stands before a path. -/
  pathsFirst : items = (longFiles items).map .path ++ (entries items).map fun e => .entry e.1 e.2
  /-- No two paths differ in trailing slashes alone. -/
  apart : ∀ p ∈ longFiles items, ∀ q ∈ longFiles items, join (split p) = join (split q) → p = q
  /-- A path that is given a name too is given the one that is left of it. -/
  kept : ∀ p ∈ longFiles items, (∃ short, (p, short) ∈ entries items) →
    (p, shortName (longFiles items) p) ∈ entries items
  /-- The other entries end up with names of their own. -/
  explicit : ∀ p q name, p ∉ longFiles items → q ∉ longFiles items →
    explicitName items p = some name → explicitName items q = some name → p = q
  /-- What is left of a path is no other's name. -/
  mixed : ∀ p ∈ longFiles items, ∀ q, q ∉ longFiles items →
    explicitName items q ≠ some (shortName (longFiles items) p)

/-- When the log files are mapped, or a collision is found. -/
def LogFiles.Separate : LogFiles → Prop
  | .map files => ∀ p q name, files.lookup p = some name → files.lookup q = some name → p = q
  | .seq items => Db.Separate items

/-! ## Maps -/

theorem lookup_localNames_map (files : Assoc Text Text) (remote : Text) :
    (localNames (.map files)).lookup (.path remote) = files.lookup remote := by
  unfold localNames
  rw [lookup_insertPairs, AList.lookup_empty, Option.or_none]
  cases hvalue : lastValue (files.entries.map fun e => (Item.path e.1, e.2)) (.path remote) with
  | some name =>
    obtain ⟨e, he, heq⟩ := List.mem_map.mp (mem_of_lastValue hvalue)
    cases heq
    exact (Assoc.mem_entries_iff.mp he).symm
  | none =>
    cases hlookup : files.lookup remote with
    | none => rfl
    | some name =>
      have hmem := Assoc.mem_entries_iff.mpr hlookup
      obtain ⟨name', hname'⟩ := exists_lastValue
        (List.mem_map_of_mem (f := fun e : (_ : Text) × Text => (Item.path e.1, e.2)) hmem)
      rw [hvalue] at hname'
      cases hname'

theorem lookup_localNames_map_entry (files : Assoc Text Text) (remote short : Text) :
    (localNames (.map files)).lookup (.entry remote short) = none := by
  unfold localNames
  rw [lookup_insertPairs, AList.lookup_empty, Option.or_none]
  apply lastValue_eq_none
  intro p hp heq
  obtain ⟨e, he, hpe⟩ := List.mem_map.mp hp
  rw [← hpe] at heq
  cases heq

theorem given_map_iff {files : Assoc Text Text} {remote : Text} {name : Option Text} :
    (remote, name) ∈ (LogFiles.map files).given ↔
      ∃ short, name = some short ∧ files.lookup remote = some short := by
  unfold LogFiles.given
  constructor
  · intro hmem
    obtain ⟨e, he, heq⟩ := List.mem_map.mp hmem
    cases heq
    exact ⟨e.2, rfl, Assoc.mem_entries_iff.mp he⟩
  · intro hsome
    obtain ⟨short, hname, hlookup⟩ := hsome
    subst hname
    exact List.mem_map.mpr ⟨⟨remote, short⟩, Assoc.mem_entries_iff.mpr hlookup, rfl⟩

theorem mapped_map_iff (files : Assoc Text Text) :
    Mapped (.map files) (localNames (.map files)) ↔ (LogFiles.map files).Separate := by
  constructor
  · intro hmapped p q name hp hq
    apply hmapped.distinct p q name
    · rw [lookup_localNames_map]
      exact hp
    · rw [lookup_localNames_map]
      exact hq
  · intro hinj
    refine ⟨fun key => ?_, fun p name hp _ => ?_, fun p name hp hnot => ?_,
      fun p q name hp hq => ?_⟩
    · rw [← AList.lookup_isSome]
      cases key with
      | path p =>
        rw [lookup_localNames_map, Option.isSome_iff_exists]
        constructor
        · intro hsome
          obtain ⟨name, hname⟩ := hsome
          exact ⟨(p, some name), given_map_iff.mpr ⟨name, rfl, hname⟩, rfl⟩
        · intro hgiven
          obtain ⟨g, hg, heq⟩ := hgiven
          cases heq
          obtain ⟨short, -, hlookup⟩ := given_map_iff.mp hg
          exact ⟨short, hlookup⟩
      | entry p short =>
        rw [lookup_localNames_map_entry]
        constructor
        · intro hfalse
          cases hfalse
        · intro hgiven
          obtain ⟨g, -, heq⟩ := hgiven
          cases heq
    · rw [lookup_localNames_map] at hp
      exact given_map_iff.mpr ⟨name, rfl, hp⟩
    · rw [lookup_localNames_map] at hp
      exact absurd ⟨name, given_map_iff.mpr ⟨name, rfl, hp⟩⟩ hnot
    · rw [lookup_localNames_map] at hp hq
      exact hinj p q name hp hq

/-! ## Sequences -/

theorem given_path_iff {items : List Item} {remote : Text} :
    (remote, none) ∈ (LogFiles.seq items).given ↔ remote ∈ longFiles items := by
  unfold LogFiles.given longFiles
  rw [List.mem_map, List.mem_filterMap]
  constructor
  · intro hmem
    obtain ⟨item, hitem, heq⟩ := hmem
    refine ⟨item, hitem, ?_⟩
    cases item with
    | path p =>
      cases heq
      rfl
    | entry p short => cases heq
  · intro hmem
    obtain ⟨item, hitem, heq⟩ := hmem
    refine ⟨item, hitem, ?_⟩
    cases item with
    | path p =>
      cases heq
      rfl
    | entry p short => cases heq

theorem given_entry_iff {items : List Item} {remote short : Text} :
    (remote, some short) ∈ (LogFiles.seq items).given ↔ (remote, short) ∈ entries items := by
  unfold LogFiles.given entries
  rw [List.mem_map, List.mem_filterMap]
  constructor
  · intro hmem
    obtain ⟨item, hitem, heq⟩ := hmem
    refine ⟨item, hitem, ?_⟩
    cases item with
    | path p => cases heq
    | entry p short =>
      cases heq
      rfl
  · intro hmem
    obtain ⟨item, hitem, heq⟩ := hmem
    refine ⟨item, hitem, ?_⟩
    cases item with
    | path p => cases heq
    | entry p short =>
      cases heq
      rfl

theorem exists_given_iff {items : List Item} {remote : Text} :
    (∃ name, (remote, name) ∈ (LogFiles.seq items).given) ↔
      remote ∈ longFiles items ∨ ∃ short, (remote, short) ∈ entries items := by
  constructor
  · intro hgiven
    obtain ⟨name, hname⟩ := hgiven
    cases name with
    | none => exact .inl (given_path_iff.mp hname)
    | some short => exact .inr ⟨short, given_entry_iff.mp hname⟩
  · intro hor
    cases hor with
    | inl hlong => exact ⟨none, given_path_iff.mpr hlong⟩
    | inr hentry =>
      obtain ⟨short, hshort⟩ := hentry
      exact ⟨some short, given_entry_iff.mpr hshort⟩

/-- Of the elements of a sequence, as many are used for keys as there are paths. -/
theorem lookup_localNames_seq (items : List Item) (key : Item) :
    (localNames (.seq items)).lookup key =
      (lastValue (items.zip ((longFiles items).map (shortName (longFiles items)))) key).or
        (lastValue ((entries items).map fun e => (.path e.1, e.2)) key) := by
  unfold localNames
  rw [lookup_insertPairs, lookup_insertPairs, AList.lookup_empty, Option.or_none, autoShorts_eq]

theorem lastValue_paths (pairs : List (Text × Text)) (remote : Text) :
    lastValue (pairs.map fun e => (Item.path e.1, e.2)) (.path remote) =
      lastValue pairs remote := by
  induction pairs using List.reverseRecOn with
  | nil => rfl
  | append_singleton pairs p ih =>
    rw [List.map_append, List.map_singleton, lastValue_concat, lastValue_concat, ih]
    by_cases heq : p.1 = remote
    · rw [if_pos heq, if_pos (congrArg Item.path heq)]
    · rw [if_neg heq, if_neg (fun hpath => heq (Item.path.inj hpath))]

/-- If the first elements, as many as there are paths, are paths, then the others are entries. -/
theorem pathsFirst_of_take {items : List Item}
    (hpaths : ∀ item ∈ items.take (longFiles items).length, ∃ p, item = .path p) :
    items = (longFiles items).map .path ++ (entries items).map fun e => .entry e.1 e.2 := by
  have hall : ∀ l : List Item, (∀ item ∈ l, ∃ p, item = .path p) →
      l = (longFiles l).map .path ∧ entries l = [] := by
    intro l hl
    induction l with
    | nil => exact ⟨rfl, rfl⟩
    | cons item l ih =>
      obtain ⟨p, hp⟩ := hl item List.mem_cons_self
      obtain ⟨heq, hnil⟩ := ih fun item' hitem' => hl item' (List.mem_cons_of_mem item hitem')
      subst hp
      constructor
      · change Item.path p :: l = Item.path p :: (longFiles l).map .path
        rw [← heq]
      · exact hnil
  have hnone : ∀ l : List Item, longFiles l = [] →
      l = (entries l).map fun e => .entry e.1 e.2 := by
    intro l hl
    induction l with
    | nil => rfl
    | cons item l ih =>
      cases item with
      | path p => cases hl
      | entry p short =>
        change Item.entry p short :: l =
          Item.entry p short :: (entries l).map fun e => Item.entry e.1 e.2
        rw [← ih hl]
  have hlongs : longFiles items = longFiles (items.take (longFiles items).length) ++
      longFiles (items.drop (longFiles items).length) := by
    conv_lhs => rw [← List.take_append_drop (longFiles items).length items]
    exact List.filterMap_append
  have hentries : entries items = entries (items.take (longFiles items).length) ++
      entries (items.drop (longFiles items).length) := by
    conv_lhs => rw [← List.take_append_drop (longFiles items).length items]
    exact List.filterMap_append
  obtain ⟨htake, htakenil⟩ := hall _ hpaths
  have hle : (longFiles items).length ≤ items.length := List.length_filterMap_le _ _
  have hlength : (longFiles (items.take (longFiles items).length)).length =
      (longFiles items).length := by
    have hmap := congrArg List.length htake
    rw [List.length_map, List.length_take, min_eq_left hle] at hmap
    exact hmap.symm
  have hdropnil : longFiles (items.drop (longFiles items).length) = [] := by
    have happend := congrArg List.length hlongs
    rw [List.length_append, hlength] at happend
    exact List.length_eq_zero_iff.mp (by omega)
  have hdrop := hnone _ hdropnil
  rw [hdropnil, List.append_nil] at hlongs
  rw [htakenil, List.nil_append] at hentries
  rw [← hlongs] at htake
  rw [← hentries] at hdrop
  rw [← htake, ← hdrop, List.take_append_drop]

theorem zip_pathsFirst {items : List Item}
    (hfirst : items = (longFiles items).map .path ++ (entries items).map fun e => .entry e.1 e.2)
    (name : Text → Text) :
    items.zip ((longFiles items).map name) =
      (longFiles items).map fun p => (Item.path p, name p) := by
  calc items.zip ((longFiles items).map name)
      = ((longFiles items).map Item.path ++ (entries items).map fun e => Item.entry e.1 e.2).zip
          ((longFiles items).map name ++ []) := by rw [← hfirst, List.append_nil]
    _ = (longFiles items).map fun p => (Item.path p, name p) := by
      rw [List.zip_append (by rw [List.length_map, List.length_map]), List.zip_nil_right,
        List.append_nil, List.zip_map']

theorem lastValue_map {names : List Text} (name : Text → Text) {p : Text} (hp : p ∈ names) :
    lastValue (names.map fun p => (Item.path p, name p)) (.path p) = some (name p) := by
  have hpair : (Item.path p, name p) ∈ names.map fun p => (Item.path p, name p) :=
    List.mem_map_of_mem hp
  obtain ⟨name', hvalue⟩ := exists_lastValue hpair
  obtain ⟨q, -, heq⟩ := List.mem_map.mp (mem_of_lastValue hvalue)
  cases heq
  exact hvalue

section

variable {items : List Item}
  (hfirst : items = (longFiles items).map .path ++ (entries items).map fun e => .entry e.1 e.2)

include hfirst

theorem lookup_long {p : Text} (hp : p ∈ longFiles items) :
    (localNames (.seq items)).lookup (.path p) = some (shortName (longFiles items) p) := by
  rw [lookup_localNames_seq, zip_pathsFirst hfirst, lastValue_map _ hp, Option.some_or]

theorem lookup_short {p : Text} (hp : p ∉ longFiles items) :
    (localNames (.seq items)).lookup (.path p) = explicitName items p := by
  rw [lookup_localNames_seq, zip_pathsFirst hfirst, lastValue_paths, lastValue_eq_none,
    Option.none_or]
  · rfl
  · intro pair hpair heq
    obtain ⟨q, hq, hpair⟩ := List.mem_map.mp hpair
    rw [← hpair] at heq
    cases heq
    exact hp hq

theorem lookup_entry (p short : Text) :
    (localNames (.seq items)).lookup (.entry p short) = none := by
  rw [lookup_localNames_seq, zip_pathsFirst hfirst, lastValue_eq_none, lastValue_eq_none,
    Option.none_or]
  · intro pair hpair heq
    obtain ⟨q, -, hpair⟩ := List.mem_map.mp hpair
    rw [← hpair] at heq
    cases heq
  · intro pair hpair heq
    obtain ⟨q, -, hpair⟩ := List.mem_map.mp hpair
    rw [← hpair] at heq
    cases heq

/-- Then the paths that are mapped are those that were given. -/
theorem mem_localNames_iff (key : Item) :
    key ∈ localNames (.seq items) ↔ ∃ g ∈ (LogFiles.seq items).given, key = .path g.1 := by
  rw [← AList.lookup_isSome]
  cases key with
  | entry p short =>
    rw [lookup_entry hfirst]
    constructor
    · intro hfalse
      cases hfalse
    · intro hgiven
      obtain ⟨g, -, heq⟩ := hgiven
      cases heq
  | path p =>
    have hgiven : (∃ g ∈ (LogFiles.seq items).given, Item.path p = .path g.1) ↔
        ∃ name, (p, name) ∈ (LogFiles.seq items).given := by
      constructor
      · intro hg
        obtain ⟨g, hmem, heq⟩ := hg
        cases heq
        exact ⟨g.2, hmem⟩
      · intro hname
        obtain ⟨name, hmem⟩ := hname
        exact ⟨(p, name), hmem, rfl⟩
    rw [hgiven, exists_given_iff]
    by_cases hp : p ∈ longFiles items
    · rw [lookup_long hfirst hp]
      exact iff_of_true rfl (.inl hp)
    · rw [lookup_short hfirst hp, Option.isSome_iff_exists]
      constructor
      · intro hsome
        obtain ⟨name, hname⟩ := hsome
        exact .inr ⟨name, mem_of_lastValue hname⟩
      · intro hor
        obtain ⟨short, hshort⟩ := hor.resolve_left hp
        exact exists_lastValue hshort

end

/-- If only paths that were given are mapped, then no entry stands before a path. -/
theorem pathsFirst_of_keys {items : List Item}
    (hkeys : ∀ key ∈ localNames (.seq items), ∃ g ∈ (LogFiles.seq items).given, key = .path g.1) :
    items = (longFiles items).map .path ++ (entries items).map fun e => .entry e.1 e.2 := by
  apply pathsFirst_of_take
  intro item hitem
  have hzip : ∃ name,
      (item, name) ∈ items.zip ((longFiles items).map (shortName (longFiles items))) := by
    obtain ⟨i, hi, hget⟩ := List.getElem_of_mem hitem
    rw [List.length_take] at hi
    have hlong : i < ((longFiles items).map (shortName (longFiles items))).length := by
      rw [List.length_map]
      exact lt_of_lt_of_le hi (min_le_left _ _)
    have hitems : i < items.length := lt_of_lt_of_le hi (min_le_right _ _)
    refine ⟨((longFiles items).map (shortName (longFiles items)))[i],
      List.mem_iff_getElem.mpr ⟨i, ?_, ?_⟩⟩
    · rw [List.length_zip]
      exact lt_min hitems hlong
    · rw [List.getElem_zip, ← hget, List.getElem_take]
  obtain ⟨name, hname⟩ := hzip
  obtain ⟨name', hvalue⟩ := exists_lastValue hname
  have hmem : item ∈ localNames (.seq items) := by
    rw [← AList.lookup_isSome, lookup_localNames_seq, hvalue]
    rfl
  obtain ⟨g, -, heq⟩ := hkeys item hmem
  exact ⟨g.1, heq⟩

theorem isPathSuffix_shortName (longs : List Text) (remote : Text) :
    IsPathSuffix (shortName longs remote) remote :=
  ⟨_, List.drop_suffix _ _, rfl⟩

theorem separate_of_mapped {items : List Item}
    (hmapped : Mapped (.seq items) (localNames (.seq items))) : Separate items := by
  have hfirst := pathsFirst_of_keys fun key hkey => (hmapped.keys key).mp hkey
  refine ⟨hfirst, fun p hp q hq heq => ?_, fun p hp hentry => ?_,
    fun p q name hp hq hnp hnq => ?_, fun p hp q hq heq => ?_⟩
  · apply hmapped.distinct p q (shortName (longFiles items) p)
    · exact lookup_long hfirst hp
    · rw [(shortName_eq_iff hp hq).mpr heq]
      exact lookup_long hfirst hq
  · obtain ⟨short, hshort⟩ := hentry
    exact given_entry_iff.mp (hmapped.kept p _ (lookup_long hfirst hp)
      ⟨short, given_entry_iff.mpr hshort⟩)
  · apply hmapped.distinct p q name
    · rw [lookup_short hfirst hp]
      exact hnp
    · rw [lookup_short hfirst hq]
      exact hnq
  · have hpq : p = q := by
      apply hmapped.distinct p q (shortName (longFiles items) p)
      · exact lookup_long hfirst hp
      · rw [lookup_short hfirst hq]
        exact heq
    rw [hpq] at hp
    exact hq hp

theorem mapped_of_separate {items : List Item} (hsep : Separate items) :
    Mapped (.seq items) (localNames (.seq items)) := by
  have hfirst := hsep.pathsFirst
  refine ⟨mem_localNames_iff hfirst, fun p name hlookup hgiven => ?_,
    fun p name hlookup hnot => ?_, fun p q name hnp hnq => ?_⟩
  · by_cases hp : p ∈ longFiles items
    · obtain ⟨short, hshort⟩ := hgiven
      rw [lookup_long hfirst hp] at hlookup
      cases hlookup
      exact given_entry_iff.mpr (hsep.kept p hp ⟨short, given_entry_iff.mp hshort⟩)
    · rw [lookup_short hfirst hp] at hlookup
      exact given_entry_iff.mpr (mem_of_lastValue hlookup)
  · by_cases hp : p ∈ longFiles items
    · rw [lookup_long hfirst hp] at hlookup
      cases hlookup
      exact isPathSuffix_shortName (longFiles items) p
    · rw [lookup_short hfirst hp] at hlookup
      exact absurd ⟨name, given_entry_iff.mpr (mem_of_lastValue hlookup)⟩ hnot
  · by_cases hp : p ∈ longFiles items
    · rw [lookup_long hfirst hp] at hnp
      by_cases hq : q ∈ longFiles items
      · rw [lookup_long hfirst hq] at hnq
        exact hsep.apart p hp q hq ((shortName_eq_iff hp hq).mp
          (Option.some.inj (hnp.trans hnq.symm)))
      · rw [lookup_short hfirst hq] at hnq
        exact absurd (hnq.trans hnp.symm) (hsep.mixed p hp q hq)
    · rw [lookup_short hfirst hp] at hnp
      by_cases hq : q ∈ longFiles items
      · rw [lookup_long hfirst hq] at hnq
        exact absurd (hnp.trans hnq.symm) (hsep.mixed q hq p hp)
      · rw [lookup_short hfirst hq] at hnq
        exact hsep.explicit p q name hp hq hnp hnq

/-! ## Log files -/

/-- As no collision is found, the log files are mapped properly if and only if each of them can
have its own name. -/
theorem mappedOrCollision_iff_separate (files : LogFiles) :
    MappedOrCollision files ↔ files.Separate := by
  rw [mappedOrCollision_iff]
  cases files with
  | map files => exact mapped_map_iff files
  | seq items => exact ⟨separate_of_mapped, mapped_of_separate⟩

/-- A sequence with an entry before a path. -/
def mixedFiles : LogFiles :=
  .seq [.entry "/etc/hosts".toList "hosts".toList, .path "/var/log/db.log".toList]

/-- The path is not mapped at all, and there is no collision. -/
theorem mixedFiles_not_mapped : ¬ MappedOrCollision mixedFiles := by
  intro hmapped
  have hkeys := (mappedOrCollision_iff mixedFiles).mp hmapped |>.keys
    (.path "/var/log/db.log".toList)
  exact absurd (hkeys.mpr ⟨("/var/log/db.log".toList, none), by decide, rfl⟩) (by decide)

end Jepsen.Db
