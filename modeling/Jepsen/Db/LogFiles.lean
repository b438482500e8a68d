/-
# Local names of remote log files

A DB gives a map of its remote log files to local names, or a sequence of paths
and entries of such a map. Paths get what is left of them without their common
prefix for a local name. The names are zipped with the whole sequence, and the
check for collisions passes the names as one argument to `distinct?`.
-/

import Jepsen.Library.Assoc
import Jepsen.Library.LastValue
import Jepsen.Util.CommonPrefix
import Jepsen.Util.Strings

namespace Jepsen.Db

open Jepsen.Library
open Jepsen.Util hiding split join

/-- A string. -/
abbrev Text := List Char

/-! ## Paths -/

/-- `str/split` at slashes, without trailing empty strings. -/
def split (s : Text) : List Text := Util.split '/' s

/-- `str/join` with slashes. -/
def join (pieces : List Text) : Text := Util.join '/' pieces

/-! ## Log files -/

/-- An element of a sequence of log files. -/
inductive Item
  | path (remote : Text)
  /-- A map entry. -/
  | entry (remote short : Text)
  deriving DecidableEq

/-- What `log-files` returns. -/
inductive LogFiles
  | map (files : Assoc Text Text)
  | seq (items : List Item)

/-- The entries of a sequence. -/
def entries (items : List Item) : List (Text × Text) :=
  items.filterMap fun item =>
    match item with
    | .entry remote short => some (remote, short)
    | .path _ => none

/-- The long paths of a sequence. -/
def longFiles (items : List Item) : List Text :=
  items.filterMap fun item =>
    match item with
    | .path remote => some remote
    | .entry _ _ => none

/-- `zipmap`, or `into` a map. -/
def insertPairs (pairs : List (Item × Text)) (m : Assoc Item Text) : Assoc Item Text :=
  pairs.foldl (fun m p => m.insert p.1 p.2) m

/-- `auto-shorts`, before they are zipped. -/
def autoShorts (longs : List Text) : List Text :=
  (dropCommonProperPrefix (longs.map split)).map join

/-- `distinct?` of its arguments. -/
def isDistinct (args : List (List Text)) : Bool := decide args.Nodup

/-- The error `log-files-local-name-collision`. -/
inductive Collision
  | logFilesLocalNameCollision

/-- The check for collisions in short names. -/
def checkCollisions (files : Assoc Item Text) : Except Collision (Assoc Item Text) :=
  -- The local names are one argument
  if isDistinct [files.entries.map Sigma.snd] then .ok files
  else .error .logFilesLocalNameCollision

/-- The map that `log-files-map` checks: its keys are elements of the sequence. -/
def localNames : LogFiles → Assoc Item Text
  | .map files => insertPairs (files.entries.map fun e => (.path e.1, e.2)) ∅
  | .seq items =>
    let shortFiles := insertPairs ((entries items).map fun e => (.path e.1, e.2)) ∅
    -- The names are those of the long files, the keys are those of all log files
    insertPairs (items.zip (autoShorts (longFiles items))) shortFiles

/-- `log-files-map` -/
def logFilesMap (files : LogFiles) : Except Collision (Assoc Item Text) :=
  checkCollisions (localNames files)

/-! ## What is promised -/

/-- The remote paths with the names that are given for them, if any. -/
def LogFiles.given : LogFiles → List (Text × Option Text)
  | .map files => files.entries.map fun e => (e.1, some e.2)
  | .seq items => items.map fun item =>
    match item with
    | .path remote => (remote, none)
    | .entry remote short => (remote, some short)

/-- The name is made of the last components of the path. -/
def IsPathSuffix (name remote : Text) : Prop :=
  ∃ pieces, pieces <:+ split remote ∧ name = join pieces

/-- Exactly the paths that were given are mapped, to names that were given for them or else to
suffixes, and no two to one name. -/
structure Mapped (files : LogFiles) (result : Assoc Item Text) : Prop where
  keys : ∀ key, key ∈ result ↔ ∃ g ∈ files.given, key = .path g.1
  kept : ∀ remote name, result.lookup (.path remote) = some name →
    (∃ short, (remote, some short) ∈ files.given) → (remote, some name) ∈ files.given
  suffix : ∀ remote name, result.lookup (.path remote) = some name →
    (¬ ∃ short, (remote, some short) ∈ files.given) → IsPathSuffix name remote
  distinct : ∀ remote remote' name, result.lookup (.path remote) = some name →
    result.lookup (.path remote') = some name → remote = remote'

/-- Either each remote log has its own local file, or there is a collision. -/
def MappedOrCollision (files : LogFiles) : Prop :=
  match logFilesMap files with
  | .ok result => Mapped files result
  | .error .logFilesLocalNameCollision => True

/-- No collision is ever found. -/
theorem logFilesMap_eq (files : LogFiles) : logFilesMap files = .ok (localNames files) :=
  rfl

theorem mappedOrCollision_iff (files : LogFiles) :
    MappedOrCollision files ↔ Mapped files (localNames files) :=
  Iff.rfl

/-! ## Short names -/

/-- The name that a long path gets among others. -/
def shortName (longs : List Text) (remote : Text) : Text :=
  join ((split remote).drop (properLength (longs.map split)).toNat)

theorem autoShorts_eq (longs : List Text) : autoShorts longs = longs.map (shortName longs) := by
  unfold autoShorts dropCommonProperPrefix shortName
  rw [List.map_map, List.map_map]
  rfl

/-- Two long paths get one name only if they differ in nothing but trailing slashes. -/
theorem shortName_eq_iff {longs : List Text} {p q : Text} (hp : p ∈ longs) (hq : q ∈ longs) :
    shortName longs p = shortName longs q ↔ join (split p) = join (split q) := by
  have hp' : split p ∈ longs.map split := List.mem_map_of_mem hp
  have hq' : split q ∈ longs.map split := List.mem_map_of_mem hq
  -- A path of slashes only has no pieces, and then nothing is dropped
  have hnone : ∀ {r : Text}, split r ∈ longs.map split → split r = [] →
      (properLength (longs.map split)).toNat = 0 := by
    intro r hr hnil
    have hle := (properLength_le hr).2
    rw [hnil] at hle
    rw [Int.toNat_eq_zero]
    exact hle.trans (by decide)
  have hsome : ∀ {r : Text}, split r ∈ longs.map split → split r ≠ [] →
      (split r).drop (properLength (longs.map split)).toNat ≠ [] := by
    intro r hr hne
    have hle := (properLength_le hr).2
    have hpos := List.length_pos_iff.mpr hne
    rw [Ne, List.drop_eq_nil_iff]
    omega
  have hfree : ∀ {r : Text} (n : ℕ), ∀ piece ∈ (split r).drop n, '/' ∉ piece :=
    fun n piece hpiece => notMem_of_mem_split (List.mem_of_mem_drop hpiece)
  unfold shortName
  by_cases hpnil : split p = []
  · rw [hnone hp' hpnil, List.drop_zero, List.drop_zero]
  · by_cases hqnil : split q = []
    · rw [hnone hq' hqnil, List.drop_zero, List.drop_zero]
    · constructor
      · intro heq
        have hdrop := join_inj (hfree _) (hfree _) (hsome hp' hpnil) (hsome hq' hqnil) heq
        have htake := (take_properLength hp').trans (take_properLength hq').symm
        rw [← List.take_append_drop (properLength (longs.map split)).toNat (split p), htake,
          hdrop, List.take_append_drop]
      · intro heq
        have hsplit : split p = split q :=
          join_inj (fun _ => notMem_of_mem_split) (fun _ => notMem_of_mem_split) hpnil hqnil heq
        rw [hsplit]

/-! ## The names that are looked up -/

theorem lookup_insertPairs (pairs : List (Item × Text)) (m : Assoc Item Text) (key : Item) :
    (insertPairs pairs m).lookup key = (lastValue pairs key).or (m.lookup key) := by
  induction pairs using List.reverseRecOn with
  | nil => rfl
  | append_singleton pairs p ih =>
    have hstep : insertPairs (pairs ++ [p]) m = (insertPairs pairs m).insert p.1 p.2 := by
      unfold insertPairs
      rw [List.foldl_append]
      rfl
    rw [hstep, Assoc.lookup_insert_eq_ite, lastValue_concat, ih]
    by_cases heq : p.1 = key
    · rw [if_pos heq, if_pos heq.symm, Option.some_or]
    · rw [if_neg heq, if_neg (Ne.symm heq)]

/-- The name that the entries of a sequence give a path. -/
def explicitName (items : List Item) (remote : Text) : Option Text :=
  lastValue (entries items) remote

end Jepsen.Db
