/-
# Changing directories

`cd` binds the directory that commands are run in, and `wrap-cd` prefixes a command
with a `cd` to it. A path that is not absolute is expanded with a slash between the
directory and the path, unless the path, not the directory, ends with one.
-/

import Jepsen.Control.EscapeWords

namespace Jepsen.Control

open Jepsen.Library Jepsen.Library.Shell

/-! ## Expanding paths -/

/-- `(re-find #"^/" path)` -/
def isAbsolute (path : Text) : Bool := decide (path.head? = some '/')

/-- What may stand between `$` and the end of a string. -/
def lineEnds : List Text :=
  [[], ['\n'], ['\r', '\n'], ['\r'], ['\u0085'], ['\u2028'], ['\u2029']]

/-- `(re-find #"/$" path)` -/
def slashAtEnd (path : Text) : Bool := lineEnds.any fun lineEnd => ('/' :: lineEnd).isSuffixOf path

/-- `expand-path`, relative to a directory. -/
def expandPath (dir path : Text) : Text :=
  if isAbsolute path then
    -- Absolute
    path
  else
    -- Relative
    dir ++ (if slashAtEnd path then [] else ['/']) ++ path

/-- The directory within nested forms of `cd`, by default `/`. -/
def nestedDir (paths : List Text) : Text := paths.foldl expandPath ['/']

/-! ## What the shell does -/

/-- The names in a path, whatever slashes repeat or trail. -/
def components (path : Text) : List Text := (path.splitOn '/').filter fun name => name ≠ []

/-- The shell's `cd` -/
def shellCd (dir : List Text) (path : Text) : List Text :=
  if isAbsolute path then components path else dir ++ components path

/-- The directory after the shell's `cd` on each path, from the root. -/
def shellDir (paths : List Text) : List Text := paths.foldl shellCd []

/-- A path is not empty and has no leading tilde. -/
def IsPath (path : Text) : Prop := path ≠ [] ∧ path.head? ≠ some '~'

/-- Nested forms of `cd` follow the shell: the directory is the same, and a shell that reads a
wrapped command runs `cd` with that directory first. -/
structure FollowsShell (options : Options) (paths : List Text) : Prop where
  same : components (nestedDir paths) = shellDir paths
  lands : ∀ cmd, ∃ first, options.Reads first ["cd".toList, nestedDir paths] ∧
    (wrapCd { dir := some (nestedDir paths) } cmd).cmd = first ++ "; ".toList ++ cmd.cmd

/-! ## Names of joined paths -/

theorem components_append_slash (a b : Text) :
    components (a ++ '/' :: b) = components a ++ components b := by
  unfold components
  rw [List.splitOn_append_cons_self, List.filter_append]

theorem components_nil : components [] = [] := rfl

theorem components_of_notMem {name : Text} (hslash : '/' ∉ name) (hne : name ≠ []) :
    components name = [name] := by
  unfold components
  rw [List.splitOn_eq_singleton hslash]
  simp [hne]

/-- What comes before the last name of a path that does not end with a slash. -/
theorem exists_last_name {dir : Text} (hne : dir ≠ []) (hlast : dir.getLast? ≠ some '/') :
    ∃ before name, dir = before ++ name ∧ '/' ∉ name ∧ name ≠ [] ∧
      ∀ path, components (before ++ path) = components before ++ components path := by
  refine ⟨dir.rdropWhile (· ≠ '/'), dir.rtakeWhile (· ≠ '/'), ?_, ?_, ?_, ?_⟩
  · exact (List.rdropWhile_append_rtakeWhile ..).symm
  · intro hslash
    have hkept := List.mem_rtakeWhile_imp hslash
    simp at hkept
  · rw [Ne, List.rtakeWhile_eq_nil_iff]
    intro hend
    have hchar := hend hne
    apply hlast
    rw [List.getLast?_eq_some_getLast hne]
    simpa using hchar
  · intro path
    by_cases hbefore : dir.rdropWhile (· ≠ '/') = []
    · rw [hbefore]
      rfl
    · have hchar := List.rdropWhile_last_not (· ≠ '/') dir hbefore
      have hslash : (dir.rdropWhile (· ≠ '/')).getLast hbefore = '/' := by simpa using hchar
      rw [← List.dropLast_append_getLast hbefore, hslash, List.append_assoc]
      change components (_ ++ '/' :: path) = _
      rw [components_append_slash, components_append_slash, components_nil, List.append_nil]

/-- What comes after the first name of a path that is not absolute. -/
theorem exists_first_name {path : Text} (hne : path ≠ []) (hrelative : isAbsolute path = false) :
    ∃ name later, path = name ++ later ∧ '/' ∉ name ∧ name ≠ [] ∧
      ∀ before, components (before ++ later) = components before ++ components later := by
  refine ⟨path.takeWhile (· ≠ '/'), path.dropWhile (· ≠ '/'), ?_, ?_, ?_, ?_⟩
  · exact List.takeWhile_append_dropWhile.symm
  · intro hslash
    have hkept := List.mem_takeWhile_imp hslash
    simp at hkept
  · cases path with
    | nil => exact absurd rfl hne
    | cons c path =>
      have hc : c ≠ '/' := by simpa [isAbsolute] using hrelative
      simp [hc]
  · intro before
    cases hlater : path.dropWhile (· ≠ '/') with
    | nil => rw [components_nil, List.append_nil, List.append_nil]
    | cons c later =>
      have hhead := List.head?_dropWhile_not (· ≠ '/') path
      rw [hlater] at hhead
      have hc : c = '/' := by simpa using hhead
      subst hc
      have hself := components_append_slash [] later
      rw [components_append_slash]
      rw [List.nil_append, components_nil, List.nil_append] at hself
      rw [hself]

/-- Without a slash between them, two names become one. -/
theorem length_components_append {dir path : Text} (hdir : dir ≠ [])
    (hlast : dir.getLast? ≠ some '/') (hpath : path ≠ []) (hrelative : isAbsolute path = false) :
    (components (dir ++ path)).length + 1 = (components dir ++ components path).length := by
  obtain ⟨before, name, rfl, hname, hnamene, hbefore⟩ := exists_last_name hdir hlast
  obtain ⟨name', later, rfl, hname', hnamene', hlater⟩ := exists_first_name hpath hrelative
  have hmerged : before ++ name ++ (name' ++ later) = before ++ ((name ++ name') ++ later) := by
    simp
  have hslash : '/' ∉ name ++ name' := by
    rw [List.mem_append]
    tauto
  rw [hmerged, hbefore, hlater, components_of_notMem hslash (by simp [hnamene]), hbefore,
    components_of_notMem hname hnamene, hlater, components_of_notMem hname' hnamene']
  simp
  omega

/-! ## The paths that count -/

/-- The last absolute path and those after it. -/
def active (paths : List Text) : List Text :=
  paths.foldl (fun active path => if isAbsolute path then [path] else active ++ [path]) [['/']]

/-- No path that ends with a slash comes right after one that does not. -/
def Joins (paths : List Text) : Prop :=
  paths.IsChain fun dir path => slashAtEnd path = true → dir.getLast? = some '/'

/-- The pipe and the single quote are quoted, if they are there. -/
def Quoted (paths : List Text) : Prop :=
  (∃ path ∈ paths, ∃ c ∈ path, requiresQuotes c = true) ∨
    ∀ path ∈ paths, '|' ∉ path ∧ singleQuote ∉ path

/-- What a directory has of the paths that it comes from. -/
structure Nested (dir : Text) (names : List Text) (paths : List Text) : Prop where
  head : dir.head? = some '/'
  getLast : ∃ path, paths.getLast? = some path ∧ dir.getLast? = path.getLast?
  mem_iff : ∀ c, c ≠ '/' → (c ∈ dir ↔ ∃ path ∈ paths, c ∈ path)
  joined : (components dir = names ∧ Joins paths) ∨
    ((components dir).length < names.length ∧ ¬ Joins paths)

theorem Nested.le {dir : Text} {names paths : List Text} (h : Nested dir names paths) :
    (components dir).length ≤ names.length := by
  cases h.joined with
  | inl hjoined => rw [hjoined.1]
  | inr hapart => exact hapart.1.le

theorem Nested.components_iff {dir : Text} {names paths : List Text} (h : Nested dir names paths) :
    components dir = names ↔ Joins paths := by
  cases h.joined with
  | inl hjoined => exact iff_of_true hjoined.1 hjoined.2
  | inr hapart =>
    apply iff_of_false _ hapart.2
    intro heq
    rw [heq] at hapart
    exact absurd hapart.1 (lt_irrefl _)

theorem joins_concat {paths : List Text} {dir path : Text} (hdir : paths.getLast? = some dir) :
    Joins (paths ++ [path]) ↔
      Joins paths ∧ (slashAtEnd path = true → dir.getLast? = some '/') := by
  unfold Joins
  rw [List.isChain_append, hdir]
  simp

theorem nested_absolute {path : Text} (habsolute : isAbsolute path = true) :
    Nested path (components path) [path] where
  head := of_decide_eq_true habsolute
  getLast := ⟨path, rfl, rfl⟩
  mem_iff := by simp
  joined := .inl ⟨rfl, List.isChain_singleton _⟩

/-- With a slash between them, or at the end of the directory, the names are those of both. -/
theorem components_expandPath {dir path : Text} (hrelative : isAbsolute path = false)
    (hslash : slashAtEnd path = true → dir.getLast? = some '/') :
    components (expandPath dir path) = components dir ++ components path := by
  unfold expandPath
  rw [hrelative, if_neg Bool.false_ne_true]
  cases hend : slashAtEnd path with
  | false =>
    rw [if_neg Bool.false_ne_true, List.append_assoc]
    exact components_append_slash dir path
  | true =>
    have hlast := hslash hend
    obtain ⟨before, rfl⟩ := List.getLast?_eq_some_iff.mp hlast
    rw [if_pos rfl, List.append_nil, List.append_assoc]
    change components (before ++ '/' :: path) = _
    rw [components_append_slash, components_append_slash, components_nil, List.append_nil]

/-- A path that ends with a slash, after a directory that does not, loses a name. -/
theorem length_components_expandPath {dir path : Text} (hdir : dir ≠ []) (hpath : path ≠ [])
    (hrelative : isAbsolute path = false) (hend : slashAtEnd path = true)
    (hlast : dir.getLast? ≠ some '/') :
    (components (expandPath dir path)).length + 1 =
      (components dir ++ components path).length := by
  unfold expandPath
  rw [hrelative, if_neg Bool.false_ne_true, hend, if_pos rfl, List.append_nil]
  exact length_components_append hdir hlast hpath hrelative

theorem Nested.relative {dir path : Text} {names paths : List Text} (h : Nested dir names paths)
    (hpath : path ≠ []) (hrelative : isAbsolute path = false) :
    Nested (expandPath dir path) (names ++ components path) (paths ++ [path]) := by
  obtain ⟨prev, hprev, hlast⟩ := h.getLast
  have hdir : dir ≠ [] := by
    intro hnil
    have hhead := h.head
    rw [hnil] at hhead
    cases hhead
  have hexpand : expandPath dir path = dir ++ (if slashAtEnd path then [] else ['/']) ++ path := by
    unfold expandPath
    rw [hrelative, if_neg Bool.false_ne_true]
  constructor
  · rw [hexpand, List.append_assoc, List.head?_append, h.head]
    rfl
  · refine ⟨path, List.getLast?_concat, ?_⟩
    rw [hexpand]
    exact List.getLast?_append_of_ne_nil _ hpath
  · intro c hc
    have hslash : c ∉ (if slashAtEnd path then [] else ['/'] : Text) := by
      split_ifs
      · exact List.not_mem_nil
      · rw [List.mem_singleton]
        exact hc
    rw [hexpand, List.mem_append, List.mem_append, h.mem_iff c hc]
    simp [hslash, or_and_right, exists_or]
  · rw [joins_concat hprev, ← hlast]
    by_cases hslash : slashAtEnd path = true → dir.getLast? = some '/'
    · rw [components_expandPath hrelative hslash]
      cases h.joined with
      | inl hjoined => exact .inl ⟨by rw [hjoined.1], hjoined.2, hslash⟩
      | inr hapart =>
        refine .inr ⟨?_, fun hjoins => hapart.2 hjoins.1⟩
        rw [List.length_append, List.length_append]
        exact Nat.add_lt_add_right hapart.1 _
    · refine .inr ⟨?_, fun hjoins => hslash hjoins.2⟩
      rw [Classical.not_imp] at hslash
      have hlost := length_components_expandPath hdir hpath hrelative hslash.1 hslash.2
      have hle := h.le
      rw [List.length_append] at hlost ⊢
      omega

theorem nested_nestedDir {paths : List Text} (hpaths : ∀ path ∈ paths, IsPath path) :
    Nested (nestedDir paths) (shellDir paths) (active paths) := by
  induction paths using List.reverseRecOn with
  | nil => exact nested_absolute rfl
  | append_singleton paths path ih =>
    have hnested := ih fun path hpath => hpaths path (List.mem_append_left _ hpath)
    have hpath := (hpaths path (List.mem_append_right _ List.mem_cons_self)).1
    unfold nestedDir shellDir active at hnested ⊢
    rw [List.foldl_concat, List.foldl_concat, List.foldl_concat]
    cases habsolute : isAbsolute path with
    | true =>
      unfold expandPath shellCd
      rw [habsolute, if_pos rfl, if_pos rfl, if_pos rfl]
      exact nested_absolute habsolute
    | false =>
      unfold shellCd
      rw [habsolute, if_neg Bool.false_ne_true, if_neg Bool.false_ne_true]
      exact hnested.relative hpath habsolute

/-! ## The directory of a wrapped command -/

/-- No tilde is expanded in an absolute path. -/
theorem hasTilde_of_isAbsolute {options : Options} {dir : Text} (hhead : dir.head? = some '/') :
    options.hasTilde (dir.map .literal) = false := by
  cases dir with
  | nil => cases hhead
  | cons c dir =>
    cases hhead
    have hassignment : assignment? ((('/' : Char) :: dir).map Piece.literal) = none := rfl
    unfold Options.hasTilde
    rw [hassignment]
    cases options.assignmentTildes <;> rfl

/-- The directory is read as it is. -/
theorem clean_iff_quoted {options : Options} {dir : Text} {names paths : List Text}
    (h : Nested dir names paths) : Clean options dir ↔ Quoted paths := by
  have hne : dir ≠ [] := by
    intro hnil
    have hhead := h.head
    rw [hnil] at hhead
    cases hhead
  have hquotes : (∃ c ∈ dir, requiresQuotes c = true) ↔
      ∃ path ∈ paths, ∃ c ∈ path, requiresQuotes c = true := by
    constructor
    · intro hexists
      obtain ⟨c, hc, hrequires⟩ := hexists
      have hslash : c ≠ '/' := by
        rintro rfl
        exact absurd hrequires (by decide)
      obtain ⟨path, hpath, hc⟩ := (h.mem_iff c hslash).mp hc
      exact ⟨path, hpath, c, hc, hrequires⟩
    · intro hexists
      obtain ⟨path, hpath, c, hc, hrequires⟩ := hexists
      have hslash : c ≠ '/' := by
        rintro rfl
        exact absurd hrequires (by decide)
      exact ⟨c, (h.mem_iff c hslash).mpr ⟨path, hpath, hc⟩, hrequires⟩
  have hplain : ('|' ∉ dir ∧ singleQuote ∉ dir ∧ dir.head? ≠ some '#' ∧
      options.hasTilde (dir.map .literal) = false) ↔
      ∀ path ∈ paths, '|' ∉ path ∧ singleQuote ∉ path := by
    rw [h.mem_iff '|' (by decide), h.mem_iff singleQuote (by decide), h.head]
    simp only [hasTilde_of_isAbsolute h.head, not_exists, not_and, and_true]
    constructor
    · intro hnot path hpath
      exact ⟨hnot.1 path hpath, hnot.2.1 path hpath⟩
    · intro hall
      exact ⟨fun path hpath => (hall path hpath).1, fun path hpath => (hall path hpath).2,
        by decide⟩
  unfold Clean Quoted
  rw [hquotes, hplain]
  simp [hne]

/-- What a wrapped command starts with. -/
theorem wrapCd_cmd (dir : Text) (cmd : Action) :
    (wrapCd { dir := some dir } cmd).cmd =
      textOf ["cd".toList, dir] ++ "; ".toList ++ cmd.cmd := by
  have hcd : escapeString "cd".toList = "cd".toList := escapeString_of_portable (by decide) rfl
  rw [textOf, hcd]
  simp [wrapCd, textAfter]

/-- Nested forms of `cd` follow the shell if and only if, from the last absolute path on, no
path that ends with a slash comes right after one that does not, and pipes and single quotes
are in quotes. -/
theorem followsShell_iff (options : Options) {paths : List Text}
    (hpaths : ∀ path ∈ paths, IsPath path) :
    FollowsShell options paths ↔ Joins (active paths) ∧ Quoted (active paths) := by
  have hnested := nested_nestedDir hpaths
  have hreads : options.Reads (textOf ["cd".toList, nestedDir paths])
      ["cd".toList, nestedDir paths] ↔ Quoted (active paths) := by
    rw [reads_iff, List.forall_mem_cons, List.forall_mem_singleton, clean_iff_quoted hnested]
    exact and_iff_right (clean_of_portable rfl)
  rw [← hnested.components_iff, ← hreads]
  constructor
  · intro h
    obtain ⟨first, hfirst, heq⟩ := h.lands { cmd := [] }
    rw [wrapCd_cmd, List.append_nil, List.append_nil, List.append_cancel_right_eq] at heq
    rw [heq]
    exact ⟨h.same, hfirst⟩
  · intro h
    exact ⟨h.1, fun cmd => ⟨_, h.2, wrapCd_cmd _ cmd⟩⟩

/-- An absolute path that ends with a slash, and relative ones within. -/
theorem trailingSlash_followsShell :
    FollowsShell ⟨true⟩ ["/tmp".toList, "/var/".toList, "lib/".toList, "db".toList] :=
  (followsShell_iff ⟨true⟩ (by unfold IsPath; decide)).mpr
    ⟨by unfold Joins active; decide, .inr (by decide)⟩

/-- Within `/a`, the directory of `b/` is `/ab/`. -/
theorem noSlash_not_followsShell :
    (∀ path ∈ ["/a".toList, "b/".toList], IsPath path) ∧
      ¬ FollowsShell ⟨true⟩ ["/a".toList, "b/".toList] := by
  constructor
  · unfold IsPath
    decide
  · intro h
    exact absurd h.same (by decide)

end Jepsen.Control
