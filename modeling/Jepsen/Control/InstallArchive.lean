/-
# Installing an archive

`install-archive!` gets an archive through a cache of downloads, extracts it in a
temporary directory, and moves what it finds there to the destination. A corrupt
archive is removed from the cache, and then the function calls itself, from a
`catch` within a `try` whose `finally` removes the temporary directory. Which
commands fail, in which attempt and how, is given from outside.
-/

import Jepsen.Control.Escape

namespace Jepsen.Control.Util

open Jepsen.Library.Shell

/-! ## Commands -/

/-- What is thrown. -/
inductive Thrown
  | nonzeroExit (exit : ℕ) (err : Text)
  /-- The archive contained no files. -/
  | assertion
  /-- A local archive is corrupt. -/
  | runtime
  /-- Anything else, such as a lost connection. -/
  | other

/-- The commands of an attempt. -/
inductive Command
  | rmCached | mkdirCache | wget (tries : ℕ)
  | mkdirTmp | rmDest | dirname | mkdirParent
  | unzip | tar | chown | ls | mv
  | rmFile | rmTmpDir
  deriving DecidableEq

/-- What happens outside. -/
structure Env where
  /-- What a command throws in an attempt, if anything. -/
  outcome : ℕ → Command → Option Thrown
  /-- How many files there are at the top of the archive that is extracted in an attempt. -/
  roots : ℕ → ℕ
  /-- Whether commands run as root. -/
  sudoRoot : Bool
  /-- The name that is drawn for a temporary directory beside those that exist. -/
  tmpDir : ℕ → List ℕ → ℕ
  tmpDir_fresh : ∀ i dirs, tmpDir i dirs ∉ dirs

/-- What a URL stands for. -/
inductive Archive
  | remote (zip : Bool)
  /-- A file path on the node. -/
  | file (zip : Bool)

/-- Whether the archive is a zip file. -/
def Archive.zip : Archive → Bool
  | .remote zip => zip
  | .file zip => zip

/-- The command that extracts an archive. -/
def Archive.command (archive : Archive) : Command :=
  match archive.zip with
  | true => .unzip
  | false => .tar

/-- What is recorded of a run. -/
inductive Event
  | downloaded (n : ℕ)
  /-- The extraction of what a download left in the cache. -/
  | extracted (cached : Option ℕ)
  | corrupt
  deriving DecidableEq

/-- The node. -/
structure Node where
  /-- Which download the cached file is from, if there is one. -/
  cached : Option ℕ
  /-- How many downloads there were. -/
  downloads : ℕ
  /-- The temporary directories. -/
  tmpDirs : List ℕ
  /-- Which download the destination is from, if it is there. -/
  dest : Option ℕ
  log : List Event

/-- A run ends on a node, and may throw. -/
abbrev Result := Except (Thrown × Node) Node

/-- The node on which a run ends. -/
def Result.node : Result → Node
  | .ok node => node
  | .error thrown => thrown.2

/-- Remove the cached file. -/
def Node.clear (node : Node) : Node := { node with cached := none }

/-- `wget` writes to the cached file from the start. -/
def Node.download (node : Node) : Node where
  cached := some node.downloads
  downloads := node.downloads + 1
  tmpDirs := node.tmpDirs
  dest := node.dest
  log := node.log ++ [.downloaded node.downloads]

/-- Record an event. -/
def Node.record (e : Event) (node : Node) : Node := { node with log := node.log ++ [e] }

/-- `mkdir` of a temporary directory. -/
def Node.mkdir (dir : ℕ) (node : Node) : Node := { node with tmpDirs := dir :: node.tmpDirs }

/-- Remove a temporary directory, or move it. -/
def Node.rmdir (dir : ℕ) (node : Node) : Node := { node with tmpDirs := node.tmpDirs.erase dir }

/-- Set what the destination is from. -/
def Node.setDest (dest : Option ℕ) (node : Node) : Node := { node with dest := dest }

section

variable (env : Env)

/-- `exec`, with what the command does to the node. -/
def exec (i : ℕ) (command : Command) (effect : Node → Node) (node : Node) : Result :=
  match env.outcome i command with
  | none => .ok (effect node)
  | some e => .error (e, node)

/-! ## Downloads -/

/-- `wget-helper!`, which tries again after network errors. -/
def wgetHelper (i : ℕ) : ℕ → Option Thrown
  | 0 => env.outcome i (.wget 0)
  | tries + 1 =>
    match env.outcome i (.wget (tries + 1)) with
    | some (.nonzeroExit 4 _) => wgetHelper i tries
    | res => res

/-- The download of a file to the cache. -/
def fetch (i : ℕ) (node : Node) : Result :=
  match wgetHelper env i 5 with
  | none => .ok node.download
  | some e => .error (e, node.download)

/-- Clear the cached copy if that is asked for. -/
def clearForced (force : Bool) (i : ℕ) (node : Node) : Result :=
  if force then exec env i .rmCached Node.clear node else .ok node

/-- `cached-wget!` -/
def cachedWget (force : Bool) (i : ℕ) (node : Node) : Result := do
  let node ← clearForced env force i node
  if node.cached.isSome then
    .ok node
  else
    let node ← exec env i .mkdirCache id node
    fetch env i node

/-! ## Attempts -/

/-- Get the file of an archive. -/
def getFile (archive : Archive) (force : Bool) (i : ℕ) (node : Node) : Result :=
  match archive with
  | .remote _ => cachedWget env force i node
  | .file _ => .ok node

/-- The `tmpdir`, and the node where everything is ready for the archive to be extracted. -/
def prepare (archive : Archive) (force : Bool) (i : ℕ) (node : Node) :
    Except (Thrown × Node) (ℕ × Node) := do
  let node ← getFile env archive force i node
  let tmpDir := env.tmpDir i node.tmpDirs
  let node ← exec env i .mkdirTmp (Node.mkdir tmpDir) node
  let node ← exec env i .rmDest (Node.setDest none) node
  let node ← exec env i .dirname id node
  let node ← exec env i .mkdirParent id node
  .ok (tmpDir, node)

/-- Which download an archive is from. -/
def source (archive : Archive) (node : Node) : Option ℕ :=
  match archive with
  | .remote _ => node.cached
  | .file _ => none

/-- Force ownership. -/
def forceOwnership (i : ℕ) (node : Node) : Result :=
  if env.sudoRoot then exec env i .chown id node else .ok node

/-- Move the files at the top of the archive to the destination. -/
def moveRoots (archive : Archive) (i tmpDir : ℕ) (node : Node) : Result :=
  if env.roots i = 0 then
    .error (.assertion, node)
  else if env.roots i = 1 then
    exec env i .mv (Node.setDest (source archive node)) node
  else
    exec env i .mv (fun node => (node.setDest (source archive node)).rmdir tmpDir) node

/-- What is tried: extract the archive and move its contents. -/
def extract (archive : Archive) (i tmpDir : ℕ) (node : Node) : Result := do
  let node := node.record (.extracted (source archive node))
  let node ← exec env i archive.command id node
  let node ← forceOwnership env i node
  let node ← exec env i .ls id node
  moveRoots env archive i tmpDir node

/-- Whether an error says that the archive is corrupt. -/
def isCorrupt : Thrown → Bool
  | .nonzeroExit _ err =>
    decide ("tar: Unexpected EOF".toList <:+: err) ||
      decide ("This does not look like a tar archive".toList <:+: err) ||
        decide ("cannot find zipfile directory".toList <:+: err)
  | .assertion => false
  | .runtime => false
  | .other => false

/-- What is finally done: remove the `tmpdir`. -/
def cleanUp (i tmpDir : ℕ) (result : Result) : Result :=
  match result with
  | .ok node => exec env i .rmTmpDir (Node.rmdir tmpDir) node
  | .error thrown => do
    let node ← exec env i .rmTmpDir (Node.rmdir tmpDir) thrown.2
    .error (thrown.1, node)

/-- `install-archive!` from an attempt on, with so many attempts at most. -/
def installArchive (archive : Archive) (force : Bool) : ℕ → ℕ → Node → Option Result
  | 0, _, _ => none
  | fuel + 1, i, node =>
    match prepare env archive force i node with
    | .error thrown => some (.error thrown)
    | .ok (tmpDir, node) =>
      let tried : Option Result :=
        match extract env archive i tmpDir node with
        | .ok node => some (.ok node)
        | .error (e, node) =>
          if isCorrupt e then
            match archive with
            | .file _ => some (.error (.runtime, node.record .corrupt))
            | .remote _ =>
              match exec env i .rmFile Node.clear (node.record .corrupt) with
              | .error thrown => some (.error thrown)
              -- Retry download
              | .ok node => installArchive archive force fuel (i + 1) node
          else
            some (.error (e, node))
      tried.map (cleanUp env i tmpDir)

end

/-! ## What is promised -/

/-- Whether an event is a download. -/
def Event.isDownload : Event → Bool
  | .downloaded _ => true
  | .extracted _ => false
  | .corrupt => false

/-- The last download of a log. -/
def lastDownload (log : List Event) : Option ℕ :=
  (log.filterMap fun e =>
    match e with
    | .downloaded n => some n
    | .extracted _ => none
    | .corrupt => none).getLast?

/-- There is at most one download after a corrupt one. -/
def RetriedOnce (log : List Event) : Prop :=
  ∀ before after, log = before ++ .corrupt :: after → after.countP Event.isDownload ≤ 1

/-- What is extracted is the last one downloaded. -/
def FromLast (log : List Event) : Prop :=
  ∀ before cached after n, log = before ++ .extracted cached :: after →
    lastDownload before = some n → cached = some n

/-- The installation of a remote archive ends after at most one more download, without leaving
a temporary directory behind. -/
structure Installs (env : Env) (zip force : Bool) (node : Node) (result : Result) : Prop where
  ends : ∃ fuel, installArchive env (.remote zip) force fuel 0 { node with log := [] } = some result
  retriedOnce : RetriedOnce result.node.log
  cleanedUp : result.node.tmpDirs = node.tmpDirs
  fromLast : FromLast result.node.log

end Jepsen.Control.Util
