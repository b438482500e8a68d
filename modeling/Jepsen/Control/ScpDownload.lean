/-
# Downloading through a temporary file

To download files as another user, `download!` asks for each of them whether we can
read it ourselves. If not, it makes a hard link to it, or a copy where there can be
no link, gives that to the other user and downloads it. A link is a name of the same
inode, so the owner of the source changes with it.
-/

import Mathlib

namespace Jepsen.Control.Scp

universe p v w g

/-! ## The remote side -/

/-- Who may read a file. -/
structure Mode where
  owner : Bool
  group : Bool
  other : Bool

/-- What is stored of a file, whatever its names. -/
structure Inode (Contents : Type v) (User : Type w) (Group : Type g) where
  contents : Contents
  owner : User
  group : Group
  mode : Mode

/-- Whether `tmp-dir` is there and we can use it. -/
inductive TmpDir
  | missing | closed | writable
  deriving DecidableEq

/-- The remote side, with the contents that were copied from it. -/
structure Node (Path : Type p) (Contents : Type v) (User : Type w) (Group : Type g) where
  names : Path → Option ℕ
  inodes : ℕ → Inode Contents User Group
  /-- The number of the next inode. -/
  next : ℕ
  names_lt : ∀ path n, names path = some n → n < next
  tmpDir : TmpDir
  delivered : List Contents

/-- What does not change on the remote side. -/
structure Env (Path : Type p) (User : Type w) (Group : Type g) where
  /-- Whom we connect as. -/
  user : User
  root : User
  rootGroup : Group
  inGroup : User → Group → Bool
  /-- Whether a user gets to a path through its directories. -/
  reach : User → Path → Bool
  /-- Whether there can be a hard link to a path in `tmp-dir`. -/
  linkable : Path → Bool
  /-- What the mask of root leaves of a mode. -/
  umask : Mode → Mode

section

variable {Path : Type p} {Contents : Type v} {User : Type w} {Group : Type g}

/-- A command ends on the remote side, and may have a nonzero exit status. -/
abbrev Outcome (Path : Type p) (Contents : Type v) (User : Type w) (Group : Type g) :=
  Except (Node Path Contents User Group) (Node Path Contents User Group)

/-- The remote side after a command. -/
def Outcome.node : Outcome Path Contents User Group → Node Path Contents User Group
  | .ok node => node
  | .error node => node

namespace Node

variable [DecidableEq Path]

/-- Copy contents to our side. -/
def deliver (contents : Contents) (node : Node Path Contents User Group) :
    Node Path Contents User Group :=
  { node with delivered := node.delivered ++ [contents] }

/-- Add a name of an inode. -/
def addName (path : Path) (n : ℕ) (node : Node Path Contents User Group) :
    Node Path Contents User Group where
  names := Function.update node.names path (some n)
  inodes := node.inodes
  next := max node.next (n + 1)
  names_lt path' m hname := by
    by_cases heq : path' = path
    · rw [heq, Function.update_self] at hname
      cases hname
      exact lt_of_lt_of_le (Nat.lt_succ_self n) (le_max_right _ _)
    · rw [Function.update_of_ne heq] at hname
      exact lt_of_lt_of_le (node.names_lt path' m hname) (le_max_left _ _)
  tmpDir := node.tmpDir
  delivered := node.delivered

/-- Remove a name. -/
def removeName (path : Path) (node : Node Path Contents User Group) :
    Node Path Contents User Group where
  names := Function.update node.names path none
  inodes := node.inodes
  next := node.next
  names_lt path' m hname := by
    by_cases heq : path' = path
    · rw [heq, Function.update_self] at hname
      cases hname
    · rw [Function.update_of_ne heq] at hname
      exact node.names_lt path' m hname
  tmpDir := node.tmpDir
  delivered := node.delivered

/-- Write an inode. -/
def write (n : ℕ) (inode : Inode Contents User Group) (node : Node Path Contents User Group) :
    Node Path Contents User Group :=
  { node with inodes := Function.update node.inodes n inode }

/-- `mkdir -p` and `chmod` of `tmp-dir`. -/
def openTmpDir (node : Node Path Contents User Group) : Node Path Contents User Group :=
  { node with tmpDir := .writable }

/-- What is in the file of a path. -/
def contentsAt (node : Node Path Contents User Group) (path : Path) : Option Contents :=
  (node.names path).map fun n => (node.inodes n).contents

end Node

/-! ## Reading -/

variable [DecidableEq User]

/-- Whether a user may read a file. -/
def Env.reads (env : Env Path User Group) (user : User) (inode : Inode Contents User Group) :
    Bool :=
  if user = env.root then true
  else if user = inode.owner then inode.mode.owner
  else if env.inGroup user inode.group then inode.mode.group
  else inode.mode.other

/-- Whether a user can read what is at a path. -/
def Env.canRead (env : Env Path User Group) (user : User) (path : Path)
    (node : Node Path Contents User Group) : Bool :=
  match node.names path with
  | some n => env.reach user path && env.reads user (node.inodes n)
  | none => false

/-! ## Commands -/

section

variable (env : Env Path User Group)

/-- `scp!` of a source that we can read, or not. -/
def scpSrc (src : Path) (node : Node Path Contents User Group) :
    Outcome Path Contents User Group :=
  match node.names src with
  | some n =>
    if env.canRead env.user src node then .ok (node.deliver (node.inodes n).contents)
    else .error node
  | none => .error node

/-- `scp!` of all sources, which goes on after one that we cannot read. -/
def scpAll (srcs : List Path) (node : Node Path Contents User Group) :
    Outcome Path Contents User Group :=
  let readable := srcs.filter fun src => env.canRead env.user src node
  let copied := { node with
    delivered := node.delivered ++ readable.filterMap node.contentsAt }
  if ¬ srcs.isEmpty = true ∧ srcs.all (fun src => env.canRead env.user src node) = true then
    .ok copied
  else .error copied

variable [DecidableEq Path]

/-- `ln -L` to a temporary file. -/
def ln (src tmp : Path) (node : Node Path Contents User Group) :
    Outcome Path Contents User Group :=
  match node.names src with
  | some n =>
    if env.linkable src = true ∧ node.tmpDir ≠ .missing ∧ node.names tmp = none then
      .ok (node.addName tmp n)
    else .error node
  | none => .error node

/-- A copy that root makes. -/
def Env.copy (inode : Inode Contents User Group) : Inode Contents User Group where
  contents := inode.contents
  owner := env.root
  group := env.rootGroup
  mode := env.umask inode.mode

/-- `cp` to a temporary file, which is written to if it is there and is another file. -/
def cp (src tmp : Path) (node : Node Path Contents User Group) :
    Outcome Path Contents User Group :=
  match node.names src with
  | some n =>
    match node.names tmp with
    | some m =>
      if m = n then .error node
      else .ok (node.write m { node.inodes m with contents := (node.inodes n).contents })
    | none =>
      if node.tmpDir = .missing then .error node
      else .ok ((node.addName tmp node.next).write node.next (env.copy (node.inodes n)))
  | none => .error node

/-- `chown` of a temporary file. -/
def chownTmp (owner : User) (tmp : Path) (node : Node Path Contents User Group) :
    Outcome Path Contents User Group :=
  match node.names tmp with
  | some n => .ok (node.write n { node.inodes n with owner := owner })
  | none => .error node

/-- `scp!` of a temporary file. -/
def scpFromTmp (tmp : Path) (node : Node Path Contents User Group) :
    Outcome Path Contents User Group :=
  match node.names tmp with
  | some n =>
    if node.tmpDir = .writable ∧ env.reads env.user (node.inodes n) = true then
      .ok (node.deliver (node.inodes n).contents)
    else .error node
  | none => .error node

/-- A hard link, or a full copy. -/
def linkOrCopy (src tmp : Path) (node : Node Path Contents User Group) :
    Outcome Path Contents User Group :=
  match ln env src tmp node with
  | .ok node => .ok node
  | .error node => cp env src tmp node

/-- The download of a source by way of a temporary file. -/
def viaTmp (owner : User) (src tmp : Path) (node : Node Path Contents User Group) :
    Outcome Path Contents User Group :=
  (linkOrCopy env src tmp node).bind fun node =>
    (chownTmp owner tmp node).bind (scpFromTmp env tmp)

/-- What is tried for a source. -/
def downloadSrc (owner : User) (src tmp : Path) (node : Node Path Contents User Group) :
    Outcome Path Contents User Group :=
  if env.canRead env.user src node then scpSrc env src node
  else viaTmp env owner src tmp node

/-- `with-tmp-dir`, within `with-tmp-file`: if something fails, the directory is created and all
is done again, and the temporary file is removed at the end. -/
def downloadWithTmp (owner : User) (src tmp : Path) (node : Node Path Contents User Group) :
    Outcome Path Contents User Group :=
  match downloadSrc env owner src tmp node with
  | .ok node => .ok (node.removeName tmp)
  | .error node =>
    match downloadSrc env owner src tmp node.openTmpDir with
    | .ok node => .ok (node.removeName tmp)
    | .error node => .error (node.removeName tmp)

/-- The `doseq` over the sources, each with the name that is drawn for its temporary file. -/
def downloadEach (owner : User) :
    List (Path × Path) → Node Path Contents User Group → Outcome Path Contents User Group
  | [], node => .ok node
  | src :: srcs, node => (downloadWithTmp env owner src.1 src.2 node).bind (downloadEach owner srcs)

/-- `download!` -/
def download (sudoUser : Option User) (srcs : List (Path × Path))
    (node : Node Path Contents User Group) : Outcome Path Contents User Group :=
  match sudoUser with
  | none => scpAll env (srcs.map Prod.fst) node
  | some owner =>
    if owner = env.user then scpAll env (srcs.map Prod.fst) node
    else downloadEach env owner srcs node

end

/-! ## What is promised -/

/-- Every source is delivered, every file has its names, contents and owner, and there is no other
file. -/
structure Delivers (srcs : List (Path × Path)) (before after : Node Path Contents User Group) :
    Prop where
  delivered : after.delivered = before.delivered ++ (srcs.map Prod.fst).filterMap before.contentsAt
  kept : ∀ path n, before.names path = some n → after.names path = some n ∧
    (after.inodes n).contents = (before.inodes n).contents ∧
    (after.inodes n).owner = (before.inodes n).owner
  cleanedUp : ∀ path, before.names path = none → after.names path = none

end

end Jepsen.Control.Scp
