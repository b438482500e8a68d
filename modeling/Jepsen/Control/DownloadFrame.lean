/-
# When a download leaves the remote side as it is

A source that we can read ourselves is copied as it is. Any other has to be ours to
read once it belongs to the other user: if there can be a hard link to it, it must
belong to that user already, for its owner is changed by way of the link, and if
not, it is up to the mode of its copy.
-/

import Jepsen.Control.ScpDownload

namespace Jepsen.Control.Scp

universe p v w g

set_option linter.unusedSectionVars false

section

variable {Path : Type p} {Contents : Type v} {User : Type w} {Group : Type g}
  [DecidableEq Path] [DecidableEq User] (env : Env Path User Group)

/-! ## The condition -/

/-- A file that has been given to a user. -/
def Inode.givenTo (owner : User) (inode : Inode Contents User Group) :
    Inode Contents User Group :=
  { inode with owner := owner }

/-- By way of a temporary file, a source can be read without another owner. -/
def FineViaTmp (owner : User) (src : Path) (tmpDir : TmpDir) (inode : Inode Contents User Group) :
    Prop :=
  if env.linkable src then
    tmpDir ≠ .closed ∧ inode.owner = owner ∧ env.reads env.user inode = true
  else env.reads env.user ((env.copy inode).givenTo owner) = true

/-- A source is delivered and stays as it is, while `tmp-dir` is in some state. -/
def FineSrc (owner : User) (node : Node Path Contents User Group) (tmpDir : TmpDir)
    (src : Path × Path) : Prop :=
  node.names src.2 = none ∧
    (env.canRead env.user src.1 node = true ∨
      ∀ n, node.names src.1 = some n → FineViaTmp env owner src.1 tmpDir (node.inodes n))

/-- What `tmp-dir` is like after a source. -/
def tmpDirAfter (node : Node Path Contents User Group) (tmpDir : TmpDir) (src : Path × Path) :
    TmpDir :=
  if env.canRead env.user src.1 node then tmpDir else .writable

/-- All sources are delivered and stay as they are. -/
def Fine (owner : User) (node : Node Path Contents User Group) :
    TmpDir → List (Path × Path) → Prop
  | _, [] => True
  | tmpDir, src :: srcs =>
    FineSrc env owner node tmpDir src ∧ Fine owner node (tmpDirAfter env node tmpDir src) srcs

end

section

variable {Path : Type p} {Contents : Type v} {User : Type w} {Group : Type g}
  [DecidableEq Path] [DecidableEq User] {env : Env Path User Group} {owner : User}
  {src tmp : Path} {n : ℕ}

/-! ## Commands -/

theorem canRead_of_names {node : Node Path Contents User Group} (hname : node.names src = some n)
    (user : User) :
    env.canRead user src node = (env.reach user src && env.reads user (node.inodes n)) := by
  unfold Env.canRead
  rw [hname]

theorem contentsAt_of_names {node : Node Path Contents User Group}
    (hname : node.names src = some n) : node.contentsAt src = some (node.inodes n).contents := by
  unfold Node.contentsAt
  rw [hname]
  rfl

/-- What a download by way of a temporary file needs. -/
structure NeedsTmp (env : Env Path User Group) (src tmp : Path) (n : ℕ)
    (node : Node Path Contents User Group) : Prop where
  name : node.names src = some n
  unread : env.canRead env.user src node = false

theorem scpSrc_of_canRead {node : Node Path Contents User Group} (hname : node.names src = some n)
    (hread : env.canRead env.user src node = true) :
    scpSrc env src node = .ok (node.deliver (node.inodes n).contents) := by
  unfold scpSrc
  rw [hname]
  exact if_pos hread

theorem ln_of_linkable {node : Node Path Contents User Group} (hname : node.names src = some n)
    (hlink : env.linkable src = true) (hdir : node.tmpDir ≠ .missing)
    (hfresh : node.names tmp = none) : ln env src tmp node = .ok (node.addName tmp n) := by
  unfold ln
  rw [hname]
  exact if_pos ⟨hlink, hdir, hfresh⟩

theorem ln_error {node : Node Path Contents User Group}
    (hnot : ¬ (env.linkable src = true ∧ node.tmpDir ≠ .missing ∧ node.names tmp = none)) :
    ln env src tmp node = .error node := by
  unfold ln
  cases node.names src with
  | none => rfl
  | some n => exact if_neg hnot

theorem chownTmp_of_names {node : Node Path Contents User Group} (htmp : node.names tmp = some n) :
    chownTmp owner tmp node = .ok (node.write n ((node.inodes n).givenTo owner)) := by
  unfold chownTmp
  rw [htmp]
  rfl

theorem inodes_write (node : Node Path Contents User Group) (inode : Inode Contents User Group) :
    (node.write n inode).inodes n = inode :=
  Function.update_self _ _ _

theorem write_write (node : Node Path Contents User Group)
    (inode inode' : Inode Contents User Group) :
    (node.write n inode).write n inode' = node.write n inode' := by
  unfold Node.write
  simp only [Function.update_idem]

/-- The node where a link was made and given away. -/
def linked (owner : User) (tmp : Path) (n : ℕ) (node : Node Path Contents User Group) :
    Node Path Contents User Group :=
  (node.addName tmp n).write n ((node.inodes n).givenTo owner)

/-- The node where a copy was made and given away. -/
def copied (env : Env Path User Group) (owner : User) (tmp : Path) (n : ℕ)
    (node : Node Path Contents User Group) : Node Path Contents User Group :=
  (node.addName tmp node.next).write node.next ((env.copy (node.inodes n)).givenTo owner)

theorem viaTmp_of_linkable {node : Node Path Contents User Group} (hname : node.names src = some n)
    (hlink : env.linkable src = true) (hdir : node.tmpDir ≠ .missing)
    (hfresh : node.names tmp = none) :
    viaTmp env owner src tmp node = scpFromTmp env tmp (linked owner tmp n node) := by
  unfold viaTmp linkOrCopy
  rw [ln_of_linkable hname hlink hdir hfresh]
  have htmp : (node.addName tmp n).names tmp = some n := Function.update_self _ _ _
  change (chownTmp owner tmp (node.addName tmp n)).bind _ = _
  rw [chownTmp_of_names htmp]
  rfl

theorem viaTmp_of_not_linkable {node : Node Path Contents User Group}
    (hname : node.names src = some n) (hlink : ¬ env.linkable src = true)
    (hdir : node.tmpDir ≠ .missing) (hfresh : node.names tmp = none) :
    viaTmp env owner src tmp node = scpFromTmp env tmp (copied env owner tmp n node) := by
  have hcp : cp env src tmp node =
      .ok ((node.addName tmp node.next).write node.next (env.copy (node.inodes n))) := by
    unfold cp
    rw [hname, hfresh]
    exact if_neg hdir
  unfold viaTmp linkOrCopy
  rw [ln_error (fun hand => hlink hand.1)]
  dsimp only
  rw [hcp]
  have htmp : ((node.addName tmp node.next).write node.next (env.copy (node.inodes n))).names tmp =
      some node.next := Function.update_self _ _ _
  change (chownTmp owner tmp _).bind _ = _
  rw [chownTmp_of_names htmp, inodes_write, write_write]
  rfl

/-- Without the directory for temporary files, nothing is done. -/
theorem viaTmp_of_missing {node : Node Path Contents User Group} (hname : node.names src = some n)
    (hdir : node.tmpDir = .missing) (hfresh : node.names tmp = none) :
    viaTmp env owner src tmp node = .error node := by
  have hcp : cp env src tmp node = .error node := by
    unfold cp
    rw [hname, hfresh]
    exact if_pos hdir
  unfold viaTmp linkOrCopy
  rw [ln_error (fun hand => hand.2.1 hdir)]
  dsimp only
  rw [hcp]
  rfl

/-- A link that is there already cannot be made or written to. -/
theorem viaTmp_of_same {node : Node Path Contents User Group} (hname : node.names src = some n)
    (htmp : node.names tmp = some n) : viaTmp env owner src tmp node = .error node := by
  have hcp : cp env src tmp node = .error node := by
    unfold cp
    rw [hname, htmp]
    exact if_pos rfl
  have hln : ln env src tmp node = .error node := by
    apply ln_error
    intro hand
    rw [htmp] at hand
    cases hand.2.2
  unfold viaTmp linkOrCopy
  rw [hln]
  dsimp only
  rw [hcp]
  rfl

/-- A copy that is there already is written to. -/
theorem viaTmp_of_copy {node : Node Path Contents User Group} {m : ℕ}
    (hname : node.names src = some n) (htmp : node.names tmp = some m) (hne : m ≠ n) :
    viaTmp env owner src tmp node = scpFromTmp env tmp (node.write m
      { node.inodes m with contents := (node.inodes n).contents, owner := owner }) := by
  have hcp : cp env src tmp node =
      .ok (node.write m { node.inodes m with contents := (node.inodes n).contents }) := by
    unfold cp
    rw [hname, htmp]
    exact if_neg hne
  have hln : ln env src tmp node = .error node := by
    apply ln_error
    intro hand
    rw [htmp] at hand
    cases hand.2.2
  unfold viaTmp linkOrCopy
  rw [hln]
  dsimp only
  rw [hcp]
  have htmp' : (node.write m
      { node.inodes m with contents := (node.inodes n).contents }).names tmp = some m := htmp
  change (chownTmp owner tmp _).bind _ = _
  rw [chownTmp_of_names htmp', inodes_write, write_write]
  rfl

theorem scpFromTmp_of_reads {node : Node Path Contents User Group} (htmp : node.names tmp = some n)
    (hdir : node.tmpDir = .writable) (hreads : env.reads env.user (node.inodes n) = true) :
    scpFromTmp env tmp node = .ok (node.deliver (node.inodes n).contents) := by
  unfold scpFromTmp
  rw [htmp]
  exact if_pos ⟨hdir, hreads⟩

theorem scpFromTmp_error {node : Node Path Contents User Group} (htmp : node.names tmp = some n)
    (hnot : ¬ (node.tmpDir = .writable ∧ env.reads env.user (node.inodes n) = true)) :
    scpFromTmp env tmp node = .error node := by
  unfold scpFromTmp
  rw [htmp]
  exact if_neg hnot

/-! ## What always stays -/

/-- Names other than that of the temporary file stay, and so do files of the other user. -/
structure Stays (owner : User) (tmp : Path) (node node' : Node Path Contents User Group) :
    Prop where
  names : ∀ path, path ≠ tmp → node'.names path = node.names path
  next : node.next ≤ node'.next
  owners : ∀ m, m < node.next → (node.inodes m).owner = owner → (node'.inodes m).owner = owner

theorem Stays.refl (node : Node Path Contents User Group) : Stays owner tmp node node :=
  ⟨fun _ _ => rfl, le_rfl, fun _ _ howner => howner⟩

theorem Stays.trans {node node' node'' : Node Path Contents User Group}
    (hfirst : Stays owner tmp node node') (hsecond : Stays owner tmp node' node'') :
    Stays owner tmp node node'' where
  names path hne := (hsecond.names path hne).trans (hfirst.names path hne)
  next := hfirst.next.trans hsecond.next
  owners m hm howner := hsecond.owners m (lt_of_lt_of_le hm hfirst.next) (hfirst.owners m hm howner)

theorem stays_addName (owner : User) (tmp : Path) (m : ℕ) (node : Node Path Contents User Group) :
    Stays owner tmp node (node.addName tmp m) where
  names _ hne := Function.update_of_ne hne _ _
  next := le_max_left _ _
  owners _ _ howner := howner

/-- A file may be written to if it does not lose its owner by that. -/
theorem stays_write (tmp : Path) {m : ℕ} {inode : Inode Contents User Group}
    {node : Node Path Contents User Group}
    (hinode : m < node.next → (node.inodes m).owner = owner → inode.owner = owner) :
    Stays owner tmp node (node.write m inode) where
  names _ _ := rfl
  next := le_rfl
  owners k hk howner := by
    change (Function.update node.inodes m inode k).owner = owner
    by_cases heq : k = m
    · subst heq
      rw [Function.update_self]
      exact hinode hk howner
    · rw [Function.update_of_ne heq]
      exact howner

theorem stays_create (owner : User) (tmp : Path) (inode : Inode Contents User Group)
    (node : Node Path Contents User Group) :
    Stays owner tmp node ((node.addName tmp node.next).write node.next inode) where
  names _ hne := Function.update_of_ne hne _ _
  next := le_max_left _ _
  owners m hm howner := by
    change (Function.update node.inodes node.next inode m).owner = owner
    rw [Function.update_of_ne (Nat.ne_of_lt hm)]
    exact howner

theorem stays_scpSrc (tmp : Path) (node : Node Path Contents User Group) :
    Stays owner tmp node (scpSrc env src node).node := by
  unfold scpSrc
  cases node.names src with
  | none => exact .refl node
  | some n =>
    dsimp only
    split_ifs
    · exact ⟨fun _ _ => rfl, le_rfl, fun _ _ howner => howner⟩
    · exact .refl node

theorem stays_linkOrCopy (env : Env Path User Group) (owner : User) (src tmp : Path)
    (node : Node Path Contents User Group) :
    Stays owner tmp node (linkOrCopy env src tmp node).node := by
  unfold linkOrCopy
  cases hname : node.names src with
  | none =>
    unfold ln cp
    simp only [hname]
    exact .refl node
  | some n =>
    by_cases hlink : env.linkable src = true ∧ node.tmpDir ≠ .missing ∧ node.names tmp = none
    · rw [ln_of_linkable hname hlink.1 hlink.2.1 hlink.2.2]
      exact stays_addName owner tmp n node
    · rw [ln_error hlink]
      unfold cp
      simp only [hname]
      cases htmp : node.names tmp with
      | some m =>
        dsimp only
        split_ifs
        · exact .refl node
        · exact stays_write tmp fun _ howner => howner
      | none =>
        dsimp only
        split_ifs
        · exact .refl node
        · exact stays_create owner tmp _ node

theorem stays_viaTmp (env : Env Path User Group) (owner : User) (src tmp : Path)
    (node : Node Path Contents User Group) :
    Stays owner tmp node (viaTmp env owner src tmp node).node := by
  have hcopy := stays_linkOrCopy env owner src tmp node
  unfold viaTmp
  cases hresult : linkOrCopy env src tmp node with
  | error node' =>
    rw [hresult] at hcopy
    exact hcopy
  | ok node' =>
    rw [hresult] at hcopy
    refine hcopy.trans ?_
    change Stays owner tmp node'
      (Outcome.node ((chownTmp owner tmp node').bind (scpFromTmp env tmp)))
    cases htmp : node'.names tmp with
    | none =>
      unfold chownTmp
      rw [htmp]
      exact .refl node'
    | some m =>
      rw [chownTmp_of_names htmp]
      have hwrite : Stays owner tmp node' (node'.write m ((node'.inodes m).givenTo owner)) :=
        stays_write tmp fun _ _ => rfl
      refine hwrite.trans ?_
      change Stays owner tmp _ (scpFromTmp env tmp _).node
      unfold scpFromTmp
      cases (node'.write m ((node'.inodes m).givenTo owner)).names tmp with
      | none => exact .refl _
      | some k =>
        dsimp only
        split_ifs
        · exact ⟨fun _ _ => rfl, le_rfl, fun _ _ howner => howner⟩
        · exact .refl _

theorem stays_downloadSrc (env : Env Path User Group) (owner : User) (src tmp : Path)
    (node : Node Path Contents User Group) :
    Stays owner tmp node (downloadSrc env owner src tmp node).node := by
  unfold downloadSrc
  split_ifs
  · exact stays_scpSrc tmp node
  · exact stays_viaTmp env owner src tmp node

/-- The node before the temporary file is removed at the end. -/
theorem downloadWithTmp_node (env : Env Path User Group) (owner : User) (src tmp : Path)
    (node : Node Path Contents User Group) :
    ∃ node', Stays owner tmp node node' ∧
      (downloadWithTmp env owner src tmp node).node = node'.removeName tmp := by
  have hfirst := stays_downloadSrc env owner src tmp node
  unfold downloadWithTmp
  cases hresult : downloadSrc env owner src tmp node with
  | ok node' =>
    rw [hresult] at hfirst
    exact ⟨node', hfirst, rfl⟩
  | error node' =>
    rw [hresult] at hfirst
    have hopen : Stays owner tmp node' node'.openTmpDir :=
      ⟨fun _ _ => rfl, le_rfl, fun _ _ howner => howner⟩
    have hsecond := stays_downloadSrc env owner src tmp node'.openTmpDir
    have hall := (hfirst.trans hopen).trans hsecond
    cases hretry : downloadSrc env owner src tmp node'.openTmpDir with
    | ok node'' =>
      rw [hretry] at hall
      simp only [hretry]
      exact ⟨node'', hall, rfl⟩
    | error node'' =>
      rw [hretry] at hall
      simp only [hretry]
      exact ⟨node'', hall, rfl⟩

/-- What is missing stays missing, and what belongs to the other user stays theirs. -/
structure Persists (owner : User) (node node' : Node Path Contents User Group) : Prop where
  names : ∀ path, node.names path = none → node'.names path = none
  next : node.next ≤ node'.next
  owners : ∀ m, m < node.next → (node.inodes m).owner = owner → (node'.inodes m).owner = owner

theorem persists_downloadWithTmp (env : Env Path User Group) (owner : User) (src tmp : Path)
    (node : Node Path Contents User Group) :
    Persists owner node (downloadWithTmp env owner src tmp node).node := by
  obtain ⟨node', hstays, heq⟩ := downloadWithTmp_node env owner src tmp node
  rw [heq]
  refine ⟨fun path hpath => ?_, hstays.next, hstays.owners⟩
  change Function.update node'.names tmp none path = none
  by_cases hne : path = tmp
  · rw [hne, Function.update_self]
  · rw [Function.update_of_ne hne, hstays.names path hne, hpath]

theorem persists_downloadEach (env : Env Path User Group) (owner : User) (srcs : List (Path × Path))
    (node : Node Path Contents User Group) :
    Persists owner node (downloadEach env owner srcs node).node := by
  induction srcs generalizing node with
  | nil => exact ⟨fun _ hpath => hpath, le_rfl, fun _ _ howner => howner⟩
  | cons src srcs ih =>
    have hfirst := persists_downloadWithTmp env owner src.1 src.2 node
    unfold downloadEach
    cases hresult : downloadWithTmp env owner src.1 src.2 node with
    | error node' =>
      rw [hresult] at hfirst
      exact hfirst
    | ok node' =>
      rw [hresult] at hfirst
      have hrest := ih node'
      exact ⟨fun path hpath => hrest.names path (hfirst.names path hpath),
        hfirst.next.trans hrest.next, fun m hm howner =>
          hrest.owners m (lt_of_lt_of_le hm hfirst.next) (hfirst.owners m hm howner)⟩

/-! ## A source that we cannot read -/

/-- A source that needs a temporary file, which is not there yet. -/
structure Needs (env : Env Path User Group) (src tmp : Path) (n : ℕ)
    (node : Node Path Contents User Group) : Prop where
  name : node.names src = some n
  unread : ¬ env.canRead env.user src node = true
  fresh : node.names tmp = none

theorem Needs.ne {node : Node Path Contents User Group} (hneeds : Needs env src tmp n node) :
    src ≠ tmp := by
  intro heq
  have hname := hneeds.name
  rw [heq, hneeds.fresh] at hname
  cases hname

theorem Needs.open {node : Node Path Contents User Group} (hneeds : Needs env src tmp n node) :
    Needs env src tmp n node.openTmpDir :=
  ⟨hneeds.name, hneeds.unread, hneeds.fresh⟩

theorem downloadSrc_of_unread {node : Node Path Contents User Group}
    (hunread : ¬ env.canRead env.user src node = true) :
    downloadSrc env owner src tmp node = viaTmp env owner src tmp node :=
  if_neg hunread

/-- With the same inode, a source stays one that we cannot read. -/
theorem unread_of_inode {node node' : Node Path Contents User Group}
    (hneeds : Needs env src tmp n node) (hname : node'.names src = some n)
    (hinode : node'.inodes n = node.inodes n) :
    ¬ env.canRead env.user src node' = true := by
  rw [canRead_of_names hname, hinode, ← canRead_of_names hneeds.name]
  exact hneeds.unread

theorem inode_linked (owner : User) (tmp : Path) (n : ℕ) (node : Node Path Contents User Group) :
    (linked owner tmp n node).inodes n = (node.inodes n).givenTo owner :=
  Function.update_self _ _ _

theorem names_linked_tmp (owner : User) (tmp : Path) (n : ℕ)
    (node : Node Path Contents User Group) :
    (linked owner tmp n node).names tmp = some n :=
  Function.update_self _ _ _

theorem givenTo_of_owner {inode : Inode Contents User Group} (howner : inode.owner = owner) :
    inode.givenTo owner = inode := by
  unfold Inode.givenTo
  rw [← howner]

theorem inode_copied (env : Env Path User Group) (owner : User) (tmp : Path) (n : ℕ)
    (node : Node Path Contents User Group) :
    (copied env owner tmp n node).inodes node.next =
      (env.copy (node.inodes n)).givenTo owner :=
  Function.update_self _ _ _

theorem inode_copied_of_lt (env : Env Path User Group) (owner : User) (tmp : Path) (n : ℕ)
    {node : Node Path Contents User Group} {m : ℕ} (hm : m < node.next) :
    (copied env owner tmp n node).inodes m = node.inodes m :=
  Function.update_of_ne (Nat.ne_of_lt hm) _ _

theorem names_copied_tmp (env : Env Path User Group) (owner : User) (tmp : Path) (n : ℕ)
    (node : Node Path Contents User Group) :
    (copied env owner tmp n node).names tmp = some node.next :=
  Function.update_self _ _ _

theorem names_copied_openTmpDir (env : Env Path User Group) (owner : User) (tmp : Path) (n : ℕ)
    (node : Node Path Contents User Group) :
    (copied env owner tmp n node).openTmpDir.names tmp = some node.next :=
  Function.update_self _ _ _

/-- A link to a source of another owner gives the source away. -/
theorem owner_downloadSrc_of_linkable (owner : User) {node : Node Path Contents User Group}
    (hneeds : Needs env src tmp n node) (hlink : env.linkable src = true)
    (hdir : node.tmpDir ≠ .missing) :
    ((downloadSrc env owner src tmp node).node.inodes n).owner = owner ∧
      n < (downloadSrc env owner src tmp node).node.next := by
  rw [downloadSrc_of_unread hneeds.unread, viaTmp_of_linkable hneeds.name hlink hdir hneeds.fresh]
  have howner : ((linked owner tmp n node).inodes n).owner = owner := by
    rw [inode_linked]
    rfl
  have hnext : n < (linked owner tmp n node).next :=
    lt_of_lt_of_le (node.names_lt src n hneeds.name) (le_max_left _ _)
  unfold scpFromTmp
  rw [names_linked_tmp]
  dsimp only
  split_ifs
  · exact ⟨howner, hnext⟩
  · exact ⟨howner, hnext⟩

/-- Whatever comes of it, the source has been given away. -/
theorem owner_of_linkable (owner : User) {node : Node Path Contents User Group}
    (hneeds : Needs env src tmp n node) (hlink : env.linkable src = true) :
    ((downloadWithTmp env owner src tmp node).node.inodes n).owner = owner := by
  unfold downloadWithTmp
  by_cases hdir : node.tmpDir = .missing
  · have hfirst : downloadSrc env owner src tmp node = .error node := by
      rw [downloadSrc_of_unread hneeds.unread, viaTmp_of_missing hneeds.name hdir hneeds.fresh]
    have hopen := owner_downloadSrc_of_linkable owner hneeds.open hlink
      (fun hfalse => TmpDir.noConfusion hfalse)
    rw [hfirst]
    dsimp only
    cases hretry : downloadSrc env owner src tmp node.openTmpDir with
    | ok node' =>
      rw [hretry] at hopen
      exact hopen.1
    | error node' =>
      rw [hretry] at hopen
      exact hopen.1
  · have hfirst := owner_downloadSrc_of_linkable owner hneeds hlink hdir
    cases hresult : downloadSrc env owner src tmp node with
    | ok node' =>
      rw [hresult] at hfirst
      exact hfirst.1
    | error node' =>
      rw [hresult] at hfirst
      have hretry := (stays_downloadSrc env owner src tmp node'.openTmpDir).owners n
        hfirst.2 hfirst.1
      dsimp only
      cases hsecond : downloadSrc env owner src tmp node'.openTmpDir with
      | ok node'' =>
        rw [hsecond] at hretry
        exact hretry
      | error node'' =>
        rw [hsecond] at hretry
        exact hretry

/-- The same file as before, but for the temporary one. -/
structure Left (before after : Node Path Contents User Group) (tmpDir : TmpDir)
    (delivered : List Contents) : Prop where
  names : after.names = before.names
  inodes : ∀ m, m < before.next → after.inodes m = before.inodes m
  next : before.next ≤ after.next
  tmpDir : after.tmpDir = tmpDir
  delivered : after.delivered = before.delivered ++ delivered

/-! ### Links -/

theorem downloadSrc_of_link {node : Node Path Contents User Group}
    (hneeds : Needs env src tmp n node)
    (hlink : env.linkable src = true) (hdir : node.tmpDir ≠ .missing) :
    downloadSrc env owner src tmp node = scpFromTmp env tmp (linked owner tmp n node) := by
  rw [downloadSrc_of_unread hneeds.unread, viaTmp_of_linkable hneeds.name hlink hdir hneeds.fresh]

theorem downloadSrc_of_missing {node : Node Path Contents User Group}
    (hneeds : Needs env src tmp n node) (hdir : node.tmpDir = .missing) :
    downloadSrc env owner src tmp node = .error node := by
  rw [downloadSrc_of_unread hneeds.unread, viaTmp_of_missing hneeds.name hdir hneeds.fresh]

/-- A link that could not be read is in the way of the second try. -/
theorem downloadSrc_linked {node : Node Path Contents User Group}
    (hneeds : Needs env src tmp n node)
    (howner : (node.inodes n).owner = owner) :
    downloadSrc env owner src tmp (linked owner tmp n node).openTmpDir =
      .error (linked owner tmp n node).openTmpDir := by
  have hname : (linked owner tmp n node).openTmpDir.names src = some n :=
    (Function.update_of_ne hneeds.ne _ _).trans hneeds.name
  have hinode : (linked owner tmp n node).openTmpDir.inodes n = node.inodes n :=
    (inode_linked owner tmp n node).trans (givenTo_of_owner howner)
  rw [downloadSrc_of_unread (unread_of_inode hneeds hname hinode),
    viaTmp_of_same hname (names_linked_tmp owner tmp n node)]

/-- A link to a file of the same owner leaves it as it is. -/
theorem inode_linked_of_owner (tmp : Path) {node : Node Path Contents User Group}
    (howner : (node.inodes n).owner = owner) :
    (linked owner tmp n node).inodes n = node.inodes n :=
  (inode_linked owner tmp n node).trans (givenTo_of_owner howner)

/-! ### Copies -/

theorem downloadSrc_of_copy {node : Node Path Contents User Group}
    (hneeds : Needs env src tmp n node)
    (hlink : ¬ env.linkable src = true) (hdir : node.tmpDir ≠ .missing) :
    downloadSrc env owner src tmp node = scpFromTmp env tmp (copied env owner tmp n node) := by
  rw [downloadSrc_of_unread hneeds.unread,
    viaTmp_of_not_linkable hneeds.name hlink hdir hneeds.fresh]

/-- A copy that could not be read is made again by the second try. -/
theorem downloadSrc_copied {node : Node Path Contents User Group}
    (hneeds : Needs env src tmp n node) :
    downloadSrc env owner src tmp (copied env owner tmp n node).openTmpDir =
      scpFromTmp env tmp (copied env owner tmp n node).openTmpDir := by
  have hlt := node.names_lt src n hneeds.name
  have hname : (copied env owner tmp n node).openTmpDir.names src = some n :=
    (Function.update_of_ne hneeds.ne _ _).trans hneeds.name
  have hinode : (copied env owner tmp n node).openTmpDir.inodes n = node.inodes n :=
    inode_copied_of_lt env owner tmp n hlt
  have hcopy : (copied env owner tmp n node).openTmpDir.inodes node.next =
      (env.copy (node.inodes n)).givenTo owner := inode_copied env owner tmp n node
  have hsame : (copied env owner tmp n node).openTmpDir.write node.next
      { (copied env owner tmp n node).openTmpDir.inodes node.next with
        contents := ((copied env owner tmp n node).openTmpDir.inodes n).contents
        owner := owner } = (copied env owner tmp n node).openTmpDir := by
    rw [hcopy, hinode]
    change ((node.addName tmp node.next).write node.next _).openTmpDir.write node.next _ = _
    change (((node.addName tmp node.next).write node.next
      ((env.copy (node.inodes n)).givenTo owner)).write node.next _).openTmpDir = _
    rw [write_write]
    rfl
  rw [downloadSrc_of_unread (unread_of_inode hneeds hname hinode),
    viaTmp_of_copy hname (names_copied_openTmpDir env owner tmp n node) (Nat.ne_of_gt hlt), hsame]

/-! ### Both -/

/-- Links and copies can be read only if they can be once they are given away. -/
theorem stuck_of_not_fine {node : Node Path Contents User Group} (hneeds : Needs env src tmp n node)
    (howner : env.linkable src = true → (node.inodes n).owner = owner)
    (hnot : ¬ FineViaTmp env owner src node.tmpDir (node.inodes n)) :
    ∃ node', downloadWithTmp env owner src tmp node = .error node' ∧
      node'.delivered = node.delivered := by
  unfold downloadWithTmp
  unfold FineViaTmp at hnot
  by_cases hlink : env.linkable src = true
  · have hgiven := howner hlink
    rw [if_pos hlink] at hnot
    by_cases hdir : node.tmpDir = .missing
    · have hunread : ¬ env.reads env.user (node.inodes n) = true := by
        intro hreads
        refine hnot ⟨?_, hgiven, hreads⟩
        rw [hdir]
        exact fun hfalse => TmpDir.noConfusion hfalse
      rw [downloadSrc_of_missing hneeds hdir]
      dsimp only
      rw [downloadSrc_of_link hneeds.open hlink fun hfalse => TmpDir.noConfusion hfalse,
        scpFromTmp_error (names_linked_tmp owner tmp n node.openTmpDir)]
      · exact ⟨_, rfl, rfl⟩
      · rw [inode_linked_of_owner tmp (show (node.openTmpDir.inodes n).owner = owner from hgiven)]
        exact fun hand => hunread hand.2
    · rw [downloadSrc_of_link hneeds hlink hdir,
        scpFromTmp_error (names_linked_tmp owner tmp n node)]
      · dsimp only
        rw [downloadSrc_linked hneeds hgiven]
        exact ⟨_, rfl, rfl⟩
      · rw [inode_linked_of_owner tmp hgiven]
        intro hand
        refine hnot ⟨?_, hgiven, hand.2⟩
        have hwritable : node.tmpDir = .writable := hand.1
        rw [hwritable]
        exact fun hfalse => TmpDir.noConfusion hfalse
  · rw [if_neg hlink] at hnot
    by_cases hdir : node.tmpDir = .missing
    · rw [downloadSrc_of_missing hneeds hdir]
      dsimp only
      rw [downloadSrc_of_copy hneeds.open hlink fun hfalse => TmpDir.noConfusion hfalse,
        scpFromTmp_error (names_copied_tmp env owner tmp n node.openTmpDir)]
      · exact ⟨_, rfl, rfl⟩
      · rw [inode_copied]
        exact fun hand => hnot hand.2
    · rw [downloadSrc_of_copy hneeds hlink hdir,
        scpFromTmp_error (names_copied_tmp env owner tmp n node)]
      · dsimp only
        rw [downloadSrc_copied hneeds,
          scpFromTmp_error (names_copied_openTmpDir env owner tmp n node)]
        · exact ⟨_, rfl, rfl⟩
        · intro hand
          have hreads := hand.2
          have hcopy := inode_copied env owner tmp n node
          change env.reads env.user ((copied env owner tmp n node).inodes node.next) =
            true at hreads
          rw [hcopy] at hreads
          exact hnot hreads
      · rw [inode_copied]
        exact fun hand => hnot hand.2

theorem left_linked {node : Node Path Contents User Group} (hneeds : Needs env src tmp n node)
    (howner : (node.inodes n).owner = owner) :
    Left node (((linked owner tmp n node).deliver ((linked owner tmp n node).inodes n).contents)
      |>.removeName tmp) node.tmpDir [(node.inodes n).contents] where
  names := by
    change Function.update (Function.update node.names tmp (some n)) tmp none = node.names
    rw [Function.update_idem, ← hneeds.fresh, Function.update_eq_self]
  inodes m _ := by
    change Function.update node.inodes n ((node.inodes n).givenTo owner) m = node.inodes m
    rw [givenTo_of_owner howner, Function.update_eq_self]
  next := le_max_left _ _
  tmpDir := rfl
  delivered := by
    rw [inode_linked]
    rfl

theorem left_copied (owner : User) {node : Node Path Contents User Group}
    (hneeds : Needs env src tmp n node)
    (tmpDir : TmpDir) :
    Left node (({ copied env owner tmp n node with tmpDir := tmpDir }.deliver
      ((copied env owner tmp n node).inodes node.next).contents).removeName tmp) tmpDir
      [(node.inodes n).contents] where
  names := by
    change Function.update (Function.update node.names tmp (some node.next)) tmp none = node.names
    rw [Function.update_idem, ← hneeds.fresh, Function.update_eq_self]
  inodes m hm := inode_copied_of_lt env owner tmp n hm
  next := le_max_left _ _
  tmpDir := rfl
  delivered := by
    rw [inode_copied]
    rfl

/-- A source that is fine is delivered, and all is as before. -/
theorem downloadWithTmp_of_fine {node : Node Path Contents User Group}
    (hname : node.names src = some n) (hfine : FineSrc env owner node node.tmpDir (src, tmp)) :
    ∃ node', downloadWithTmp env owner src tmp node = .ok node' ∧
      Left node node' (tmpDirAfter env node node.tmpDir (src, tmp))
        [(node.inodes n).contents] := by
  obtain ⟨hfresh, hor⟩ := hfine
  have hfresh' : node.names tmp = none := hfresh
  unfold downloadWithTmp tmpDirAfter
  dsimp only
  by_cases hread : env.canRead env.user src node = true
  · have hok : downloadSrc env owner src tmp node =
        .ok (node.deliver (node.inodes n).contents) := by
      unfold downloadSrc
      rw [if_pos hread, scpSrc_of_canRead hname hread]
    rw [hok, if_pos hread]
    refine ⟨_, rfl, ?_, fun _ _ => rfl, le_rfl, rfl, rfl⟩
    change Function.update node.names tmp none = node.names
    rw [← hfresh', Function.update_eq_self]
  · have hneeds : Needs env src tmp n node := ⟨hname, hread, hfresh'⟩
    have hvia := hor.resolve_left hread n hname
    rw [if_neg hread]
    unfold FineViaTmp at hvia
    by_cases hlink : env.linkable src = true
    · rw [if_pos hlink] at hvia
      obtain ⟨hclosed, howner, hreads⟩ := hvia
      cases hdir : node.tmpDir with
      | closed => exact absurd hdir hclosed
      | missing =>
        have hinode : (linked owner tmp n node.openTmpDir).inodes n = node.inodes n :=
          inode_linked_of_owner tmp (show (node.openTmpDir.inodes n).owner = owner from howner)
        rw [downloadSrc_of_missing hneeds hdir]
        dsimp only
        rw [downloadSrc_of_link hneeds.open hlink fun hfalse => TmpDir.noConfusion hfalse,
          scpFromTmp_of_reads (names_linked_tmp owner tmp n node.openTmpDir) rfl
            ((congrArg (env.reads env.user) hinode).trans hreads)]
        have hleft := left_linked hneeds.open howner
        exact ⟨_, rfl, hleft.names, hleft.inodes, hleft.next, rfl, hleft.delivered⟩
      | writable =>
        rw [downloadSrc_of_link hneeds hlink (fun hfalse => by rw [hdir] at hfalse; cases hfalse),
          scpFromTmp_of_reads (names_linked_tmp owner tmp n node) hdir
            ((congrArg (env.reads env.user) (inode_linked_of_owner tmp howner)).trans hreads)]
        have hleft := left_linked hneeds howner
        rw [hdir] at hleft
        exact ⟨_, rfl, hleft⟩
    · rw [if_neg hlink] at hvia
      cases hdir : node.tmpDir with
      | closed =>
        rw [downloadSrc_of_copy hneeds hlink (fun hfalse => by rw [hdir] at hfalse; cases hfalse),
          scpFromTmp_error (names_copied_tmp env owner tmp n node)]
        · dsimp only
          rw [downloadSrc_copied hneeds,
            scpFromTmp_of_reads (names_copied_openTmpDir env owner tmp n node) rfl]
          · exact ⟨_, rfl, left_copied owner hneeds .writable⟩
          · change env.reads env.user ((copied env owner tmp n node).inodes node.next) = true
            rw [inode_copied]
            exact hvia
        · intro hand
          have hwritable : node.tmpDir = .writable := hand.1
          rw [hdir] at hwritable
          cases hwritable
      | missing =>
        rw [downloadSrc_of_missing hneeds hdir]
        dsimp only
        rw [downloadSrc_of_copy hneeds.open hlink fun hfalse => TmpDir.noConfusion hfalse,
          scpFromTmp_of_reads (names_copied_tmp env owner tmp n node.openTmpDir) rfl]
        · have hleft := left_copied owner hneeds.open .writable
          exact ⟨_, rfl, hleft.names, hleft.inodes, hleft.next, rfl, hleft.delivered⟩
        · rw [inode_copied]
          exact hvia
      | writable =>
        rw [downloadSrc_of_copy hneeds hlink (fun hfalse => by rw [hdir] at hfalse; cases hfalse),
          scpFromTmp_of_reads (names_copied_tmp env owner tmp n node) hdir]
        · have hleft := left_copied owner hneeds .writable
          exact ⟨_, rfl, hleft.names, hleft.inodes, hleft.next, hdir, hleft.delivered⟩
        · rw [inode_copied]
          exact hvia

/-! ## All sources -/

theorem inode_of_left {node node' : Node Path Contents User Group} {tmpDir : TmpDir}
    {delivered : List Contents} (hleft : Left node node' tmpDir delivered) {path : Path} {m : ℕ}
    (hname : node.names path = some m) : node'.inodes m = node.inodes m :=
  hleft.inodes m (node.names_lt path m hname)

theorem contentsAt_of_left {node node' : Node Path Contents User Group} {tmpDir : TmpDir}
    {delivered : List Contents} (hleft : Left node node' tmpDir delivered) :
    node'.contentsAt = node.contentsAt := by
  funext path
  unfold Node.contentsAt
  rw [hleft.names]
  cases hname : node.names path with
  | none => rfl
  | some m =>
    rw [Option.map_some, Option.map_some, inode_of_left hleft hname]

theorem canRead_of_left {node node' : Node Path Contents User Group} {tmpDir : TmpDir}
    {delivered : List Contents} (hleft : Left node node' tmpDir delivered) (user : User)
    (path : Path) : env.canRead user path node' = env.canRead user path node := by
  unfold Env.canRead
  rw [hleft.names]
  cases hname : node.names path with
  | none => rfl
  | some m =>
    dsimp only
    rw [inode_of_left hleft hname]

theorem fineSrc_of_left {node node' : Node Path Contents User Group} {tmpDir tmpDir' : TmpDir}
    {delivered : List Contents} (hleft : Left node node' tmpDir' delivered) (src : Path × Path) :
    FineSrc env owner node' tmpDir src ↔ FineSrc env owner node tmpDir src := by
  unfold FineSrc
  rw [canRead_of_left hleft, hleft.names]
  refine and_congr_right fun _ => or_congr_right ?_
  constructor
  · intro hall m hname
    rw [← inode_of_left hleft hname]
    exact hall m hname
  · intro hall m hname
    rw [inode_of_left hleft hname]
    exact hall m hname

theorem fine_of_left {node node' : Node Path Contents User Group} {tmpDir tmpDir' : TmpDir}
    {delivered : List Contents} (hleft : Left node node' tmpDir' delivered)
    (srcs : List (Path × Path)) :
    Fine env owner node' tmpDir srcs ↔ Fine env owner node tmpDir srcs := by
  induction srcs generalizing tmpDir with
  | nil => exact Iff.rfl
  | cons src srcs ih =>
    have hafter : tmpDirAfter env node' tmpDir src = tmpDirAfter env node tmpDir src := by
      unfold tmpDirAfter
      rw [canRead_of_left hleft]
    unfold Fine
    rw [fineSrc_of_left hleft, hafter, ih]

/-- What is delivered after the first source is delivered from a node that is the same. -/
theorem delivers_cons_iff {node node' after : Node Path Contents User Group} {tmpDir : TmpDir}
    {contents : Contents} (hleft : Left node node' tmpDir [contents]) {src : Path × Path}
    (hcontents : node.contentsAt src.1 = some contents) (srcs : List (Path × Path)) :
    Delivers (src :: srcs) node after ↔ Delivers srcs node' after := by
  have hdelivered : node.delivered ++ ((src :: srcs).map Prod.fst).filterMap node.contentsAt =
      node'.delivered ++ (srcs.map Prod.fst).filterMap node'.contentsAt := by
    rw [hleft.delivered, contentsAt_of_left hleft, List.map_cons,
      List.filterMap_cons_some hcontents, List.append_assoc, List.singleton_append]
  constructor
  · intro hall
    refine ⟨hall.delivered.trans hdelivered, fun path m hname => ?_, fun path hname => ?_⟩
    · rw [hleft.names] at hname
      rw [inode_of_left hleft hname]
      exact hall.kept path m hname
    · rw [hleft.names] at hname
      exact hall.cleanedUp path hname
  · intro hall
    refine ⟨hall.delivered.trans hdelivered.symm, fun path m hname => ?_, fun path hname => ?_⟩
    · rw [← inode_of_left hleft hname]
      rw [← hleft.names] at hname
      exact hall.kept path m hname
    · rw [← hleft.names] at hname
      exact hall.cleanedUp path hname

/-- What is done for the first source lasts. -/
theorem persists_first (env : Env Path User Group) (owner : User) (src : Path × Path)
    (srcs : List (Path × Path))
    (node : Node Path Contents User Group) :
    Persists owner (downloadWithTmp env owner src.1 src.2 node).node
      (downloadEach env owner (src :: srcs) node).node := by
  change Persists owner _
    (Outcome.node ((downloadWithTmp env owner src.1 src.2 node).bind (downloadEach env owner srcs)))
  cases downloadWithTmp env owner src.1 src.2 node with
  | error node' => exact ⟨fun _ hpath => hpath, le_rfl, fun _ _ howner => howner⟩
  | ok node' => exact persists_downloadEach env owner srcs node'

/-- A source that is not fine is not delivered, or something else has changed. -/
theorem not_delivers_of_not_fine {node : Node Path Contents User Group} {src : Path × Path}
    (hname : node.names src.1 = some n) (hnot : ¬ FineSrc env owner node node.tmpDir src)
    (srcs : List (Path × Path)) :
    ¬ Delivers (src :: srcs) node (downloadEach env owner (src :: srcs) node).node := by
  intro hdelivers
  have hpersists := persists_first env owner src srcs node
  cases hfresh : node.names src.2 with
  | some m =>
    -- The temporary file was there before, and is removed
    obtain ⟨node', -, heq⟩ := downloadWithTmp_node env owner src.1 src.2 node
    have hremoved : (downloadWithTmp env owner src.1 src.2 node).node.names src.2 = none := by
      rw [heq]
      exact Function.update_self _ _ _
    have hkept := (hdelivers.kept src.2 m hfresh).1
    rw [hpersists.names src.2 hremoved] at hkept
    cases hkept
  | none =>
    have hunread : ¬ env.canRead env.user src.1 node = true := fun hread =>
      hnot ⟨hfresh, .inl hread⟩
    have hneeds : Needs env src.1 src.2 n node := ⟨hname, hunread, hfresh⟩
    have hvia : ¬ FineViaTmp env owner src.1 node.tmpDir (node.inodes n) := by
      intro hvia
      refine hnot ⟨hfresh, .inr fun m hm => ?_⟩
      rw [hname] at hm
      cases hm
      exact hvia
    by_cases howner : env.linkable src.1 = true → (node.inodes n).owner = owner
    · obtain ⟨node', herror, hsame⟩ := stuck_of_not_fine hneeds howner hvia
      have hresult : downloadEach env owner (src :: srcs) node = .error node' := by
        change (downloadWithTmp env owner src.1 src.2 node).bind _ = _
        rw [herror]
        rfl
      have hdelivered := hdelivers.delivered
      rw [hresult] at hdelivered
      have hlength := congrArg List.length (hsame.symm.trans hdelivered)
      rw [List.map_cons, List.filterMap_cons_some (contentsAt_of_names hname), List.length_append,
        List.length_cons] at hlength
      omega
    · -- The link has given the source away
      rw [Classical.not_imp] at howner
      have hgiven := owner_of_linkable owner hneeds howner.1
      have hlt := lt_of_lt_of_le (node.names_lt src.1 n hname)
        (persists_downloadWithTmp env owner src.1 src.2 node).next
      have hkept := (hdelivers.kept src.1 n hname).2.2
      rw [hpersists.owners n hlt hgiven] at hkept
      exact howner.2 hkept.symm

theorem downloadEach_iff {node : Node Path Contents User Group} {srcs : List (Path × Path)}
    (hnames : ∀ src ∈ srcs, ∃ n, node.names src.1 = some n) :
    Delivers srcs node (downloadEach env owner srcs node).node ↔
      Fine env owner node node.tmpDir srcs := by
  induction srcs generalizing node with
  | nil =>
    refine iff_of_true ⟨?_, fun path m hname => ⟨hname, rfl, rfl⟩, fun path hname => hname⟩ trivial
    exact (List.append_nil _).symm
  | cons src srcs ih =>
    obtain ⟨n, hname⟩ := hnames src List.mem_cons_self
    by_cases hfine : FineSrc env owner node node.tmpDir src
    · obtain ⟨node', hok, hleft⟩ := downloadWithTmp_of_fine hname hfine
      have hresult : downloadEach env owner (src :: srcs) node =
          downloadEach env owner srcs node' := by
        change (downloadWithTmp env owner src.1 src.2 node).bind _ = _
        rw [hok]
        rfl
      have hnames' : ∀ src ∈ srcs, ∃ n, node'.names src.1 = some n := by
        intro src' hsrc'
        rw [hleft.names]
        exact hnames src' (List.mem_cons_of_mem src hsrc')
      rw [hresult, delivers_cons_iff hleft (contentsAt_of_names hname), ih hnames', hleft.tmpDir,
        fine_of_left hleft]
      exact (and_iff_right hfine).symm
    · exact iff_of_false (not_delivers_of_not_fine hname hfine srcs) fun hall => hfine hall.1

theorem scpAll_delivers {node : Node Path Contents User Group} {srcs : List (Path × Path)}
    (hread : ∀ src ∈ srcs, env.canRead env.user src.1 node = true) :
    Delivers srcs node (scpAll env (srcs.map Prod.fst) node).node := by
  have hall : (srcs.map Prod.fst).filter (fun src => env.canRead env.user src node) =
      srcs.map Prod.fst := by
    rw [List.filter_eq_self]
    intro path hpath
    obtain ⟨src, hsrc, heq⟩ := List.mem_map.mp hpath
    rw [← heq]
    exact hread src hsrc
  unfold scpAll
  rw [hall]
  dsimp only
  split_ifs
  · exact ⟨rfl, fun path m hname => ⟨hname, rfl, rfl⟩, fun path hname => hname⟩
  · exact ⟨rfl, fun path m hname => ⟨hname, rfl, rfl⟩, fun path hname => hname⟩

end

/-- We are user 1, and user 0 is root. -/
def remoteEnv : Env ℕ ℕ Unit where
  user := 1
  root := 0
  rootGroup := ()
  inGroup _ _ := false
  -- The directory of path 8 is not ours
  reach user path := user ≠ 1 ∨ path ≠ 8
  linkable _ := true
  umask mode := mode

/-- A node where user 2 has one file for all to read, at paths 5 and 8. -/
def remoteNode : Node ℕ ℕ ℕ Unit where
  names path := if path = 5 ∨ path = 8 then some 0 else none
  inodes _ := ⟨7, 2, (), ⟨true, true, true⟩⟩
  next := 1
  names_lt path n hname := by
    split_ifs at hname
    cases hname
    exact Nat.one_pos
  tmpDir := .writable
  delivered := []

end Jepsen.Control.Scp
