/-
# Uploading through a temporary file

To upload files as another user, `upload!` copies each of them to a temporary file,
which it gives to that user and moves to the destination. If something fails, the
directory for temporary files is created, and everything is done again. A file
that is moved to a directory keeps its name, which is a random one here.
-/

import Jepsen.Library.LastValue

namespace Jepsen.Control.Scp

open Jepsen.Library

universe u v w

/-! ## The remote side -/

/-- A file. -/
structure File (Contents : Type v) (User : Type w) where
  contents : Contents
  owner : User

/-- What a name in a directory stands for. -/
inductive Entry (Contents : Type v) (User : Type w)
  | file (f : File Contents User)
  | subdirectory

/-- What there is at the destination. -/
inductive Dest (Name : Type u) (Contents : Type v) (User : Type w)
  | absent
  | file (f : File Contents User)
  | directory (entries : Name → Option (Entry Contents User))

/-- The remote side. -/
structure Host (Name : Type u) (Contents : Type v) (User : Type w) where
  dest : Dest Name Contents User
  /-- The files in `tmp-dir`. -/
  tmpFiles : Name → Option (File Contents User)
  /-- Whether `tmp-dir` is there and we can write to it. -/
  tmpWritable : Bool

/-- A local file. -/
structure Src (Name : Type u) (Contents : Type v) where
  name : Name
  contents : Contents

section

variable {Name : Type u} {Contents : Type v} {User : Type w}

/-- A command ends on the remote side, and may have a nonzero exit status. -/
abbrev Result (Name : Type u) (Contents : Type v) (User : Type w) :=
  Except (Host Name Contents User) (Host Name Contents User)

/-- The remote side after a command. -/
def Result.host : Result Name Contents User → Host Name Contents User
  | .ok host => host
  | .error host => host

/-- The owner of a file stays the same when it is written to. -/
def overwrite (old : Option (File Contents User)) (contents : Contents) (user : User) :
    File Contents User where
  contents := contents
  owner := (old.map File.owner).getD user

variable [DecidableEq Name]

/-! ## Copying to the destination -/

/-- `scp` of a file to a directory fails where there is a subdirectory of its name. -/
def copyInto (user : User) (entries : Name → Option (Entry Contents User))
    (src : Src Name Contents) : Name → Option (Entry Contents User) :=
  match entries src.name with
  | none => Function.update entries src.name (some (.file (overwrite none src.contents user)))
  | some (.file f) =>
    Function.update entries src.name (some (.file (overwrite (some f) src.contents user)))
  | some .subdirectory => entries

/-- Whether `scp` can copy a file to a directory. -/
def canCopy (entries : Name → Option (Entry Contents User)) (src : Src Name Contents) : Bool :=
  match entries src.name with
  | some .subdirectory => false
  | _ => true

/-- `scp!` to the destination. -/
def scp (user : User) (srcs : List (Src Name Contents)) (host : Host Name Contents User) :
    Result Name Contents User :=
  match host.dest, srcs with
  | .absent, [src] => .ok { host with dest := .file (overwrite none src.contents user) }
  | .file f, [src] => .ok { host with dest := .file (overwrite (some f) src.contents user) }
  | .directory entries, src :: srcs =>
    let copied := { host with dest := .directory ((src :: srcs).foldl (copyInto user) entries) }
    if (src :: srcs).all (canCopy entries) then .ok copied else .error copied
  | _, _ => .error host

/-! ## Copying to a temporary file -/

/-- `scp!` to a temporary file. -/
def scpTmp (user : User) (tmp : Name) (src : Src Name Contents) (host : Host Name Contents User) :
    Result Name Contents User :=
  if host.tmpWritable then
    .ok { host with
      tmpFiles := Function.update host.tmpFiles tmp
        (some (overwrite (host.tmpFiles tmp) src.contents user)) }
  else
    .error host

/-- `chown` of a temporary file. -/
def chown (sudoUser : User) (tmp : Name) (host : Host Name Contents User) :
    Result Name Contents User :=
  match host.tmpFiles tmp with
  | some f =>
    .ok { host with
      tmpFiles := Function.update host.tmpFiles tmp (some { f with owner := sudoUser }) }
  | none => .error host

/-- `rm -f` of a temporary file. -/
def rmTmp (tmp : Name) (host : Host Name Contents User) : Host Name Contents User :=
  { host with tmpFiles := Function.update host.tmpFiles tmp none }

/-- `mv` of a temporary file to the destination. To a directory, it moves it under its name. -/
def mv (tmp : Name) (host : Host Name Contents User) : Result Name Contents User :=
  match host.tmpFiles tmp with
  | none => .error host
  | some f =>
    match host.dest with
    | .absent => .ok { rmTmp tmp host with dest := .file f }
    | .file _ => .ok { rmTmp tmp host with dest := .file f }
    | .directory entries =>
      match entries tmp with
      | some .subdirectory => .error host
      | _ =>
        .ok { rmTmp tmp host with
          dest := .directory (Function.update entries tmp (some (.file f))) }

/-- Upload a source to a tmpfile and rename. -/
def uploadSrc (user sudoUser : User) (tmp : Name) (src : Src Name Contents)
    (host : Host Name Contents User) : Result Name Contents User :=
  (scpTmp user tmp src host).bind fun host => (chown sudoUser tmp host).bind (mv tmp)

/-- The `doseq` over the sources. -/
def uploadSrcs (user sudoUser : User) (tmp : Name) :
    List (Src Name Contents) → Host Name Contents User → Result Name Contents User
  | [], host => .ok host
  | src :: srcs, host =>
    (uploadSrc user sudoUser tmp src host).bind (uploadSrcs user sudoUser tmp srcs)

/-- `with-tmp-dir`: if something fails, create the directory and try again. -/
def withTmpDir (body : Host Name Contents User → Result Name Contents User)
    (host : Host Name Contents User) : Result Name Contents User :=
  match body host with
  | .ok host => .ok host
  | .error host => body { host with tmpWritable := true }

/-- `with-tmp-file`: the temporary file is removed at the end. -/
def withTmpFile (tmp : Name) (body : Host Name Contents User → Result Name Contents User)
    (host : Host Name Contents User) : Result Name Contents User :=
  match withTmpDir body host with
  | .ok host => .ok (rmTmp tmp host)
  | .error host => .error (rmTmp tmp host)

/-- `upload!`, where the connection has a user. -/
def upload [DecidableEq User] (user : User) (sudoUser : Option User) (tmp : Name)
    (srcs : List (Src Name Contents)) (host : Host Name Contents User) :
    Result Name Contents User :=
  match sudoUser with
  | none => scp user srcs host
  | some sudoUser =>
    if sudoUser = user then scp user srcs host
    else withTmpFile tmp (uploadSrcs user sudoUser tmp srcs) host

/-! ## What is promised -/

/-- What an entry of a directory has in it, if it is a file. -/
def Entry.contents : Entry Contents User → Option Contents
  | .file f => some f.contents
  | .subdirectory => none

/-- The same files, under the same names and with the same contents. -/
def Dest.Same : Dest Name Contents User → Dest Name Contents User → Prop
  | .absent, .absent => True
  | .file f, .file f' => f.contents = f'.contents
  | .directory entries, .directory entries' =>
    ∀ name, (entries name).map Entry.contents = (entries' name).map Entry.contents
  | _, _ => False

/-- The destination is an existing directory, or there is one source. -/
def Fits (srcs : List (Src Name Contents)) (host : Host Name Contents User) : Prop :=
  (∃ entries, host.dest = .directory entries) ∨ ∃ src, srcs = [src]

/-- An upload as another user leaves at the destination what a direct one does, and no temporary
file behind. -/
structure SameUpload [DecidableEq User] (user sudoUser : User) (tmp : Name)
    (srcs : List (Src Name Contents)) (host : Host Name Contents User) : Prop where
  dest : Dest.Same (upload user (some sudoUser) tmp srcs host).host.dest
    (upload user none tmp srcs host).host.dest
  cleanedUp : ∀ name f, (upload user (some sudoUser) tmp srcs host).host.tmpFiles name = some f →
    host.tmpFiles name = some f

/-- The contents of the last source of a name. -/
def lastContents (srcs : List (Src Name Contents)) (name : Name) : Option Contents :=
  lastValue (srcs.map fun src => (src.name, src.contents)) name

/-- What an upload to a directory does is done already: the sources that are not called like the
temporary file are there, and so is the last source under that name. -/
structure InPlace (tmp : Name) (srcs : List (Src Name Contents))
    (entries : Name → Option (Entry Contents User)) : Prop where
  others : ∀ name, name ≠ tmp → ∀ contents, lastContents srcs name = some contents →
    entries name = some .subdirectory ∨ (entries name).map Entry.contents = some (some contents)
  atTmp : ∀ src, srcs.getLast? = some src → entries tmp = some .subdirectory ∨
    lastContents srcs tmp = some src.contents ∨
      lastContents srcs tmp = none ∧ (entries tmp).map Entry.contents = some (some src.contents)

/-! ## Direct copies -/

open scoped Classical in
theorem contents_copyInto (user : User) (entries : Name → Option (Entry Contents User))
    (src : Src Name Contents) (name : Name) :
    (copyInto user entries src name).map Entry.contents =
      if src.name = name ∧ entries name ≠ some .subdirectory then some (some src.contents)
      else (entries name).map Entry.contents := by
  unfold copyInto
  by_cases heq : src.name = name
  · subst heq
    cases hentry : entries src.name with
    | none =>
      rw [if_pos ⟨rfl, by simp⟩]
      simp only [Function.update_self]
      rfl
    | some entry =>
      cases entry with
      | file f =>
        rw [if_pos ⟨rfl, by simp⟩]
        simp only [Function.update_self]
        rfl
      | subdirectory =>
        rw [if_neg (by simp)]
        simp only [hentry]
  · rw [if_neg (fun hand => heq hand.1)]
    have hne : name ≠ src.name := fun hname => heq hname.symm
    cases hentry : entries src.name with
    | none => simp only [Function.update_of_ne hne]
    | some entry =>
      cases entry with
      | file f => simp only [Function.update_of_ne hne]
      | subdirectory => rfl

theorem subdirectory_copyInto (user : User) (entries : Name → Option (Entry Contents User))
    (src : Src Name Contents) (name : Name) :
    copyInto user entries src name = some .subdirectory ↔ entries name = some .subdirectory := by
  unfold copyInto
  by_cases heq : name = src.name
  · subst heq
    cases hentry : entries src.name with
    | none => simp
    | some entry =>
      cases entry with
      | file f => simp
      | subdirectory => simp only [hentry]
  · cases hentry : entries src.name with
    | none => simp only [Function.update_of_ne heq]
    | some entry =>
      cases entry with
      | file f => simp only [Function.update_of_ne heq]
      | subdirectory => rfl

open scoped Classical in
/-- After copies to a directory, a name stands for the last source of that name. -/
theorem contents_foldl_copyInto (user : User) (entries : Name → Option (Entry Contents User))
    (srcs : List (Src Name Contents)) (name : Name) :
    (srcs.foldl (copyInto user) entries name = some .subdirectory ↔
      entries name = some .subdirectory) ∧
    (srcs.foldl (copyInto user) entries name).map Entry.contents =
      if entries name = some .subdirectory then some none
      else
        match lastContents srcs name with
        | some contents => some (some contents)
        | none => (entries name).map Entry.contents := by
  induction srcs using List.reverseRecOn with
  | nil =>
    refine ⟨Iff.rfl, ?_⟩
    split_ifs with hsub
    · rw [List.foldl_nil, hsub]
      rfl
    · rfl
  | append_singleton srcs src ih =>
    obtain ⟨hsub, hcontents⟩ := ih
    have hlast : lastContents (srcs ++ [src]) name =
        if src.name = name then some src.contents else lastContents srcs name := by
      unfold lastContents
      rw [List.map_append, List.map_singleton, lastValue_concat]
    rw [List.foldl_append, List.foldl_cons, List.foldl_nil]
    refine ⟨(subdirectory_copyInto user _ src name).trans hsub, ?_⟩
    rw [contents_copyInto, hcontents, hlast]
    by_cases hentry : entries name = some .subdirectory
    · rw [if_pos hentry, if_pos hentry, if_neg (fun hand => hand.2 (hsub.mpr hentry))]
    · rw [if_neg hentry, if_neg hentry]
      by_cases heq : src.name = name
      · rw [if_pos heq, if_pos ⟨heq, fun hdir => hentry (hsub.mp hdir)⟩]
      · rw [if_neg heq, if_neg (fun hand => heq hand.1)]

theorem scp_directory {host : Host Name Contents User}
    {entries : Name → Option (Entry Contents User)} (hdest : host.dest = .directory entries) (user : User) (srcs : List (Src Name Contents)) :
    (scp user srcs host).host.dest = .directory (srcs.foldl (copyInto user) entries) := by
  unfold scp
  rw [hdest]
  cases srcs with
  | nil => exact hdest
  | cons src srcs =>
    dsimp only
    split_ifs
    · rfl
    · rfl

/-! ## Moves -/

/-- There is a subdirectory where a temporary file would be moved. -/
def Blocked (tmp : Name) (dest : Dest Name Contents User) : Prop :=
  ∃ entries, dest = .directory entries ∧ entries tmp = some .subdirectory

/-- The destination after a temporary file was moved there. -/
def moved (tmp : Name) (f : File Contents User) :
    Dest Name Contents User → Dest Name Contents User
  | .absent => .file f
  | .file _ => .file f
  | .directory entries => .directory (Function.update entries tmp (some (.file f)))

theorem moved_moved (tmp : Name) (f f' : File Contents User) (dest : Dest Name Contents User) :
    moved tmp f' (moved tmp f dest) = moved tmp f' dest := by
  cases dest with
  | absent => rfl
  | file _ => rfl
  | directory entries => simp only [moved, Function.update_idem]

theorem not_blocked_moved (tmp : Name) (f : File Contents User) (dest : Dest Name Contents User) :
    ¬ Blocked tmp (moved tmp f dest) := by
  intro hblocked
  obtain ⟨entries, heq, hsub⟩ := hblocked
  cases dest with
  | absent => cases heq
  | file _ => cases heq
  | directory entries' =>
    cases heq
    rw [Function.update_self] at hsub
    cases hsub

/-- What a source becomes when it is a temporary file. -/
def given (sudoUser : User) (src : Src Name Contents) : File Contents User where
  contents := src.contents
  owner := sudoUser

/-- The remote side with a temporary file. -/
def withTmp (tmp : Name) (f : File Contents User) (host : Host Name Contents User) :
    Host Name Contents User :=
  { host with tmpFiles := Function.update host.tmpFiles tmp (some f) }

theorem mv_of_not_blocked {tmp : Name} {host : Host Name Contents User}
    (hblocked : ¬ Blocked tmp host.dest) (f : File Contents User) :
    mv tmp (withTmp tmp f host) = .ok { rmTmp tmp host with dest := moved tmp f host.dest } := by
  have hrm : rmTmp tmp (withTmp tmp f host) = rmTmp tmp host := by
    unfold rmTmp withTmp
    simp only [Function.update_idem]
  have hdest' : (withTmp tmp f host).dest = host.dest := rfl
  have hfile : (withTmp tmp f host).tmpFiles tmp = some f := Function.update_self _ _ _
  unfold mv moved
  rw [hfile, hrm, hdest']
  cases hdest : host.dest with
  | absent => rfl
  | file _ => rfl
  | directory entries =>
    cases hentry : entries tmp with
    | none => simp only [hentry]
    | some entry =>
      cases entry with
      | file _ => simp only [hentry]
      | subdirectory => exact absurd ⟨entries, hdest, hentry⟩ hblocked

theorem mv_of_blocked {tmp : Name} {host : Host Name Contents User}
    (hblocked : Blocked tmp host.dest) (f : File Contents User) :
    mv tmp (withTmp tmp f host) = .error (withTmp tmp f host) := by
  obtain ⟨entries, hdest, hentry⟩ := hblocked
  have hdest' : (withTmp tmp f host).dest = .directory entries := hdest
  have hfile : (withTmp tmp f host).tmpFiles tmp = some f := Function.update_self _ _ _
  unfold mv
  simp only [hfile, hdest', hentry]

/-- A source is a temporary file of the other user before it is moved. -/
theorem uploadSrc_eq {host : Host Name Contents User} (hwritable : host.tmpWritable = true)
    (user sudoUser : User) (tmp : Name) (src : Src Name Contents) :
    uploadSrc user sudoUser tmp src host = mv tmp (withTmp tmp (given sudoUser src) host) := by
  unfold uploadSrc scpTmp
  rw [if_pos hwritable]
  change (chown sudoUser tmp _).bind (mv tmp) = _
  unfold chown
  simp only [Function.update_self, Function.update_idem]
  rfl

theorem uploadSrc_of_not_writable {host : Host Name Contents User}
    (hwritable : ¬ host.tmpWritable = true) (user sudoUser : User) (tmp : Name)
    (src : Src Name Contents) : uploadSrc user sudoUser tmp src host = .error host := by
  unfold uploadSrc scpTmp
  rw [if_neg hwritable]
  rfl

/-- The destination after all sources were moved there. -/
def movedAll (sudoUser : User) (tmp : Name) (srcs : List (Src Name Contents))
    (dest : Dest Name Contents User) : Dest Name Contents User :=
  match srcs.getLast? with
  | some src => moved tmp (given sudoUser src) dest
  | none => dest

theorem movedAll_cons (sudoUser : User) (tmp : Name) (src : Src Name Contents)
    (srcs : List (Src Name Contents)) (dest : Dest Name Contents User) :
    movedAll sudoUser tmp srcs (moved tmp (given sudoUser src) dest) =
      movedAll sudoUser tmp (src :: srcs) dest := by
  unfold movedAll
  cases srcs with
  | nil => rfl
  | cons src' srcs =>
    rw [List.getLast?_cons_cons]
    cases hlast : (src' :: srcs).getLast? with
    | none => cases List.getLast?_eq_none_iff.mp hlast
    | some last => exact moved_moved tmp _ _ dest

/-- Each source that is moved replaces the one before. -/
theorem uploadSrcs_of_not_blocked (host : Host Name Contents User)
    (hwritable : host.tmpWritable = true) (user sudoUser : User) {tmp : Name}
    (hblocked : ¬ Blocked tmp host.dest) (srcs : List (Src Name Contents)) :
    ∃ host', uploadSrcs user sudoUser tmp srcs host = .ok host' ∧
      rmTmp tmp host' =
        { rmTmp tmp host with dest := movedAll sudoUser tmp srcs host.dest } := by
  induction srcs generalizing host with
  | nil => exact ⟨host, rfl, rfl⟩
  | cons src srcs ih =>
    obtain ⟨host', hrest, heq⟩ := ih
      { rmTmp tmp host with dest := moved tmp (given sudoUser src) host.dest }
      hwritable (not_blocked_moved tmp _ _)
    refine ⟨host', ?_, heq.trans ?_⟩
    · unfold uploadSrcs
      rw [uploadSrc_eq hwritable, mv_of_not_blocked hblocked]
      exact hrest
    · unfold rmTmp
      simp only [Function.update_idem, movedAll_cons]

/-- A source that cannot be moved stays where it is until the temporary file is removed. -/
theorem uploadSrcs_of_blocked (host : Host Name Contents User)
    (hwritable : host.tmpWritable = true)
    (user sudoUser : User) {tmp : Name} (hblocked : Blocked tmp host.dest) (src : Src Name Contents)
    (srcs : List (Src Name Contents)) :
    uploadSrcs user sudoUser tmp (src :: srcs) host =
      .error (withTmp tmp (given sudoUser src) host) := by
  unfold uploadSrcs
  rw [uploadSrc_eq hwritable, mv_of_blocked hblocked]
  rfl

/-! ## Uploads -/

theorem uploadSrcs_of_not_writable {host : Host Name Contents User}
    (hwritable : ¬ host.tmpWritable = true) (user sudoUser : User) (tmp : Name)
    (src : Src Name Contents) (srcs : List (Src Name Contents)) :
    uploadSrcs user sudoUser tmp (src :: srcs) host = .error host := by
  unfold uploadSrcs
  rw [uploadSrc_of_not_writable hwritable]
  rfl

/-- What the remote side is like after an upload, except for whether `tmp-dir` is there. -/
def AfterUpload (tmp : Name) (dest : Dest Name Contents User)
    (before after : Host Name Contents User) : Prop :=
  after.dest = dest ∧ after.tmpFiles = Function.update before.tmpFiles tmp none

theorem host_withTmpFile (tmp : Name)
    (body : Host Name Contents User → Result Name Contents User) (host : Host Name Contents User) :
    (withTmpFile tmp body host).host = rmTmp tmp (withTmpDir body host).host := by
  unfold withTmpFile
  cases withTmpDir body host with
  | ok host' => rfl
  | error host' => rfl

theorem afterUpload_of_not_blocked {tmp : Name} {host : Host Name Contents User}
    (hblocked : ¬ Blocked tmp host.dest) (user sudoUser : User) (srcs : List (Src Name Contents)) :
    AfterUpload tmp (movedAll sudoUser tmp srcs host.dest) host
      (withTmpFile tmp (uploadSrcs user sudoUser tmp srcs) host).host := by
  rw [host_withTmpFile]
  unfold withTmpDir
  by_cases hwritable : host.tmpWritable = true
  · obtain ⟨host', hok, heq⟩ :=
      uploadSrcs_of_not_blocked host hwritable user sudoUser hblocked srcs
    rw [hok]
    change AfterUpload tmp _ host (rmTmp tmp host')
    rw [heq]
    exact ⟨rfl, rfl⟩
  · cases srcs with
    | nil => exact ⟨rfl, rfl⟩
    | cons src srcs =>
      obtain ⟨host', hok, heq⟩ := uploadSrcs_of_not_blocked
        { host with tmpWritable := true } rfl user sudoUser hblocked (src :: srcs)
      rw [uploadSrcs_of_not_writable hwritable]
      change AfterUpload tmp _ host (rmTmp tmp
        (uploadSrcs user sudoUser tmp (src :: srcs) { host with tmpWritable := true }).host)
      rw [hok]
      change AfterUpload tmp _ host (rmTmp tmp host')
      rw [heq]
      exact ⟨rfl, rfl⟩

theorem afterUpload_of_blocked {tmp : Name} {host : Host Name Contents User}
    (hblocked : Blocked tmp host.dest) (user sudoUser : User) (srcs : List (Src Name Contents)) :
    AfterUpload tmp host.dest host
      (withTmpFile tmp (uploadSrcs user sudoUser tmp srcs) host).host := by
  rw [host_withTmpFile]
  unfold withTmpDir
  cases srcs with
  | nil => exact ⟨rfl, rfl⟩
  | cons src srcs =>
    have hretry : ∀ host' : Host Name Contents User, host'.dest = host.dest →
        Function.update host'.tmpFiles tmp none = Function.update host.tmpFiles tmp none →
        AfterUpload tmp host.dest host (rmTmp tmp
          (uploadSrcs user sudoUser tmp (src :: srcs)
            { host' with tmpWritable := true }).host) := by
      intro host' hdest htmp
      have hblocked' : Blocked tmp host'.dest := hdest ▸ hblocked
      rw [uploadSrcs_of_blocked { host' with tmpWritable := true } rfl user sudoUser
        hblocked']
      exact ⟨hdest, (Function.update_idem _ _ _).trans htmp⟩
    by_cases hwritable : host.tmpWritable = true
    · rw [uploadSrcs_of_blocked host hwritable user sudoUser hblocked]
      exact hretry _ rfl (Function.update_idem _ _ _)
    · rw [uploadSrcs_of_not_writable hwritable]
      exact hretry _ rfl rfl

theorem upload_of_ne [DecidableEq User] {user sudoUser : User} (hne : sudoUser ≠ user) (tmp : Name)
    (srcs : List (Src Name Contents)) (host : Host Name Contents User) :
    upload user (some sudoUser) tmp srcs host =
      withTmpFile tmp (uploadSrcs user sudoUser tmp srcs) host :=
  if_neg hne

theorem tmpFiles_upload [DecidableEq User] {user sudoUser : User} (hne : sudoUser ≠ user)
    (tmp : Name) (srcs : List (Src Name Contents)) (host : Host Name Contents User) :
    (upload user (some sudoUser) tmp srcs host).host.tmpFiles =
      Function.update host.tmpFiles tmp none := by
  rw [upload_of_ne hne]
  by_cases hblocked : Blocked tmp host.dest
  · exact (afterUpload_of_blocked hblocked user sudoUser srcs).2
  · exact (afterUpload_of_not_blocked hblocked user sudoUser srcs).2

/-- The temporary file is always removed. -/
theorem cleanedUp_upload [DecidableEq User] {user sudoUser : User} (hne : sudoUser ≠ user)
    (tmp : Name) (srcs : List (Src Name Contents)) (host : Host Name Contents User) (name : Name)
    (f : File Contents User)
    (hfile : (upload user (some sudoUser) tmp srcs host).host.tmpFiles name = some f) :
    host.tmpFiles name = some f := by
  rw [tmpFiles_upload hne] at hfile
  by_cases heq : name = tmp
  · rw [heq, Function.update_self] at hfile
    cases hfile
  · rw [Function.update_of_ne heq] at hfile
    exact hfile

/-! ## Comparing uploads -/

/-- To anything but a directory, both ways of copying one source do the same. -/
theorem same_of_not_directory [DecidableEq User] {user sudoUser : User} (hne : sudoUser ≠ user)
    (tmp : Name) (src : Src Name Contents) {host : Host Name Contents User}
    (hdir : ∀ entries, host.dest ≠ .directory entries) :
    Dest.Same (upload user (some sudoUser) tmp [src] host).host.dest
      (upload user none tmp [src] host).host.dest := by
  have hblocked : ¬ Blocked tmp host.dest := by
    intro hblocked
    obtain ⟨entries, heq, -⟩ := hblocked
    exact hdir entries heq
  rw [upload_of_ne hne, (afterUpload_of_not_blocked hblocked user sudoUser [src]).1]
  change Dest.Same (moved tmp (given sudoUser src) host.dest) (scp user [src] host).host.dest
  unfold scp
  cases hdest : host.dest with
  | absent => exact rfl
  | file f => exact rfl
  | directory entries => exact absurd hdest (hdir entries)

/-- A direct copy leaves an entry as it is if and only if the last source of its name is there. -/
theorem unchanged_iff (user : User) (entries : Name → Option (Entry Contents User))
    (srcs : List (Src Name Contents)) (name : Name) :
    (entries name).map Entry.contents =
        (srcs.foldl (copyInto user) entries name).map Entry.contents ↔
      ∀ contents, lastContents srcs name = some contents →
        entries name = some .subdirectory ∨
          (entries name).map Entry.contents = some (some contents) := by
  rw [(contents_foldl_copyInto user entries srcs name).2]
  by_cases hsub : entries name = some .subdirectory
  · rw [if_pos hsub, hsub]
    exact iff_of_true rfl fun _ _ => .inl rfl
  · rw [if_neg hsub]
    cases hlast : lastContents srcs name with
    | none => exact iff_of_true rfl fun contents hfalse => by cases hfalse
    | some contents =>
      constructor
      · intro heq contents' hsome
        cases hsome
        exact .inr heq
      · exact fun hall => (hall contents rfl).resolve_left hsub

/-- The last source takes the place of the temporary file's name if a direct copy has it there. -/
theorem atTmp_iff (user : User) {entries : Name → Option (Entry Contents User)} {tmp : Name}
    (hsub : entries tmp ≠ some .subdirectory) (srcs : List (Src Name Contents))
    (contents : Contents) :
    some (some contents) = (srcs.foldl (copyInto user) entries tmp).map Entry.contents ↔
      lastContents srcs tmp = some contents ∨
        lastContents srcs tmp = none ∧
          (entries tmp).map Entry.contents = some (some contents) := by
  rw [(contents_foldl_copyInto user entries srcs tmp).2, if_neg hsub]
  cases hlast : lastContents srcs tmp with
  | none =>
    constructor
    · exact fun heq => .inr ⟨rfl, heq.symm⟩
    · intro hor
      cases hor with
      | inl hfalse => cases hfalse
      | inr hand => exact hand.2.symm
  | some contents' =>
    constructor
    · intro heq
      cases heq
      exact .inl rfl
    · intro hor
      cases hor with
      | inl heq =>
        cases heq
        rfl
      | inr hand => cases hand.1

theorem same_directory_iff [DecidableEq User] {user sudoUser : User} (hne : sudoUser ≠ user)
    (tmp : Name) (srcs : List (Src Name Contents)) {host : Host Name Contents User}
    {entries : Name → Option (Entry Contents User)} (hdest : host.dest = .directory entries) :
    Dest.Same (upload user (some sudoUser) tmp srcs host).host.dest
      (upload user none tmp srcs host).host.dest ↔ InPlace tmp srcs entries := by
  have hdirect : (upload user none tmp srcs host).host.dest =
      .directory (srcs.foldl (copyInto user) entries) := scp_directory hdest user srcs
  rw [hdirect, upload_of_ne hne]
  by_cases hsub : entries tmp = some .subdirectory
  · rw [(afterUpload_of_blocked ⟨entries, hdest, hsub⟩ user sudoUser srcs).1, hdest]
    constructor
    · intro hsame
      exact ⟨fun name _ => (unchanged_iff user entries srcs name).mp (hsame name),
        fun _ _ => .inl hsub⟩
    · intro hplace name
      rw [unchanged_iff]
      by_cases heq : name = tmp
      · rw [heq]
        exact fun _ _ => .inl hsub
      · exact hplace.others name heq
  · have hblocked : ¬ Blocked tmp host.dest := by
      rw [hdest]
      intro hblocked
      obtain ⟨entries', heq, hsub'⟩ := hblocked
      cases heq
      exact hsub hsub'
    rw [(afterUpload_of_not_blocked hblocked user sudoUser srcs).1, hdest]
    unfold movedAll
    cases hlast : srcs.getLast? with
    | none =>
      have hnil := List.getLast?_eq_none_iff.mp hlast
      subst hnil
      refine iff_of_true (fun name => rfl) ⟨fun name _ contents hfalse => ?_, fun src hfalse => ?_⟩
      · cases hfalse
      · cases hfalse
    | some last =>
      change (∀ name, _) ↔ _
      constructor
      · intro hsame
        refine ⟨fun name hname => ?_, fun src hsrc => .inr ?_⟩
        · have hunchanged := hsame name
          rw [Function.update_of_ne hname] at hunchanged
          exact (unchanged_iff user entries srcs name).mp hunchanged
        · have htmp := hsame tmp
          rw [Function.update_self] at htmp
          cases Option.some.inj (hlast.symm.trans hsrc)
          exact (atTmp_iff user hsub srcs last.contents).mp htmp
      · intro hplace name
        by_cases heq : name = tmp
        · subst heq
          rw [Function.update_self]
          exact (atTmp_iff user hsub srcs last.contents).mpr
            ((hplace.atTmp last hlast).resolve_left hsub)
        · rw [Function.update_of_ne heq, unchanged_iff]
          exact hplace.others name heq

/-- Where one source or a directory is asked for, an upload as another user is the same as a direct
one if and only if the destination is no directory, or all is in place there. -/
theorem sameUpload_iff [DecidableEq User] {user sudoUser : User} (hne : sudoUser ≠ user)
    (tmp : Name) {srcs : List (Src Name Contents)} {host : Host Name Contents User}
    (hfits : Fits srcs host) :
    SameUpload user sudoUser tmp srcs host ↔
      ∀ entries, host.dest = .directory entries → InPlace tmp srcs entries := by
  constructor
  · intro hsame entries hdest
    exact (same_directory_iff hne tmp srcs hdest).mp hsame.dest
  · intro hplace
    refine ⟨?_, cleanedUp_upload hne tmp srcs host⟩
    by_cases hdir : ∃ entries, host.dest = .directory entries
    · obtain ⟨entries, hdest⟩ := hdir
      exact (same_directory_iff hne tmp srcs hdest).mpr (hplace entries hdest)
    · obtain ⟨src, hsrc⟩ := hfits.resolve_left hdir
      subst hsrc
      exact same_of_not_directory hne tmp src fun entries hdest => hdir ⟨entries, hdest⟩

end

/-- A node without the destination. -/
def newHost : Host ℕ ℕ Bool where
  dest := .absent
  tmpFiles _ := none
  tmpWritable := false

/-- A new file arrives under its own name. -/
theorem newHost_same : SameUpload false true 7 [⟨1, 5⟩] newHost :=
  (sameUpload_iff (by decide) 7 (.inr ⟨⟨1, 5⟩, rfl⟩)).mpr fun entries hdest => by cases hdest

/-- A node where the destination is an empty directory. -/
def emptyDirectory : Host ℕ ℕ Bool where
  dest := .directory fun _ => none
  tmpFiles _ := none
  tmpWritable := true

/-- In a directory, a file arrives under the name of the temporary file. -/
theorem emptyDirectory_not_same : ¬ SameUpload false true 7 [⟨1, 5⟩] emptyDirectory := by
  intro hsame
  have hentry : (none : Option (Option ℕ)) = some (some 5) := hsame.dest 1
  cases hentry

end Jepsen.Control.Scp
