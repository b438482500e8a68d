/-
# How often a corrupt archive is downloaded again

Each attempt that finds a remote archive corrupt and removes it leads to another
attempt. So the function tries once more only if the second attempt is no corrupt
one, too, and a temporary directory is left behind where something fails between
`tmp-dir!` and the `try`.
-/

import Jepsen.Control.InstallArchive

namespace Jepsen.Control.Util

section

variable (env : Env) (zip force : Bool) (start : Node)

/-! ## What happens in an attempt -/

/-- The file is in the cache already. -/
def Hits (i : ℕ) : Prop := i = 0 ∧ force = false ∧ start.cached.isSome = true

/-- A download is begun. -/
def Downloads (i : ℕ) : Prop :=
  ¬ Hits force start i ∧ (force = true → env.outcome i .rmCached = none) ∧
    env.outcome i .mkdirCache = none

/-- `cached-wget!` returns. -/
def Fetches (i : ℕ) : Prop :=
  Hits force start i ∨ Downloads env force start i ∧ wgetHelper env i 5 = none

/-- The temporary directory is created. -/
def Makes (i : ℕ) : Prop := Fetches env force start i ∧ env.outcome i .mkdirTmp = none

/-- The destination is cleaned up. -/
def Ready (i : ℕ) : Prop :=
  env.outcome i .rmDest = none ∧ env.outcome i .dirname = none ∧ env.outcome i .mkdirParent = none

/-- What the extraction throws. -/
def extractThrown (i : ℕ) : Option Thrown :=
  (env.outcome i (Archive.remote zip).command).or
    ((if env.sudoRoot then env.outcome i .chown else none).or
      ((env.outcome i .ls).or
        (if env.roots i = 0 then some .assertion else env.outcome i .mv)))

/-- The archive turns out to be corrupt. -/
def Corrupt (i : ℕ) : Prop := ∃ e, extractThrown env zip i = some e ∧ isCorrupt e = true

/-- Another attempt follows. -/
def Retries (i : ℕ) : Prop :=
  Makes env force start i ∧ Ready env i ∧ Corrupt env zip i ∧ env.outcome i .rmFile = none

/-- The attempt is made. -/
def Reached (i : ℕ) : Prop := ∀ j < i, Retries env zip force start j

/-- The temporary directory goes. -/
def Removes (i : ℕ) : Prop :=
  extractThrown env zip i = none ∧ 1 < env.roots i ∨ env.outcome i .rmTmpDir = none

/-- The temporary directory is left behind. -/
def Leaks (i : ℕ) : Prop :=
  Makes env force start i ∧ ¬ (Ready env i ∧ Removes env zip i)

/-- No two attempts find the archive corrupt before another download is begun, and where a
temporary directory is created, the following commands succeed, and so does its removal. -/
structure Benign : Prop where
  once : ¬ (Retries env zip force start 0 ∧ Retries env zip force start 1 ∧
    Downloads env force start 2)
  clean : ∀ i, Reached env zip force start i → ¬ Leaks env zip force start i

end

instance (force : Bool) (start : Node) (i : ℕ) : Decidable (Hits force start i) :=
  inferInstanceAs (Decidable (_ ∧ _ ∧ _))

instance (env : Env) (force : Bool) (start : Node) (i : ℕ) :
    Decidable (Downloads env force start i) :=
  inferInstanceAs (Decidable (_ ∧ _ ∧ _))

/-! ## Commands -/

section

variable {env : Env} {zip force : Bool} {start : Node} {i : ℕ}

theorem exec_of_none {command : Command} (hnone : env.outcome i command = none)
    (effect : Node → Node) (node : Node) : exec env i command effect node = .ok (effect node) := by
  unfold exec
  rw [hnone]

theorem exec_of_some {command : Command} {e : Thrown} (hsome : env.outcome i command = some e)
    (effect : Node → Node) (node : Node) : exec env i command effect node = .error (e, node) := by
  unfold exec
  rw [hsome]

theorem ok_bind {A E B : Type} (a : A) (f : A → Except E B) :
    ((Except.ok a : Except E A) >>= f) = f a :=
  rfl

theorem error_bind {A E B : Type} (e : E) (f : A → Except E B) :
    ((Except.error e : Except E A) >>= f) = .error e :=
  rfl

/-- What the download of an attempt adds to the log. -/
def begun (env : Env) (force : Bool) (start : Node) (i : ℕ) (node : Node) : List Event :=
  if Downloads env force start i then [.downloaded node.downloads] else []

/-- The cached file that an attempt starts with is the one that counts as a hit. -/
def AtAttempt (force : Bool) (start : Node) (i : ℕ) (node : Node) : Prop :=
  force = false ∧ node.cached.isSome = true ↔ Hits force start i

/-- The node after a download, or as it was. -/
def fetched (force : Bool) (start : Node) (i : ℕ) (node : Node) : Node :=
  if Hits force start i then node else node.download

theorem clearForced_of_none (hrm : force = true → env.outcome i .rmCached = none) (node : Node) :
    clearForced env force i node = .ok (if force then node.clear else node) := by
  unfold clearForced
  cases force with
  | true =>
    rw [if_pos rfl, if_pos rfl, exec_of_none (hrm rfl)]
  | false => rfl

theorem clearForced_of_some {e : Thrown} (hforce : force = true)
    (hrm : env.outcome i .rmCached = some e) (node : Node) :
    clearForced env force i node = .error (e, node) := by
  unfold clearForced
  rw [if_pos hforce, exec_of_some hrm]

/-- Without a hit, there is no cached file after the cached copy is cleared. -/
theorem cached_cleared {node : Node} (hat : AtAttempt force start i node)
    (hhits : ¬ Hits force start i) :
    ¬ (if force then node.clear else node).cached.isSome = true := by
  cases force with
  | true => exact Bool.false_ne_true
  | false => exact fun hsome => hhits (hat.mp ⟨rfl, hsome⟩)

theorem download_cleared (node : Node) :
    (if force then node.clear else node).download = node.download := by
  cases force with
  | true => rfl
  | false => rfl

theorem cachedWget_of_hits {node : Node} (hat : AtAttempt force start i node)
    (hhits : Hits force start i) : cachedWget env force i node = .ok node := by
  obtain ⟨hforce, hcached⟩ := hat.mpr hhits
  subst hforce
  unfold cachedWget
  rw [clearForced_of_none (fun hfalse => absurd hfalse Bool.false_ne_true), ok_bind]
  exact if_pos hcached

theorem cachedWget_of_downloads {node : Node} (hat : AtAttempt force start i node)
    (hdown : Downloads env force start i) :
    cachedWget env force i node =
      fetch env i (if force then node.clear else node) := by
  obtain ⟨hhits, hrm, hmkdir⟩ := hdown
  unfold cachedWget
  rw [clearForced_of_none hrm, ok_bind]
  refine (if_neg (cached_cleared hat hhits)).trans ?_
  rw [exec_of_none hmkdir, ok_bind]
  rfl

theorem cachedWget_of_fetches {node : Node} (hat : AtAttempt force start i node)
    (hfetches : Fetches env force start i) :
    cachedWget env force i node = .ok (fetched force start i node) := by
  unfold fetched
  by_cases hhits : Hits force start i
  · rw [if_pos hhits, cachedWget_of_hits hat hhits]
  · obtain ⟨hdown, hwget⟩ := hfetches.resolve_left hhits
    rw [if_neg hhits, cachedWget_of_downloads hat hdown]
    unfold fetch
    rw [hwget, download_cleared]

/-- Where `cached-wget!` throws, there is a download in the log if one was begun. -/
theorem cachedWget_of_not_fetches {node : Node} (hat : AtAttempt force start i node)
    (hfetches : ¬ Fetches env force start i) :
    ∃ e node', cachedWget env force i node = .error (e, node') ∧
      node'.tmpDirs = node.tmpDirs ∧ node'.log = node.log ++ begun env force start i node := by
  have hhits : ¬ Hits force start i := fun hhits => hfetches (.inl hhits)
  unfold begun
  by_cases hdown : Downloads env force start i
  · cases hwget : wgetHelper env i 5 with
    | none => exact absurd (.inr ⟨hdown, hwget⟩) hfetches
    | some e =>
      refine ⟨e, node.download, ?_, rfl, by rw [if_pos hdown]; rfl⟩
      rw [cachedWget_of_downloads hat hdown]
      unfold fetch
      rw [hwget, download_cleared]
  · rw [if_neg hdown, List.append_nil]
    unfold cachedWget
    by_cases hrm : force = true → env.outcome i .rmCached = none
    · cases hmkdir : env.outcome i .mkdirCache with
      | none => exact absurd ⟨hhits, hrm, hmkdir⟩ hdown
      | some e =>
        refine ⟨e, if force then node.clear else node, ?_, ?_, ?_⟩
        · rw [clearForced_of_none hrm, ok_bind]
          refine (if_neg (cached_cleared hat hhits)).trans ?_
          rw [exec_of_some hmkdir, error_bind]
        · cases force with
          | true => rfl
          | false => rfl
        · cases force with
          | true => rfl
          | false => rfl
    · rw [Classical.not_imp] at hrm
      obtain ⟨e, he⟩ := Option.ne_none_iff_exists'.mp hrm.2
      exact ⟨e, node, by rw [clearForced_of_some hrm.1 he, error_bind], rfl, rfl⟩

theorem tmpDirs_fetched (node : Node) : (fetched force start i node).tmpDirs = node.tmpDirs := by
  unfold fetched
  split_ifs
  · rfl
  · rfl

theorem log_fetched (hfetches : Fetches env force start i) (node : Node) :
    (fetched force start i node).log = node.log ++ begun env force start i node := by
  unfold fetched begun
  by_cases hhits : Hits force start i
  · rw [if_pos hhits, if_neg (fun hdown => hdown.1 hhits), List.append_nil]
  · rw [if_neg hhits, if_pos (hfetches.resolve_left hhits).1]
    rfl

/-! ## Temporary directories -/

/-- The node when everything is ready. -/
def prepared (env : Env) (force : Bool) (start : Node) (i : ℕ) (node : Node) : Node :=
  ((fetched force start i node).mkdir (env.tmpDir i node.tmpDirs)).setDest none

theorem prepare_of_ready {node : Node} (hat : AtAttempt force start i node)
    (hmakes : Makes env force start i) (hready : Ready env i) :
    prepare env (.remote zip) force i node =
      .ok (env.tmpDir i node.tmpDirs, prepared env force start i node) := by
  unfold prepare getFile prepared
  simp only [cachedWget_of_fetches hat hmakes.1, ok_bind, exec_of_none hmakes.2,
    exec_of_none hready.1, exec_of_none hready.2.1, exec_of_none hready.2.2, tmpDirs_fetched,
    id_eq]

/-- If no directory is created, it is as before. -/
theorem prepare_of_not_makes (zip : Bool) {node : Node} (hat : AtAttempt force start i node)
    (hmakes : ¬ Makes env force start i) :
    ∃ e node', prepare env (.remote zip) force i node = .error (e, node') ∧
      node'.tmpDirs = node.tmpDirs ∧ node'.log = node.log ++ begun env force start i node := by
  unfold prepare getFile
  by_cases hfetches : Fetches env force start i
  · obtain ⟨e, he⟩ := Option.ne_none_iff_exists'.mp fun hnone => hmakes ⟨hfetches, hnone⟩
    refine ⟨e, fetched force start i node, ?_, tmpDirs_fetched node, log_fetched hfetches node⟩
    simp only [cachedWget_of_fetches hat hfetches, ok_bind, exec_of_some he, error_bind]
  · obtain ⟨e, node', heq, htmp, hlog⟩ := cachedWget_of_not_fetches hat hfetches
    refine ⟨e, node', ?_, htmp, hlog⟩
    change (cachedWget env force i node >>= _) = _
    rw [heq, error_bind]

/-- If a command fails after a directory is created, it is left behind. -/
theorem prepare_of_not_ready (zip : Bool) {node : Node} (hat : AtAttempt force start i node)
    (hmakes : Makes env force start i) (hready : ¬ Ready env i) :
    ∃ e node', prepare env (.remote zip) force i node = .error (e, node') ∧
      node'.tmpDirs = env.tmpDir i node.tmpDirs :: node.tmpDirs ∧
        node'.log = node.log ++ begun env force start i node := by
  have hlog := log_fetched hmakes.1 node
  have htmp : (prepared env force start i node).tmpDirs =
      env.tmpDir i node.tmpDirs :: node.tmpDirs :=
    congrArg (env.tmpDir i node.tmpDirs :: ·) (tmpDirs_fetched node)
  unfold prepare getFile
  simp only [cachedWget_of_fetches hat hmakes.1, ok_bind, exec_of_none hmakes.2, tmpDirs_fetched]
  by_cases hrm : env.outcome i .rmDest = none
  · rw [exec_of_none hrm, ok_bind]
    by_cases hdirname : env.outcome i .dirname = none
    · obtain ⟨e, he⟩ := Option.ne_none_iff_exists'.mp fun hnone => hready ⟨hrm, hdirname, hnone⟩
      refine ⟨e, prepared env force start i node, ?_, htmp, hlog⟩
      rw [exec_of_none hdirname, ok_bind, exec_of_some he, error_bind]
      rfl
    · obtain ⟨e, he⟩ := Option.ne_none_iff_exists'.mp hdirname
      refine ⟨e, prepared env force start i node, ?_, htmp, hlog⟩
      rw [exec_of_some he, error_bind]
      rfl
  · obtain ⟨e, he⟩ := Option.ne_none_iff_exists'.mp hrm
    refine ⟨e, (fetched force start i node).mkdir (env.tmpDir i node.tmpDirs), ?_, htmp, hlog⟩
    rw [exec_of_some he, error_bind]

/-! ## Extractions -/

/-- What an attempt extracts. -/
def extractedFrom (force : Bool) (start : Node) (i : ℕ) (node : Node) : Option ℕ :=
  (fetched force start i node).cached

theorem forceOwnership_of_none (hown : (if env.sudoRoot then env.outcome i .chown else none) = none)
    (node : Node) : forceOwnership env i node = .ok node := by
  unfold forceOwnership
  split_ifs at hown ⊢ with hsudo
  · rw [exec_of_none hown, id_eq]
  · rfl

theorem forceOwnership_of_some {e : Thrown}
    (hown : (if env.sudoRoot then env.outcome i .chown else none) = some e) (node : Node) :
    forceOwnership env i node = .error (e, node) := by
  unfold forceOwnership
  split_ifs at hown ⊢ with hsudo
  exact exec_of_some hown id node

/-- An extraction fails with its first failure, and until then only the log changes. -/
theorem extract_of_some {e : Thrown} {tmpDir : ℕ} (node : Node)
    (hthrown : extractThrown env zip i = some e) :
    extract env (.remote zip) i tmpDir node =
      .error (e, node.record (.extracted node.cached)) := by
  unfold extractThrown at hthrown
  unfold extract
  simp only [source]
  cases hcmd : env.outcome i (Archive.remote zip).command with
  | some e' =>
    rw [hcmd, Option.some_or] at hthrown
    cases hthrown
    rw [exec_of_some hcmd, error_bind]
  | none =>
    rw [hcmd, Option.none_or] at hthrown
    rw [exec_of_none hcmd, ok_bind, id_eq]
    cases hown : (if env.sudoRoot then env.outcome i .chown else none) with
    | some e' =>
      rw [hown, Option.some_or] at hthrown
      cases hthrown
      rw [forceOwnership_of_some hown, error_bind]
    | none =>
      rw [hown, Option.none_or] at hthrown
      rw [forceOwnership_of_none hown, ok_bind]
      cases hls : env.outcome i .ls with
      | some e' =>
        rw [hls, Option.some_or] at hthrown
        cases hthrown
        rw [exec_of_some hls, error_bind]
      | none =>
        rw [hls, Option.none_or] at hthrown
        rw [exec_of_none hls, ok_bind, id_eq]
        unfold moveRoots
        by_cases hroots : env.roots i = 0
        · rw [if_pos hroots] at hthrown ⊢
          cases hthrown
          rfl
        · rw [if_neg hroots] at hthrown ⊢
          rw [exec_of_some hthrown, exec_of_some hthrown, ite_self]

/-- Otherwise it moves the directory itself if there are several files in it. -/
theorem extract_of_none (tmpDir : ℕ) (node : Node)
    (hthrown : extractThrown env zip i = none) :
    ∃ node', extract env (.remote zip) i tmpDir node = .ok node' ∧
      node'.log = node.log ++ [.extracted node.cached] ∧
      node'.tmpDirs = if 1 < env.roots i then node.tmpDirs.erase tmpDir else node.tmpDirs := by
  unfold extractThrown at hthrown
  obtain ⟨hcmd, hthrown⟩ := Option.or_eq_none_iff.mp hthrown
  obtain ⟨hown, hthrown⟩ := Option.or_eq_none_iff.mp hthrown
  obtain ⟨hls, hmv⟩ := Option.or_eq_none_iff.mp hthrown
  unfold extract
  simp only [source, exec_of_none hcmd, ok_bind, id_eq, forceOwnership_of_none hown,
    exec_of_none hls]
  unfold moveRoots
  split_ifs at hmv ⊢ with hzero hone hmany
  · rw [hone] at hmany
    exact absurd hmany (by decide)
  · exact ⟨_, exec_of_none hmv _ _, rfl, rfl⟩
  · exact ⟨_, exec_of_none hmv _ _, rfl, rfl⟩
  · omega

/-! ## Attempts -/

theorem log_cleanUp (tmpDir : ℕ) (result : Result) :
    (cleanUp env i tmpDir result).node.log = result.node.log := by
  unfold cleanUp
  cases hrm : env.outcome i .rmTmpDir with
  | none =>
    cases result with
    | ok node =>
      change (exec env i .rmTmpDir (Node.rmdir tmpDir) node).node.log = node.log
      rw [exec_of_none hrm]
      rfl
    | error thrown =>
      simp only [exec_of_none hrm, ok_bind]
      rfl
  | some e =>
    cases result with
    | ok node =>
      change (exec env i .rmTmpDir (Node.rmdir tmpDir) node).node.log = node.log
      rw [exec_of_some hrm]
      rfl
    | error thrown =>
      simp only [exec_of_some hrm, error_bind]
      rfl

theorem tmpDirs_cleanUp (tmpDir : ℕ) (result : Result) :
    (cleanUp env i tmpDir result).node.tmpDirs =
      if env.outcome i .rmTmpDir = none then result.node.tmpDirs.erase tmpDir
      else result.node.tmpDirs := by
  unfold cleanUp
  cases hrm : env.outcome i .rmTmpDir with
  | none =>
    rw [if_pos rfl]
    cases result with
    | ok node =>
      change (exec env i .rmTmpDir (Node.rmdir tmpDir) node).node.tmpDirs = _
      rw [exec_of_none hrm]
      rfl
    | error thrown =>
      simp only [exec_of_none hrm, ok_bind]
      rfl
  | some e =>
    rw [if_neg (by simp)]
    cases result with
    | ok node =>
      change (exec env i .rmTmpDir (Node.rmdir tmpDir) node).node.tmpDirs = _
      rw [exec_of_some hrm]
      rfl
    | error thrown =>
      simp only [exec_of_some hrm, error_bind]
      rfl

/-- What an attempt records once the file is there. -/
def extraction (force : Bool) (start : Node) (i : ℕ) (node : Node) : Event :=
  .extracted (extractedFrom force start i node)

/-- The node after the archive was found corrupt, without the cached file. -/
def retried (env : Env) (force : Bool) (start : Node) (i : ℕ) (node : Node) : Node :=
  Node.clear (Node.record .corrupt
    ((prepared env force start i node).record (extraction force start i node)))

theorem installArchive_of_retries {node : Node} (hat : AtAttempt force start i node)
    (hretries : Retries env zip force start i) (fuel : ℕ) :
    installArchive env (.remote zip) force (fuel + 1) i node =
      (installArchive env (.remote zip) force fuel (i + 1) (retried env force start i node)).map
        (cleanUp env i (env.tmpDir i node.tmpDirs)) := by
  obtain ⟨hmakes, hready, ⟨e, hthrown, hcorrupt⟩, hrm⟩ := hretries
  rw [installArchive]
  simp only [prepare_of_ready hat hmakes hready, extract_of_some _ hthrown, hcorrupt,
    exec_of_none hrm, if_true]
  rfl

theorem atAttempt_succ (node : Node) : AtAttempt force start (i + 1) node.clear := by
  constructor
  · intro hcached
    exact absurd hcached.2 Bool.false_ne_true
  · intro hhits
    exact absurd hhits.1 (Nat.succ_ne_zero i)

theorem atAttempt_retried (node : Node) :
    AtAttempt force start (i + 1) (retried env force start i node) :=
  atAttempt_succ _

theorem tmpDirs_retried (node : Node) :
    (retried env force start i node).tmpDirs = env.tmpDir i node.tmpDirs :: node.tmpDirs :=
  congrArg (env.tmpDir i node.tmpDirs :: ·) (tmpDirs_fetched node)

theorem log_retried (hfetches : Fetches env force start i) (node : Node) :
    (retried env force start i node).log =
      node.log ++ (begun env force start i node ++ [extraction force start i node, .corrupt]) := by
  change ((fetched force start i node).log ++ [_]) ++ [_] = _
  rw [log_fetched hfetches, List.append_assoc, List.append_assoc]
  rfl

/-- What the last attempt of a run adds to the log after the download. -/
def IsEnd (env : Env) (force : Bool) (start : Node) (i : ℕ) (node : Node) (events : List Event) :
    Prop :=
  events = [] ∨ Fetches env force start i ∧
    (events = [extraction force start i node] ∨
      events = [extraction force start i node, .corrupt])

/-- What is tried in the last attempt, before the temporary directory is removed. -/
theorem installArchive_of_ready {node : Node} (hat : AtAttempt force start i node)
    (hmakes : Makes env force start i) (hready : Ready env i)
    (hretries : ¬ Retries env zip force start i) (fuel : ℕ) :
    ∃ tried events, installArchive env (.remote zip) force (fuel + 1) i node =
        some (cleanUp env i (env.tmpDir i node.tmpDirs) tried) ∧
      tried.node.log = node.log ++ (begun env force start i node ++ events) ∧
      (events = [extraction force start i node] ∨
        events = [extraction force start i node, .corrupt]) ∧
      tried.node.tmpDirs =
        if extractThrown env zip i = none ∧ 1 < env.roots i then node.tmpDirs
        else env.tmpDir i node.tmpDirs :: node.tmpDirs := by
  have hlog : ((prepared env force start i node).record (extraction force start i node)).log =
      node.log ++ (begun env force start i node ++ [extraction force start i node]) := by
    change (fetched force start i node).log ++ [_] = _
    rw [log_fetched hmakes.1, List.append_assoc]
  have htmp : (prepared env force start i node).tmpDirs =
      env.tmpDir i node.tmpDirs :: node.tmpDirs :=
    congrArg (env.tmpDir i node.tmpDirs :: ·) (tmpDirs_fetched node)
  rw [installArchive]
  simp only [prepare_of_ready hat hmakes hready]
  cases hthrown : extractThrown env zip i with
  | none =>
    obtain ⟨node', heq, hlog', htmp'⟩ := extract_of_none
      (env.tmpDir i node.tmpDirs) (prepared env force start i node) hthrown
    refine ⟨.ok node', [extraction force start i node], ?_, hlog'.trans hlog, .inl rfl, ?_⟩
    · rw [heq]
      rfl
    · change node'.tmpDirs = _
      rw [htmp', htmp, List.erase_cons_head]
      by_cases hroots : 1 < env.roots i
      · rw [if_pos hroots, if_pos ⟨rfl, hroots⟩]
      · rw [if_neg hroots, if_neg (fun hand => hroots hand.2)]
  | some e =>
    rw [extract_of_some _ hthrown]
    have hkept : (env.tmpDir i node.tmpDirs :: node.tmpDirs) =
        if some e = none ∧ 1 < env.roots i then node.tmpDirs
        else env.tmpDir i node.tmpDirs :: node.tmpDirs := by
      rw [if_neg]
      intro hand
      cases hand.1
    by_cases hcorrupt : isCorrupt e = true
    · have hrm : env.outcome i .rmFile ≠ none := fun hnone =>
        hretries ⟨hmakes, hready, ⟨e, hthrown, hcorrupt⟩, hnone⟩
      obtain ⟨e', he'⟩ := Option.ne_none_iff_exists'.mp hrm
      refine ⟨.error (e', Node.record .corrupt
        ((prepared env force start i node).record (extraction force start i node))),
        [extraction force start i node, .corrupt], ?_, ?_, .inr rfl, htmp.trans hkept⟩
      · simp only [hcorrupt, if_true, exec_of_some he']
        rfl
      · change ((prepared env force start i node).record _).log ++ [Event.corrupt] = _
        rw [hlog, List.append_assoc, List.append_assoc]
        rfl
    · refine ⟨.error (e, (prepared env force start i node).record (extraction force start i node)),
        [extraction force start i node], ?_, hlog, .inl rfl, htmp.trans hkept⟩
      simp only [hcorrupt, Bool.false_eq_true, if_false]
      rfl

/-- An attempt that is not followed by another ends the run. -/
theorem installArchive_of_not_retries {node : Node} (hat : AtAttempt force start i node)
    (hretries : ¬ Retries env zip force start i) (fuel : ℕ) :
    ∃ result events, installArchive env (.remote zip) force (fuel + 1) i node = some result ∧
      result.node.log = node.log ++ (begun env force start i node ++ events) ∧
      IsEnd env force start i node events ∧
      (¬ Leaks env zip force start i → result.node.tmpDirs = node.tmpDirs) ∧
      (Leaks env zip force start i →
        result.node.tmpDirs = env.tmpDir i node.tmpDirs :: node.tmpDirs) := by
  by_cases hmakes : Makes env force start i
  · by_cases hready : Ready env i
    · obtain ⟨tried, events, heq, hlog, hevents, htmp⟩ :=
        installArchive_of_ready hat hmakes hready hretries fuel
      refine ⟨_, events, heq, ?_, .inr ⟨hmakes.1, hevents⟩, fun hleaks => ?_, fun hleaks => ?_⟩
      · rw [log_cleanUp, hlog]
      · have hremoves : Removes env zip i := by
          by_contra hnot
          exact hleaks ⟨hmakes, fun hand => hnot hand.2⟩
        rw [tmpDirs_cleanUp, htmp]
        by_cases hmoved : extractThrown env zip i = none ∧ 1 < env.roots i
        · rw [if_pos hmoved, List.erase_of_not_mem (env.tmpDir_fresh i node.tmpDirs), ite_self]
        · rw [if_neg hmoved, if_pos (hremoves.resolve_left hmoved), List.erase_cons_head]
      · have hremoves : ¬ Removes env zip i := fun hremoves => hleaks.2 ⟨hready, hremoves⟩
        rw [tmpDirs_cleanUp, htmp, if_neg (fun hmoved => hremoves (.inl hmoved)),
          if_neg (fun hrm => hremoves (.inr hrm))]
    · obtain ⟨e, node', heq, htmp, hlog⟩ := prepare_of_not_ready zip hat hmakes hready
      refine ⟨.error (e, node'), [], ?_, ?_, .inl rfl, ?_, fun _ => htmp⟩
      · rw [installArchive, heq]
      · rw [List.append_nil]
        exact hlog
      · intro hleaks
        exact absurd ⟨hmakes, fun hand => hready hand.1⟩ hleaks
  · obtain ⟨e, node', heq, htmp, hlog⟩ := prepare_of_not_makes zip hat hmakes
    refine ⟨.error (e, node'), [], ?_, ?_, .inl rfl, fun _ => htmp, ?_⟩
    · rw [installArchive, heq]
    · rw [List.append_nil]
      exact hlog
    · intro hleaks
      exact absurd hleaks.1 hmakes

/-! ## Runs -/

theorem reached_succ_iff {k : ℕ} :
    Reached env zip force start (k + 1) ↔
      Reached env zip force start k ∧ Retries env zip force start k := by
  constructor
  · intro hreached
    exact ⟨fun j hj => hreached j (Nat.lt_succ_of_lt hj), hreached k (Nat.lt_succ_self k)⟩
  · intro hand j hj
    cases Nat.lt_succ_iff_lt_or_eq.mp hj with
    | inl hlt => exact hand.1 j hlt
    | inr heq =>
      rw [heq]
      exact hand.2

/-- A run leaves the directories that are left behind in its attempts. -/
theorem tmpDirs_run {fuel : ℕ} {node : Node} {result : Result}
    (hrun : installArchive env (.remote zip) force fuel i node = some result)
    (hat : AtAttempt force start i node) (hreached : Reached env zip force start i) :
    ∃ leaked, result.node.tmpDirs = leaked ++ node.tmpDirs ∧
      (∀ dir ∈ leaked, dir ∉ node.tmpDirs) ∧
      (leaked = [] ↔ ∀ k, i ≤ k → Reached env zip force start k →
        ¬ Leaks env zip force start k) := by
  induction fuel generalizing i node result with
  | zero => cases hrun
  | succ fuel ih =>
    by_cases hretries : Retries env zip force start i
    · rw [installArchive_of_retries hat hretries] at hrun
      obtain ⟨inner, hinner, hresult⟩ := Option.map_eq_some_iff.mp hrun
      obtain ⟨leaked, htmp, hfresh, hiff⟩ := ih hinner (atAttempt_succ _)
        (reached_succ_iff.mpr ⟨hreached, hretries⟩)
      rw [tmpDirs_retried] at htmp hfresh
      rw [← hresult, tmpDirs_cleanUp, htmp]
      have hkept : ∀ dir ∈ leaked, dir ∉ node.tmpDirs := fun dir hdir hmem =>
        hfresh dir hdir (List.mem_cons_of_mem _ hmem)
      by_cases hrm : env.outcome i .rmTmpDir = none
      · refine ⟨leaked, ?_, hkept, ?_⟩
        · have hnot : env.tmpDir i node.tmpDirs ∉ leaked := fun hmem =>
            hfresh _ hmem List.mem_cons_self
          rw [if_pos hrm, List.erase_append_right _ hnot, List.erase_cons_head]
        · rw [hiff]
          constructor
          · intro hclean k hk hkreached
            cases Nat.eq_or_lt_of_le hk with
            | inl heq =>
              rw [← heq]
              exact fun hleaks => hleaks.2 ⟨hretries.2.1, .inr hrm⟩
            | inr hlt => exact hclean k hlt hkreached
          · exact fun hclean k hk => hclean k (Nat.le_of_succ_le hk)
      · refine ⟨leaked ++ [env.tmpDir i node.tmpDirs], ?_, ?_, ?_⟩
        · rw [if_neg hrm, List.append_assoc]
          rfl
        · intro dir hdir
          rcases List.mem_append.mp hdir with hdir | hdir
          · exact hkept dir hdir
          · rw [List.mem_singleton.mp hdir]
            exact env.tmpDir_fresh i node.tmpDirs
        · refine iff_of_false (by simp) fun hclean => hclean i le_rfl hreached ⟨hretries.1, ?_⟩
          intro hand
          obtain ⟨e, hthrown, -⟩ := hretries.2.2.1
          cases hand.2 with
          | inl hmoved =>
            rw [hmoved.1] at hthrown
            cases hthrown
          | inr hnone => exact hrm hnone
    · obtain ⟨result', events, hend, -, -, hclean, hleaked⟩ :=
        installArchive_of_not_retries hat hretries fuel
      rw [hend] at hrun
      cases hrun
      have honly : (∀ k, i ≤ k → Reached env zip force start k → ¬ Leaks env zip force start k) ↔
          ¬ Leaks env zip force start i := by
        constructor
        · exact fun hall => hall i le_rfl hreached
        · intro hleaks k hk hkreached
          cases Nat.eq_or_lt_of_le hk with
          | inl heq =>
            rw [← heq]
            exact hleaks
          | inr hlt => exact absurd (hkreached i hlt) hretries
      by_cases hleaks : Leaks env zip force start i
      · refine ⟨[env.tmpDir i node.tmpDirs], hleaked hleaks, ?_, ?_⟩
        · intro dir hdir
          rw [List.mem_singleton.mp hdir]
          exact env.tmpDir_fresh i node.tmpDirs
        · rw [honly]
          exact iff_of_false (List.cons_ne_nil _ _) (not_not.mpr hleaks)
      · refine ⟨[], hclean hleaks, fun dir hdir => absurd hdir List.not_mem_nil, ?_⟩
        rw [honly]
        exact iff_of_true rfl hleaks

/-- What a run adds to the log from an attempt on. -/
inductive RunLog (env : Env) (zip force : Bool) (start : Node) : ℕ → Node → List Event → Prop
  | last {i : ℕ} {node : Node} {events : List Event} (hnot : ¬ Retries env zip force start i)
      (hend : IsEnd env force start i node events) :
      RunLog env zip force start i node (begun env force start i node ++ events)
  | retry {i : ℕ} {node : Node} {events : List Event} (hretries : Retries env zip force start i)
      (hrest : RunLog env zip force start (i + 1) (retried env force start i node) events) :
      RunLog env zip force start i node
        (begun env force start i node ++ extraction force start i node :: .corrupt :: events)

theorem log_run {fuel : ℕ} {node : Node} {result : Result}
    (hrun : installArchive env (.remote zip) force fuel i node = some result)
    (hat : AtAttempt force start i node) :
    ∃ events, result.node.log = node.log ++ events ∧
      RunLog env zip force start i node events := by
  induction fuel generalizing i node result with
  | zero => cases hrun
  | succ fuel ih =>
    by_cases hretries : Retries env zip force start i
    · rw [installArchive_of_retries hat hretries] at hrun
      obtain ⟨inner, hinner, hresult⟩ := Option.map_eq_some_iff.mp hrun
      obtain ⟨events, hlog, hevents⟩ := ih hinner (atAttempt_succ _)
      refine ⟨_, ?_, .retry hretries hevents⟩
      rw [← hresult, log_cleanUp, hlog, log_retried hretries.1.1, List.append_assoc,
        List.append_assoc]
      rfl
    · obtain ⟨result', events, hends, hlog, hend, -, -⟩ :=
        installArchive_of_not_retries hat hretries fuel
      rw [hends] at hrun
      cases hrun
      exact ⟨_, hlog, .last hretries hend⟩

/-! ## Downloads -/

theorem countP_of_isEnd {node : Node} {events : List Event}
    (hend : IsEnd env force start i node events) : events.countP Event.isDownload = 0 := by
  rcases hend with rfl | ⟨-, rfl | rfl⟩
  · rfl
  · rfl
  · rfl

theorem downloads_of_fetches (hfetches : Fetches env force start (i + 1)) :
    Downloads env force start (i + 1) := by
  cases hfetches with
  | inl hhits => exact absurd hhits.1 (Nat.succ_ne_zero i)
  | inr hand => exact hand.1

theorem countP_begun (node : Node) :
    (begun env force start i node).countP Event.isDownload =
      if Downloads env force start i then 1 else 0 := by
  unfold begun
  split_ifs
  · rfl
  · rfl

theorem countP_retry (node : Node) (events : List Event) :
    (extraction force start i node :: .corrupt :: events).countP Event.isDownload =
      events.countP Event.isDownload := by
  rw [List.countP_cons_of_neg Bool.false_ne_true, List.countP_cons_of_neg Bool.false_ne_true]

/-- After the first attempt, whatever happens starts with a download. -/
theorem countP_pos_iff {node : Node} {events : List Event}
    (hlog : RunLog env zip force start (i + 1) node events) :
    0 < events.countP Event.isDownload ↔ Downloads env force start (i + 1) := by
  cases hlog with
  | last hnot hend =>
    rw [List.countP_append, countP_of_isEnd hend, countP_begun]
    split_ifs with hdown
    · exact iff_of_true Nat.one_pos hdown
    · exact iff_of_false (lt_irrefl 0) hdown
  | retry hretries hrest =>
    have hdown := downloads_of_fetches hretries.1.1
    rw [List.countP_append, countP_begun, if_pos hdown]
    exact iff_of_true (by omega) hdown

/-- There are more downloads than one if another attempt gets to its download. -/
theorem countP_le_one_iff {node : Node} {events : List Event}
    (hlog : RunLog env zip force start (i + 1) node events) :
    events.countP Event.isDownload ≤ 1 ↔
      ¬ (Retries env zip force start (i + 1) ∧ Downloads env force start (i + 2)) := by
  cases hlog with
  | last hnot hend =>
    rw [List.countP_append, countP_of_isEnd hend, countP_begun]
    refine iff_of_true ?_ fun hand => hnot hand.1
    split_ifs
    · exact le_rfl
    · exact Nat.zero_le 1
  | retry hretries hrest =>
    rw [List.countP_append, countP_begun, if_pos (downloads_of_fetches hretries.1.1)]
    have hrest' := countP_pos_iff hrest
    rw [countP_retry, ← hrest']
    constructor
    · intro hle hand
      omega
    · intro hnot
      have hzero : ¬ 0 < List.countP Event.isDownload _ := fun hpos => hnot ⟨hretries, hpos⟩
      omega

/-- Only what follows the first corrupt download counts. -/
theorem retriedOnce_append_iff {before : List Event} (after : List Event)
    (hbefore : .corrupt ∉ before) :
    RetriedOnce (before ++ .corrupt :: after) ↔ after.countP Event.isDownload ≤ 1 := by
  constructor
  · exact fun honce => honce before after rfl
  · intro hle before' after' heq
    rcases List.append_eq_append_iff.mp heq with ⟨as, -, htail⟩ | ⟨bs, hhead, htail⟩
    · cases as with
      | nil =>
        cases htail
        exact hle
      | cons e as =>
        obtain ⟨-, hafter⟩ := List.cons_eq_cons.mp htail
        have hsuffix : after' <:+ after := by
          rw [hafter]
          exact (List.suffix_cons .corrupt after').trans (List.suffix_append as _)
        exact (hsuffix.sublist.countP_le).trans hle
    · cases bs with
      | nil =>
        cases htail
        exact hle
      | cons e bs =>
        obtain ⟨he, -⟩ := List.cons_eq_cons.mp htail
        rw [hhead, ← he] at hbefore
        exact absurd (List.mem_append_right before' List.mem_cons_self) hbefore

theorem notMem_begun (node : Node) : .corrupt ∉ begun env force start i node := by
  unfold begun
  split_ifs
  · simp
  · exact List.not_mem_nil

theorem notMem_attempt (env : Env) (force : Bool) (start : Node) (i : ℕ) (node : Node) :
    .corrupt ∉ begun env force start i node ++ [extraction force start i node] := by
  intro hmem
  rcases List.mem_append.mp hmem with hmem | hmem
  · exact notMem_begun node hmem
  · cases List.mem_singleton.mp hmem

/-- There is at most one download after a corrupt one unless the third attempt gets to its own. -/
theorem retriedOnce_iff {node : Node} {events : List Event}
    (hlog : RunLog env zip force start 0 node events) :
    RetriedOnce events ↔ ¬ (Retries env zip force start 0 ∧ Retries env zip force start 1 ∧
      Downloads env force start 2) := by
  cases hlog with
  | last hnot hend =>
    refine iff_of_true ?_ fun hand => hnot hand.1
    rcases hend with rfl | ⟨-, rfl | rfl⟩
    · intro before after heq
      rw [List.append_nil] at heq
      exact absurd (heq ▸ List.mem_append_right before List.mem_cons_self) (notMem_begun node)
    · intro before after heq
      exact absurd (heq ▸ List.mem_append_right before List.mem_cons_self)
        (notMem_attempt env force start 0 node)
    · have hsplit := (retriedOnce_append_iff [] (notMem_attempt env force start 0 node)).mpr
        (Nat.zero_le 1)
      rw [List.append_assoc] at hsplit
      exact hsplit
  | @retry _ _ events hretries hrest =>
    have hsplit := retriedOnce_append_iff events (notMem_attempt env force start 0 node)
    rw [List.append_assoc, List.singleton_append] at hsplit
    rw [hsplit, countP_le_one_iff hrest]
    constructor
    · exact fun hnot hand => hnot hand.2
    · exact fun hnot hand => hnot ⟨hretries, hand⟩

/-! ## What is extracted -/

theorem fromLast_append_extracted {log : List Event} {cached : Option ℕ} (hlog : FromLast log)
    (hcached : ∀ n, lastDownload log = some n → cached = some n) :
    FromLast (log ++ [.extracted cached]) := by
  intro before cached' after n heq hlast
  rcases List.eq_nil_or_concat after with rfl | ⟨after', e, rfl⟩
  · obtain ⟨hbefore, hsame⟩ := List.append_inj' heq rfl
    cases hsame
    rw [← hbefore] at hlast
    exact hcached n hlast
  · have hassoc : before ++ .extracted cached' :: (after' ++ [e]) =
        (before ++ .extracted cached' :: after') ++ [e] := by
      rw [List.append_assoc, List.cons_append]
    rw [List.concat_eq_append, hassoc] at heq
    exact hlog before cached' after' n (List.append_inj' heq rfl).1 hlast

theorem fromLast_append {log : List Event} {e : Event} (hlog : FromLast log)
    (he : ∀ cached, e ≠ .extracted cached) : FromLast (log ++ [e]) := by
  intro before cached after n heq hlast
  rcases List.eq_nil_or_concat after with rfl | ⟨after', e', rfl⟩
  · obtain ⟨-, hsame⟩ := List.append_inj' heq rfl
    cases hsame
    exact absurd rfl (he cached)
  · have hassoc : before ++ .extracted cached :: (after' ++ [e']) =
        (before ++ .extracted cached :: after') ++ [e'] := by
      rw [List.append_assoc, List.cons_append]
    rw [List.concat_eq_append, hassoc] at heq
    exact hlog before cached after' n (List.append_inj' heq rfl).1 hlast

theorem lastDownload_append (log : List Event) (n : ℕ) :
    lastDownload (log ++ [.downloaded n]) = some n := by
  unfold lastDownload
  rw [List.filterMap_append]
  exact List.getLast?_concat

theorem fromLast_begun {node : Node} {log : List Event} (hlog : FromLast log) :
    FromLast (log ++ begun env force start i node) := by
  unfold begun
  split_ifs
  · exact fromLast_append hlog fun cached hfalse => by cases hfalse
  · rw [List.append_nil]
    exact hlog

/-- An attempt extracts what it downloaded, or what was there if nothing was downloaded. -/
theorem fromLast_attempt (node : Node) {log : List Event} (hlog : FromLast log)
    (hfetches : Fetches env force start i)
    (hfirst : Hits force start i → lastDownload log = none) :
    FromLast (log ++ (begun env force start i node ++ [extraction force start i node])) := by
  rw [← List.append_assoc]
  apply fromLast_append_extracted (fromLast_begun hlog)
  intro n hlast
  unfold extractedFrom fetched
  unfold begun at hlast
  by_cases hhits : Hits force start i
  · rw [if_neg (fun hdown => hdown.1 hhits), List.append_nil, hfirst hhits] at hlast
    cases hlast
  · rw [if_pos (hfetches.resolve_left hhits).1, lastDownload_append] at hlast
    rw [if_neg hhits, ← hlast]
    rfl

theorem fromLast_run {node : Node} {events : List Event}
    (hrun : RunLog env zip force start i node events) {log : List Event} (hlog : FromLast log)
    (hfirst : Hits force start i → lastDownload log = none) : FromLast (log ++ events) := by
  induction hrun generalizing log with
  | @last i node _ hnot hend =>
    rcases hend with rfl | ⟨hfetches, rfl | rfl⟩
    · rw [List.append_nil]
      exact fromLast_begun hlog
    · exact fromLast_attempt node hlog hfetches hfirst
    · have hcorrupt := fromLast_append (fromLast_attempt node hlog hfetches hfirst)
        (e := .corrupt) fun cached hfalse => by cases hfalse
      rw [List.append_assoc, List.append_assoc] at hcorrupt
      exact hcorrupt
  | @retry i node _ hretries hrest ih =>
    have hcorrupt := fromLast_append (fromLast_attempt node hlog hretries.1.1 hfirst)
      (e := .corrupt) fun cached hfalse => by cases hfalse
    have hall := ih hcorrupt fun hhits => absurd hhits.1 (Nat.succ_ne_zero _)
    simp only [List.append_assoc, List.cons_append, List.nil_append] at hall
    exact hall

/-! ## Installing -/

theorem hits_iff {log : List Event} :
    AtAttempt force start 0 { start with log := log } := by
  constructor
  · exact fun hcached => ⟨rfl, hcached⟩
  · exact fun hhits => hhits.2

/-- If the third attempt does not get to its download, the run ends with it. -/
theorem ends_of_once {node : Node} (hat : AtAttempt force start 0 node)
    (honce : ¬ (Retries env zip force start 0 ∧ Retries env zip force start 1 ∧
      Downloads env force start 2)) :
    ∃ result, installArchive env (.remote zip) force 3 0 node = some result := by
  by_cases hzero : Retries env zip force start 0
  · rw [installArchive_of_retries hat hzero]
    by_cases hone : Retries env zip force start 1
    · have htwo : ¬ Retries env zip force start 2 := fun htwo =>
        honce ⟨hzero, hone, downloads_of_fetches htwo.1.1⟩
      rw [installArchive_of_retries (atAttempt_retried node) hone]
      obtain ⟨result, -, hend, -⟩ := installArchive_of_not_retries (atAttempt_retried _) htwo 0
      rw [hend]
      exact ⟨_, rfl⟩
    · obtain ⟨result, -, hend, -⟩ := installArchive_of_not_retries (atAttempt_retried node) hone 1
      rw [hend]
      exact ⟨_, rfl⟩
  · obtain ⟨result, -, hend, -⟩ := installArchive_of_not_retries hat hzero 2
    exact ⟨result, hend⟩

theorem fromLast_nil : FromLast [] := by
  intro before cached after n heq
  exact absurd (heq ▸ List.mem_append_right before List.mem_cons_self) List.not_mem_nil

/-- What a run adds to an empty log. -/
theorem installs_iff {fuel : ℕ} {result : Result}
    (hrun : installArchive env (.remote zip) force fuel 0 { start with log := [] } = some result) :
    Installs env zip force start result ↔ Benign env zip force start := by
  obtain ⟨events, hlog, hevents⟩ := log_run hrun hits_iff
  obtain ⟨leaked, htmp, -, hleaked⟩ := tmpDirs_run hrun hits_iff
    fun j hj => absurd hj (Nat.not_lt_zero j)
  have hlog' : result.node.log = events := hlog
  have htmp' : result.node.tmpDirs = leaked ++ start.tmpDirs := htmp
  constructor
  · intro hinstalls
    refine ⟨?_, ?_⟩
    · rw [← retriedOnce_iff hevents, ← hlog']
      exact hinstalls.retriedOnce
    · have hnil : leaked = [] := by
        have hclean := hinstalls.cleanedUp
        rw [htmp'] at hclean
        exact List.append_left_eq_self.mp hclean
      exact fun i => hleaked.mp hnil i (Nat.zero_le i)
  · intro hbenign
    refine ⟨⟨fuel, hrun⟩, ?_, ?_, ?_⟩
    · rw [hlog', retriedOnce_iff hevents]
      exact hbenign.once
    · rw [htmp', hleaked.mpr fun k _ => hbenign.clean k, List.nil_append]
    · have hall := fromLast_run hevents fromLast_nil fun _ => rfl
      rw [hlog']
      exact hall

end

/-- The installation of an archive retries once and cleans up if and only if what happens outside
is benign. -/
theorem installs_iff_benign (env : Env) (zip force : Bool) (node : Node) :
    (∃ result, Installs env zip force node result) ↔ Benign env zip force node := by
  constructor
  · intro hinstalls
    obtain ⟨result, hresult⟩ := hinstalls
    obtain ⟨fuel, hrun⟩ := hresult.ends
    exact (installs_iff hrun).mp hresult
  · intro hbenign
    obtain ⟨result, hrun⟩ := ends_of_once hits_iff hbenign.once
    exact ⟨result, (installs_iff hrun).mpr hbenign⟩

/-- An unfinished download, every time. -/
def alwaysCorrupt : Env where
  outcome _ command :=
    if command = .tar then some (.nonzeroExit 2 "tar: Unexpected EOF in archive".toList) else none
  roots _ := 1
  sudoRoot := true
  tmpDir _ dirs := dirs.sum + 1
  tmpDir_fresh i dirs hmem := by
    have hle := List.le_sum_of_mem hmem
    omega

/-- A node without a cached file. -/
def freshNode : Node where
  cached := none
  downloads := 0
  tmpDirs := []
  dest := none
  log := []

theorem alwaysCorrupt_retries (i : ℕ) : Retries alwaysCorrupt false false freshNode i := by
  have hhits : ¬ Hits false freshNode i := fun hhits => absurd hhits.2.2 Bool.false_ne_true
  have hdown : Downloads alwaysCorrupt false freshNode i :=
    ⟨hhits, fun hforce => absurd hforce Bool.false_ne_true, rfl⟩
  exact ⟨⟨.inr ⟨hdown, rfl⟩, rfl⟩, ⟨rfl, rfl, rfl⟩, ⟨_, rfl, by decide⟩, rfl⟩

/-- The archive is downloaded again and again. -/
theorem alwaysCorrupt_not_installs :
    ¬ ∃ result, Installs alwaysCorrupt false false freshNode result := by
  intro hinstalls
  obtain ⟨result, hresult⟩ := hinstalls
  obtain ⟨fuel, hrun⟩ := hresult.ends
  have hbenign := (installs_iff hrun).mp hresult
  exact hbenign.once ⟨alwaysCorrupt_retries 0, alwaysCorrupt_retries 1,
    downloads_of_fetches (alwaysCorrupt_retries 2).1.1⟩

end Jepsen.Control.Util
