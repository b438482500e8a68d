/-
# What is in a file after a crash

The pointer to the block index moves when the block it points to is there, and nothing
that an index stands for is written again. So a file that is left after any of its
writes is read with the contents of the last block index that was finished; and a
session that goes on with this file finds it as any other.
-/

import Jepsen.Store.SessionWrites

namespace Jepsen.Store

open Jepsen.Library FileWrite

universe u

variable {D : Type u} {decode : BlockType → List Byte → Option D}

/-! ## What a session keeps -/

/-- A session on a file, and its archive. -/
structure Agrees (file : File) (s : Session) (archive : Archive) : Prop where
  journal : s.handle.file = applyAll file s.journal
  represents : Represents s.handle.file s.handle.index archive.contents
  read : s.handle.read = archive.read
  version : s.handle.version = none ∨ s.handle.version = some currentVersion
  written : s.handle.written = true →
    s.handle.version = some currentVersion ∧ archive.committed ≠ none
  settled : Settled s.handle.file archive.committed

theorem agrees_on {file : File} {committed : Option Contents} (hsettled : Settled file committed) :
    Agrees file (Session.on file) (Archive.on committed) where
  journal := rfl
  represents := ⟨rfl, fun _ => trivial⟩
  read := rfl
  version := Or.inl rfl
  written h := absurd h Bool.false_ne_true
  settled := hsettled

theorem Agrees.appends {file : File} {s s' : Session} {archive archive' : Archive}
    {writes : List FileWrite} (hagrees : Agrees file s archive)
    (happends : Appends s s' archive'.contents writes) (hread : archive'.read = archive.read)
    (hcommitted : archive'.committed = archive.committed) : Agrees file s' archive' := by
  obtain ⟨index, rfl⟩ := happends.extended
  refine ⟨?_, happends.represents, hagrees.read.trans hread.symm, hagrees.version, ?_, ?_⟩
  · unfold Session.extend
    rw [applyAll_append, ← hagrees.journal]
  · rw [hcommitted]
    exact hagrees.written
  · rw [hcommitted]
    exact hagrees.settled.applyAll happends.after

/-! ## The step that writes an index -/

theorem Stored.At.lt_length {file : File} {offset : ℕ} {stored : Stored}
    (hstored : stored.At file offset) : offset < file.length := by
  have hheader : blockHeaderSize = 28 := rfl
  have hlt : ∀ {blockType data}, Intact file offset blockType data → offset < file.length := by
    intro blockType data hintact
    have hwithin := hintact.within
    omega
  cases stored with
  | index =>
    obtain ⟨index, hindex⟩ := hstored
    exact hlt hindex.intact
  | block blockType data => exact hlt hstored.2

/-- The offsets of an index are longs if the length of its file is. -/
theorem Represents.isLong {file : File} {index : BlockIndex} {c : Contents}
    (hrep : Represents file index c) (hfile : file.length < 2 ^ 63) {id offset : ℤ}
    (hlookup : index.blocks.lookup id = some (some offset)) : IsLong offset := by
  have hmapped := hrep.mapped id
  rw [hlookup] at hmapped
  generalize c.blocks id = stored at hmapped
  rcases stored with _ | _ | stored
  · exact hmapped.elim
  · exact hmapped.elim
  · obtain ⟨n, rfl, hstored⟩ := hmapped
    have hlt := hstored.lt_length
    constructor <;> omega

theorem lookup_indexWithItself (s : Session) (id : ℤ) :
    s.indexWithItself.blocks.lookup id =
      if id = freshId s.handle.index then some (some (nextBlockOffset s.handle : ℤ))
      else s.handle.index.blocks.lookup id := by
  refine (lookup_assocBlock _ _ _ _).trans ?_
  by_cases heq : id = freshId s.handle.index
  · rw [if_pos heq, if_pos heq]
  · rw [if_neg heq, if_neg heq]
    exact (lookup_assocBlock _ _ _ _).trans (if_neg heq)

/-- Where the writes of an index are. -/
theorem after_of_mem_indexBlockWrites {s : Session} {w : FileWrite}
    (hw : w ∈ s.indexBlockWrites) : nextBlockOffset s.handle ≤ w.position := by
  unfold Session.indexBlockWrites at hw
  rw [List.mem_cons, List.mem_singleton] at hw
  rcases hw with rfl | rfl
  · exact le_rfl
  · exact Nat.le_add_right _ _

/-- The file after the writes of an index, with some others first. -/
def Session.indexedFile (s : Session) (prep : List FileWrite) : File :=
  applyAll s.handle.file (prep ++ (s.indexBlockWrites ++ [s.pointerWrite]))

theorem length_pointerWrite (s : Session) : s.pointerWrite.bytes.length = blockOffsetSize :=
  length_putLong _

theorem spares_pointerWrite (s : Session) (n : ℕ) : Spares n s.pointerWrite := by
  right
  rw [length_pointerWrite]
  exact le_rfl

/-- The block of the index is there when it was written. -/
theorem intact_indexedFile {s : Session} (prep : List FileWrite)
    (hsize : (blockIndexData s.indexWithItself).length < 2 ^ 31) :
    Intact (s.indexedFile prep) (nextBlockOffset s.handle) .blockIndex
      (blockIndexData s.indexWithItself) := by
  unfold Session.indexedFile
  rw [applyAll_append, applyAll_append]
  refine (intact_of_write (le_max_right _ _) .blockIndex hsize).applyAll fun w hw => ?_
  rw [List.mem_singleton.mp hw]
  exact spares_pointerWrite s _

/-- The start of the file stays, up to the pointer. -/
theorem readAt_indexedFile {s : Session} {prep : List FileWrite}
    (hlength : blockIndexOffsetOffset ≤ (applyAll s.handle.file prep).length) {position size : ℕ}
    (hle : position + size ≤ blockIndexOffsetOffset) :
    (s.indexedFile prep).readAt position size =
      (applyAll s.handle.file prep).readAt position size := by
  unfold Session.indexedFile
  rw [applyAll_append]
  refine readAt_applyAll (hle.trans hlength) fun w hw => Or.inl (hle.trans ?_)
  rw [List.mem_append, List.mem_singleton] at hw
  rcases hw with hw | rfl
  · exact le_trans (by decide) ((le_max_right _ _).trans (after_of_mem_indexBlockWrites hw))
  · exact le_rfl

theorem readAt_pointer (s : Session) (prep : List FileWrite) :
    (s.indexedFile prep).readAt blockIndexOffsetOffset blockOffsetSize =
      putLong (nextBlockOffset s.handle) := by
  unfold Session.indexedFile
  rw [applyAll_append, applyAll_append, ← length_pointerWrite s]
  exact readAt_applyAll_singleton _ s.pointerWrite

/-- The writes of an index, after those at the start of the file. -/
theorem committed_writes {s : Session} {c : Contents} {prep : List FileWrite}
    (hrep : Represents s.handle.file s.handle.index c)
    (hmagic : (applyAll s.handle.file prep).readAt magicOffset magicSize = magic)
    (hversion : (applyAll s.handle.file prep).readAt versionOffset versionSize =
      putInt currentVersion)
    (hlength : blockIndexOffsetOffset ≤ (applyAll s.handle.file prep).length)
    (hprep : ∀ w ∈ prep, w.position + w.bytes.length ≤ blockIndexOffsetOffset)
    (hfits : s.indexWithItself.Fits)
    (hfile : (s.indexedFile prep).length < 2 ^ 63) :
    Represents (s.indexedFile prep)
        s.indexWithItself (c.put (freshId s.handle.index) (some .index)) ∧
      Committed (s.indexedFile prep)
        (c.put (freshId s.handle.index) (some .index)).saved := by
  have hspares : ∀ w ∈ prep ++ (s.indexBlockWrites ++ [s.pointerWrite]),
      Spares s.handle.file.length w := by
    intro w hw
    rw [List.mem_append, List.mem_append, List.mem_singleton] at hw
    rcases hw with hw | hw | rfl
    · exact Or.inr ((hprep w hw).trans (by decide))
    · exact Or.inl ((le_max_left _ _).trans (after_of_mem_indexBlockWrites hw))
    · exact spares_pointerWrite s _
  have hold : Represents (s.indexedFile prep) s.handle.index c := hrep.applyAll hspares
  have hintact := intact_indexedFile prep (length_blockIndexData_lt hfits)
  have hlong : IsLong (nextBlockOffset s.handle : ℤ) := by
    have hwithin := hintact.within
    constructor <;> omega
  have hindex : IndexAt (s.indexedFile prep) (nextBlockOffset s.handle)
      s.indexWithItself := by
    refine ⟨hintact, hfits, fun id offset hlookup => ?_⟩
    rw [lookup_indexWithItself] at hlookup
    split_ifs at hlookup with heq
    · cases hlookup
      exact hlong
    · exact hold.isLong hfile hlookup
  have hmapped : Mapped (s.indexedFile prep) (some (some (nextBlockOffset s.handle : ℤ)))
      (some (some .index)) := ⟨nextBlockOffset s.handle, rfl, s.indexWithItself, hindex⟩
  have hnew : Represents (s.indexedFile prep) s.indexWithItself
      (c.put (freshId s.handle.index) (some .index)) :=
    hold.put rfl (lookup_indexWithItself s) hmapped
  exact ⟨hnew,
    { magic := (readAt_indexedFile hlength (by decide)).trans hmagic
      version := (readAt_indexedFile hlength (by decide)).trans hversion
      pointed := ⟨_, _, _, hlong, readAt_pointer s prep, hindex, hnew, rfl⟩ }⟩

/-- What an operation does to what a session keeps, and to a file that is left after some of its
writes. -/
structure Kept (file : File) (s s' : Session) (archive archive' : Archive) : Prop where
  agrees : Agrees file s' archive'
  crash : ∀ n, s.journal.length ≤ n → n < s'.journal.length →
    Settled (applyAll file (s'.journal.take n)) archive.committed
  extended : s.journal <+: s'.journal

theorem applyAll_take_journal {file : File} {s : Session} {archive : Archive}
    (hagrees : Agrees file s archive) (writes : List FileWrite) {n : ℕ}
    (hn : s.journal.length ≤ n) :
    applyAll file ((s.journal ++ writes).take n) =
      applyAll s.handle.file (writes.take (n - s.journal.length)) := by
  rw [List.take_append, List.take_of_length_le hn, applyAll_append, ← hagrees.journal]

/-- An operation that appends blocks. -/
theorem kept_appends {file : File} {s s' : Session} {archive archive' : Archive}
    {writes : List FileWrite} (hagrees : Agrees file s archive)
    (happends : Appends s s' archive'.contents writes) (hread : archive'.read = archive.read)
    (hcommitted : archive'.committed = archive.committed) : Kept file s s' archive archive' where
  agrees := hagrees.appends happends hread hcommitted
  crash n hn _ := by
    obtain ⟨index, rfl⟩ := happends.extended
    unfold Session.extend
    rw [applyAll_take_journal hagrees writes hn]
    exact hagrees.settled.applyAll fun w hw => happends.after w (List.mem_of_mem_take hw)
  extended := by
    obtain ⟨index, rfl⟩ := happends.extended
    exact List.prefix_append _ _

/-! ### Writing an index -/

theorem end_le_of_mem_headerWrites {w : FileWrite} (hw : w ∈ headerWrites) :
    w.position + w.bytes.length ≤ blockIndexOffsetOffset := by
  unfold headerWrites at hw
  rw [List.mem_cons, List.mem_singleton] at hw
  rcases hw with rfl | rfl
  · decide
  · decide

theorem mem_headerWrites_of_mem_prepWrites {s : Session} {w : FileWrite}
    (hw : w ∈ s.prepWrites) : w ∈ headerWrites := by
  unfold Session.prepWrites at hw
  split_ifs at hw with hwritten
  · exact absurd hw List.not_mem_nil
  · exact hw

/-- Writes that end somewhere do not make a file longer than that. -/
theorem length_applyAll_le {file : File} {writes : List FileWrite} {limit : ℕ}
    (hend : ∀ w ∈ writes, w.position + w.bytes.length ≤ limit) :
    (applyAll file writes).length ≤ max file.length limit := by
  induction writes generalizing file with
  | nil => exact le_max_left _ _
  | cons w writes ih =>
    rw [List.forall_mem_cons] at hend
    have happly : (w.apply file).length ≤ max file.length limit := by
      unfold FileWrite.apply
      by_cases hne : w.bytes = []
      · rw [hne, File.writeAt_nil]
        exact le_max_left _ _
      · rw [File.length_writeAt hne]
        exact max_le_max le_rfl hend.1
    exact (ih hend.2).trans (max_le happly (le_max_right _ _))

/-- What is committed stays while an index is written, until the pointer moves. -/
theorem Agrees.settled_of_index {file : File} {s : Session} {archive : Archive}
    (hagrees : Agrees file s archive) (n : ℕ) :
    Settled (applyAll s.handle.file ((s.prepWrites ++ s.indexBlockWrites).take n))
      archive.committed := by
  have hprep : Settled (applyAll s.handle.file (s.prepWrites.take n)) archive.committed := by
    unfold Session.prepWrites
    split_ifs with hwritten
    · rw [List.take_nil]
      exact hagrees.settled
    · exact hagrees.settled.applyAll_headerWrites n
  have hlength : (applyAll s.handle.file (s.prepWrites.take n)).length ≤
      nextBlockOffset s.handle :=
    length_applyAll_le fun w hw =>
      (end_le_of_mem_headerWrites
        (mem_headerWrites_of_mem_prepWrites (List.mem_of_mem_take hw))).trans (by decide)
  rw [List.take_append, applyAll_append]
  refine hprep.applyAll fun w hw => ?_
  exact (max_le hlength (le_max_right _ _)).trans
    (after_of_mem_indexBlockWrites (List.mem_of_mem_take hw))

/-- The start of the file when the index is written. -/
theorem Agrees.readAt_prepWrites {file : File} {s : Session} {archive : Archive}
    (hagrees : Agrees file s archive) :
    (applyAll s.handle.file s.prepWrites).readAt magicOffset magicSize = magic ∧
      (applyAll s.handle.file s.prepWrites).readAt versionOffset versionSize =
        putInt currentVersion := by
  unfold Session.prepWrites
  split_ifs with hwritten
  · have hsettled := hagrees.settled
    obtain ⟨c, hc⟩ := Option.ne_none_iff_exists'.mp (hagrees.written hwritten).2
    rw [hc] at hsettled
    exact ⟨hsettled.magic, hsettled.version⟩
  · exact readAt_headerWrites s.handle.file

/-- The session with the index that it is going to write. -/
def Session.indexed (s : Session) : Session :=
  { s with handle := { s.handle with index := s.indexWithItself } }

theorem step_blockIndex_eq (s : Session) :
    s.step decode .blockIndex = (s.indexed.writeBlockIndexAt (nextBlockOffset s.handle)).2 := rfl

theorem index_writeBlock (s : Session) (offset : ℕ) (blockType : BlockType) (data : List Byte) :
    (s.writeBlock offset blockType data).handle.index = s.handle.index := by
  unfold Session.writeBlock
  cases blockHeaderForData blockType data with
  | none => rfl
  | some header => rfl

theorem index_writeBlockIndexAt (s : Session) (offset : ℕ) :
    (s.writeBlockIndexAt offset).2.handle.index = s.handle.index := by
  unfold Session.writeBlockIndexAt Session.prepWrite
  split_ifs with hwritten hversion
  · dsimp only [Session.write]
    exact index_writeBlock _ _ _ _
  · dsimp only [Session.write]
    rw [index_writeBlock, Session.writeAll_eq, Session.index_extend]
  · rfl

/-- A session after it wrote an index. -/
theorem step_blockIndex {s : Session}
    (hversion : s.handle.version = none ∨ s.handle.version = some currentVersion)
    (hwritten : s.handle.written = true → s.handle.version = some currentVersion)
    (hsize : (blockIndexData s.indexWithItself).length < 2 ^ 31) :
    s.step decode .blockIndex =
      { handle :=
          { s.handle with
            file := s.indexedFile s.prepWrites
            index := s.indexWithItself
            written := true
            version := some currentVersion }
        journal := s.journal ++ (s.prepWrites ++ (s.indexBlockWrites ++ [s.pointerWrite])) } := by
  rw [step_blockIndex_eq, @Session.writeBlockIndexAt_eq s.indexed hversion hwritten hsize]
  rfl

theorem kept_blockIndex {file : File} {s : Session} {archive : Archive}
    (hagrees : Agrees file s archive) (hfits : (s.step decode .blockIndex).Fits) :
    Kept file s (s.step decode .blockIndex) archive
      (archive.step (freshId s.handle.index) .blockIndex) := by
  have hindexFits : s.indexWithItself.Fits := by
    have hindex := hfits.index
    rw [step_blockIndex_eq, index_writeBlockIndexAt] at hindex
    exact hindex
  have hstep := @step_blockIndex D decode s hagrees.version
    (fun hwritten => (hagrees.written hwritten).1) (length_blockIndexData_lt hindexFits)
  have hjournal := congrArg Session.journal hstep
  have hhandle := congrArg Session.handle hstep
  dsimp only at hjournal hhandle
  have hstart := hagrees.readAt_prepWrites
  have hlength : blockIndexOffsetOffset ≤ (applyAll s.handle.file s.prepWrites).length :=
    le_length_of_readAt (putInt_ne_nil _) hstart.2
  have hfile : (s.indexedFile s.prepWrites).length < 2 ^ 63 := by
    have hfile := hfits.file
    rw [hhandle] at hfile
    exact hfile
  obtain ⟨hrep, hcommitted⟩ := committed_writes hagrees.represents hstart.1 hstart.2 hlength
    (fun w hw => end_le_of_mem_headerWrites (mem_headerWrites_of_mem_prepWrites hw)) hindexFits
    hfile
  refine ⟨⟨?_, ?_, ?_, ?_, ?_, ?_⟩, ?_, ?_⟩
  · rw [hjournal, hhandle, applyAll_append, ← hagrees.journal]
    rfl
  · rw [hhandle]
    exact hrep
  · rw [hhandle]
    exact hagrees.read
  · rw [hhandle]
    exact Or.inr rfl
  · intro _
    rw [hhandle]
    exact ⟨rfl, Option.some_ne_none _⟩
  · rw [hhandle]
    exact hcommitted
  · intro n hn hlt
    rw [hjournal] at hlt ⊢
    rw [applyAll_take_journal hagrees _ hn, ← List.append_assoc, List.take_append_of_le_length]
    · exact hagrees.settled_of_index _
    · rw [List.length_append, ← List.append_assoc, List.length_append, List.length_singleton] at hlt
      omega
  · rw [hjournal]
    exact List.prefix_append _ _

/-! ### Reading -/

theorem kept_read {file : File} {s : Session} {archive : Archive}
    (hagrees : Agrees file s archive) (hcommitted : archive.committed ≠ none) :
    Kept file s (s.step decode .read) archive
      (archive.step (freshId s.handle.index) .read) := by
  obtain ⟨c, hc⟩ := Option.ne_none_iff_exists'.mp hcommitted
  have hsettled := hagrees.settled
  rw [hc] at hsettled
  refine ⟨?_, fun n hn hlt => absurd hlt (not_lt.mpr hn), List.prefix_rfl⟩
  unfold Session.step Archive.step
  dsimp only
  rw [← hagrees.read]
  cases hread : s.handle.read with
  | true =>
    rw [prepRead_of_read hread, if_pos rfl]
    exact hagrees
  | false =>
    obtain ⟨index, hprep, hrep⟩ := @Committed.prepRead D decode _ _ hsettled hread hagrees.version
    rw [hprep, if_neg Bool.false_ne_true, hc]
    exact ⟨hagrees.journal, hrep, rfl, Or.inr rfl, fun _ => ⟨rfl, Option.some_ne_none _⟩, hsettled⟩

/-! ## Runs -/

/-- One operation. -/
theorem kept_step {file : File} {both : Session × Archive} (hagrees : Agrees file both.1 both.2)
    {op : StoreOp} (hop : op.Fits) (hread : op = .read → both.2.committed ≠ none)
    (hfits : (stepBoth decode both op).1.Fits) :
    Kept file both.1 (stepBoth decode both op).1 both.2 (stepBoth decode both op).2 := by
  cases op with
  | blockIndex => exact @kept_blockIndex D decode file both.1 both.2 hagrees hfits
  | read => exact kept_read hagrees (hread rfl)
  | _ =>
    obtain ⟨writes, happends⟩ := @step_appends D decode _ _ hagrees.represents _ hop (by rintro ⟨⟩)
      (by rintro ⟨⟩)
    exact kept_appends hagrees happends rfl rfl

/-- All operations of a run, and a file that is left after some of its writes. -/
theorem kept_run {file : File} {both : Session × Archive} (hagrees : Agrees file both.1 both.2)
    {ops : List StoreOp} (hfits : FitsRun decode both ops) :
    Agrees file (runBoth decode both ops).1 (runBoth decode both ops).2 ∧
      both.1.journal <+: (runBoth decode both ops).1.journal ∧
      ∀ n, both.1.journal.length ≤ n →
        Settled (applyAll file ((runBoth decode both ops).1.journal.take n))
          (committedAt decode both ops n) := by
  induction ops generalizing both with
  | nil =>
    refine ⟨hagrees, List.prefix_rfl, fun n hn => ?_⟩
    have hall : (runBoth decode both []).1.journal.take n = both.1.journal :=
      List.take_of_length_le hn
    rw [hall, ← hagrees.journal]
    exact hagrees.settled
  | cons op ops ih =>
    obtain ⟨hop, hread, hstep, hrest⟩ := hfits
    have hkept := kept_step hagrees hop hread hstep
    obtain ⟨hfinal, hprefix, hcrash⟩ := ih hkept.agrees hrest
    refine ⟨hfinal, hkept.extended.trans hprefix, fun n hn => ?_⟩
    unfold committedAt
    split_ifs with hdone
    · exact hcrash n hdone
    · have htake : (runBoth decode both (op :: ops)).1.journal.take n =
          (stepBoth decode both op).1.journal.take n := by
        obtain ⟨later, hlater⟩ := hprefix
        have hjournal : (runBoth decode both (op :: ops)).1.journal =
            (stepBoth decode both op).1.journal ++ later := hlater.symm
        rw [hjournal, List.take_append_of_le_length (not_le.mp hdone).le]
      rw [htake]
      exact hkept.crash n hn (not_le.mp hdone)

theorem settled_afterSessions {sessions : List (List StoreOp × ℕ)}
    {saved : File × Option Contents} (hsettled : Settled saved.1 saved.2)
    (hfits : FitSessions decode saved sessions) :
    Settled (sessions.foldl (afterSession decode) saved).1
      (sessions.foldl (afterSession decode) saved).2 := by
  induction sessions generalizing saved with
  | nil => exact hsettled
  | cons session sessions ih =>
    exact ih ((kept_run (agrees_on hsettled) hfits.1).2.2 session.2 (Nat.zero_le _)) hfits.2

/-- No data but that of indices can be read. -/
def indicesOnly : BlockType → List Byte → Option Unit := fun _ _ => none

/-- The first session ends after all of its writes, the second one in the middle of an index. -/
def twoSessions : List (List StoreOp × ℕ) :=
  [([.fressian none [[7]], .setRoot 1, .blockIndex], 7),
    ([.read, .fressian (some 1) [[8]], .blockIndex], 5)]

theorem twoSessions_fit : FitSessions indicesOnly ([], none) twoSessions := by
  refine ⟨⟨(by decide : [[(7 : Byte)]].flatten.length < 2 ^ 31), ?_, ?_, trivial, ?_, ?_,
    trivial, ?_, ?_, trivial⟩, ⟨trivial, fun _ => Option.some_ne_none _, ?_,
    (by decide : [[(8 : Byte)]].flatten.length < 2 ^ 31), ?_, ?_, trivial, ?_, ?_, trivial⟩,
    trivial⟩
  case refine_1 | refine_3 | refine_5 | refine_8 | refine_10 => rintro ⟨⟩
  all_goals decide +kernel

/-- Ids come before a fresh one. -/
theorem lt_freshId {index : BlockIndex} {id : ℤ} (hid : id ∈ index.blocks.keys) :
    id < freshId index := by
  unfold freshId
  cases hkeys : index.blocks.keys with
  | nil =>
    rw [hkeys] at hid
    exact absurd hid List.not_mem_nil
  | cons first ids =>
    have hle : ∀ (l : List ℤ) (start : ℤ), start ≤ l.foldl max start ∧
        ∀ other ∈ l, other ≤ l.foldl max start := by
      intro l
      induction l with
      | nil => exact fun start => ⟨le_rfl, fun other hmem => absurd hmem List.not_mem_nil⟩
      | cons first l ih =>
        intro start
        rw [List.forall_mem_cons, List.foldl_cons]
        obtain ⟨hstart, hlater⟩ := ih (max start first)
        exact ⟨(le_max_left _ _).trans hstart, (le_max_right _ _).trans hstart, hlater⟩
    obtain ⟨hfirst, hlater⟩ := hle ids first
    rw [hkeys] at hid
    dsimp only
    cases List.mem_cons.mp hid with
    | inl heq => omega
    | inr hin =>
      have hin' := hlater id hin
      omega

theorem freshId_notMem (index : BlockIndex) : freshId index ∉ index.blocks.keys :=
  fun hmem => lt_irrefl _ (lt_freshId hmem)

/-- A fresh id does not stand for anything. -/
theorem Represents.blocks_freshId {file : File} {index : BlockIndex} {c : Contents}
    (hrep : Represents file index c) : c.blocks (freshId index) = none := by
  have hmapped := hrep.mapped (freshId index)
  rw [AList.lookup_eq_none.mpr fun hmem => freshId_notMem index (AList.mem_keys.mp hmem)] at hmapped
  cases hblock : c.blocks (freshId index) with
  | none => rfl
  | some stored =>
    rw [hblock] at hmapped
    exact hmapped.elim

/-- The session and its archive after some operations, on the file that other sessions left. -/
def runAfter (decode : BlockType → List Byte → Option D) (sessions : List (List StoreOp × ℕ))
    (ops : List StoreOp) : Session × Archive :=
  runBoth decode
    (Session.on (afterSessions decode sessions).1, Archive.on (afterSessions decode sessions).2) ops

/-- A third session reads the index, and then writes to the block of the first one. -/
def thirdSession : List StoreOp := [.read, .fressian (some 1) [[9]]]

theorem thirdSession_fits :
    FitsRun indicesOnly
      (Session.on (afterSessions indicesOnly twoSessions).1,
        Archive.on (afterSessions indicesOnly twoSessions).2) thirdSession := by
  refine ⟨trivial, fun _ => Option.ne_none_iff_isSome.mpr ?_, ?_,
    (by decide : [[(9 : Byte)]].flatten.length < 2 ^ 31), ?_, ?_, trivial⟩
  case refine_3 => rintro ⟨⟩
  all_goals decide +kernel

end Jepsen.Store
