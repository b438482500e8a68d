/-
# What is written through a handle

Blocks are appended to a file and named by ids, and from time to time a block index is
appended and the start of the file made to point to it. A session is a handle with the
writes it has made so far; next to it, contents say what the blocks are there for.
-/

import Jepsen.Library.FileWrites
import Jepsen.Store.Handle

namespace Jepsen.Store

open Jepsen.Library

universe u

/-! ## Sessions -/

/-- A handle, and all writes to its file in order. -/
structure Session where
  handle : Handle
  journal : List FileWrite := []

namespace Session

/-- A session on a file. -/
def on (file : File) : Session := { handle := openHandle file }

/-- Write some bytes at a position. -/
def write (s : Session) (w : FileWrite) : Session where
  handle := { s.handle with file := w.apply s.handle.file }
  journal := s.journal ++ [w]

/-- Some writes, one after another. -/
def writeAll (s : Session) (writes : List FileWrite) : Session := writes.foldl write s

/-- `new-block-id!`, unless the id is given. -/
def claimId (s : Session) : Option ℤ → ℤ × Session
  | some id => (id, s)
  | none => ((newBlockId s.handle).1, { s with handle := (newBlockId s.handle).2 })

/-- `assoc-block!` -/
def assocBlock (s : Session) (id : ℤ) (offset : ℕ) : Session :=
  { s with handle := Store.assocBlock s.handle id (some offset) }

/-- `set-root!` -/
def setRoot (s : Session) (root : ℤ) : Session := { s with handle := Store.setRoot s.handle root }

/-- Data in pieces, as they are flushed, and then the header that goes with them. -/
def streamBlock (s : Session) (offset : ℕ) (blockType : BlockType) (pieces : List (List Byte)) :
    Session :=
  let s := s.writeAll (FileWrite.ofPieces (offset + blockHeaderSize) pieces)
  match blockHeaderForLengthAndChecksum blockType pieces.flatten.length
      (({} : Crc32).update pieces.flatten) with
  | some header => s.write ⟨offset, header⟩
  | none => s

/-- `write-block!`: the header, and then the data. -/
def writeBlock (s : Session) (offset : ℕ) (blockType : BlockType) (data : List Byte) : Session :=
  match blockHeaderForData blockType data with
  | some header => (s.write ⟨offset, header⟩).write ⟨offset + blockHeaderSize, data⟩
  | none => s

/-- `write-fressian-block!` -/
def writeFressianBlock (s : Session) (id : Option ℤ) (pieces : List (List Byte)) : Session :=
  let (id, s) := s.claimId id
  let offset := nextBlockOffset s.handle
  (s.streamBlock offset .fressian pieces).assocBlock id offset

/-- `write-partial-map-block!`: the id of the block with the rest of the map, and then the map. -/
def writePartialMapBlock (s : Session) (id : Option ℤ) (restId : Option ℤ)
    (pieces : List (List Byte)) : Session :=
  let (id, s) := s.claimId id
  let offset := nextBlockOffset s.handle
  (s.streamBlock offset .partialMap (putInt (restId.getD 0) :: pieces)).assocBlock id offset

/-- A `fressian-stream-block-writer!` that is closed before anything else is written. -/
def writeFressianStreamBlock (s : Session) (pieces : List (List Byte)) : Session :=
  let offset := nextBlockOffset s.handle
  let (id, s) := s.claimId none
  (s.streamBlock offset .fressianStream pieces).assocBlock id offset

/-- The data of a big vector block. -/
def bigVectorData (elementCount : ℤ) (chunks : List (ℤ × ℤ)) : List Byte :=
  putLong elementCount ++ chunks.flatMap fun chunk => putLong chunk.1 ++ putInt chunk.2

/-- `write-big-vector-block!` -/
def writeBigVectorBlock (s : Session) (id : ℤ) (elementCount : ℤ) (chunks : List (ℤ × ℤ)) :
    Session :=
  let offset := nextBlockOffset s.handle
  (s.writeBlock offset .bigVector (bigVectorData elementCount chunks)).assocBlock id offset

/-- `prep-write!` -/
def prepWrite (s : Session) : Except Thrown Unit × Session :=
  if s.handle.written then (.ok (), s)
  else if s.handle.version = none ∨ s.handle.version = some currentVersion then
    (.ok (),
      Session.writeAll
        { s with handle := { s.handle with written := true, version := some currentVersion } }
        [⟨magicOffset, magic⟩, ⟨versionOffset, putInt currentVersion⟩])
  else (.error .cantWriteOldVersion, { s with handle := { s.handle with written := true } })

/-- `write-block-index!` at an offset. -/
def writeBlockIndexAt (s : Session) (offset : ℕ) : Except Thrown Unit × Session :=
  match s.prepWrite with
  | (.error e, s) => (.error e, s)
  | (.ok (), s) =>
    (.ok (),
      (s.writeBlock offset .blockIndex (blockIndexData s.handle.index)).write
        ⟨blockIndexOffsetOffset, putLong offset⟩)

/-- `write-block-index!` -/
def writeBlockIndex (s : Session) : Except Thrown Unit × Session :=
  let (id, s) := s.claimId none
  let offset := nextBlockOffset s.handle
  (s.assocBlock id offset).writeBlockIndexAt offset

end Session

/-! ## Operations -/

/-- What is done with a handle. -/
inductive StoreOp
  | newBlockId
  | fressian (id : Option ℤ) (pieces : List (List Byte))
  | partialMap (id restId : Option ℤ) (pieces : List (List Byte))
  | fressianStream (pieces : List (List Byte))
  | bigVector (id elementCount : ℤ) (chunks : List (ℤ × ℤ))
  | setRoot (root : ℤ)
  | blockIndex
  /-- Any read: it prepares the handle, and changes nothing else. -/
  | read

section Step

variable {D : Type u} (decode : BlockType → List Byte → Option D)

/-- The session after an operation. -/
def Session.step (s : Session) : StoreOp → Session
  | .newBlockId => (s.claimId none).2
  | .fressian id pieces => s.writeFressianBlock id pieces
  | .partialMap id restId pieces => s.writePartialMapBlock id restId pieces
  | .fressianStream pieces => s.writeFressianStreamBlock pieces
  | .bigVector id elementCount chunks => s.writeBigVectorBlock id elementCount chunks
  | .setRoot root => s.setRoot root
  | .blockIndex => s.writeBlockIndex.2
  | .read => { s with handle := (prepRead decode s.handle).2 }

end Step

/-! ## Contents -/

/-- What an id stands for: an index, or a block of another type with some data. -/
inductive Stored
  | index
  | block (blockType : BlockType) (data : List Byte)

/-- The root, and what every id stands for; some are reserved. -/
structure Contents where
  root : Option ℤ
  blocks : ℤ → Option (Option Stored)

namespace Contents

/-- Nothing. -/
def empty : Contents := ⟨none, fun _ => none⟩

/-- An id stands for something else now. -/
def put (c : Contents) (id : ℤ) (stored : Option Stored) : Contents :=
  { c with blocks := Function.update c.blocks id (some stored) }

/-- The contents without reserved ids. -/
def saved (c : Contents) : Contents :=
  { c with blocks := fun id => (c.blocks id).bind fun stored => stored.map some }

end Contents

/-- Contents, those of the last block index in the file, and whether there was a read. -/
structure Archive where
  contents : Contents
  committed : Option Contents
  read : Bool

namespace Archive

/-- The archive of a file with some contents, before a handle has read them. -/
def on (committed : Option Contents) : Archive := ⟨.empty, committed, false⟩

/-- Contents after an id stands for some data. -/
def put (archive : Archive) (id : ℤ) (blockType : BlockType) (data : List Byte) : Archive :=
  { archive with contents := archive.contents.put id (some (.block blockType data)) }

/-- The archive after an operation, given the id that is fresh. The first read goes back to what is
committed. -/
def step (archive : Archive) (fresh : ℤ) : StoreOp → Archive
  | .newBlockId => { archive with contents := archive.contents.put fresh none }
  | .fressian id pieces => archive.put (id.getD fresh) .fressian pieces.flatten
  | .partialMap id restId pieces =>
      archive.put (id.getD fresh) .partialMap (putInt (restId.getD 0) ++ pieces.flatten)
  | .fressianStream pieces => archive.put fresh .fressianStream pieces.flatten
  | .bigVector id elementCount chunks =>
      archive.put id .bigVector (Session.bigVectorData elementCount chunks)
  | .setRoot root => { archive with contents := { archive.contents with root := some root } }
  | .blockIndex =>
      let contents := archive.contents.put fresh (some .index)
      { archive with contents := contents, committed := some contents.saved }
  | .read =>
      if archive.read then archive
      else { archive with contents := archive.committed.getD archive.contents, read := true }

end Archive

/-! ## Runs -/

section Run

variable {D : Type u} (decode : BlockType → List Byte → Option D)

/-- A session and its archive after an operation. -/
def stepBoth (both : Session × Archive) (op : StoreOp) : Session × Archive :=
  (both.1.step decode op, both.2.step (freshId both.1.handle.index) op)

/-- A session and its archive after some operations. -/
def runBoth (both : Session × Archive) (ops : List StoreOp) : Session × Archive :=
  ops.foldl (stepBoth decode) both

/-- What is committed after so many writes of a run. -/
def committedAt (both : Session × Archive) : List StoreOp → ℕ → Option Contents
  | [], _ => both.2.committed
  | op :: ops, n =>
      if (stepBoth decode both op).1.journal.length ≤ n then
        committedAt (stepBoth decode both op) ops n
      else both.2.committed

/-- The file and what is committed after a session that ends after so many writes. -/
def afterSession (saved : File × Option Contents) (session : List StoreOp × ℕ) :
    File × Option Contents :=
  let both := (Session.on saved.1, Archive.on saved.2)
  (FileWrite.applyAll saved.1 ((runBoth decode both session.1).1.journal.take session.2),
    committedAt decode both session.1 session.2)

/-- The file and what is committed after some sessions, of which the first one finds no file. -/
def afterSessions (sessions : List (List StoreOp × ℕ)) : File × Option Contents :=
  sessions.foldl (afterSession decode) ([], none)

end Run

/-! ## What a handle answers -/

section Serves

variable {D : Type u} (decode : BlockType → List Byte → Option D)

/-- What reading an id gives. -/
def Answers : Option (Option Stored) → Except Thrown (BlockData D) → Prop
  | none, answer => answer = .error .blockNotFound
  | some none, answer => answer = .error .undecodable
  | some (some .index), answer => ∃ index, answer = .ok (.index index)
  | some (some (.block blockType data)), answer =>
      answer = (decode blockType data).elim (.error .undecodable) fun d => .ok (.value blockType d)

/-- A handle that is prepared for reads has the root and every block of some contents. -/
structure Serves (h : Handle) (c : Contents) : Prop where
  root : h.index.root = c.root
  blocks : ∀ id, Answers decode (c.blocks id) (lookupBlock decode h id)

/-- A file, when it is opened and read: it has the committed contents, or it is no file with an
index yet. -/
def Recovers (file : File) : Option Contents → Prop
  | none =>
      (prepRead decode (openHandle file)).1 ∈
        [.error .magicMismatch, .error .versionIncomplete, .error .noBlockIndex]
  | some c =>
      (prepRead decode (openHandle file)).1 = .ok () ∧
        Serves decode (prepRead decode (openHandle file)).2 c

end Serves

/-! ## Sizes -/

/-- An int. -/
def IsInt (n : ℤ) : Prop := -2 ^ 31 ≤ n ∧ n < 2 ^ 31

/-- Ids are ints, no root is zero, and the index has an int as its size. -/
structure BlockIndex.Fits (index : BlockIndex) : Prop where
  root : ∀ root ∈ index.root, IsInt root ∧ root ≠ 0
  ids : ∀ id ∈ index.blocks.keys, IsInt id
  size : blockIdSize + (blockIdSize + blockOffsetSize) * index.blocks.entries.length < 2 ^ 31

/-- The index fits, and the size of the file is a long. -/
structure Session.Fits (s : Session) : Prop where
  index : s.handle.index.Fits
  file : s.handle.file.length < 2 ^ 63

/-- The data of a block has an int as its size. -/
def StoreOp.Fits : StoreOp → Prop
  | .fressian _ pieces => pieces.flatten.length < 2 ^ 31
  | .partialMap _ _ pieces => blockIdSize + pieces.flatten.length < 2 ^ 31
  | .fressianStream pieces => pieces.flatten.length < 2 ^ 31
  | .bigVector _ elementCount chunks =>
      (Session.bigVectorData elementCount chunks).length < 2 ^ 31
  | _ => True

instance (n : ℤ) : Decidable (IsInt n) := inferInstanceAs (Decidable (_ ∧ _))

instance (index : BlockIndex) : Decidable index.Fits :=
  decidable_of_iff
    ((∀ root ∈ index.root, IsInt root ∧ root ≠ 0) ∧ (∀ id ∈ index.blocks.keys, IsInt id) ∧
      blockIdSize + (blockIdSize + blockOffsetSize) * index.blocks.entries.length < 2 ^ 31)
    ⟨fun h => ⟨h.1, h.2.1, h.2.2⟩, fun h => ⟨h.root, h.ids, h.size⟩⟩

instance (s : Session) : Decidable s.Fits :=
  decidable_of_iff (s.handle.index.Fits ∧ s.handle.file.length < 2 ^ 63)
    ⟨fun h => ⟨h.1, h.2⟩, fun h => ⟨h.index, h.file⟩⟩

section FitsRun

variable {D : Type u} (decode : BlockType → List Byte → Option D)

/-- Everything in a run fits, and nothing is read before there is an index. -/
def FitsRun (both : Session × Archive) : List StoreOp → Prop
  | [] => True
  | op :: ops =>
      op.Fits ∧ (op = .read → both.2.committed ≠ none) ∧ (stepBoth decode both op).1.Fits ∧
        FitsRun (stepBoth decode both op) ops

/-- Everything in some sessions fits. -/
def FitSessions (saved : File × Option Contents) : List (List StoreOp × ℕ) → Prop
  | [] => True
  | session :: sessions =>
      FitsRun decode (Session.on saved.1, Archive.on saved.2) session.1 ∧
        FitSessions (afterSession decode saved session) sessions

end FitsRun

end Jepsen.Store
