/-
# Handles of a file

A handle prepares itself for its first read, when it checks the start of the file and
loads the block index, and for its first write of a block index, when it writes the
start of the file. The flags that say that this was done are set before it is tried.
-/

import Jepsen.Library.Assoc
import Jepsen.Store.Blocks

namespace Jepsen.Store

open Jepsen.Library

universe u

/-! ## Handles -/

/-- A map of block ids to offsets, and the id of the root; ids without an offset are reserved. -/
structure BlockIndex where
  root : Option ℤ
  blocks : Assoc ℤ (Option ℤ)

/-- A handle, with its file. -/
structure Handle where
  file : File
  version : Option ℤ := none
  index : BlockIndex := ⟨none, ∅⟩
  written : Bool := false
  read : Bool := false

/-- `open` -/
def openHandle (file : File) : Handle := { file := file }

/-- What is thrown. -/
inductive Thrown
  | magicMismatch | versionIncomplete | versionMismatch | mixedVersion | cantWriteOldVersion
  | noBlockIndex | block (e : ReadError) | blockTypeMismatch | blockNotFound
  /-- Bytes that cannot be read as what they should be. -/
  | undecodable
  deriving DecidableEq

/-- The magic string at the start of Jepsen files. -/
def magic : List Byte := [0x4A, 0x45, 0x50, 0x53, 0x45, 0x4E]

def currentVersion : ℤ := 1

def magicOffset : ℕ := 0

def magicSize : ℕ := 6

def versionOffset : ℕ := magicOffset + magicSize

def versionSize : ℕ := 4

def blockIndexOffsetOffset : ℕ := versionOffset + versionSize

def blockOffsetSize : ℕ := 8

def firstBlockOffset : ℕ := blockIndexOffsetOffset + blockOffsetSize

def blockIdSize : ℕ := 4

/-! ## Signed integers -/

def getInt (bytes : List Byte) : ℤ := (BitVec.ofNat 32 (ofBytes bytes)).toInt

def getLong (bytes : List Byte) : ℤ := (BitVec.ofNat 64 (ofBytes bytes)).toInt

def putInt (n : ℤ) : List Byte := toBytes 4 (BitVec.ofInt 32 n).toNat

def putLong (n : ℤ) : List Byte := toBytes 8 (BitVec.ofInt 64 n).toNat

/-! ## Reading -/

/-- `check-magic` -/
def checkMagic (h : Handle) : Except Thrown Unit :=
  if h.file.readAt magicOffset magicSize = magic then .ok () else .error .magicMismatch

/-- `check-version!` -/
def checkVersion (h : Handle) : Except Thrown Handle :=
  let bytes := h.file.readAt versionOffset versionSize
  let fversion := getInt bytes
  if bytes.length ≠ versionSize then .error .versionIncomplete
  else if fversion ≠ 0 ∧ fversion ≠ 1 then .error .versionMismatch
  else if h.version = none ∨ h.version = some fversion then
    .ok { h with version := some fversion }
  else .error .mixedVersion

/-- `read-block-index-offset` -/
def readBlockIndexOffset (h : Handle) : Except Thrown ℤ :=
  let bytes := h.file.readAt blockIndexOffsetOffset blockOffsetSize
  let offset := getLong bytes
  if bytes.length ≠ blockOffsetSize ∨ offset = 0 then .error .noBlockIndex else .ok offset

/-- The mappings of an index block, up to so many of them. -/
def readMappings : ℕ → List Byte → Option (List (ℤ × ℤ))
  | _, [] => some []
  | 0, _ => none
  | n + 1, data =>
    if data.length < blockIdSize + blockOffsetSize then none
    else
      (readMappings n (data.drop (blockIdSize + blockOffsetSize))).map
        ((getInt (data.take blockIdSize),
          getLong ((data.drop blockIdSize).take blockOffsetSize)) :: ·)

/-- `read-block-index-block` -/
def readBlockIndexBlock (data : List Byte) : Option BlockIndex :=
  if data.length < blockIdSize then none
  else
    let root := getInt (data.take blockIdSize)
    (readMappings data.length (data.drop blockIdSize)).map fun mappings =>
      { root := if root = 0 then none else some root
        blocks := mappings.foldl (fun blocks p => blocks.insert p.1 (some p.2)) ∅ }

/-- The data of a block: an index, or what the data of another type is decoded to. -/
inductive BlockData (D : Type u)
  | index (index : BlockIndex)
  | value (blockType : BlockType) (d : D)

section Reads

variable {D : Type u} (decode : BlockType → List Byte → Option D)

/-- The data of a block of some type. -/
def decodeBlock (blockType : Option BlockType) (data : List Byte) : Option (BlockData D) :=
  match blockType with
  | none => none
  | some .blockIndex => (readBlockIndexBlock data).map .index
  | some other => (decode other data).map (.value other)

/-- What `read-block-by-offset` does when the handle is prepared. -/
def readBlockAt (h : Handle) (offset : ℤ) : Except Thrown (BlockData D) :=
  if offset < 0 then .error .undecodable
  else
    match readBlockByOffset h.file offset.toNat with
    | .error e => .error (.block e)
    | .ok (header, data) =>
      match decodeBlock decode (blockHeaderType header) data with
      | none => .error .undecodable
      | some blockData => .ok blockData

/-- `load-block-index!` -/
def loadBlockIndex (h : Handle) : Except Thrown Handle :=
  match readBlockIndexOffset h with
  | .error e => .error e
  | .ok offset =>
    -- The handle counts as prepared here.
    match readBlockAt decode h offset with
    | .error e => .error e
    | .ok (.value _ _) => .error .blockTypeMismatch
    | .ok (.index index) => .ok { h with index := index }

/-- `prep-read!`, and the handle after it. -/
def prepRead (h : Handle) : Except Thrown Unit × Handle :=
  if h.read then (.ok (), h)
  else
    let h := { h with read := true }
    match checkMagic h with
    | .error e => (.error e, h)
    | .ok () =>
      match checkVersion h with
      | .error e => (.error e, h)
      | .ok h =>
        match loadBlockIndex decode h with
        | .error e => (.error e, h)
        | .ok h => (.ok (), h)

/-- What `read-block-by-id` does when the handle is prepared. -/
def lookupBlock (h : Handle) (id : ℤ) : Except Thrown (BlockData D) :=
  match h.index.blocks.lookup id with
  | none => .error .blockNotFound
  -- It is reserved
  | some none => .error .undecodable
  | some (some offset) => readBlockAt decode h offset

/-- A read. -/
inductive Read
  | byOffset (offset : ℤ)
  | byId (id : ℤ)
  /-- `read-root`, and `read-test`, which reads nothing else at first. -/
  | root

/-- What a read does when the handle is prepared; none is nil. -/
def readPrepared (h : Handle) : Read → Except Thrown (Option (BlockData D))
  | .byOffset offset => (readBlockAt decode h offset).map some
  | .byId id => (lookupBlock decode h id).map some
  | .root =>
    match h.index.root with
    | none => .ok none
    | some root => (lookupBlock decode h root).map some

/-- A read, and the handle after it. -/
def perform (h : Handle) (read : Read) : Except Thrown (Option (BlockData D)) × Handle :=
  match prepRead decode h with
  | (.error e, h) => (.error e, h)
  | (.ok (), h) => (readPrepared decode h read, h)

/-- The handle after some reads. -/
def performAll (h : Handle) (reads : List Read) : Handle :=
  reads.foldl (fun h read => (perform decode h read).2) h

end Reads

/-! ## Writing -/

/-- `write-header!` -/
def writeHeader (h : Handle) : Except Thrown Handle :=
  if h.version = none ∨ h.version = some currentVersion then
    .ok
      { h with
        version := some currentVersion
        file := (h.file.writeAt magicOffset magic).writeAt versionOffset (putInt currentVersion) }
  else .error .cantWriteOldVersion

/-- `prep-write!`, and the handle after it. -/
def prepWrite (h : Handle) : Except Thrown Unit × Handle :=
  if h.written then (.ok (), h)
  else
    let h := { h with written := true }
    match writeHeader h with
    | .error e => (.error e, h)
    | .ok h => (.ok (), h)

/-- A fresh block id. -/
def freshId (index : BlockIndex) : ℤ :=
  match index.blocks.keys with
  -- Blocks start at 1
  | [] => 1
  | id :: ids => ids.foldl max id + 1

/-- `assoc-block!` -/
def assocBlock (h : Handle) (id : ℤ) (offset : Option ℤ) : Handle :=
  { h with index := { h.index with blocks := h.index.blocks.insert id offset } }

/-- `new-block-id!` -/
def newBlockId (h : Handle) : ℤ × Handle := (freshId h.index, assocBlock h (freshId h.index) none)

/-- `next-block-offset` -/
def nextBlockOffset (h : Handle) : ℕ := max h.file.length firstBlockOffset

/-- `set-root!` -/
def setRoot (h : Handle) (root : ℤ) : Handle :=
  { h with index := { h.index with root := some root } }

/-- `write-block!`: the header, and then the data. -/
def writeBlock (file : File) (offset : ℕ) (blockType : BlockType) (data : List Byte) : File :=
  match blockHeaderForData blockType data with
  | some header => (writeBlockHeader file offset header).writeAt (offset + blockHeaderSize) data
  | none => file

/-- The data of an index block, without what is reserved. -/
def blockIndexData (index : BlockIndex) : List Byte :=
  putInt (index.root.getD 0) ++ index.blocks.entries.flatMap fun e =>
    match e.2 with
    | none => []
    | some offset => putInt e.1 ++ putLong offset

/-- `write-block-index-offset!` -/
def writeBlockIndexOffset (file : File) (root : ℕ) : File :=
  file.writeAt blockIndexOffsetOffset (putLong root)

/-- `write-block-index!`, at an offset, and the handle after it. -/
def writeBlockIndexAt (h : Handle) (offset : ℕ) : Except Thrown Unit × Handle :=
  match prepWrite h with
  | (.error e, h) => (.error e, h)
  | (.ok (), h) =>
    (.ok (),
      { h with
        file := writeBlockIndexOffset (writeBlock h.file offset .blockIndex (blockIndexData h.index))
          offset })

/-- `write-block-index!`, as a new block, and the handle after it. -/
def writeBlockIndex (h : Handle) : Except Thrown Unit × Handle :=
  let (id, h) := newBlockId h
  let offset := nextBlockOffset h
  writeBlockIndexAt (assocBlock h id (some offset)) offset

end Jepsen.Store
