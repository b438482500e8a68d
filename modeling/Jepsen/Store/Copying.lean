/-
# Copying what can be reached

A file keeps every block that was ever written to it. To collect the garbage, the root and
all blocks that it leads to are copied to a file of their own, with an index at its start,
and that file takes the place of the first one.
-/

import Jepsen.Library.Descent
import Jepsen.Library.Multimap
import Jepsen.Store.Sessions

namespace Jepsen.Store

open Jepsen.Library

universe u

/-- What is thrown while blocks are copied. -/
inductive CopyThrown
  | store (e : Thrown)
  | stackOverflow
  | notAtStart
  | unexpectedBlockIndexSize
  | copyFailed
  deriving DecidableEq

/-! ## References between blocks -/

/-- How to find the ids of the blocks that data refers to. -/
structure References (D : Type u) where
  /-- `find-references` -/
  find : D → List ℤ
  /-- `partial-map-rest-id` -/
  partialMapRestId : D → Option ℤ
  /-- The block ids of a chunked vector. -/
  chunkBlockIds : D → List ℤ

namespace References

variable {D : Type u} (refs : References D)

/-- The references of the data of a block. -/
def shallow : BlockData D → List ℤ
  | .index _ => []
  | .value .partialMap d => (refs.partialMapRestId d).toList
  | .value .bigVector d => refs.chunkBlockIds d
  | .value _ d => refs.find d

variable (decode : BlockType → List Byte → Option D)

/-- The references of a block. -/
def ofBlock (h : Handle) (id : ℤ) : Except CopyThrown (List ℤ) :=
  match lookupBlock decode h id with
  | .error e => .error (.store e)
  | .ok data => .ok (refs.shallow data)

/-- `block-references` of a block, on a stack of some depth. -/
def blockReferences (depth : ℕ) (h : Handle) (id : ℤ) : Except CopyThrown (Finset ℤ) :=
  Descent.descendants (refs.ofBlock decode h) .stackOverflow depth id

end References

/-! ## What is copied, and where to -/

/-- A block, as its header says how long it is. -/
structure Extent where
  id : ℤ
  offset : ℕ
  length : ℕ

/-- The extent of a block of a handle. -/
def extent (h : Handle) (id : ℤ) : Except CopyThrown Extent :=
  match h.index.blocks.lookup id with
  | some (some (.ofNat offset)) =>
    match readBlockHeader h.file offset with
    | .error e => .error (.store (.block e))
    | .ok header => .ok ⟨id, offset, blockHeaderLength header⟩
  | _ => .error (.store .undecodable)

/-- Extents of some blocks. -/
def extents (h : Handle) : List ℤ → Except CopyThrown (List Extent)
  | [] => .ok []
  | id :: ids =>
    match extent h id with
    | .error e => .error e
    | .ok e =>
      match extents h ids with
      | .error e => .error e
      | .ok es => .ok (e :: es)

/-- Root first, then by size, small blocks first. -/
def rootFirst (root : ℤ) (es : List Extent) : List Extent :=
  es.filter (fun e => decide (e.id = root)) ++
    (es.filter fun e => decide (e.id ≠ root)).insertionSort fun e e' => e.length ≤ e'.length

/-- The size of the block of an index with so many blocks, and itself. -/
def blockIndexSize (count : ℕ) : ℕ :=
  blockHeaderSize + (blockIdSize + (count + 1) * (blockIdSize + blockOffsetSize))

/-- The index of blocks that are one after another. -/
def layOut (root : ℤ) : ℕ → List Extent → BlockIndex → BlockIndex
  | _, [], index => index
  | offset, e :: es, index =>
    layOut root (offset + e.length) es
      { root := if root = e.id then some e.id else index.root
        blocks := index.blocks.insert e.id (some (offset : ℤ)) }

/-- Copy blocks to the position of the file that is written. -/
def transfer (file : File) : ℕ → List Extent → Session → Except CopyThrown Session
  | _, [], w => .ok w
  | position, e :: es, w =>
    let bytes := file.readAt e.offset e.length
    if bytes.length = e.length then
      transfer file (position + bytes.length) es (w.write ⟨position, bytes⟩)
    else .error .copyFailed

/-! ## Copying -/

section Copy

variable {D : Type u} (decode : BlockType → List Byte → Option D) (refs : References D)
variable (order : SetOrder ℤ) (depth : ℕ)

/-- Copy some blocks, of which one is the root, behind an index of them. -/
def copyBlocks (file : File) (root : ℤ) (blocks : List Extent) (w : Session) :
    Except CopyThrown Session :=
  let start := firstBlockOffset + blockIndexSize blocks.length
  -- Clobber the writer's block index.
  let w := { w with handle := { w.handle with index := layOut root start blocks ⟨none, ∅⟩ } }
  if nextBlockOffset w.handle = firstBlockOffset then
    match w.writeBlockIndex with
    | (.error e, _) => .error (.store e)
    | (.ok (), w) =>
      if nextBlockOffset w.handle = start then transfer file start blocks w
      else .error .unexpectedBlockIndexSize
  else .error .notAtStart

/-- `copy!`, when both handles are prepared. -/
def copyPrepared (r : Handle) (w : Session) : Except CopyThrown Session :=
  match r.index.root with
  | none => .ok w
  | some root =>
    match refs.blockReferences decode depth r root with
    | .error e => .error e
    | .ok ids =>
      match extents r (order.walk (insert root ids)) with
      | .error e => .error e
      | .ok es => copyBlocks r.file root (rootFirst root es) w

/-- `copy!` -/
def copy (r : Handle) (w : Session) : Except CopyThrown Session :=
  match prepRead decode r with
  | (.error e, _) => .error (.store e)
  | (.ok (), r) =>
    match w.prepWrite with
    | (.error e, _) => .error (.store e)
    | (.ok (), w) => copyPrepared decode refs order depth r w

/-- `gc!`: the file that takes the place of another one. -/
def gc (file : File) : Except CopyThrown Session :=
  copy decode refs order depth (openHandle file) (Session.on [])

end Copy

/-! ## What there is to be reached -/

namespace Contents

section Graph

variable {D : Type u} (decode : BlockType → List Byte → Option D) (refs : References D)

/-- The references of what an id stands for. -/
def references (c : Contents) (id : ℤ) : Except CopyThrown (List ℤ) :=
  match c.blocks id with
  | none => .error (.store .blockNotFound)
  | some none => .error (.store .undecodable)
  | some (some .index) => .ok []
  | some (some (.block blockType data)) =>
    match decode blockType data with
    | none => .error (.store .undecodable)
    | some d => .ok (refs.shallow (.value blockType d))

/-- An id that the root leads to. -/
def Live (c : Contents) (id : ℤ) : Prop :=
  ∃ root ∈ c.root, Descent.Reaches (c.references decode refs) root id

open Classical in
/-- The root and what it leads to, and nothing else. -/
noncomputable def live (c : Contents) : Contents :=
  { c with blocks := fun id => if c.Live decode refs id then c.blocks id else none }

theorem blocks_live_of_live {c : Contents} {id : ℤ} (hlive : c.Live decode refs id) :
    (c.live decode refs).blocks id = c.blocks id := if_pos hlive

theorem blocks_live_of_not_live {c : Contents} {id : ℤ} (hlive : ¬ c.Live decode refs id) :
    (c.live decode refs).blocks id = none := if_neg hlive

/-- Everything that the root leads to can be read, and no path of references goes on forever. -/
structure Collectable (c : Contents) : Prop where
  readable : ∀ id, c.Live decode refs id → ∃ ids, c.references decode refs id = .ok ids
  finite : ∀ root ∈ c.root,
    Acc (fun id' id => Descent.Refers (c.references decode refs) id id') root

end Graph

end Contents

end Jepsen.Store
