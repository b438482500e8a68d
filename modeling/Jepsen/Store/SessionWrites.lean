/-
# What the operations of a session write

Every operation but writing an index and reading appends blocks at the end of the file,
and the index goes on to stand for the contents.
-/

import Jepsen.Store.IndexedFiles

namespace Jepsen.Store

open Jepsen.Library FileWrite

universe u

variable {D : Type u} {decode : BlockType → List Byte → Option D}

/-! ## What the operations write -/

namespace Session

/-- A session after some writes, with another index. -/
def extend (s : Session) (writes : List FileWrite) (index : BlockIndex) : Session where
  handle := { s.handle with file := applyAll s.handle.file writes, index := index }
  journal := s.journal ++ writes

theorem extend_nil (s : Session) : s.extend [] s.handle.index = s := by
  unfold extend
  rw [List.append_nil]
  rfl

theorem index_extend (s : Session) (writes : List FileWrite) (index : BlockIndex) :
    (s.extend writes index).handle.index = index := rfl

theorem extend_extend (s : Session) (writes writes' : List FileWrite) (index index' : BlockIndex) :
    (s.extend writes index).extend writes' index' = s.extend (writes ++ writes') index' := by
  unfold extend
  rw [applyAll_append, List.append_assoc]

theorem writeAll_eq (s : Session) (writes : List FileWrite) :
    s.writeAll writes = s.extend writes s.handle.index := by
  unfold writeAll
  induction writes generalizing s with
  | nil => exact (extend_nil s).symm
  | cons w writes ih =>
    rw [List.foldl_cons, ih]
    have hwrite : s.write w = s.extend [w] s.handle.index := rfl
    rw [hwrite, extend_extend]
    rfl

theorem write_eq (s : Session) (w : FileWrite) : s.write w = s.extend [w] s.handle.index := rfl

theorem streamBlock_eq (s : Session) (offset : ℕ) (blockType : BlockType)
    {pieces : List (List Byte)} (hsize : pieces.flatten.length < 2 ^ 31) :
    s.streamBlock offset blockType pieces =
      s.extend
        (ofPieces (offset + blockHeaderSize) pieces ++
          [⟨offset, headerFor blockType pieces.flatten⟩]) s.handle.index := by
  unfold streamBlock
  rw [blockHeaderForLengthAndChecksum_eq hsize]
  dsimp only
  rw [writeAll_eq, write_eq, extend_extend]
  rfl

theorem writeBlock_eq (s : Session) (offset : ℕ) (blockType : BlockType) {data : List Byte}
    (hsize : data.length < 2 ^ 31) :
    s.writeBlock offset blockType data =
      s.extend [⟨offset, headerFor blockType data⟩, ⟨offset + blockHeaderSize, data⟩]
        s.handle.index := by
  unfold writeBlock
  rw [blockHeaderForData_eq hsize]
  dsimp only
  rw [write_eq, write_eq, extend_extend]
  rfl

end Session

/-- Blocks are appended, and the index stands for the new contents. -/
structure Appends (s s' : Session) (c' : Contents) (writes : List FileWrite) : Prop where
  extended : ∃ index, s' = s.extend writes index
  after : ∀ w ∈ writes, nextBlockOffset s.handle ≤ w.position
  represents : Represents s'.handle.file s'.handle.index c'

theorem spares_of_after {h : Handle} {writes : List FileWrite}
    (hafter : ∀ w ∈ writes, nextBlockOffset h ≤ w.position) :
    ∀ w ∈ writes, Spares h.file.length w :=
  fun w hw => Or.inl ((le_max_left _ _).trans (hafter w hw))

/-- Looking an id up in an index with another offset for some id. -/
theorem lookup_assocBlock (h : Handle) (id : ℤ) (offset : Option ℤ) (id' : ℤ) :
    (assocBlock h id offset).index.blocks.lookup id' =
      if id' = id then some offset else h.index.blocks.lookup id' :=
  Assoc.lookup_insert_eq_ite id id' offset h.index.blocks

/-- A block is appended under an id that was claimed. -/
theorem appends_block {s : Session} {c : Contents}
    (hrep : Represents s.handle.file s.handle.index c) (id : Option ℤ) {blockType : BlockType}
    (hne : blockType ≠ .blockIndex) {data : List Byte} {writes : List FileWrite}
    (hafter : ∀ w ∈ writes, nextBlockOffset s.handle ≤ w.position)
    (hintact : Intact (applyAll s.handle.file writes) (nextBlockOffset s.handle) blockType data) :
    Appends s
      (((s.claimId id).2.extend writes (s.claimId id).2.handle.index).assocBlock
        (s.claimId id).1 (nextBlockOffset s.handle))
      (c.put (id.getD (freshId s.handle.index)) (some (.block blockType data))) writes := by
  have hspares := spares_of_after hafter
  have hmapped : Mapped (applyAll s.handle.file writes) (some (some (nextBlockOffset s.handle : ℤ)))
      (some (some (.block blockType data))) := ⟨_, rfl, hne, hintact⟩
  cases id with
  | some id =>
    refine ⟨⟨_, rfl⟩, hafter, (hrep.applyAll hspares).put rfl (fun id' => ?_) hmapped⟩
    exact lookup_assocBlock _ _ _ _
  | none =>
    refine ⟨⟨_, rfl⟩, hafter, (hrep.applyAll hspares).put rfl (fun id' => ?_) hmapped⟩
    refine (lookup_assocBlock (assocBlock s.handle (freshId s.handle.index) none)
      (freshId s.handle.index) (some (nextBlockOffset s.handle : ℤ)) id').trans ?_
    by_cases heq : id' = freshId s.handle.index
    · exact (if_pos heq).trans (if_pos heq).symm
    · exact (if_neg heq).trans
        (((lookup_assocBlock _ _ _ _).trans (if_neg heq)).trans (if_neg heq).symm)

theorem nextBlockOffset_claimId (s : Session) (id : Option ℤ) :
    nextBlockOffset (s.claimId id).2.handle = nextBlockOffset s.handle := by
  cases id with
  | some id => rfl
  | none => rfl

/-- A block that is streamed after its id was claimed. -/
theorem appends_stream {s : Session} {c : Contents}
    (hrep : Represents s.handle.file s.handle.index c) (id : Option ℤ) {blockType : BlockType}
    (hne : blockType ≠ .blockIndex) {pieces : List (List Byte)}
    (hsize : pieces.flatten.length < 2 ^ 31) :
    ∃ writes, Appends s
      (((s.claimId id).2.streamBlock (nextBlockOffset s.handle) blockType pieces).assocBlock
        (s.claimId id).1 (nextBlockOffset s.handle))
      (c.put (id.getD (freshId s.handle.index)) (some (.block blockType pieces.flatten)))
      writes := by
  rw [Session.streamBlock_eq _ _ _ hsize]
  refine ⟨_, appends_block hrep id hne ?_ (intact_of_stream (le_max_right _ _) blockType hsize)⟩
  intro w hw
  cases List.mem_append.mp hw with
  | inl hpiece => exact (Nat.le_add_right _ _).trans (le_position_of_mem_ofPieces hpiece)
  | inr hheader =>
    rw [List.mem_singleton.mp hheader]

/-- Every operation but writing an index and reading appends blocks. -/
theorem step_appends {s : Session} {archive : Archive}
    (hrep : Represents s.handle.file s.handle.index archive.contents) {op : StoreOp}
    (hfits : op.Fits) (hindex : op ≠ .blockIndex) (hread : op ≠ .read) :
    ∃ writes, Appends s (s.step decode op) (archive.step (freshId s.handle.index) op).contents
      writes := by
  cases op with
  | newBlockId =>
    have hmapped : Mapped s.handle.file (some none) (some none) := trivial
    refine ⟨[], ⟨(assocBlock s.handle (freshId s.handle.index) none).index, ?_⟩,
      fun w hw => absurd hw List.not_mem_nil, hrep.put rfl (fun id' => ?_) hmapped⟩
    · unfold Session.extend
      rw [List.append_nil]
      rfl
    · exact lookup_assocBlock _ _ _ _
  | fressian id pieces =>
    have happends := @appends_stream s _ hrep id .fressian (by decide) pieces hfits
    rw [← nextBlockOffset_claimId s id] at happends
    exact happends
  | partialMap id restId pieces =>
    have hsize : (putInt (restId.getD 0) :: pieces).flatten.length < 2 ^ 31 := by
      rw [List.flatten_cons, List.length_append, length_putInt]
      exact hfits
    have happends := @appends_stream s _ hrep id .partialMap (by decide) _ hsize
    rw [← nextBlockOffset_claimId s id] at happends
    exact happends
  | fressianStream pieces =>
    exact @appends_stream s _ hrep none .fressianStream (by decide) pieces hfits
  | bigVector id elementCount chunks =>
    have hwrite := Session.writeBlock_eq s (nextBlockOffset s.handle) .bigVector hfits
    refine ⟨[⟨nextBlockOffset s.handle,
        headerFor .bigVector (Session.bigVectorData elementCount chunks)⟩,
      ⟨nextBlockOffset s.handle + blockHeaderSize,
        Session.bigVectorData elementCount chunks⟩], ?_⟩
    unfold Session.step Session.writeBigVectorBlock
    dsimp only
    rw [hwrite]
    refine appends_block hrep (some id) (by decide) ?_
      (intact_of_write (le_max_right _ _) .bigVector hfits)
    intro w hw
    rw [List.mem_cons, List.mem_singleton] at hw
    rcases hw with rfl | rfl
    · exact le_rfl
    · exact Nat.le_add_right _ _
  | setRoot root =>
    refine ⟨[], ⟨_, (Session.extend_nil _).symm⟩, fun w hw => absurd hw List.not_mem_nil, ?_⟩
    exact ⟨rfl, hrep.mapped⟩
  | blockIndex => exact absurd rfl hindex
  | read => exact absurd rfl hread

/-! ## Writing an index -/

namespace Session

/-- What is written at the start of a file when a session writes its first index. -/
def prepWrites (s : Session) : List FileWrite :=
  if s.handle.written then [] else headerWrites

/-- The index with a fresh id for the block it is written to. -/
def indexWithItself (s : Session) : BlockIndex :=
  (Store.assocBlock (newBlockId s.handle).2 (freshId s.handle.index)
    (some (nextBlockOffset s.handle : ℤ))).index

/-- The block of that index. -/
def indexBlockWrites (s : Session) : List FileWrite :=
  [⟨nextBlockOffset s.handle, headerFor .blockIndex (blockIndexData s.indexWithItself)⟩,
    ⟨nextBlockOffset s.handle + blockHeaderSize, blockIndexData s.indexWithItself⟩]

/-- What the pointer to the index is made to be. -/
def pointerWrite (s : Session) : FileWrite :=
  ⟨blockIndexOffsetOffset, putLong (nextBlockOffset s.handle)⟩

theorem writeBlockIndexAt_eq {s : Session}
    (hversion : s.handle.version = none ∨ s.handle.version = some currentVersion)
    (hwritten : s.handle.written = true → s.handle.version = some currentVersion)
    (hsize : (blockIndexData s.handle.index).length < 2 ^ 31) (offset : ℕ) :
    (s.writeBlockIndexAt offset).2 =
      ({ s with handle := { s.handle with written := true, version := some currentVersion } } :
          Session).extend
        (s.prepWrites ++
          ([⟨offset, headerFor .blockIndex (blockIndexData s.handle.index)⟩,
            ⟨offset + blockHeaderSize, blockIndexData s.handle.index⟩] ++
          [⟨blockIndexOffsetOffset, putLong offset⟩])) s.handle.index := by
  obtain ⟨⟨file, version, index, written, read⟩, journal⟩ := s
  unfold writeBlockIndexAt prepWrite prepWrites
  cases written with
  | true =>
    have hsome : version = some currentVersion := hwritten rfl
    subst hsome
    dsimp only
    rw [if_pos rfl, if_pos rfl]
    dsimp only
    rw [writeBlock_eq _ _ _ hsize, write_eq, extend_extend]
    rfl
  | false =>
    dsimp only
    rw [if_neg Bool.false_ne_true, if_pos hversion, if_neg Bool.false_ne_true]
    dsimp only
    dsimp only at hsize
    rw [writeAll_eq, index_extend]
    dsimp only
    rw [writeBlock_eq _ _ _ hsize, write_eq, extend_extend, extend_extend]
    rfl

end Session

end Jepsen.Store
