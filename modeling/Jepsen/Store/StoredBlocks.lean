/-
# Blocks that stay

What is appended to a file leaves the blocks that are there as they are, and so does what
is written in front of the first block. So an index goes on to stand for its contents, and
a file that was made to point to an index is read with these contents.
-/

import Jepsen.Store.IndexBlocks

namespace Jepsen.Store

open Jepsen.Library FileWrite

universe u

/-! ## Blocks in a file -/

/-- There is a block at an offset, with its header. -/
structure Intact (file : File) (offset : ℕ) (blockType : BlockType) (data : List Byte) : Prop where
  after : firstBlockOffset ≤ offset
  within : offset + blockHeaderSize + data.length ≤ file.length
  header : file.readAt offset blockHeaderSize = headerFor blockType data
  body : file.readAt (offset + blockHeaderSize) data.length = data
  size : data.length < 2 ^ 31

/-- A write in front of the first block, or at the end of a file of some length. -/
def Spares (length : ℕ) (w : FileWrite) : Prop :=
  length ≤ w.position ∨ w.position + w.bytes.length ≤ firstBlockOffset

theorem Intact.applyAll {file : File} {offset : ℕ} {blockType : BlockType} {data : List Byte}
    (hintact : Intact file offset blockType data) {writes : List FileWrite}
    (hspares : ∀ w ∈ writes, Spares file.length w) :
    Intact (applyAll file writes) offset blockType data := by
  have hwithin := hintact.within
  have hafter := hintact.after
  have havoids : ∀ position size, firstBlockOffset ≤ position → position + size ≤ file.length →
      ∀ w ∈ writes, w.Avoids position size := by
    intro position size hfirst hend w hw
    cases hspares w hw with
    | inl hat => exact Or.inl (hend.trans hat)
    | inr hbefore => exact Or.inr (hbefore.trans hfirst)
  exact
    { after := hafter
      within := hwithin.trans (length_le_applyAll file writes)
      header := (readAt_applyAll (by omega) (havoids _ _ hafter (by omega))).trans hintact.header
      body := (readAt_applyAll hwithin (havoids _ _ (by omega) hwithin)).trans hintact.body
      size := hintact.size }

/-- A block that is streamed, its header last. -/
theorem intact_of_stream {file : File} {offset : ℕ} (hafter : firstBlockOffset ≤ offset)
    (blockType : BlockType) {pieces : List (List Byte)} (hsize : pieces.flatten.length < 2 ^ 31) :
    Intact
      (applyAll file
        (ofPieces (offset + blockHeaderSize) pieces ++
          [⟨offset, headerFor blockType pieces.flatten⟩]))
      offset blockType pieces.flatten := by
  have hfile : applyAll file
      (ofPieces (offset + blockHeaderSize) pieces ++
        [⟨offset, headerFor blockType pieces.flatten⟩]) =
      (file.writeAt (offset + blockHeaderSize) pieces.flatten).writeAt offset
        (headerFor blockType pieces.flatten) := by
    rw [applyAll_append, applyAll_ofPieces]
    rfl
  have hheaderLength := length_headerFor blockType pieces.flatten
  have hne : headerFor blockType pieces.flatten ≠ [] := by
    intro hnil
    rw [hnil] at hheaderLength
    exact absurd hheaderLength (by decide)
  have hdataLength : offset + blockHeaderSize + pieces.flatten.length ≤
      max (file.writeAt (offset + blockHeaderSize) pieces.flatten).length
        (offset + blockHeaderSize) := by
    by_cases hempty : pieces.flatten = []
    · rw [hempty]
      exact le_max_right _ _
    · rw [File.length_writeAt hempty]
      omega
  rw [hfile]
  refine ⟨hafter, ?_, ?_, ?_, hsize⟩
  · rw [File.length_writeAt hne, hheaderLength]
    exact hdataLength
  · have hread := File.readAt_writeAt (file.writeAt (offset + blockHeaderSize) pieces.flatten)
      offset (headerFor blockType pieces.flatten)
    rwa [hheaderLength] at hread
  · rw [File.readAt_writeAt_after (by rw [hheaderLength])]
    exact File.readAt_writeAt _ _ _

/-- A block that is written, its header first. -/
theorem intact_of_write {file : File} {offset : ℕ} (hafter : firstBlockOffset ≤ offset)
    (blockType : BlockType) {data : List Byte} (hsize : data.length < 2 ^ 31) :
    Intact
      (applyAll file [⟨offset, headerFor blockType data⟩, ⟨offset + blockHeaderSize, data⟩])
      offset blockType data := by
  have hfile : applyAll file
      [⟨offset, headerFor blockType data⟩, ⟨offset + blockHeaderSize, data⟩] =
      (file.writeAt offset (headerFor blockType data)).writeAt (offset + blockHeaderSize) data :=
    rfl
  have hheaderLength := length_headerFor blockType data
  have hne : headerFor blockType data ≠ [] := by
    intro hnil
    rw [hnil] at hheaderLength
    exact absurd hheaderLength (by decide)
  have hheaderWithin :
      offset + blockHeaderSize ≤ (file.writeAt offset (headerFor blockType data)).length := by
    rw [File.length_writeAt hne, hheaderLength]
    exact le_max_right _ _
  rw [hfile]
  refine ⟨hafter, ?_, ?_, File.readAt_writeAt _ _ _, hsize⟩
  · by_cases hempty : data = []
    · subst hempty
      rw [File.writeAt_nil]
      exact hheaderWithin
    · rw [File.length_writeAt hempty]
      exact le_max_right _ _
  · have hread := File.readAt_writeAt file offset (headerFor blockType data)
    rw [hheaderLength] at hread
    rw [File.readAt_writeAt_before le_rfl hheaderWithin, hread]

/-! ## What an index stands for -/

/-- An index block with an index that can be read. -/
structure IndexAt (file : File) (offset : ℕ) (index : BlockIndex) : Prop where
  intact : Intact file offset .blockIndex (blockIndexData index)
  fits : index.Fits
  offsets : ∀ id offset, index.blocks.lookup id = some (some offset) → IsLong offset

/-- What is stored at an offset. -/
def Stored.At (file : File) (offset : ℕ) : Stored → Prop
  | .index => ∃ index, IndexAt file offset index
  | .block blockType data => blockType ≠ .blockIndex ∧ Intact file offset blockType data

/-- What an index has for an id, and what it stands for. -/
def Mapped (file : File) : Option (Option ℤ) → Option (Option Stored) → Prop
  | none, none => True
  | some none, some none => True
  | some (some offset), some (some stored) => ∃ n : ℕ, offset = n ∧ stored.At file n
  | _, _ => False

/-- An index of a file stands for some contents. -/
structure Represents (file : File) (index : BlockIndex) (c : Contents) : Prop where
  root : index.root = c.root
  mapped : ∀ id, Mapped file (index.blocks.lookup id) (c.blocks id)

theorem IndexAt.applyAll {file : File} {offset : ℕ} {index : BlockIndex}
    (hindex : IndexAt file offset index) {writes : List FileWrite}
    (hspares : ∀ w ∈ writes, Spares file.length w) :
    IndexAt (applyAll file writes) offset index :=
  { hindex with intact := hindex.intact.applyAll hspares }

theorem Stored.At.applyAll {file : File} {offset : ℕ} {stored : Stored}
    (hstored : stored.At file offset) {writes : List FileWrite}
    (hspares : ∀ w ∈ writes, Spares file.length w) : stored.At (applyAll file writes) offset := by
  cases stored with
  | index =>
    obtain ⟨index, hindex⟩ := hstored
    exact ⟨index, hindex.applyAll hspares⟩
  | block blockType data => exact ⟨hstored.1, hstored.2.applyAll hspares⟩

theorem Mapped.applyAll {file : File} {offset : Option (Option ℤ)} {stored : Option (Option Stored)}
    (hmapped : Mapped file offset stored) {writes : List FileWrite}
    (hspares : ∀ w ∈ writes, Spares file.length w) :
    Mapped (applyAll file writes) offset stored := by
  rcases offset with _ | _ | offset <;> rcases stored with _ | _ | stored
  case some.some.some.some =>
    obtain ⟨n, hn, hstored⟩ := hmapped
    exact ⟨n, hn, hstored.applyAll hspares⟩
  all_goals exact hmapped

/-- Contents stay while blocks are appended. -/
theorem Represents.applyAll {file : File} {index : BlockIndex} {c : Contents}
    (hrep : Represents file index c) {writes : List FileWrite}
    (hspares : ∀ w ∈ writes, Spares file.length w) :
    Represents (applyAll file writes) index c where
  root := hrep.root
  mapped id := (hrep.mapped id).applyAll hspares

/-- An id stands for something else in the index and in the contents. -/
theorem Represents.put {file : File} {index index' : BlockIndex} {c : Contents}
    (hrep : Represents file index c) {id : ℤ} {offset : Option ℤ} {stored : Option Stored}
    (hroot : index'.root = index.root)
    (hlookup : ∀ id', index'.blocks.lookup id' =
      if id' = id then some offset else index.blocks.lookup id')
    (hmapped : Mapped file (some offset) (some stored)) :
    Represents file index' (c.put id stored) where
  root := hroot.trans hrep.root
  mapped id' := by
    unfold Contents.put
    dsimp only
    rw [hlookup, Function.update_apply]
    by_cases heq : id' = id
    · rw [if_pos heq, if_pos heq]
      exact hmapped
    · rw [if_neg heq, if_neg heq]
      exact hrep.mapped id'

/-- An index without what is reserved stands for the saved contents. -/
theorem Represents.saved {file : File} {index index' : BlockIndex} {c : Contents}
    (hrep : Represents file index c) (hroot : index'.root = index.root)
    (hlookup : ∀ id, index'.blocks.lookup id =
      (index.blocks.lookup id).bind fun offset => offset.map some) :
    Represents file index' c.saved where
  root := hroot.trans hrep.root
  mapped id := by
    have hmapped := hrep.mapped id
    unfold Contents.saved
    dsimp only
    rw [hlookup]
    generalize index.blocks.lookup id = offset at hmapped ⊢
    generalize c.blocks id = stored at hmapped ⊢
    rcases offset with _ | _ | offset <;> rcases stored with _ | _ | stored
    case some.some.some.some => exact hmapped
    case none.none => trivial
    case some.none.some.none => trivial
    all_goals exact hmapped.elim

/-! ## Reading what an index stands for -/

section Reading

variable {D : Type u} {decode : BlockType → List Byte → Option D}

theorem readBlockByOffset_of_intact {file : File} {offset : ℕ} {blockType : BlockType}
    {data : List Byte} (hintact : Intact file offset blockType data) :
    readBlockByOffset file offset = .ok (headerFor blockType data, data) :=
  readBlockByOffset_eq hintact.size hintact.header hintact.body

theorem blockHeaderType_headerFor (blockType : BlockType) (data : List Byte) :
    blockHeaderType (headerFor blockType data) = some blockType :=
  blockHeaderType_headerOf _ _ _

/-- An index block is read as its index, without what is reserved. -/
theorem readBlockAt_of_indexAt {h : Handle} {offset : ℕ} {index : BlockIndex}
    (hindex : IndexAt h.file offset index) :
    ∃ index', readBlockAt decode h offset = .ok (.index index') ∧ index'.root = index.root ∧
      ∀ id, index'.blocks.lookup id =
        (index.blocks.lookup id).bind fun offset => offset.map some := by
  obtain ⟨index', hread, hroot, hlookup⟩ :=
    readBlockIndexBlock_blockIndexData hindex.fits hindex.offsets
  have hoffset : ¬ (offset : ℤ) < 0 := by omega
  refine ⟨index', ?_, hroot, hlookup⟩
  unfold readBlockAt
  rw [if_neg hoffset, Int.toNat_natCast, readBlockByOffset_of_intact hindex.intact]
  dsimp only
  rw [blockHeaderType_headerFor, decodeBlock, hread, Option.map_some]

theorem readBlockAt_of_intact {h : Handle} {offset : ℕ} {blockType : BlockType} {data : List Byte}
    (hne : blockType ≠ .blockIndex) (hintact : Intact h.file offset blockType data) :
    readBlockAt decode h offset =
      (decode blockType data).elim (.error .undecodable) fun d => .ok (.value blockType d) := by
  have hoffset : ¬ (offset : ℤ) < 0 := by omega
  have hdecode : decodeBlock decode (some blockType) data =
      (decode blockType data).map (.value blockType) := by
    cases blockType with
    | blockIndex => exact absurd rfl hne
    | fressian => rfl
    | partialMap => rfl
    | fressianStream => rfl
    | bigVector => rfl
  unfold readBlockAt
  rw [if_neg hoffset, Int.toNat_natCast, readBlockByOffset_of_intact hintact]
  dsimp only
  rw [blockHeaderType_headerFor, hdecode]
  cases decode blockType data with
  | none => rfl
  | some d => rfl

/-- A handle whose index stands for some contents serves them. -/
theorem Represents.serves {h : Handle} {c : Contents} (hrep : Represents h.file h.index c) :
    Serves decode h c where
  root := hrep.root
  blocks id := by
    have hmapped := hrep.mapped id
    unfold lookupBlock
    generalize h.index.blocks.lookup id = offset at hmapped ⊢
    generalize c.blocks id = stored at hmapped ⊢
    rcases offset with _ | _ | offset <;> rcases stored with _ | _ | stored
    case none.none => rfl
    case some.none.some.none => rfl
    case some.some.some.some =>
      obtain ⟨n, rfl, hstored⟩ := hmapped
      cases stored with
      | index =>
        obtain ⟨index, hindex⟩ := hstored
        obtain ⟨index', hread, -⟩ := @readBlockAt_of_indexAt D decode h n index hindex
        exact ⟨index', hread⟩
      | block blockType data => exact readBlockAt_of_intact hstored.1 hstored.2
    all_goals exact hmapped.elim

end Reading

end Jepsen.Store
