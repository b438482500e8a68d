/-
# Failed preparations

A handle whose first read or first write of a block index throws counts as prepared
from then on: the next read finds no block where it should throw the same, and the
next block index is written to a file of an old version.
-/

import Jepsen.Store.Handle

namespace Jepsen.Store

open Jepsen.Library

universe u

variable {D : Type u} {decode : BlockType → List Byte → Option D}

/-- A write of a block index. -/
inductive IndexWrite
  | fresh
  | atOffset (offset : ℕ)

/-- The handle after a write of a block index. -/
def IndexWrite.run (h : Handle) : IndexWrite → Handle
  | fresh => (writeBlockIndex h).2
  | atOffset offset => (writeBlockIndexAt h offset).2

/-- A failed preparation leaves a handle unprepared: if the first read throws, so does every later
one, and if the first write of a block index throws, no later one changes the start of the file. -/
structure StaysUnprepared (decode : BlockType → List Byte → Option D) (h : Handle) : Prop where
  reads : ∀ e, (prepRead decode h).1 = .error e → ∀ (first : Read) (later : List Read) (read : Read),
    (perform decode (performAll decode h (first :: later)) read).1 = .error e
  writes : (prepWrite h).1 = .error .cantWriteOldVersion → ∀ later : List IndexWrite,
    (later.foldl IndexWrite.run (prepWrite h).2).file.readAt 0 firstBlockOffset =
      h.file.readAt 0 firstBlockOffset

/-- The file starts as a handle expects it, and has an intact block index. -/
structure Readable (decode : BlockType → List Byte → Option D) (h : Handle) : Prop where
  magic : h.file.readAt magicOffset magicSize = magic
  versionComplete : (h.file.readAt versionOffset versionSize).length = versionSize
  versionKnown : getInt (h.file.readAt versionOffset versionSize) = 0 ∨
    getInt (h.file.readAt versionOffset versionSize) = 1
  versionSame : h.version = none ∨
    h.version = some (getInt (h.file.readAt versionOffset versionSize))
  pointerComplete :
    (h.file.readAt blockIndexOffsetOffset blockOffsetSize).length = blockOffsetSize
  pointerSet : getLong (h.file.readAt blockIndexOffsetOffset blockOffsetSize) ≠ 0
  index : ∃ index,
    readBlockAt decode h (getLong (h.file.readAt blockIndexOffsetOffset blockOffsetSize)) =
      .ok (.index index)

/-- The handle may write to its file. -/
def Writable (h : Handle) : Prop := h.version = none ∨ h.version = some currentVersion

/-! ## Reads -/

/-- What a prepared handle throws when it reads a block. -/
theorem readBlockAt_ne_blockNotFound (h : Handle) (offset : ℤ) :
    readBlockAt decode h offset ≠ .error .blockNotFound := by
  unfold readBlockAt
  split_ifs with hneg
  · rintro ⟨⟩
  · cases readBlockByOffset h.file offset.toNat with
    | error e => rintro ⟨⟩
    | ok block =>
      dsimp only
      cases decodeBlock decode (blockHeaderType block.1) block.2 with
      | none => rintro ⟨⟩
      | some blockData => rintro ⟨⟩

theorem loadBlockIndex_ne_blockNotFound (h : Handle) :
    loadBlockIndex decode h ≠ .error .blockNotFound := by
  unfold loadBlockIndex
  have hoffset : readBlockIndexOffset h ≠ .error .blockNotFound := by
    unfold readBlockIndexOffset
    dsimp only
    split_ifs <;> rintro ⟨⟩
  cases hread : readBlockIndexOffset h with
  | error e =>
    rw [hread] at hoffset
    rintro ⟨⟩
    exact hoffset rfl
  | ok offset =>
    have hblock := @readBlockAt_ne_blockNotFound _ decode h offset
    dsimp only
    cases hread : readBlockAt decode h offset with
    | error e =>
      rw [hread] at hblock
      rintro ⟨⟩
      exact hblock rfl
    | ok blockData =>
      cases blockData with
      | index index => rintro ⟨⟩
      | value blockType d => rintro ⟨⟩

theorem checkVersion_ne_blockNotFound (h : Handle) : checkVersion h ≠ .error .blockNotFound := by
  unfold checkVersion
  dsimp only
  split_ifs <;> rintro ⟨⟩

theorem prepRead_ne_blockNotFound (h : Handle) :
    (prepRead decode h).1 ≠ .error .blockNotFound := by
  unfold prepRead
  split_ifs with hread
  · rintro ⟨⟩
  · dsimp only
    cases hmagic : checkMagic { h with read := true } with
    | error e =>
      unfold checkMagic at hmagic
      split_ifs at hmagic
      cases hmagic
      rintro ⟨⟩
    | ok _ =>
      have hversion := checkVersion_ne_blockNotFound { h with read := true }
      dsimp only
      cases hchecked : checkVersion { h with read := true } with
      | error e =>
        rw [hchecked] at hversion
        rintro ⟨⟩
        exact hversion rfl
      | ok checked =>
        have hload := @loadBlockIndex_ne_blockNotFound _ decode checked
        dsimp only
        cases hloaded : loadBlockIndex decode checked with
        | error e =>
          rw [hloaded] at hload
          rintro ⟨⟩
          exact hload rfl
        | ok loaded => rintro ⟨⟩

theorem read_checkVersion {h h' : Handle} (hchecked : checkVersion h = .ok h') :
    h'.read = h.read := by
  unfold checkVersion at hchecked
  dsimp only at hchecked
  split_ifs at hchecked
  cases hchecked
  rfl

theorem read_loadBlockIndex {h h' : Handle} (hloaded : loadBlockIndex decode h = .ok h') :
    h'.read = h.read := by
  unfold loadBlockIndex at hloaded
  cases hoffset : readBlockIndexOffset h with
  | error e =>
    rw [hoffset] at hloaded
    cases hloaded
  | ok offset =>
    rw [hoffset] at hloaded
    dsimp only at hloaded
    cases hblock : readBlockAt decode h offset with
    | error e =>
      rw [hblock] at hloaded
      cases hloaded
    | ok blockData =>
      rw [hblock] at hloaded
      cases blockData with
      | index index =>
        cases hloaded
        rfl
      | value blockType d => cases hloaded

/-- After a preparation, the handle counts as prepared. -/
theorem read_prepRead (h : Handle) : (prepRead decode h).2.read = true := by
  unfold prepRead
  split_ifs with hread
  · exact hread
  · dsimp only
    cases checkMagic { h with read := true } with
    | error e => rfl
    | ok _ =>
      dsimp only
      cases hchecked : checkVersion { h with read := true } with
      | error e => rfl
      | ok checked =>
        dsimp only
        cases hloaded : loadBlockIndex decode checked with
        | error e => exact read_checkVersion hchecked
        | ok loaded => exact (read_loadBlockIndex hloaded).trans (read_checkVersion hchecked)

theorem prepRead_of_read {h : Handle} (hread : h.read = true) : prepRead decode h = (.ok (), h) :=
  if_pos hread

theorem perform_of_error {h : Handle} {e : Thrown} (he : (prepRead decode h).1 = .error e)
    (read : Read) : perform decode h read = (.error e, (prepRead decode h).2) := by
  unfold perform
  revert he
  cases prepRead decode h with
  | mk result h' =>
    rintro rfl
    rfl

theorem perform_of_read {h : Handle} (hread : h.read = true) (read : Read) :
    perform decode h read = (readPrepared decode h read, h) := by
  unfold perform
  rw [prepRead_of_read hread]

/-- There is an id of no block. -/
theorem exists_lookupBlock_eq (h : Handle) :
    ∃ id, lookupBlock decode h id = .error .blockNotFound := by
  obtain ⟨id, hid⟩ := Infinite.exists_notMem_finset h.index.blocks.keys.toFinset
  refine ⟨id, ?_⟩
  have hlookup : h.index.blocks.lookup id = none := by
    apply AList.lookup_eq_none.2
    rwa [AList.mem_keys, ← List.mem_toFinset]
  unfold lookupBlock
  rw [hlookup]

/-- After a read that threw, some read throws something else. -/
theorem exists_perform_ne {h : Handle} {e : Thrown} (he : (prepRead decode h).1 = .error e)
    (first : Read) :
    ∃ read, (perform decode (performAll decode h [first]) read).1 ≠ .error e := by
  obtain ⟨id, hid⟩ := @exists_lookupBlock_eq _ decode (prepRead decode h).2
  have hafter : performAll decode h [first] = (prepRead decode h).2 :=
    congrArg Prod.snd (perform_of_error he first)
  refine ⟨.byId id, ?_⟩
  rw [hafter, perform_of_read (read_prepRead h), readPrepared, hid]
  rintro ⟨⟩
  exact prepRead_ne_blockNotFound h he

theorem checkVersion_eq_ok_iff {h h' : Handle} :
    checkVersion h = .ok h' ↔
      (h.file.readAt versionOffset versionSize).length = versionSize ∧
        (getInt (h.file.readAt versionOffset versionSize) = 0 ∨
          getInt (h.file.readAt versionOffset versionSize) = 1) ∧
        (h.version = none ∨ h.version = some (getInt (h.file.readAt versionOffset versionSize))) ∧
        { h with version := some (getInt (h.file.readAt versionOffset versionSize)) } = h' := by
  unfold checkVersion
  dsimp only
  split_ifs with hlength hknown hsame
  · simp only [hlength, false_and]
  · have hunknown :
        ¬ (getInt (h.file.readAt versionOffset versionSize) = 0 ∨
          getInt (h.file.readAt versionOffset versionSize) = 1) :=
      fun hor => hor.elim hknown.1 hknown.2
    simp only [hunknown, false_and, and_false]
  · have hlength' := not_not.1 hlength
    have hknown' := or_iff_not_imp_left.2 fun hzero =>
      not_not.1 fun hone => hknown ⟨hzero, hone⟩
    simp only [Except.ok.injEq, hlength', hknown', hsame, true_and]
  · simp only [hsame, false_and, and_false]

theorem loadBlockIndex_eq_ok_iff {h h' : Handle} :
    loadBlockIndex decode h = .ok h' ↔
      (h.file.readAt blockIndexOffsetOffset blockOffsetSize).length = blockOffsetSize ∧
        getLong (h.file.readAt blockIndexOffsetOffset blockOffsetSize) ≠ 0 ∧
        ∃ index,
          readBlockAt decode h
              (getLong (h.file.readAt blockIndexOffsetOffset blockOffsetSize)) =
            .ok (.index index) ∧ { h with index := index } = h' := by
  unfold loadBlockIndex readBlockIndexOffset
  dsimp only
  split_ifs with hpointer
  · constructor
    · rintro ⟨⟩
    · rintro ⟨hlength, hzero, -⟩
      exact absurd hpointer (not_or.2 ⟨not_not.2 hlength, hzero⟩)
  · obtain ⟨hlength, hzero⟩ := not_or.1 hpointer
    dsimp only
    cases readBlockAt decode h
        (getLong (h.file.readAt blockIndexOffsetOffset blockOffsetSize)) with
    | error e => simp only [reduceCtorEq, false_and, exists_false, and_false]
    | ok blockData =>
      cases blockData with
      | index index =>
        constructor
        · rintro ⟨⟩
          exact ⟨not_not.1 hlength, hzero, index, rfl, rfl⟩
        · rintro ⟨-, -, index', ⟨⟩, rfl⟩
          rfl
      | value blockType d =>
        constructor
        · rintro ⟨⟩
        · rintro ⟨-, -, index', ⟨⟩, -⟩

/-- What a block is does not depend on what a handle knows. -/
theorem readBlockAt_congr {h h' : Handle} (hfile : h'.file = h.file) (offset : ℤ) :
    readBlockAt decode h' offset = readBlockAt decode h offset := by
  unfold readBlockAt
  rw [hfile]

/-- A preparation goes well if the handle is prepared, or the file is readable. -/
theorem prepRead_ok_iff (h : Handle) :
    (∀ e, (prepRead decode h).1 ≠ .error e) ↔ h.read = true ∨ Readable decode h := by
  constructor
  · intro hok
    by_contra hnot
    obtain ⟨hread, hunreadable⟩ := not_or.1 hnot
    unfold prepRead at hok
    rw [if_neg hread] at hok
    dsimp only at hok
    cases hmagic : checkMagic { h with read := true } with
    | error e => exact hok e (by rw [hmagic])
    | ok _ =>
      rw [hmagic] at hok
      cases hchecked : checkVersion { h with read := true } with
      | error e => exact hok e (by rw [hchecked])
      | ok checked =>
        rw [hchecked] at hok
        cases hloaded : loadBlockIndex decode checked with
        | error e => exact hok e (by simp only [hloaded])
        | ok loaded =>
          unfold checkMagic at hmagic
          split_ifs at hmagic with hstart
          obtain ⟨hcomplete, hknown, hsame, rfl⟩ := checkVersion_eq_ok_iff.1 hchecked
          obtain ⟨hpointer, hset, index, hindex, -⟩ := loadBlockIndex_eq_ok_iff.1 hloaded
          exact hunreadable ⟨hstart, hcomplete, hknown, hsame, hpointer, hset, index,
            (readBlockAt_congr rfl _).trans hindex⟩
  · rintro (hread | hreadable)
    · intro e
      rw [prepRead_of_read hread]
      rintro ⟨⟩
    · intro e
      unfold prepRead
      split_ifs with hread
      · rintro ⟨⟩
      · obtain ⟨index, hindex⟩ := hreadable.index
        have hmagic : checkMagic { h with read := true } = .ok () := if_pos hreadable.magic
        obtain ⟨checked, hchecked, hfile⟩ :
            ∃ checked, checkVersion { h with read := true } = .ok checked ∧
              checked.file = h.file :=
          ⟨_, checkVersion_eq_ok_iff.2 ⟨hreadable.versionComplete, hreadable.versionKnown,
            hreadable.versionSame, rfl⟩, rfl⟩
        have hloaded : loadBlockIndex decode checked = .ok { checked with index := index } := by
          rw [loadBlockIndex_eq_ok_iff, hfile]
          exact ⟨hreadable.pointerComplete, hreadable.pointerSet, index,
            (readBlockAt_congr hfile _).trans hindex, rfl⟩
        dsimp only
        rw [hmagic]
        dsimp only
        rw [hchecked]
        dsimp only
        rw [hloaded]
        rintro ⟨⟩

/-! ## Writes -/

/-- After a preparation for writes, the handle counts as prepared. -/
theorem written_prepWrite (h : Handle) : (prepWrite h).2.written = true := by
  unfold prepWrite
  split_ifs with hwritten
  · exact hwritten
  · dsimp only
    unfold writeHeader
    split_ifs
    · rfl
    · rfl

theorem readAt_readAt (file : File) {position size size' : ℕ} (hle : position + size ≤ size') :
    File.readAt (file.readAt 0 size') position size = file.readAt position size := by
  unfold File.readAt
  rw [List.drop_zero, List.drop_take, List.take_take, min_eq_left (by omega)]

/-- A preparation for writes goes well if the handle is prepared, or may write. -/
theorem prepWrite_ok_iff (h : Handle) :
    (prepWrite h).1 ≠ .error .cantWriteOldVersion ↔ h.written = true ∨ Writable h := by
  unfold prepWrite
  split_ifs with hwritten
  · simp only [hwritten, true_or, ne_eq, reduceCtorEq, not_false_eq_true]
  · unfold writeHeader
    dsimp only
    split_ifs with hversion
    · exact iff_of_true (by rintro ⟨⟩) (.inr hversion)
    · exact iff_of_false (fun hne => hne rfl) (not_or.2 ⟨hwritten, hversion⟩)

/-- A prepared handle writes where the index is. -/
theorem readAt_writeBlockIndexAt {h : Handle} (hwritten : h.written = true) (offset : ℕ) :
    (writeBlockIndexAt h offset).2.file.readAt blockIndexOffsetOffset blockOffsetSize =
      putLong offset := by
  have hprep : prepWrite h = (.ok (), h) := if_pos hwritten
  have hlength : (putLong offset).length = blockOffsetSize := length_toBytes 8 _
  have hfile :
      (writeBlockIndexAt h offset).2.file =
        writeBlockIndexOffset
          (writeBlock h.file offset .blockIndex (blockIndexData h.index)) offset := by
    unfold writeBlockIndexAt
    rw [hprep]
  rw [hfile, writeBlockIndexOffset, ← hlength]
  exact File.readAt_writeAt _ _ _

/-- After a preparation for writes that threw, some write changes the start of the file. -/
theorem exists_readAt_ne (h : Handle) :
    ∃ later : List IndexWrite,
      (later.foldl IndexWrite.run (prepWrite h).2).file.readAt 0 firstBlockOffset ≠
        h.file.readAt 0 firstBlockOffset := by
  by_contra hnone
  push Not at hnone
  have hpointer : ∀ offset : ℕ,
      h.file.readAt blockIndexOffsetOffset blockOffsetSize = putLong offset := by
    intro offset
    have hle : blockIndexOffsetOffset + blockOffsetSize ≤ firstBlockOffset := le_rfl
    have hsame := hnone [.atOffset offset]
    rw [← readAt_readAt h.file hle, ← hsame, readAt_readAt _ hle]
    exact readAt_writeBlockIndexAt (written_prepWrite h) offset
  have hne : putLong (18 : ℕ) ≠ putLong (19 : ℕ) := by decide
  exact hne ((hpointer 18).symm.trans (hpointer 19))

/-! ## Handles that stay unprepared -/

/-- Failed preparations leave a handle unprepared exactly when there are none: when it has been
read or its file is readable, and when it has been written or may write. -/
theorem staysUnprepared_iff (decode : BlockType → List Byte → Option D) (h : Handle) :
    StaysUnprepared decode h ↔
      (h.read = true ∨ Readable decode h) ∧ (h.written = true ∨ Writable h) := by
  rw [← prepRead_ok_iff, ← prepWrite_ok_iff]
  constructor
  · intro hstays
    constructor
    · intro e he
      obtain ⟨read, hne⟩ := exists_perform_ne he .root
      exact hne (hstays.reads e he .root [] read)
    · intro hthrown
      obtain ⟨later, hne⟩ := exists_readAt_ne h
      exact hne (hstays.writes hthrown later)
  · rintro ⟨hread, hwrite⟩
    exact
      { reads := fun e he => absurd he (hread e)
        writes := fun hthrown => absurd hthrown hwrite }

/-- The first read of an empty file throws, and the next one finds no root. -/
theorem emptyFile_not_staysUnprepared :
    ¬ StaysUnprepared (D := Unit) (fun _ _ => none) (openHandle []) := by
  intro hstays
  have hread := hstays.reads .magicMismatch rfl .root [] .root
  cases hread

end Jepsen.Store
