/-
# Files with and without an index

A file points to an index block, or it does not point to anything yet. Either stays so
while blocks are appended, and either is seen by the first read of the file.
-/

import Jepsen.Store.Preparation
import Jepsen.Store.StoredBlocks

namespace Jepsen.Store

open Jepsen.Library FileWrite

universe u

variable {D : Type u} {decode : BlockType → List Byte → Option D}

/-- The file points to an index block that stands for the contents, without what is reserved. -/
structure Committed (file : File) (c : Contents) : Prop where
  magic : file.readAt magicOffset magicSize = magic
  version : file.readAt versionOffset versionSize = putInt currentVersion
  pointed : ∃ (offset : ℕ) (index : BlockIndex) (live : Contents), IsLong offset ∧
    file.readAt blockIndexOffsetOffset blockOffsetSize = putLong offset ∧
    IndexAt file offset index ∧ Represents file index live ∧ c = live.saved

/-- The file does not point to any block. -/
structure Uncommitted (file : File) : Prop where
  version : file.ZeroAt versionOffset versionSize ∨
    file.readAt versionOffset versionSize = putInt currentVersion
  pointer : file.ZeroAt blockIndexOffsetOffset blockOffsetSize

/-- What is committed in a file. -/
def Settled (file : File) : Option Contents → Prop
  | none => Uncommitted file
  | some c => Committed file c

theorem uncommitted_nil : Uncommitted [] where
  version := Or.inl (File.ZeroAt.nil _ _)
  pointer := File.ZeroAt.nil _ _

/-! ## Appending blocks -/

theorem le_length_of_readAt {file : File} {position : ℕ} {bytes : List Byte} (hne : bytes ≠ [])
    (hread : file.readAt position bytes.length = bytes) :
    position + bytes.length ≤ file.length := by
  have hlength := congrArg List.length hread
  have hpos := List.length_pos_iff.mpr hne
  unfold File.readAt at hlength
  rw [List.length_take, List.length_drop] at hlength
  omega

theorem putInt_ne_nil (n : ℤ) : putInt n ≠ [] := toBytes_ne_nil (by decide) _

theorem Uncommitted.applyAll {file : File} (huncommitted : Uncommitted file)
    {writes : List FileWrite} (hafter : ∀ w ∈ writes, firstBlockOffset ≤ w.position) :
    Uncommitted (applyAll file writes) where
  version := by
    cases huncommitted.version with
    | inl hzero =>
      exact Or.inl (hzero.applyAll fun w hw => Or.inl (le_trans (by decide) (hafter w hw)))
    | inr hversion =>
      right
      have hlength : versionOffset + versionSize ≤ file.length :=
        le_length_of_readAt (putInt_ne_nil _) hversion
      rw [readAt_applyAll hlength fun w hw => Or.inl (le_trans (by decide) (hafter w hw)),
        hversion]
  pointer := huncommitted.pointer.applyAll fun w hw => Or.inl (hafter w hw)

theorem Committed.firstBlockOffset_le {file : File} {c : Contents} (hcommitted : Committed file c) :
    firstBlockOffset ≤ file.length := by
  obtain ⟨offset, index, live, -, -, hindex, -, -⟩ := hcommitted.pointed
  have hafter := hindex.intact.after
  have hwithin := hindex.intact.within
  omega

theorem Committed.applyAll {file : File} {c : Contents} (hcommitted : Committed file c)
    {writes : List FileWrite}
    (hafter : ∀ w ∈ writes, firstBlockOffset ≤ w.position ∧ file.length ≤ w.position) :
    Committed (applyAll file writes) c := by
  obtain ⟨offset, index, live, hlong, hpointer, hindex, hrep, hsaved⟩ := hcommitted.pointed
  have hread : ∀ position size, position + size ≤ firstBlockOffset →
      (FileWrite.applyAll file writes).readAt position size = file.readAt position size :=
    fun position size hle => readAt_applyAll (hle.trans hcommitted.firstBlockOffset_le)
      fun w hw => Or.inl (hle.trans (hafter w hw).1)
  have hspares : ∀ w ∈ writes, Spares file.length w := fun w hw => Or.inl (hafter w hw).2
  exact
    { magic := (hread _ _ (by decide)).trans hcommitted.magic
      version := (hread _ _ (by decide)).trans hcommitted.version
      pointed :=
        ⟨offset, index, live, hlong, (hread _ _ (by decide)).trans hpointer,
          hindex.applyAll hspares, hrep.applyAll hspares, hsaved⟩ }

/-- What is committed stays while blocks are appended. -/
theorem Settled.applyAll {file : File} {committed : Option Contents}
    (hsettled : Settled file committed) {writes : List FileWrite}
    (hafter : ∀ w ∈ writes, max file.length firstBlockOffset ≤ w.position) :
    Settled (applyAll file writes) committed := by
  cases committed with
  | none =>
    exact Uncommitted.applyAll hsettled fun w hw => (le_max_right _ _).trans (hafter w hw)
  | some c =>
    exact Committed.applyAll hsettled fun w hw =>
      ⟨(le_max_right _ _).trans (hafter w hw), (le_max_left _ _).trans (hafter w hw)⟩

/-! ## Preparing to write -/

/-- What is written at the start of a file before its first index. -/
def headerWrites : List FileWrite :=
  [⟨magicOffset, magic⟩, ⟨versionOffset, putInt currentVersion⟩]

theorem writeAt_eq_self {file : File} {position : ℕ} {bytes : List Byte} (hne : bytes ≠ [])
    (hread : file.readAt position bytes.length = bytes) : file.writeAt position bytes = file := by
  have hlength := le_length_of_readAt hne hread
  have hzero : position - file.length = 0 := by omega
  have hsplit : bytes ++ file.drop (position + bytes.length) = file.drop position := by
    rw [← List.drop_drop]
    unfold File.readAt at hread
    nth_rewrite 1 [← hread]
    exact List.take_append_drop _ _
  unfold File.writeAt
  rw [if_neg hne, hzero, List.replicate_zero, List.append_nil, List.append_assoc, hsplit,
    List.take_append_drop]

/-- The start of a file with an index is as it should be. -/
theorem Committed.applyAll_headerWrites {file : File} {c : Contents}
    (hcommitted : Committed file c) (n : ℕ) :
    FileWrite.applyAll file (headerWrites.take n) = file := by
  have hmagic : FileWrite.apply file ⟨magicOffset, Store.magic⟩ = file :=
    writeAt_eq_self (by decide) hcommitted.magic
  have hversion : FileWrite.apply file ⟨versionOffset, putInt currentVersion⟩ = file :=
    writeAt_eq_self (putInt_ne_nil _) hcommitted.version
  unfold headerWrites
  rcases n with _ | _ | n
  · rfl
  · exact hmagic
  · rw [List.take_succ_cons, List.take_succ_cons, List.take_nil, applyAll_cons, applyAll_cons,
      applyAll_nil, hmagic, hversion]

theorem readAt_headerWrites (file : File) :
    (applyAll file headerWrites).readAt magicOffset magicSize = magic ∧
      (applyAll file headerWrites).readAt versionOffset versionSize = putInt currentVersion := by
  have hlength : magicOffset + magicSize ≤ (file.writeAt magicOffset magic).length := by
    rw [File.length_writeAt (by decide)]
    exact le_max_right _ _
  have hfile : applyAll file headerWrites =
      (file.writeAt magicOffset magic).writeAt versionOffset (putInt currentVersion) := rfl
  have hbefore : magicOffset + magicSize ≤ versionOffset := le_rfl
  rw [hfile]
  constructor
  · rw [File.readAt_writeAt_before hbefore hlength]
    exact File.readAt_writeAt file magicOffset magic
  · exact File.readAt_writeAt _ versionOffset (putInt currentVersion)

theorem Uncommitted.applyAll_headerWrites {file : File} (huncommitted : Uncommitted file) (n : ℕ) :
    Uncommitted (FileWrite.applyAll file (headerWrites.take n)) := by
  have havoids : ∀ w ∈ headerWrites.take n,
      w.Avoids blockIndexOffsetOffset blockOffsetSize := by
    intro w hw
    have hmem := List.mem_of_mem_take hw
    unfold headerWrites at hmem
    rw [List.mem_cons, List.mem_singleton] at hmem
    rcases hmem with rfl | rfl
    · exact Or.inr (by decide)
    · exact Or.inr (by decide)
  refine ⟨?_, huncommitted.pointer.applyAll havoids⟩
  have hmagicAvoids : ∀ w ∈ ([⟨magicOffset, magic⟩] : List FileWrite),
      w.Avoids versionOffset versionSize := by
    intro w hw
    rw [List.mem_singleton.mp hw]
    exact Or.inr (by decide)
  rcases n with _ | _ | n
  · exact huncommitted.version
  · cases huncommitted.version with
    | inl hzero => exact Or.inl (hzero.applyAll hmagicAvoids)
    | inr hversion =>
      right
      have hlength : versionOffset + versionSize ≤ file.length :=
        le_length_of_readAt (putInt_ne_nil _) hversion
      exact (readAt_applyAll hlength hmagicAvoids).trans hversion
  · right
    have htake : headerWrites.take (n + 2) = headerWrites :=
      List.take_of_length_le (Nat.le_add_left 2 n)
    rw [htake]
    exact (readAt_headerWrites file).2

/-- Preparing to write, up to any point, does not change what is committed. -/
theorem Settled.applyAll_headerWrites {file : File} {committed : Option Contents}
    (hsettled : Settled file committed) (n : ℕ) :
    Settled (FileWrite.applyAll file (headerWrites.take n)) committed := by
  cases committed with
  | none => exact Uncommitted.applyAll_headerWrites hsettled n
  | some c =>
    rw [Committed.applyAll_headerWrites hsettled]
    exact hsettled

/-! ## Reading files -/

theorem getLong_of_zeroAt {file : File} {position size : ℕ} (hzero : file.ZeroAt position size) :
    getLong (file.readAt position size) = 0 := by
  unfold getLong
  rw [File.ofBytes_eq_zero fun b hb => hzero.eq_zero_of_mem_readAt hb]
  rfl

theorem getInt_of_zeroAt {file : File} {position size : ℕ} (hzero : file.ZeroAt position size) :
    getInt (file.readAt position size) = 0 := by
  unfold getInt
  rw [File.ofBytes_eq_zero fun b hb => hzero.eq_zero_of_mem_readAt hb]
  rfl

/-- A file without an index is not read. -/
theorem Uncommitted.recovers {file : File} (huncommitted : Uncommitted file) :
    Recovers decode file none := by
  unfold Recovers prepRead
  rw [if_neg (show ¬ (openHandle file).read = true from Bool.false_ne_true)]
  dsimp only
  have hpointer := getLong_of_zeroAt huncommitted.pointer
  cases hmagic : checkMagic { openHandle file with read := true } with
  | error e =>
    unfold checkMagic at hmagic
    split_ifs at hmagic
    cases hmagic
    exact List.mem_cons_self
  | ok _ =>
    have hknown : getInt (file.readAt versionOffset versionSize) = 0 ∨
        getInt (file.readAt versionOffset versionSize) = 1 := by
      cases huncommitted.version with
      | inl hzero => exact Or.inl (getInt_of_zeroAt hzero)
      | inr hversion =>
        right
        rw [hversion]
        exact getInt_putInt ⟨by decide, by decide⟩
    dsimp only
    by_cases hlength : (file.readAt versionOffset versionSize).length = versionSize
    · have hchecked : checkVersion { openHandle file with read := true } =
          .ok { openHandle file with
            read := true
            version := some (getInt (file.readAt versionOffset versionSize)) } := by
        unfold checkVersion openHandle
        dsimp only
        rw [if_neg (not_not.mpr hlength), if_neg, if_pos (Or.inl rfl)]
        rintro ⟨hzero, hone⟩
        exact hknown.elim hzero hone
      have hoffset : ∀ h : Handle, h.file = file →
          readBlockIndexOffset h = .error .noBlockIndex := by
        rintro h rfl
        exact if_pos (Or.inr hpointer)
      rw [hchecked]
      dsimp only
      unfold loadBlockIndex
      rw [hoffset _ rfl]
      exact List.mem_cons_of_mem _ (List.mem_cons_of_mem _ List.mem_cons_self)
    · have hchecked : checkVersion { openHandle file with read := true } =
          .error .versionIncomplete := if_pos hlength
      rw [hchecked]
      exact List.mem_cons_of_mem _ List.mem_cons_self

/-- What the first read of a file with an index does to a handle of the current version. -/
theorem Committed.prepRead {h : Handle} {c : Contents} (hcommitted : Committed h.file c)
    (hread : h.read = false) (hversion : h.version = none ∨ h.version = some currentVersion) :
    ∃ index, prepRead decode h =
        (.ok (), { h with read := true, version := some currentVersion, index := index }) ∧
      Represents h.file index c := by
  obtain ⟨offset, index, live, hlong, hpointer, hindex, hrep, hsaved⟩ := hcommitted.pointed
  obtain ⟨index', hblock, hroot, hlookup⟩ := @readBlockAt_of_indexAt D decode h offset index hindex
  have hrep' : Represents h.file index' c := hsaved ▸ hrep.saved hroot hlookup
  have hgetVersion : getInt (h.file.readAt versionOffset versionSize) = 1 := by
    rw [hcommitted.version]
    exact getInt_putInt ⟨by decide, by decide⟩
  have hversionLength : (h.file.readAt versionOffset versionSize).length = versionSize := by
    rw [hcommitted.version]
    exact length_putInt _
  have hgetPointer : getLong (h.file.readAt blockIndexOffsetOffset blockOffsetSize) = offset := by
    rw [hpointer]
    exact getLong_putLong hlong
  have hpointerLength :
      (h.file.readAt blockIndexOffsetOffset blockOffsetSize).length = blockOffsetSize := by
    rw [hpointer]
    exact length_putLong _
  have hpositive : (offset : ℤ) ≠ 0 := by
    have hafter := hindex.intact.after
    have hfirst : firstBlockOffset = 18 := rfl
    omega
  have hmagic : checkMagic { h with read := true } = .ok () := if_pos hcommitted.magic
  have hchecked : checkVersion { h with read := true } =
      .ok { h with read := true, version := some currentVersion } := by
    rw [checkVersion_eq_ok_iff, hgetVersion]
    exact ⟨hversionLength, Or.inr rfl, hversion, rfl⟩
  have hloaded : ∀ h' : Handle, h'.file = h.file →
      loadBlockIndex decode h' = .ok { h' with index := index' } := by
    intro h' hfile
    rw [loadBlockIndex_eq_ok_iff, hfile, hgetPointer]
    exact ⟨hpointerLength, hpositive, index', (readBlockAt_congr hfile _).trans hblock, rfl⟩
  refine ⟨index', ?_, hrep'⟩
  unfold Store.prepRead
  rw [if_neg (by rw [hread]; exact Bool.false_ne_true)]
  dsimp only
  rw [hmagic]
  dsimp only
  rw [hchecked]
  dsimp only
  rw [hloaded { h with read := true, version := some currentVersion } rfl]

theorem Committed.recovers {file : File} {c : Contents} (hcommitted : Committed file c) :
    Recovers decode file (some c) := by
  obtain ⟨index, hprep, hrep⟩ :=
    @Committed.prepRead D decode (openHandle file) c hcommitted rfl (Or.inl rfl)
  unfold Recovers
  rw [hprep]
  exact ⟨rfl, hrep.serves⟩

/-- A file is read with what is committed in it. -/
theorem Settled.recovers {file : File} {committed : Option Contents}
    (hsettled : Settled file committed) : Recovers decode file committed := by
  cases committed with
  | none => exact Uncommitted.recovers hsettled
  | some c => exact Committed.recovers hsettled

end Jepsen.Store
