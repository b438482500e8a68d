/-
# Files as they are written

A file grows by writes at positions. What was there stays where no write reaches it.
-/

import Jepsen.Library.Bytes

namespace Jepsen.Library

/-- Some bytes for a position of a file. -/
structure FileWrite where
  position : ℕ
  bytes : List Byte

namespace FileWrite

/-- The file after a write. -/
def apply (file : File) (w : FileWrite) : File := file.writeAt w.position w.bytes

/-- The file after some writes, one after another. -/
def applyAll (file : File) (writes : List FileWrite) : File := writes.foldl apply file

/-- The bytes of a range are not written. -/
def Avoids (position size : ℕ) (w : FileWrite) : Prop :=
  position + size ≤ w.position ∨ w.position + w.bytes.length ≤ position

/-- Pieces that are written one after another. -/
def ofPieces : ℕ → List (List Byte) → List FileWrite
  | _, [] => []
  | position, piece :: pieces =>
      ⟨position, piece⟩ :: ofPieces (position + piece.length) pieces

@[simp]
theorem applyAll_nil (file : File) : applyAll file [] = file := rfl

@[simp]
theorem applyAll_cons (file : File) (w : FileWrite) (writes : List FileWrite) :
    applyAll file (w :: writes) = applyAll (w.apply file) writes := rfl

theorem applyAll_append (file : File) (writes writes' : List FileWrite) :
    applyAll file (writes ++ writes') = applyAll (applyAll file writes) writes' :=
  List.foldl_append

theorem length_le_apply (file : File) (w : FileWrite) : file.length ≤ (w.apply file).length := by
  unfold apply
  by_cases hne : w.bytes = []
  · rw [hne, File.writeAt_nil]
  · rw [File.length_writeAt hne]
    exact le_max_left _ _

theorem length_le_applyAll (file : File) (writes : List FileWrite) :
    file.length ≤ (applyAll file writes).length := by
  induction writes generalizing file with
  | nil => exact le_rfl
  | cons w writes ih => exact (length_le_apply file w).trans (ih (w.apply file))

theorem readAt_apply {file : File} {w : FileWrite} {position size : ℕ}
    (hfile : position + size ≤ file.length) (havoids : w.Avoids position size) :
    (w.apply file).readAt position size = file.readAt position size := by
  cases havoids with
  | inl hbefore => exact File.readAt_writeAt_before hbefore hfile
  | inr hafter => exact File.readAt_writeAt_after hafter

/-- The last write is there. -/
theorem readAt_applyAll_singleton (file : File) (w : FileWrite) :
    (applyAll file [w]).readAt w.position w.bytes.length = w.bytes :=
  File.readAt_writeAt file w.position w.bytes

/-- A range stays as it is if all writes avoid it. -/
theorem readAt_applyAll {file : File} {writes : List FileWrite} {position size : ℕ}
    (hfile : position + size ≤ file.length) (havoids : ∀ w ∈ writes, w.Avoids position size) :
    (applyAll file writes).readAt position size = file.readAt position size := by
  induction writes generalizing file with
  | nil => rfl
  | cons w writes ih =>
    rw [List.forall_mem_cons] at havoids
    rw [applyAll_cons, ih (hfile.trans (length_le_apply file w)) havoids.2,
      readAt_apply hfile havoids.1]

/-- A part of what is read. -/
theorem readAt_part {file : File} {position size start part : ℕ} (hle : start + part ≤ size) :
    File.readAt (file.readAt position size) start part =
      file.readAt (position + start) part := by
  unfold File.readAt
  rw [List.drop_take, List.take_take, List.drop_drop, min_eq_left (by omega)]

/-- Pieces are one write of all their bytes. -/
theorem applyAll_ofPieces (file : File) (position : ℕ) (pieces : List (List Byte)) :
    applyAll file (ofPieces position pieces) = file.writeAt position pieces.flatten := by
  induction pieces generalizing file position with
  | nil => rfl
  | cons piece pieces ih =>
    rw [ofPieces, applyAll_cons, ih, List.flatten_cons]
    exact File.writeAt_writeAt _ _ _ _

/-- A piece is where those before it end. -/
theorem readAt_applyAll_ofPieces (file : File) (position : ℕ) (before after : List (List Byte))
    (piece : List Byte) :
    (applyAll file (ofPieces position (before ++ piece :: after))).readAt
      (position + before.flatten.length) piece.length = piece := by
  have hflatten : (before ++ piece :: after).flatten =
      before.flatten ++ (piece ++ after.flatten) := by
    rw [List.flatten_append, List.flatten_cons]
  have hle : before.flatten.length + piece.length ≤
      (before.flatten ++ (piece ++ after.flatten)).length := by
    rw [List.length_append, List.length_append]
    omega
  have hpart := @readAt_part
    (applyAll file (ofPieces position (before ++ piece :: after))) position _ _ _ hle
  rw [← hpart, applyAll_ofPieces, hflatten, File.readAt_writeAt]
  unfold File.readAt
  rw [List.drop_left, List.take_left]

theorem le_position_of_mem_ofPieces {position : ℕ} {pieces : List (List Byte)} {w : FileWrite}
    (hw : w ∈ ofPieces position pieces) : position ≤ w.position := by
  induction pieces generalizing position with
  | nil => exact absurd hw List.not_mem_nil
  | cons piece pieces ih =>
    cases List.mem_cons.mp hw with
    | inl heq => exact le_of_eq (congrArg FileWrite.position heq).symm
    | inr hlater => exact (Nat.le_add_right _ _).trans (ih hlater)

end FileWrite

/-! ## Ranges of zeros -/

namespace File

/-- What there is of a range is zeros. -/
def ZeroAt (file : File) (position size : ℕ) : Prop :=
  ∀ i, position ≤ i → i < position + size → ∀ b ∈ file[i]?, b = 0

theorem ZeroAt.nil (position size : ℕ) : ZeroAt [] position size := by
  intro i _ _ b hb
  cases hb

theorem ZeroAt.mono {file : File} {position size position' size' : ℕ}
    (hzero : ZeroAt file position size) (hstart : position ≤ position')
    (hend : position' + size' ≤ position + size) : ZeroAt file position' size' :=
  fun i hi hlt => hzero i (hstart.trans hi) (hlt.trans_le hend)

theorem ZeroAt.eq_zero_of_mem_readAt {file : File} {position size : ℕ}
    (hzero : ZeroAt file position size) {b : Byte} (hb : b ∈ file.readAt position size) :
    b = 0 := by
  obtain ⟨i, hi⟩ := List.mem_iff_getElem?.mp hb
  unfold readAt at hi
  rw [List.getElem?_take] at hi
  split_ifs at hi with hlt
  rw [List.getElem?_drop] at hi
  exact hzero (position + i) (by omega) (by omega) b hi

theorem ofBytes_eq_zero {bytes : List Byte} (hzero : ∀ b ∈ bytes, b = 0) : ofBytes bytes = 0 := by
  have hrep := List.eq_replicate_of_mem hzero
  rw [hrep]
  unfold ofBytes
  induction bytes.length with
  | zero => rfl
  | succ n ih =>
    rw [List.replicate_succ, List.foldl_cons]
    exact ih

/-- A byte before the position is as it was, or a zero that fills a gap. -/
theorem getElem?_writeAt_before {file : File} {position i : ℕ} {bytes : List Byte}
    (hi : i < position) :
    (writeAt file position bytes)[i]? = file[i]? ∨ (writeAt file position bytes)[i]? = some 0 := by
  unfold writeAt
  split_ifs with hne
  · exact Or.inl rfl
  · rw [List.append_assoc, List.getElem?_append_left (by rw [length_before]; exact hi)]
    by_cases hfile : i < file.length
    · left
      rw [List.getElem?_append_left (by rw [List.length_take]; omega), List.getElem?_take,
        if_pos hi]
    · right
      rw [List.getElem?_append_right (by rw [List.length_take]; omega), List.length_take,
        List.getElem?_replicate, if_pos (by omega)]

theorem getElem?_writeAt_after {file : File} {position i : ℕ} {bytes : List Byte}
    (hi : position + bytes.length ≤ i) : (writeAt file position bytes)[i]? = file[i]? := by
  have hread : readAt (writeAt file position bytes) i 1 = readAt file i 1 :=
    readAt_writeAt_after hi
  unfold readAt at hread
  have hfirst := congrArg (fun l : List Byte => l[0]?) hread
  simpa [List.getElem?_take] using hfirst

/-- Zeros stay zeros where no write reaches them. -/
theorem ZeroAt.apply {file : File} {position size : ℕ} (hzero : ZeroAt file position size)
    {w : FileWrite} (havoids : w.Avoids position size) :
    ZeroAt (w.apply file) position size := by
  intro i hi hlt b hb
  unfold FileWrite.apply at hb
  cases havoids with
  | inl hbefore =>
    have hlt : i < w.position := by omega
    cases @getElem?_writeAt_before file w.position i w.bytes hlt with
    | inl hsame => exact hzero i hi (by omega) b (hsame ▸ hb)
    | inr hnew =>
      rw [hnew] at hb
      exact (Option.mem_some.mp hb).symm
  | inr hafter =>
    rw [getElem?_writeAt_after (hafter.trans hi)] at hb
    exact hzero i hi hlt b hb

theorem ZeroAt.applyAll {file : File} {position size : ℕ} (hzero : ZeroAt file position size)
    {writes : List FileWrite} (havoids : ∀ w ∈ writes, w.Avoids position size) :
    ZeroAt (FileWrite.applyAll file writes) position size := by
  induction writes generalizing file with
  | nil => exact hzero
  | cons w writes ih =>
    rw [List.forall_mem_cons] at havoids
    exact ih (hzero.apply havoids.1) havoids.2

end File

end Jepsen.Library
