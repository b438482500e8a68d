/-
# Bytes

Integers as big-endian bytes, the CRC-32 of bytes as they come in, and files that
are written and read at positions.
-/

import Mathlib

namespace Jepsen.Library

/-- A byte. -/
abbrev Byte := BitVec 8

/-! ## Big-endian integers -/

/-- An integer as so many bytes, of which the first one is the most significant. -/
def toBytes : ℕ → ℕ → List Byte
  | 0, _ => []
  | width + 1, n => toBytes width (n / 256) ++ [BitVec.ofNat 8 n]

/-- The integer that bytes stand for. -/
def ofBytes (bytes : List Byte) : ℕ := bytes.foldl (fun n byte => n * 256 + byte.toNat) 0

@[simp]
theorem length_toBytes (width n : ℕ) : (toBytes width n).length = width := by
  induction width generalizing n with
  | zero => rfl
  | succ width ih => rw [toBytes, List.length_append, ih, List.length_singleton]

theorem ofBytes_toBytes {width n : ℕ} (hn : n < 256 ^ width) :
    ofBytes (toBytes width n) = n := by
  induction width generalizing n with
  | zero =>
    rw [pow_zero, Nat.lt_one_iff] at hn
    subst hn
    rfl
  | succ width ih =>
    have hdiv : n / 256 < 256 ^ width := by
      rw [pow_succ] at hn
      omega
    have hih := ih hdiv
    unfold ofBytes at hih ⊢
    rw [toBytes, List.foldl_append, hih, List.foldl_cons, List.foldl_nil, BitVec.toNat_ofNat]
    omega

/-! ## CRC-32 -/

/-- One bit of a CRC-32. -/
def crcBit (crc : BitVec 32) : BitVec 32 :=
  if crc.getLsbD 0 then (crc >>> 1) ^^^ 0xEDB88320#32 else crc >>> 1

/-- One byte of a CRC-32. -/
def crcByte (crc : BitVec 32) (byte : Byte) : BitVec 32 := crcBit^[8] (crc ^^^ byte.setWidth 32)

/-- A CRC-32 that bytes can be added to. -/
structure Crc32 where
  register : BitVec 32 := 0xFFFFFFFF#32
  deriving DecidableEq

namespace Crc32

/-- Add some bytes. -/
def update (crc : Crc32) (bytes : List Byte) : Crc32 := ⟨bytes.foldl crcByte crc.register⟩

/-- The CRC of all bytes that were added. -/
def value (crc : Crc32) : BitVec 32 := ~~~crc.register

theorem update_append (crc : Crc32) (bytes bytes' : List Byte) :
    crc.update (bytes ++ bytes') = (crc.update bytes).update bytes' := by
  unfold update
  rw [List.foldl_append]

@[simp]
theorem update_nil (crc : Crc32) : crc.update [] = crc := rfl

end Crc32

/-! ## Files -/

/-- A file as the list of its bytes. -/
abbrev File := List Byte

namespace File

/-- The bytes from a position on, at most so many of them. -/
def readAt (file : File) (position size : ℕ) : List Byte := (file.drop position).take size

/-- Write bytes at a position. Nothing is written without bytes; beyond the end of the file, there
are zeros in between. -/
def writeAt (file : File) (position : ℕ) (bytes : List Byte) : File :=
  if bytes = [] then file
  else
    file.take position ++ List.replicate (position - file.length) 0 ++ bytes ++
      file.drop (position + bytes.length)

@[simp]
theorem writeAt_nil (file : File) (position : ℕ) : writeAt file position [] = file := rfl

theorem length_before (file : File) (position : ℕ) :
    (file.take position ++ List.replicate (position - file.length) (0 : Byte)).length =
      position := by
  rw [List.length_append, List.length_take, List.length_replicate]
  omega

theorem length_writeAt {file : File} {position : ℕ} {bytes : List Byte} (hne : bytes ≠ []) :
    (writeAt file position bytes).length = max file.length (position + bytes.length) := by
  unfold writeAt
  rw [if_neg hne, List.length_append, List.length_append, length_before, List.length_drop]
  omega

/-- What is written can be read. -/
theorem readAt_writeAt (file : File) (position : ℕ) (bytes : List Byte) :
    readAt (writeAt file position bytes) position bytes.length = bytes := by
  by_cases hne : bytes = []
  · subst hne
    exact List.take_zero
  · unfold readAt writeAt
    rw [if_neg hne, List.append_assoc, List.drop_left' (length_before file position),
      List.take_left]

/-- What comes after the bytes that are written stays. -/
theorem readAt_writeAt_after {file : File} {position position' size : ℕ} {bytes : List Byte}
    (hafter : position + bytes.length ≤ position') :
    readAt (writeAt file position bytes) position' size = readAt file position' size := by
  by_cases hne : bytes = []
  · rw [hne, writeAt_nil]
  · have hlength : (file.take position ++ List.replicate (position - file.length) 0 ++
        bytes).length = position + bytes.length := by
      rw [List.length_append, length_before]
    have hdrop : (writeAt file position bytes).drop position' = file.drop position' := by
      unfold writeAt
      rw [if_neg hne, List.drop_append, hlength, List.drop_drop,
        List.drop_eq_nil_of_le (by omega), List.nil_append]
      congr 1
      omega
    unfold readAt
    rw [hdrop]

/-- What comes before the bytes that are written stays. -/
theorem readAt_writeAt_before {file : File} {position position' size : ℕ} {bytes : List Byte}
    (hbefore : position' + size ≤ position) (hfile : position' + size ≤ file.length) :
    readAt (writeAt file position bytes) position' size = readAt file position' size := by
  by_cases hne : bytes = []
  · rw [hne, writeAt_nil]
  · unfold readAt writeAt
    rw [if_neg hne, List.append_assoc, List.append_assoc, List.drop_append_of_le_length
      (by rw [List.length_take]; omega), List.take_append_of_le_length
      (by rw [List.length_drop, List.length_take]; omega), List.drop_take, List.take_take,
      min_eq_left (by omega)]

/-- Bytes that are written one after the other. -/
theorem writeAt_writeAt (file : File) (position : ℕ) (bytes bytes' : List Byte) :
    writeAt (writeAt file position bytes) (position + bytes.length) bytes' =
      writeAt file position (bytes ++ bytes') := by
  by_cases hne : bytes = []
  · rw [hne, writeAt_nil, List.length_nil, Nat.add_zero, List.nil_append]
  by_cases hne' : bytes' = []
  · rw [hne', writeAt_nil, List.append_nil]
  have happend : bytes ++ bytes' ≠ [] := by simp [hne]
  have hlength : (writeAt file position bytes).length = max file.length (position + bytes.length) :=
    length_writeAt hne
  have hzero : position + bytes.length - (writeAt file position bytes).length = 0 := by omega
  have hstart : (writeAt file position bytes).take (position + bytes.length) =
      file.take position ++ List.replicate (position - file.length) 0 ++ bytes := by
    have hbefore : (file.take position ++ List.replicate (position - file.length) 0 ++
        bytes).length = position + bytes.length := by
      rw [List.length_append, length_before]
    unfold writeAt
    rw [if_neg hne]
    exact List.take_left' hbefore
  have hrest : (writeAt file position bytes).drop (position + bytes.length + bytes'.length) =
      file.drop (position + bytes.length + bytes'.length) := by
    have hall : readAt (writeAt file position bytes) (position + bytes.length + bytes'.length)
        (max file.length (position + bytes.length)) =
          readAt file (position + bytes.length + bytes'.length)
            (max file.length (position + bytes.length)) :=
      readAt_writeAt_after (by omega)
    unfold readAt at hall
    rw [List.take_of_length_le, List.take_of_length_le] at hall
    · exact hall
    · rw [List.length_drop]
      omega
    · rw [List.length_drop, hlength]
      omega
  rw [writeAt, if_neg hne', hstart, hrest, hzero, List.replicate_zero, List.append_nil, writeAt,
    if_neg happend, List.length_append, ← Nat.add_assoc]
  simp only [List.append_assoc]

end File

end Jepsen.Library
