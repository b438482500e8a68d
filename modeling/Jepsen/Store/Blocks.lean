/-
# Blocks of a file

A block is a header and its data. The header has the length of the block, a checksum
and the type; the checksum is the CRC of the data and then of the header, with zeros
in the place of the checksum.
-/

import Jepsen.Library.Bytes

namespace Jepsen.Store

open Jepsen.Library

/-! ## Block headers -/

/-- The types of blocks. -/
inductive BlockType
  | blockIndex | fressian | partialMap | fressianStream | bigVector
  deriving DecidableEq

/-- `block-type->short` -/
def BlockType.toShort : BlockType → ℕ
  | .blockIndex => 1
  | .fressian => 2
  | .partialMap => 3
  | .fressianStream => 4
  | .bigVector => 5

/-- `short->block-type` -/
def shortToBlockType : ℕ → Option BlockType
  | 1 => some .blockIndex
  | 2 => some .fressian
  | 3 => some .partialMap
  | 4 => some .fressianStream
  | 5 => some .bigVector
  | _ => none

/-- Where the length, the checksum and the type are in a header, and how long it is. -/
def blockLenOffset : ℕ := 0

def blockLenSize : ℕ := 8

def blockChecksumOffset : ℕ := blockLenOffset + blockLenSize

def blockChecksumSize : ℕ := 4

def blockTypeOffset : ℕ := blockChecksumOffset + blockChecksumSize

def blockTypeSize : ℕ := 16

def blockHeaderSize : ℕ := blockLenSize + blockChecksumSize + blockTypeSize

/-- A blank header. -/
def blockHeader : List Byte := List.replicate blockHeaderSize 0

/-- `block-header-type`, as the number of the type. -/
def blockHeaderShort (header : List Byte) : ℕ := ofBytes (File.readAt header blockTypeOffset 2)

def blockHeaderType (header : List Byte) : Option BlockType :=
  shortToBlockType (blockHeaderShort header)

def setBlockHeaderType (header : List Byte) (blockType : BlockType) : List Byte :=
  File.writeAt header blockTypeOffset (toBytes 2 blockType.toShort)

def blockHeaderLength (header : List Byte) : ℕ :=
  ofBytes (File.readAt header blockLenOffset blockLenSize)

def setBlockHeaderLength (header : List Byte) (length : ℕ) : List Byte :=
  File.writeAt header blockLenOffset (toBytes blockLenSize length)

def blockHeaderChecksum (header : List Byte) : BitVec 32 :=
  BitVec.ofNat 32 (ofBytes (File.readAt header blockChecksumOffset blockChecksumSize))

def setBlockHeaderChecksum (header : List Byte) (checksum : BitVec 32) : List Byte :=
  File.writeAt header blockChecksumOffset (toBytes blockChecksumSize checksum.toNat)

/-- The checksum of a block, given its header and the CRC of its data; none if there is no such
type. -/
def blockChecksumGivenDataChecksum (header : List Byte) (dataCrc : Crc32) :
    Option (BitVec 32) :=
  (blockHeaderType header).map fun blockType =>
    (dataCrc.update (setBlockHeaderLength (setBlockHeaderType blockHeader blockType)
      (blockHeaderLength header))).value

/-- The checksum of a block, given its header and its data. -/
def blockChecksum (header data : List Byte) : Option (BitVec 32) :=
  blockChecksumGivenDataChecksum header (({} : Crc32).update data)

/-- A header without a checksum. -/
def uncheckedHeader (blockType : BlockType) (dataLength : ℕ) : List Byte :=
  setBlockHeaderLength (setBlockHeaderType blockHeader blockType) (blockHeaderSize + dataLength)

/-- The header for a type, the length of the data and its CRC. -/
def blockHeaderForLengthAndChecksum (blockType : BlockType) (dataLength : ℕ)
    (dataChecksum : Crc32) : Option (List Byte) :=
  let header := uncheckedHeader blockType dataLength
  (blockChecksumGivenDataChecksum header dataChecksum).map (setBlockHeaderChecksum header)

/-- The header for a type and the data. -/
def blockHeaderForData (blockType : BlockType) (data : List Byte) : Option (List Byte) :=
  let header := uncheckedHeader blockType data.length
  (blockChecksum header data).map (setBlockHeaderChecksum header)

/-! ## Reading and writing blocks -/

/-- What reading a block throws. -/
inductive ReadError
  | headerTruncated | dataTruncated | checksumMismatch | tooLarge
  deriving DecidableEq

/-- The header of the block at an offset. -/
def readBlockHeader (file : File) (offset : ℕ) : Except ReadError (List Byte) :=
  let header := file.readAt offset blockHeaderSize
  if header.length = blockHeaderSize then .ok header else .error .headerTruncated

/-- The data of the block at an offset, in a buffer that has an int as its size. -/
def readBlockData (file : File) (offset : ℕ) (header : List Byte) :
    Except ReadError (List Byte) :=
  let length := blockHeaderLength header
  if length < blockHeaderSize ∨ 2 ^ 31 ≤ length - blockHeaderSize then .error .tooLarge
  else
    let data := file.readAt (offset + blockHeaderSize) (length - blockHeaderSize)
    if data.length = length - blockHeaderSize then .ok data else .error .dataTruncated

/-- The header and the data of the block at an offset, with a checksum that is right. -/
def readBlockByOffset (file : File) (offset : ℕ) :
    Except ReadError (List Byte × List Byte) := do
  let header ← readBlockHeader file offset
  let data ← readBlockData file offset header
  if blockChecksum header data = some (blockHeaderChecksum header) then pure (header, data)
  else throw .checksumMismatch

/-- Write the header of a block. -/
def writeBlockHeader (file : File) (offset : ℕ) (header : List Byte) : File :=
  file.writeAt offset header

/-! ## What is in a header -/

/-- A header, from its fields. -/
def headerOf (length : ℕ) (checksum : BitVec 32) (short : ℕ) : List Byte :=
  toBytes 8 length ++ (toBytes 4 checksum.toNat ++ (toBytes 2 short ++ List.replicate 14 0))

theorem blockHeader_eq : blockHeader = headerOf 0 0 0 := by decide

@[simp]
theorem length_headerOf (length : ℕ) (checksum : BitVec 32) (short : ℕ) :
    (headerOf length checksum short).length = blockHeaderSize := by
  simp [headerOf, blockHeaderSize, blockLenSize, blockChecksumSize, blockTypeSize]

/-- Bytes are replaced by as many others. -/
theorem writeAt_append {before bytes bytes' : List Byte} (rest : List Byte) {position : ℕ}
    (hposition : position = before.length) (hlength : bytes.length = bytes'.length)
    (hne : bytes' ≠ []) :
    File.writeAt (before ++ (bytes ++ rest)) position bytes' = before ++ (bytes' ++ rest) := by
  have hzero : before.length - (before ++ (bytes ++ rest)).length = 0 := by
    rw [List.length_append]
    omega
  unfold File.writeAt
  rw [hposition, if_neg hne, List.take_left, hzero, List.replicate_zero, List.append_nil, ← hlength,
    ← List.append_assoc before bytes rest, ← List.length_append, List.drop_left,
    List.append_assoc]

theorem readAt_append {before bytes : List Byte} (rest : List Byte) {position size : ℕ}
    (hposition : position = before.length) (hsize : size = bytes.length) :
    File.readAt (before ++ (bytes ++ rest)) position size = bytes := by
  unfold File.readAt
  rw [hposition, hsize, List.drop_left, List.take_left]

theorem toBytes_ne_nil {width : ℕ} (hwidth : width ≠ 0) (n : ℕ) : toBytes width n ≠ [] := by
  intro hnil
  have hlength := congrArg List.length hnil
  rw [length_toBytes] at hlength
  exact hwidth hlength

theorem length_beforeType (length : ℕ) (checksum : BitVec 32) :
    blockTypeOffset = (toBytes 8 length ++ toBytes 4 checksum.toNat).length := by
  rw [List.length_append, length_toBytes, length_toBytes]
  rfl

theorem length_beforeChecksum (length : ℕ) : blockChecksumOffset = (toBytes 8 length).length := by
  rw [length_toBytes]
  rfl

theorem setBlockHeaderType_headerOf (length : ℕ) (checksum : BitVec 32) (short : ℕ)
    (blockType : BlockType) :
    setBlockHeaderType (headerOf length checksum short) blockType =
      headerOf length checksum blockType.toShort := by
  unfold setBlockHeaderType headerOf
  rw [← List.append_assoc, ← List.append_assoc]
  rw [List.append_assoc (toBytes 8 length ++ toBytes 4 checksum.toNat) (toBytes 2 short),
    writeAt_append _ (length_beforeType length checksum) (by rw [length_toBytes, length_toBytes])
      (toBytes_ne_nil two_ne_zero _), List.append_assoc]

theorem setBlockHeaderLength_headerOf (length : ℕ) (checksum : BitVec 32) (short length' : ℕ) :
    setBlockHeaderLength (headerOf length checksum short) length' =
      headerOf length' checksum short := by
  have hlengths : (toBytes 8 length).length = (toBytes 8 length').length := by
    rw [length_toBytes, length_toBytes]
  unfold setBlockHeaderLength headerOf blockLenOffset blockLenSize
  rw [← List.nil_append (toBytes 8 length ++ _),
    writeAt_append _ List.length_nil.symm hlengths (toBytes_ne_nil (by decide) _)]
  rfl

theorem setBlockHeaderChecksum_headerOf (length : ℕ) (checksum : BitVec 32) (short : ℕ)
    (checksum' : BitVec 32) :
    setBlockHeaderChecksum (headerOf length checksum short) checksum' =
      headerOf length checksum' short := by
  have hlengths : (toBytes 4 checksum.toNat).length = (toBytes 4 checksum'.toNat).length := by
    rw [length_toBytes, length_toBytes]
  unfold setBlockHeaderChecksum headerOf blockChecksumSize
  rw [writeAt_append _ (length_beforeChecksum length) hlengths (toBytes_ne_nil (by decide) _)]

theorem blockHeaderType_headerOf (length : ℕ) (checksum : BitVec 32) (blockType : BlockType) :
    blockHeaderType (headerOf length checksum blockType.toShort) = some blockType := by
  have hshort : blockHeaderShort (headerOf length checksum blockType.toShort) =
      blockType.toShort := by
    unfold blockHeaderShort headerOf
    rw [← List.append_assoc, readAt_append _ (length_beforeType length checksum)
      (length_toBytes 2 _).symm]
    apply ofBytes_toBytes
    cases blockType <;> decide
  unfold blockHeaderType
  rw [hshort]
  cases blockType <;> rfl

theorem blockHeaderLength_headerOf {length : ℕ} (hlength : length < 2 ^ 64)
    (checksum : BitVec 32) (short : ℕ) :
    blockHeaderLength (headerOf length checksum short) = length := by
  have hbound : length < 256 ^ 8 := by
    norm_num at hlength ⊢
    exact hlength
  unfold blockHeaderLength headerOf blockLenOffset blockLenSize
  rw [← List.nil_append (toBytes 8 length ++ _),
    readAt_append _ List.length_nil.symm (length_toBytes 8 _).symm, ofBytes_toBytes hbound]

theorem blockHeaderChecksum_headerOf (length : ℕ) (checksum : BitVec 32) (short : ℕ) :
    blockHeaderChecksum (headerOf length checksum short) = checksum := by
  have hbytes : ofBytes (toBytes 4 checksum.toNat) = checksum.toNat :=
    ofBytes_toBytes checksum.isLt
  unfold blockHeaderChecksum headerOf blockChecksumSize
  rw [readAt_append _ (length_beforeChecksum length) (length_toBytes 4 _).symm, hbytes,
    BitVec.ofNat_toNat, BitVec.setWidth_eq]

/-! ## Both ways to a header -/

theorem uncheckedHeader_eq (blockType : BlockType) (dataLength : ℕ) :
    uncheckedHeader blockType dataLength =
      headerOf (blockHeaderSize + dataLength) 0 blockType.toShort := by
  unfold uncheckedHeader
  rw [blockHeader_eq, setBlockHeaderType_headerOf, setBlockHeaderLength_headerOf]

/-- The checksum in a header does not count for the checksum. -/
theorem blockChecksumGivenDataChecksum_headerOf {length : ℕ} (hlength : length < 2 ^ 64)
    (checksum : BitVec 32) (blockType : BlockType) (dataCrc : Crc32) :
    blockChecksumGivenDataChecksum (headerOf length checksum blockType.toShort) dataCrc =
      some (dataCrc.update (headerOf length 0 blockType.toShort)).value := by
  unfold blockChecksumGivenDataChecksum
  rw [blockHeaderType_headerOf, blockHeaderLength_headerOf hlength, Option.map_some,
    blockHeader_eq, setBlockHeaderType_headerOf, setBlockHeaderLength_headerOf]

/-- The header of a block, with the CRC of its data and then of itself without the CRC. -/
def headerFor (blockType : BlockType) (data : List Byte) : List Byte :=
  headerOf (blockHeaderSize + data.length)
    ((({} : Crc32).update data).update
      (headerOf (blockHeaderSize + data.length) 0 blockType.toShort)).value blockType.toShort

theorem lt_of_int {size : ℕ} (hsize : size < 2 ^ 31) : blockHeaderSize + size < 2 ^ 64 := by
  have hheader : blockHeaderSize = 28 := rfl
  omega

theorem blockHeaderForLengthAndChecksum_eq {data : List Byte} (hdata : data.length < 2 ^ 31)
    (blockType : BlockType) :
    blockHeaderForLengthAndChecksum blockType data.length (({} : Crc32).update data) =
      some (headerFor blockType data) := by
  unfold blockHeaderForLengthAndChecksum
  dsimp only
  rw [uncheckedHeader_eq, blockChecksumGivenDataChecksum_headerOf (lt_of_int hdata),
    Option.map_some, setBlockHeaderChecksum_headerOf]
  rfl

theorem blockHeaderForData_eq {data : List Byte} (hdata : data.length < 2 ^ 31)
    (blockType : BlockType) : blockHeaderForData blockType data = some (headerFor blockType data) :=
  blockHeaderForLengthAndChecksum_eq hdata blockType

@[simp]
theorem length_headerFor (blockType : BlockType) (data : List Byte) :
    (headerFor blockType data).length = blockHeaderSize := length_headerOf _ _ _

/-- A block is read if its header and then its data are at the offset. -/
theorem readBlockByOffset_eq {file : File} {offset : ℕ} {blockType : BlockType} {data : List Byte}
    (hdata : data.length < 2 ^ 31)
    (hheader : file.readAt offset blockHeaderSize = headerFor blockType data)
    (hread : file.readAt (offset + blockHeaderSize) data.length = data) :
    readBlockByOffset file offset = .ok (headerFor blockType data, data) := by
  have hlength : blockHeaderLength (headerFor blockType data) = blockHeaderSize + data.length :=
    blockHeaderLength_headerOf (lt_of_int hdata) _ _
  have hchecksum : blockChecksum (headerFor blockType data) data =
      some (blockHeaderChecksum (headerFor blockType data)) := by
    unfold blockChecksum headerFor
    rw [blockChecksumGivenDataChecksum_headerOf (lt_of_int hdata), blockHeaderChecksum_headerOf]
  have hreadHeader : readBlockHeader file offset = .ok (headerFor blockType data) := by
    unfold readBlockHeader
    dsimp only
    rw [hheader, length_headerFor, if_pos rfl]
  have hreadData : readBlockData file offset (headerFor blockType data) = .ok data := by
    unfold readBlockData
    dsimp only
    rw [hlength, Nat.add_sub_cancel_left, if_neg (by omega), hread, if_pos rfl]
  unfold readBlockByOffset
  rw [hreadHeader]
  simp only [bind, Except.bind]
  rw [hreadData]
  simp only [if_pos hchecksum]
  rfl

end Jepsen.Store
