/-
# Streaming a block

A `FileOffsetOutputStream` writes to a file at a position that moves on, and computes
the CRC of what it writes; the header is built from this CRC when the data is there.
What it writes of an array from an offset on, it compares with the limit of the
buffer, which is not the number of bytes unless the offset is zero.
-/

import Jepsen.Store.Blocks

namespace Jepsen.Store

open Jepsen.Library

/-! ## The stream -/

/-- A call of one of the methods `write`. -/
inductive WriteCall
  | byte (b : BitVec 32)
  | bytes (bs : List Byte)
  | slice (bs : List Byte) (offset len : ℕ)

namespace WriteCall

/-- The bytes that are to be written. -/
def data : WriteCall → List Byte
  | byte b => [b.setWidth 8]
  | bytes bs => bs
  | slice bs offset len => (bs.drop offset).take len

/-- The limit of the buffer around them. -/
def limit : WriteCall → ℕ
  | byte _ => 1
  | bytes bs => bs.length
  | slice _ offset len => offset + len

/-- The range is within the array. -/
def Valid : WriteCall → Prop
  | byte _ => True
  | bytes _ => True
  | slice bs offset len => offset + len ≤ bs.length

/-- Where in an array the bytes start. -/
def start : WriteCall → ℕ
  | byte _ => 0
  | bytes _ => 0
  | slice _ offset _ => offset

end WriteCall

/-- A `FileOffsetOutputStream` -/
structure OffsetStream where
  file : File
  offset : ℕ
  currentOffset : ℕ
  checksum : Crc32

namespace OffsetStream

/-- A stream to a file at an offset. -/
def new (file : File) (offset : ℕ) : OffsetStream :=
  { file := file, offset := offset, currentOffset := offset, checksum := {} }

/-- How many bytes have been written to this stream. -/
def bytesWritten (stream : OffsetStream) : ℕ := stream.currentOffset - stream.offset

/-- `write`; none if the assertion fails. -/
def write (stream : OffsetStream) (call : WriteCall) : Option OffsetStream :=
  let written := call.data.length
  if written = call.limit then
    some
      { stream with
        file := stream.file.writeAt stream.currentOffset call.data
        currentOffset := stream.currentOffset + written
        checksum := stream.checksum.update call.data }
  else none

/-- Calls, one after another. -/
def writes (stream : OffsetStream) (calls : List WriteCall) : Option OffsetStream :=
  calls.foldlM write stream

end OffsetStream

/-- All bytes of some calls. -/
def dataOf (calls : List WriteCall) : List Byte := calls.flatMap WriteCall.data

/-- A block that is streamed in some calls is the block of the data: no assertion fails, the data
is where it belongs, the header is the one for the data, and the block is read. -/
structure StreamsBlock (blockType : BlockType) (file : File) (offset : ℕ) (calls : List WriteCall)
    (stream : OffsetStream) (header : List Byte) : Prop where
  written : (OffsetStream.new file (offset + blockHeaderSize)).writes calls = some stream
  bytesWritten : stream.bytesWritten = (dataOf calls).length
  lands : stream.file.readAt (offset + blockHeaderSize) (dataOf calls).length = dataOf calls
  streamed : blockHeaderForLengthAndChecksum blockType stream.bytesWritten stream.checksum =
    some header
  oneShot : blockHeaderForData blockType (dataOf calls) = some header
  read : readBlockByOffset (writeBlockHeader stream.file offset header) offset =
    .ok (header, dataOf calls)

/-! ## What the calls do -/

/-- The buffer of a call has as many bytes as its limit if its bytes start at zero. -/
theorem length_data_eq_limit_iff {call : WriteCall} (hvalid : call.Valid) :
    call.data.length = call.limit ↔ call.start = 0 := by
  cases call with
  | byte b => exact iff_of_true rfl rfl
  | bytes bs => exact iff_of_true rfl rfl
  | slice bs offset len =>
    have hrange : offset + len ≤ bs.length := hvalid
    change ((bs.drop offset).take len).length = offset + len ↔ offset = 0
    rw [List.length_take, List.length_drop]
    omega

namespace OffsetStream

theorem write_eq {stream : OffsetStream} {call : WriteCall} (hvalid : call.Valid)
    (hstart : call.start = 0) :
    stream.write call = some
      { stream with
        file := stream.file.writeAt stream.currentOffset call.data
        currentOffset := stream.currentOffset + call.data.length
        checksum := stream.checksum.update call.data } := by
  unfold write
  dsimp only
  rw [if_pos ((length_data_eq_limit_iff hvalid).mpr hstart)]

theorem write_eq_none {stream : OffsetStream} {call : WriteCall} (hvalid : call.Valid)
    (hstart : call.start ≠ 0) : stream.write call = none := by
  unfold write
  dsimp only
  rw [if_neg fun heq => hstart ((length_data_eq_limit_iff hvalid).mp heq)]

/-- All calls are one write of all their bytes. -/
theorem writes_eq {stream : OffsetStream} {calls : List WriteCall}
    (hvalid : ∀ call ∈ calls, call.Valid) (hstart : ∀ call ∈ calls, call.start = 0) :
    stream.writes calls = some
      { stream with
        file := stream.file.writeAt stream.currentOffset (dataOf calls)
        currentOffset := stream.currentOffset + (dataOf calls).length
        checksum := stream.checksum.update (dataOf calls) } := by
  induction calls generalizing stream with
  | nil => rfl
  | cons call calls ih =>
    rw [List.forall_mem_cons] at hvalid hstart
    unfold writes at ih ⊢
    rw [List.foldlM_cons, write_eq hvalid.1 hstart.1]
    refine (ih hvalid.2 hstart.2).trans ?_
    dsimp only
    rw [File.writeAt_writeAt, ← Crc32.update_append, Nat.add_assoc, ← List.length_append]
    rfl

/-- One call that does not start at zero fails an assertion. -/
theorem writes_eq_none {stream : OffsetStream} {calls : List WriteCall}
    (hvalid : ∀ call ∈ calls, call.Valid) (hstart : ∃ call ∈ calls, call.start ≠ 0) :
    stream.writes calls = none := by
  induction calls generalizing stream with
  | nil =>
    obtain ⟨call, hcall, -⟩ := hstart
    exact absurd hcall List.not_mem_nil
  | cons call calls ih =>
    rw [List.forall_mem_cons] at hvalid
    unfold writes at ih ⊢
    rw [List.foldlM_cons]
    by_cases hzero : call.start = 0
    · rw [write_eq hvalid.1 hzero]
      apply ih hvalid.2
      obtain ⟨other, hother, hne⟩ := hstart
      cases List.mem_cons.mp hother with
      | inl heq => exact absurd (heq ▸ hzero) hne
      | inr hother => exact ⟨other, hother, hne⟩
    · rw [write_eq_none hvalid.1 hzero]
      rfl

end OffsetStream

/-- A header in front of data makes a block. -/
theorem readBlockByOffset_writeBlockHeader {file : File} {offset : ℕ} {blockType : BlockType}
    {data : List Byte} (hdata : data.length < 2 ^ 31)
    (hread : file.readAt (offset + blockHeaderSize) data.length = data) :
    readBlockByOffset (writeBlockHeader file offset (headerFor blockType data)) offset =
      .ok (headerFor blockType data, data) := by
  apply readBlockByOffset_eq hdata
  · have hheader := File.readAt_writeAt file offset (headerFor blockType data)
    rw [length_headerFor] at hheader
    exact hheader
  · have hafter : offset + (headerFor blockType data).length ≤ offset + blockHeaderSize := by
      rw [length_headerFor]
    exact (File.readAt_writeAt_after hafter).trans hread

/-- Streaming a block in some calls agrees with writing it at once if and only if all bytes of
arrays are written from offset zero on. -/
theorem streamsBlock_iff (blockType : BlockType) (file : File) (offset : ℕ)
    {calls : List WriteCall} (hvalid : ∀ call ∈ calls, call.Valid)
    (hlength : (dataOf calls).length < 2 ^ 31) :
    (∃ stream header, StreamsBlock blockType file offset calls stream header) ↔
      ∀ call ∈ calls, call.start = 0 := by
  constructor
  · intro h call hcall
    obtain ⟨stream, header, h⟩ := h
    by_contra hne
    have hwritten := h.written
    rw [OffsetStream.writes_eq_none hvalid ⟨call, hcall, hne⟩] at hwritten
    cases hwritten
  · intro hstart
    have hwritten :=
      @OffsetStream.writes_eq (OffsetStream.new file (offset + blockHeaderSize)) calls hvalid hstart
    have hlands := File.readAt_writeAt file (offset + blockHeaderSize) (dataOf calls)
    refine ⟨_, headerFor blockType (dataOf calls), hwritten, ?_, hlands, ?_, ?_, ?_⟩
    · exact Nat.add_sub_cancel_left _ _
    · have hcount : offset + blockHeaderSize + (dataOf calls).length -
          (offset + blockHeaderSize) = (dataOf calls).length := Nat.add_sub_cancel_left _ _
      unfold OffsetStream.bytesWritten OffsetStream.new
      dsimp only
      rw [hcount]
      exact blockHeaderForLengthAndChecksum_eq hlength blockType
    · exact blockHeaderForData_eq hlength blockType
    · exact readBlockByOffset_writeBlockHeader hlength hlands

/-- A byte, an array and the start of an array. -/
theorem threeCalls_streamsBlock : ∃ stream header,
    StreamsBlock .fressian [] 18 [.byte 1, .bytes [2, 3], .slice [4, 5, 6] 0 2] stream header :=
  (streamsBlock_iff .fressian [] 18
    (by
      rw [List.forall_mem_cons, List.forall_mem_cons, List.forall_mem_singleton]
      exact ⟨trivial, trivial, Nat.le_succ 2⟩) (by decide)).mpr
    (by
      rw [List.forall_mem_cons, List.forall_mem_cons, List.forall_mem_singleton]
      exact ⟨rfl, rfl, rfl⟩)

/-- The second byte of an array. -/
theorem secondByte_not_streamsBlock :
    (WriteCall.slice [1, 2] 1 1).Valid ∧
      ¬ ∃ stream header,
        StreamsBlock .fressian [] 18 [.slice [1, 2] 1 1] stream header := by
  constructor
  · exact Nat.le_refl 2
  · intro h
    obtain ⟨stream, header, h⟩ := h
    cases h.written

end Jepsen.Store
