/-
# Flipping bits of file chunks

In bitflip mode `corrupt-file` walks the affected chunks as if they were contiguous. It draws
the distance from one bit to the next, and carries the offset of the next bit, relative to the
current chunk, from chunk to chunk. The two loops are followed from loop head to loop head.
-/

import Jepsen.Resources.Chunks

namespace Jepsen.Resources.CorruptFile.Bitflip

open Jepsen.Library Jepsen.Library.ByteRange

/-- A value of `rand_exp_int` that is not negative. -/
abbrev Gap : Type := Fin (2 ^ 63)

/-- What the loops of `corrupt_bitflip` carry, with the bits flipped so far in place of their
number, the open file, and how many gaps were drawn. -/
structure Loop where
  chunk : ℕ
  bitOffset : ℤ
  byteOffset : ℤ
  start : ℤ
  chunkSize : ℤ
  buf : UInt8
  flips : List (ℕ × ℕ)
  file : Bytes
  draws : ℕ

/-- Where an execution of `corrupt_bitflip` is: at the head of the loop over chunks, at the head
of the loop over the bits of a chunk, or past both. -/
inductive Head
  | outer (s : Loop)
  | inner (s : Loop)
  | returned (code : ExitCode) (s : Loop)

namespace Head

/-- The loop variables. -/
def loop : Head → Loop
  | outer s => s
  | inner s => s
  | returned _ s => s

/-- `byte_offset` is always 1/8th `bit_offset`. -/
def Aligned : Head → Prop
  | outer s => s.byteOffset = s.bitOffset.tdiv 8
  | inner s => s.byteOffset = s.bitOffset.tdiv 8
  | returned _ _ => True

end Head

/-- `target_bit`, an unsigned byte. -/
def targetBit (bitOffset : ℤ) : ℕ := (bitOffset.tmod 8 % 256).toNat

/-- `mask`; a count that is too large for the shift is taken modulo 32. -/
def mask (targetBit : ℕ) : UInt8 := UInt8.ofNat (1 <<< (targetBit % 32))

/-- `pread` of a byte into `buf`, which keeps its value at the end of the file. -/
def pread (file : Bytes) (offset : ℕ) (buf : UInt8) : UInt8 := file[offset]?.getD buf

/-- `pwrite` of a byte; a file that ends before the offset is filled up with zeros. -/
def pwrite (file : Bytes) (offset : ℕ) (buf : UInt8) : Bytes :=
  writeAt (file ++ List.replicate (offset - file.length) 0) offset [buf]

/-- `start` and `chunk_size` for a chunk. -/
def enterChunk (opts : Opts) (fileSize : ℕ) (s : Loop) : Loop :=
  let start := chunkOffset opts s.chunk
  { s with start := start, chunkSize := clampedSize opts fileSize start }

/-- Flip a bit at an offset of the file, and roll a new inter-arrival interval. -/
def flip (gap : ℕ → Gap) (s : Loop) (offset : ℕ) : Loop :=
  let target := targetBit s.bitOffset
  let buf := pread s.file offset s.buf ^^^ mask target
  let delta : ℕ := if (gap s.draws).val = 0 then 1 else (gap s.draws).val
  let bitOffset := offT (s.bitOffset + delta)
  { s with
    buf := buf
    file := pwrite s.file offset buf
    flips := s.flips ++ [(offset, target)]
    draws := s.draws + 1
    bitOffset := bitOffset
    byteOffset := bitOffset.tdiv 8 }

/-- Next chunk. -/
def nextChunk (opts : Opts) (s : Loop) : Loop :=
  { s with
    bitOffset := offT (s.bitOffset - offT (s.chunkSize * 8))
    byteOffset := offT (s.byteOffset - s.chunkSize)
    chunk := s.chunk + opts.mod }

/-- From one loop head to the next. -/
def step (opts : Opts) (gap : ℕ → Gap) (fileSize : ℕ) : Head → Head
  | .outer s =>
      if s.chunk < chunkCount opts fileSize then .inner (enterChunk opts fileSize s)
      else .returned .ok s
  | .inner s =>
      if s.byteOffset < s.chunkSize then
        -- We're flipping in this chunk.
        let offset := offT (s.start + s.byteOffset)
        -- pread() fails
        if offset < 0 then .returned .io s
        else .inner (flip gap s offset.toNat)
      else .outer (nextChunk opts s)
  | .returned code s => .returned code s

/-- `corrupt_bitflip` before its loops. -/
def begin (opts : Opts) (gap : ℕ → Gap) (file : Bytes) : Head :=
  .outer
    { chunk := opts.index
      bitOffset := (gap 0).val
      byteOffset := ((gap 0).val : ℤ).tdiv 8
      start := 0
      chunkSize := 0
      buf := 0
      flips := []
      file := file
      draws := 1 }

/-- The loop head that `corrupt_bitflip` is at after some steps. -/
def headAt (opts : Opts) (gap : ℕ → Gap) (file : Bytes) (n : ℕ) : Head :=
  (step opts gap file.length)^[n] (begin opts gap file)

/-! ## Virtual positions -/

/-- The affected chunks, one after another. -/
def affectedBytes (opts : Opts) (fileSize : ℕ) : List ℕ :=
  (affectedChunks opts fileSize).flatMap (chunkBytes opts fileSize)

/-- How far the `k`th position is from the one before it. -/
def distance (gap : ℕ → Gap) (k : ℕ) : ℕ := max 1 (gap k).val

/-- The drawn positions, in bits. -/
def position (gap : ℕ → Gap) : ℕ → ℕ
  | 0 => (gap 0).val
  | k + 1 => position gap k + distance gap (k + 1)

/-- The bit of the file at a position of the affected chunks. -/
def place (opts : Opts) (fileSize p : ℕ) : Option (ℕ × ℕ) :=
  (affectedBytes opts fileSize)[p / 8]?.map fun byte => (byte, p % 8)

/-- Flip a bit of a file. -/
def flipBit (file : Bytes) (bit : ℕ × ℕ) : Bytes := file.modify bit.1 fun byte => byte ^^^ mask bit.2

/-- The bits of a file that some gaps select are flipped, each once, and no others. -/
structure Exact (opts : Opts) (gap : ℕ → Gap) (fileSize : ℕ) (flips : List (ℕ × ℕ)) : Prop where
  confined : ∀ byte bit, (byte, bit) ∈ flips → AffectedByte opts fileSize byte ∧ bit < 8
  once : flips.Nodup
  selected : ∀ flipped, flipped ∈ flips ↔ ∃ k, place opts fileSize (position gap k) = some flipped

/-- `corrupt_bitflip` is right: it returns with exactly the selected bits of the file flipped, and
its two offsets agree at every loop head. -/
structure Right (opts : Opts) (gap : ℕ → Gap) (file : Bytes) : Prop where
  returns : ∃ n code s, headAt opts gap file n = .returned code s ∧
    Exact opts gap file.length s.flips ∧ s.file = s.flips.foldl flipBit file
  aligned : ∀ n, (headAt opts gap file n).Aligned

end Jepsen.Resources.CorruptFile.Bitflip
