/-
# Copying file chunks over others

In copy mode `corrupt-file` replaces each affected chunk, with some probability, by bytes from
another chunk of the region. It rolls chunk numbers until it finds one it may copy from, and
copies as many bytes as the destination has.
-/

import Jepsen.Library.Runs
import Jepsen.Resources.Chunks

namespace Jepsen.Resources.CorruptFile.Copy

open Jepsen.Library Jepsen.Library.ByteRange

/-- A value of `lrand48`. -/
abbrev Roll : Type := Fin (2 ^ 31)

/-- `rand_int` -/
def randInt (max : ℕ) (roll : Roll) : ℕ := if 0 < max then roll.val % max else 0

/-- A chunk that is rolled again. -/
def rejects (opts : Opts) (destOffset : ℤ) (chunk : ℕ) : Bool :=
  -- We're corrupting every chunk; there are no clean chunks to choose from.
  if opts.mod = 1 then decide (chunkOffset opts chunk = destOffset)
  -- We're not corrupting every chunk. Choose an unaffected one.
  else decide (chunk % opts.mod = opts.index)

/-- The first of some rolls that is not rejected, if there is one. -/
def rollChunk (opts : Opts) (destOffset : ℤ) (count : ℕ) : List Roll → Option ℕ
  | [] => none
  | roll :: rolls =>
      let chunk := randInt count roll
      if rejects opts destOffset chunk then rollChunk opts destOffset count rolls else some chunk

/-- `rand_source_offset`; it does not return if the rolls run out. -/
def randSourceOffset (opts : Opts) (destOffset : ℤ) (fileSize : ℕ) (rolls : List Roll) :
    Option ℤ :=
  let count := chunkCount opts fileSize
  -- We can't corrupt it by copying another chunk!
  if count < 2 then some (-1)
  else (rollChunk opts destOffset count rolls).map (chunkOffset opts)

/-- Bytes that were copied within the file. -/
structure Copied where
  source : ℕ
  dest : ℕ
  length : ℕ

/-- What the loop of `corrupt_copy` carries: the copies made so far stand for their statistics. -/
structure Loop where
  chunk : ℕ
  file : Bytes
  copies : List Copied

/-- Where an execution of `corrupt_copy` is. -/
inductive Head
  | loop (s : Loop)
  | returned (code : ExitCode) (s : Loop)

/-- The loop variables. -/
def Head.state : Head → Loop
  | .loop s => s
  | .returned _ s => s

/-- What one iteration draws, and how many bytes the system call copies in it. -/
structure Draws where
  draw : Draw
  rolls : List Roll
  copied : ℕ

/-- `copy_file_range` within a file fails if the ranges overlap. It ends at the end of the file,
and where the file would grow past the largest offset. -/
def copyLimit (file : Bytes) (source dest size : ℕ) : Option ℕ :=
  let limit := min (min size (file.length - source)) (offMax.toNat - dest)
  if dest < source + limit ∧ source < dest + limit then none else some limit

/-- The body of the loop of `corrupt_copy`. -/
def iteration (opts : Opts) (fileSize : ℕ) (s : Loop) (draws : Draws) : Option Head :=
  let next := { s with chunk := s.chunk + opts.mod }
  -- We want to restore blocks with probability p
  if opts.probability < draws.draw.1 then some (.loop next)
  else
    let start := chunkOffset opts s.chunk
    let chunkSize := clampedSize opts fileSize start
    match randSourceOffset opts start fileSize draws.rolls with
    | none => none
    | some sourceOffset =>
        -- Negative offset indicates there are no other chunks we can copy from
        if sourceOffset < 0 then some (.loop next)
        else
          match copyLimit s.file sourceOffset.toNat start.toNat (sizeT chunkSize) with
          | none => some (.returned .io s)
          | some limit =>
              if draws.copied ≤ limit then some (.loop
                { next with
                  file := writeAt s.file start.toNat
                    (copyRange s.file sourceOffset.toNat draws.copied)
                  copies := s.copies ++ [⟨sourceOffset.toNat, start.toNat, draws.copied⟩] })
              else none

/-- From one loop head to the next. -/
def step (opts : Opts) (fileSize : ℕ) : Head → Draws → Option Head
  | .loop s, draws =>
      if s.chunk < chunkCount opts fileSize then iteration opts fileSize s draws
      else some (.returned .ok s)
  | .returned _ _, _ => none

/-- Where `corrupt_copy` starts. -/
def begin (opts : Opts) (file : Bytes) : Head := .loop ⟨opts.index, file, []⟩

/-- Executions of `corrupt_copy`, with what they draw. -/
def Execution (opts : Opts) (file : Bytes) : List Draws → Head → Prop :=
  Run (fun h draws h' => step opts file.length h draws = some h') (begin opts file)

/-! ## What should be copied -/

/-- The number of the chunk a byte is in. -/
def chunkOf (opts : Opts) (byte : ℕ) : ℕ := ((byte - opts.start) / opts.chunkSize).toNat

/-- Bytes of an affected chunk are replaced by bytes of the region that are in another chunk and,
where there are any, in one that is not affected. -/
structure Proper (opts : Opts) (fileSize : ℕ) (copied : Copied) : Prop where
  written : ∀ i < copied.length, AffectedByte opts fileSize (copied.dest + i)
  read : ∀ i < copied.length, opts.start ≤ (copied.source + i : ℕ) ∧
    ((copied.source + i : ℕ) : ℤ) < opts.stop ∧ copied.source + i < fileSize
  apart : ∀ i < copied.length, ∀ j < copied.length,
    chunkOf opts (copied.source + i) ≠ chunkOf opts (copied.dest + j)
  unaffected : 1 < opts.mod → ∀ i < copied.length,
    chunkOf opts (copied.source + i) % opts.mod ≠ opts.index

/-- Every copy of every execution is proper, and there is always a roll that is not rejected. -/
structure Right (opts : Opts) (file : Bytes) : Prop where
  proper : ∀ draws h, Execution opts file draws h →
    ∀ copied ∈ h.state.copies, Proper opts file.length copied
  admissible : 2 ≤ chunkCount opts file.length → ∀ chunk ∈ affectedChunks opts file.length,
    ∃ roll : Roll, rejects opts (chunkOffset opts chunk)
      (randInt (chunkCount opts file.length) roll) = false

/-- The options for which no copy leaves the region. -/
structure Fits (opts : Opts) (fileSize : ℕ) : Prop where
  /-- No affected chunk ends past the largest offset, unless it is the only chunk or the region
  ends there too. -/
  dest : 2 ≤ chunkCount opts fileSize → ∀ chunk ∈ affectedChunks opts fileSize,
    startOf opts chunk + opts.chunkSize ≤ offMax ∨ offMax ≤ regionEnd opts fileSize
  /-- If the file goes on behind the region, the region is a number of whole chunks, or its last
  chunk is never copied from. -/
  source : opts.stop < fileSize → (opts.stop - opts.start) % opts.chunkSize = 0 ∨
    chunkCount opts fileSize < 2 ∨ 2 ^ 31 < chunkCount opts fileSize ∨
      1 < opts.mod ∧ ((chunkCount opts fileSize - 1) % opts.mod = opts.index ∨
        chunkCount opts fileSize ≤ opts.index)

end Jepsen.Resources.CorruptFile.Copy
