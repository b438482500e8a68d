/-
# Snapshots of file chunks

`corrupt-file` cuts a region of a file into chunks and affects every `mod`th of
them. In snapshot mode it copies each affected chunk to a file of its own, named
by the offsets where the chunk starts and ends; in restore mode it looks these
files up again and copies them back. Offsets are 64 bits wide and wrap around;
chunk numbers stay so far below the largest offset that adding `mod` does not.
-/

import Jepsen.Library.Assoc
import Jepsen.Library.ByteRange

namespace Jepsen.Resources.CorruptFile

open Jepsen.Library Jepsen.Library.ByteRange

/-- The contents of a file. -/
abbrev Bytes : Type := List UInt8

/-- `OFF_MAX` -/
def offMax : ℤ := 2 ^ 63 - 1

/-- A result as `off_t` holds it. -/
def offT (x : ℤ) : ℤ := Int.bmod x (2 ^ 64)

/-- An `off_t` passed as `size_t`. -/
def sizeT (x : ℤ) : ℕ := (x % 2 ^ 64).toNat

/-- Our exit statuses. -/
inductive ExitCode
  | ok | args | io | int
  deriving DecidableEq

/-- `opts_t`, as far as the two modes read it. -/
structure Opts where
  start : ℤ
  stop : ℤ
  chunkSize : ℤ
  index : ℕ
  mod : ℕ
  probability : ℚ

/-- The options fit the types they are stored in. -/
structure Opts.Typed (opts : Opts) : Prop where
  start : -2 ^ 63 ≤ opts.start ∧ opts.start ≤ offMax
  stop : -2 ^ 63 ≤ opts.stop ∧ opts.stop ≤ offMax
  chunkSize : -2 ^ 63 ≤ opts.chunkSize ∧ opts.chunkSize ≤ offMax
  index : opts.index < 2 ^ 32
  mod : opts.mod < 2 ^ 32

/-- `validate_opts` -/
def validateOpts (opts : Opts) : ExitCode :=
  if opts.start < 0 then .args
  else if opts.stop < 0 then .args
  else if offMax < opts.stop then .args
  else if opts.stop < opts.start then .args
  else if opts.mod ≤ opts.index then .args
  else if opts.probability < 0 ∨ 1 < opts.probability then .args
  else if opts.chunkSize ≤ 0 then .args
  else .ok

/-! ## Working with chunks -/

/-- `chunk_offset` -/
def chunkOffset (opts : Opts) (chunk : ℕ) : ℤ := offT (opts.start + offT (chunk * opts.chunkSize))

/-- `chunk_count` -/
def chunkCount (opts : Opts) (fileSize : ℕ) : ℕ :=
  let stop : ℤ := if (fileSize : ℤ) < opts.stop then fileSize else opts.stop
  if stop < opts.start then 0
  else
    let regionSize := stop - opts.start
    -- First, with rounding
    let chunks := regionSize / opts.chunkSize
    -- One extra chunk if there's a remainder
    (if regionSize % opts.chunkSize ≠ 0 then chunks + 1 else chunks).toNat

/-- The chunk numbers of the loop of both modes. No loop makes more than `count`
iterations. -/
def forChunks (mod count : ℕ) : ℕ → ℕ → List ℕ
  | 0, _ => []
  | fuel + 1, chunk =>
      if chunk < count then chunk :: forChunks mod count fuel (chunk + mod) else []

def affectedChunks (opts : Opts) (fileSize : ℕ) : List ℕ :=
  let count := chunkCount opts fileSize
  forChunks opts.mod count count opts.index

/-- `snapshot_path`; the path prints both offsets after the file. -/
structure SnapshotPath where
  start : ℤ
  stop : ℤ
  deriving DecidableEq

/-- The snapshots of a file that are on disk. -/
abbrev Snapshots : Type := Assoc SnapshotPath Bytes

/-! ## The two modes -/

/-- The end of a chunk, which is not past the end of the region. -/
def clampStop (opts : Opts) (stop : ℤ) : ℤ := if opts.stop < stop then opts.stop else stop

/-- The body of the loop of `corrupt_snapshot`. -/
def snapshotChunk (opts : Opts) (file : Bytes) (snapshots : Snapshots) (chunk : ℕ) : Snapshots :=
  -- Where are we corrupting?
  let start := chunkOffset opts chunk
  let stop := clampStop opts (offT (start + opts.chunkSize))
  -- Unlink, open and copy
  snapshots.insert ⟨start, stop⟩ (copyRange file start.toNat (sizeT (offT (stop - start))))

/-- `corrupt_snapshot`, if no call fails. -/
def corruptSnapshot (opts : Opts) (file : Bytes) (snapshots : Snapshots) : Snapshots :=
  (affectedChunks opts file.length).foldl (snapshotChunk opts file) snapshots

/-- A value of `drand48`. -/
abbrev Draw : Type := { x : ℚ // 0 ≤ x ∧ x < 1 }

/-- What the loop of `corrupt_restore` carries over to the next iteration. -/
structure RestoreState where
  file : Bytes
  stop : ℤ
  draws : ℕ

/-- The body of the loop of `corrupt_restore`. -/
def restoreChunk (opts : Opts) (draw : ℕ → Draw) (snapshots : Snapshots) (st : RestoreState)
    (chunk : ℕ) : RestoreState :=
  -- We want to restore blocks with probability p
  if opts.probability < (draw st.draws).1 then { st with draws := st.draws + 1 }
  else
    -- Where are we corrupting?
    let start := chunkOffset opts chunk
    let stop := clampStop opts (offT (st.stop + opts.chunkSize))
    match snapshots.lookup ⟨start, stop⟩ with
    -- That's fine, we didn't snapshot this block.
    | none => ⟨st.file, stop, st.draws + 1⟩
    -- Restore chunk
    | some snapshot =>
        ⟨writeAt st.file start.toNat (copyRange snapshot 0 (sizeT (offT (stop - start)))), stop,
          st.draws + 1⟩

/-- `corrupt_restore`, if no call fails. -/
def corruptRestore (opts : Opts) (draw : ℕ → Draw) (snapshots : Snapshots) (file : Bytes) : Bytes :=
  ((affectedChunks opts file.length).foldl (restoreChunk opts draw snapshots) ⟨file, 0, 0⟩).file

end Jepsen.Resources.CorruptFile
