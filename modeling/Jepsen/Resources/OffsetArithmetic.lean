/-
# The arithmetic of the loops

What `corrupt-file` adds, subtracts and multiplies: the exact results of the operations of
`chunk_count` and of the four loops, on operands as the program holds them. A result that `off_t`
cannot hold overflows. The numbers of chunks and bytes that the loops print are counted too.
-/

import Jepsen.Resources.BitflipConfinement
import Jepsen.Resources.CorruptCopyRegion

namespace Jepsen.Resources.CorruptFile

open Jepsen.Library Jepsen.Library.ByteRange

/-- `corruption_mode`, as far as it affects a file -/
inductive Mode
  | snapshot | restore | copy | bitflip

/-- The snapshots that `corrupt_snapshot` leaves behind. -/
inductive Snapshotted : Snapshots → Prop
  | empty : Snapshotted ∅
  | snapshot {opts : Opts} {snapshots : Snapshots} (htyped : opts.Typed)
      (hok : validateOpts opts = .ok) (file : Bytes) (prior : Snapshotted snapshots) :
      Snapshotted (corruptSnapshot opts file snapshots)

namespace Arithmetic

/-- `off_t` holds the exact result. -/
def Representable (x : ℤ) : Prop := -2 ^ 63 ≤ x ∧ x ≤ offMax

/-- None of some operations overflows. -/
def NoneOverflows (results : List ℤ) : Prop := ∀ x ∈ results, Representable x

/-! ## Results -/

/-- `chunk_offset` -/
def chunkOffset (opts : Opts) (chunk : ℕ) : List ℤ :=
  [chunk * opts.chunkSize, opts.start + offT (chunk * opts.chunkSize)]

/-- `chunk_count` -/
def chunkCount (opts : Opts) (fileSize : ℕ) : List ℤ :=
  let stop : ℤ := if (fileSize : ℤ) < opts.stop then fileSize else opts.stop
  if stop < opts.start then []
  else
    let regionSize := stop - opts.start
    regionSize ::
      if regionSize % opts.chunkSize ≠ 0 then [regionSize / opts.chunkSize + 1] else []

/-- The size of the chunk at an offset, clamped to the file and the region. -/
def clampedSize (opts : Opts) (fileSize : ℕ) (start : ℤ) : List ℤ :=
  let stop := offT (start + opts.chunkSize)
  let stop := if (fileSize : ℤ) < stop then (fileSize : ℤ) else stop
  [start + opts.chunkSize, clampStop opts stop - start]

/-- The statistics of a loop. -/
structure Stats where
  chunks : ℕ
  bytes : ℕ

/-- One more chunk. -/
def Stats.add (stats : Stats) (copied : ℕ) : Stats := ⟨stats.chunks + 1, stats.bytes + copied⟩

/-- The statistics, as results. -/
def Stats.results (stats : Stats) : List ℤ := [(stats.chunks : ℤ), stats.bytes]

/-- The results of a loop: those of each iteration, in the state that the ones before leave. -/
def ofLoop {σ : Type} (iteration : σ → ℕ → List ℤ) (next : σ → ℕ → σ) : σ → List ℕ → List ℤ
  | _, [] => []
  | s, chunk :: chunks => iteration s chunk ++ ofLoop iteration next (next s chunk) chunks

/-! ## `corrupt_snapshot` -/

/-- What `corrupt_snapshot` copies of a chunk. -/
def snapshotCopied (opts : Opts) (file : Bytes) (chunk : ℕ) : ℕ :=
  (content file (snapshotPath opts chunk)).length

def snapshotIteration (opts : Opts) (file : Bytes) (stats : Stats) (chunk : ℕ) : List ℤ :=
  let start := CorruptFile.chunkOffset opts chunk
  chunkOffset opts chunk ++ [start + opts.chunkSize, snapshotStop opts chunk - start] ++
    (stats.add (snapshotCopied opts file chunk)).results ++ [(chunk : ℤ) + opts.mod]

def snapshot (opts : Opts) (file : Bytes) : List ℤ :=
  ofLoop (snapshotIteration opts file)
    (fun stats chunk => stats.add (snapshotCopied opts file chunk)) ⟨0, 0⟩
    (affectedChunks opts file.length)

/-! ## `corrupt_restore` -/

/-- The statistics after an iteration of `corrupt_restore`. -/
def restoreStats (opts : Opts) (draw : ℕ → Draw) (snapshots : Snapshots) (st : RestoreState)
    (stats : Stats) (chunk : ℕ) : Stats :=
  if opts.probability < (draw st.draws).1 then stats
  else
    let start := CorruptFile.chunkOffset opts chunk
    let stop := clampStop opts (offT (st.stop + opts.chunkSize))
    match snapshots.lookup ⟨start, stop⟩ with
    | none => stats
    | some snapshot => stats.add (copyRange snapshot 0 (sizeT (offT (stop - start)))).length

def restoreIteration (opts : Opts) (draw : ℕ → Draw) (snapshots : Snapshots)
    (s : RestoreState × Stats) (chunk : ℕ) : List ℤ :=
  let next := (restoreStats opts draw snapshots s.1 s.2 chunk).results ++ [(chunk : ℤ) + opts.mod]
  if opts.probability < (draw s.1.draws).1 then next
  else
    let start := CorruptFile.chunkOffset opts chunk
    let stop := clampStop opts (offT (s.1.stop + opts.chunkSize))
    let size := if (snapshots.lookup ⟨start, stop⟩).isSome then [stop - start] else []
    chunkOffset opts chunk ++ [s.1.stop + opts.chunkSize] ++ size ++ next

def restore (opts : Opts) (draw : ℕ → Draw) (snapshots : Snapshots) (file : Bytes) : List ℤ :=
  ofLoop (restoreIteration opts draw snapshots)
    (fun s chunk => (restoreChunk opts draw snapshots s.1 chunk,
      restoreStats opts draw snapshots s.1 s.2 chunk))
    (⟨file, 0, 0⟩, ⟨0, 0⟩) (affectedChunks opts file.length)

/-! ## `corrupt_copy` -/

/-- `rand_source_offset` -/
def randSourceOffset (opts : Opts) (fileSize : ℕ) (rolls : List Copy.Roll) : List ℤ :=
  chunkCount opts fileSize ++ rolls.flatMap fun roll =>
    chunkOffset opts (Copy.randInt (CorruptFile.chunkCount opts fileSize) roll)

/-- Where an iteration of `corrupt_copy` ends, if it does not fail. -/
def copyNext (opts : Opts) (chunk : ℕ) : Copy.Head → List ℤ
  | .loop s => [(s.copies.length : ℤ), (s.copies.map Copy.Copied.length).sum, chunk + opts.mod]
  | .returned _ _ => []

/-- From one loop head of `corrupt_copy` to the next. -/
def copyStep (opts : Opts) (fileSize : ℕ) : Copy.Head → Copy.Draws → Copy.Head → List ℤ
  | .loop s, draws, next =>
      if s.chunk < CorruptFile.chunkCount opts fileSize then
        (if opts.probability < draws.draw.1 then []
          else chunkOffset opts s.chunk ++
            clampedSize opts fileSize (CorruptFile.chunkOffset opts s.chunk) ++
              randSourceOffset opts fileSize draws.rolls) ++ copyNext opts s.chunk next
      else []
  | .returned _ _, _, _ => []

/-! ## `corrupt_bitflip` -/

/-- From one loop head of `corrupt_bitflip` to the next. -/
def bitflipStep (opts : Opts) (gap : ℕ → Bitflip.Gap) (fileSize : ℕ) : Bitflip.Head → List ℤ
  | .outer s =>
      if s.chunk < CorruptFile.chunkCount opts fileSize then
        chunkOffset opts s.chunk ++
          clampedSize opts fileSize (CorruptFile.chunkOffset opts s.chunk)
      else []
  | .inner s =>
      if s.byteOffset < s.chunkSize then
        (s.start + s.byteOffset) ::
          if offT (s.start + s.byteOffset) < 0 then []
          else [(s.flips.length : ℤ) + 1, s.bitOffset + Bitflip.distance gap s.draws]
      else
        -- There were as many chunks before this one as `mod` was added to the index.
        [((s.chunk - opts.index) / opts.mod : ℕ) + 1, s.chunkSize * 8,
          s.bitOffset - offT (s.chunkSize * 8), s.byteOffset - s.chunkSize,
          (s.chunk : ℤ) + opts.mod]
  | .returned _ _ => []

/-! ## What should not overflow -/

/-- No operation of a loop overflows. -/
def LoopOverflowFree (opts : Opts) (gap : ℕ → Bitflip.Gap) (file : Bytes) : Mode → Prop
  | .snapshot => NoneOverflows (snapshot opts file)
  | .restore => ∀ draw snapshots, Snapshotted snapshots →
      NoneOverflows (restore opts draw snapshots file)
  | .copy => ∀ trace h draws h', Copy.Execution opts file trace h →
      Copy.step opts file.length h draws = some h' →
        NoneOverflows (copyStep opts file.length h draws h')
  | .bitflip => ∀ n,
      NoneOverflows (bitflipStep opts gap file.length (Bitflip.headAt opts gap file n))

/-- No operation on a file overflows. -/
def OverflowFree (opts : Opts) (gap : ℕ → Bitflip.Gap) (file : Bytes) (mode : Mode) : Prop :=
  NoneOverflows (chunkCount opts file.length) ∧ LoopOverflowFree opts gap file mode

/-- The numbers of the affected chunks leave room for the next one. -/
def NumbersFit (opts : Opts) (fileSize : ℕ) : Prop :=
  ∀ chunk ∈ affectedChunks opts fileSize, (chunk : ℤ) + opts.mod ≤ offMax

/-- No affected chunk ends past the largest offset. -/
def EndsFit (opts : Opts) (fileSize : ℕ) : Prop :=
  ∀ chunk ∈ affectedChunks opts fileSize, (startOf opts chunk : ℤ) + opts.chunkSize ≤ offMax

/-- No end that `corrupt_restore` adds `chunk_size` to is too large. It is not the start of the
chunk, but the end of the chunk before. -/
def RestoreFits (opts : Opts) (fileSize : ℕ) : Prop :=
  ∀ j, opts.index + j * opts.mod < CorruptFile.chunkCount opts fileSize →
    min opts.stop (j * opts.chunkSize) + opts.chunkSize ≤ offMax

/-- The offsets in bits fit. -/
structure BitsFit (opts : Opts) (gap : ℕ → Bitflip.Gap) (fileSize : ℕ) : Prop where
  /-- No affected chunk has more bits than the largest offset. -/
  sizes : ∀ chunk ∈ affectedChunks opts fileSize, (sizeOf opts fileSize chunk : ℤ) * 8 ≤ offMax
  /-- No gap leads past the largest offset. -/
  gaps : ∀ k chunk rel, ¬ Bitflip.Exceeds opts gap fileSize k chunk rel
  /-- The flips can be counted. -/
  flips : ∀ k, Bitflip.place opts fileSize (Bitflip.position gap k) ≠ none → (k : ℤ) + 1 ≤ offMax

/-- The options for which no operation of a mode overflows. -/
def Fits (opts : Opts) (gap : ℕ → Bitflip.Gap) (fileSize : ℕ) (mode : Mode) : Prop :=
  NumbersFit opts fileSize ∧ match mode with
  | .snapshot | .copy => EndsFit opts fileSize
  | .restore => RestoreFits opts fileSize
  | .bitflip => EndsFit opts fileSize ∧ BitsFit opts gap fileSize

end Arithmetic

end Jepsen.Resources.CorruptFile
