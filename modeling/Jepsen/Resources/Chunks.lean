/-
# Chunks of a region

Where the chunks of a region start, which bytes they have, and which of them are affected. The
loops compute the size of a chunk with offsets that may wrap.
-/

import Jepsen.Resources.CorruptFileRoundTrip

namespace Jepsen.Resources.CorruptFile

/-- Where a chunk starts. -/
def startOf (opts : Opts) (chunk : ℕ) : ℕ := (opts.start + chunk * opts.chunkSize).toNat

/-- Where the region ends: at its end or at the end of the file. -/
def regionEnd (opts : Opts) (fileSize : ℕ) : ℕ := min opts.stop.toNat fileSize

/-- The bytes of a chunk. -/
def chunkBytes (opts : Opts) (fileSize chunk : ℕ) : List ℕ :=
  List.range' (startOf opts chunk)
    (min (startOf opts chunk + opts.chunkSize.toNat) (regionEnd opts fileSize) - startOf opts chunk)

/-- How many bytes of a chunk are in the region. -/
def sizeOf (opts : Opts) (fileSize chunk : ℕ) : ℕ := (chunkBytes opts fileSize chunk).length

/-- A byte of an affected chunk, in the region and in the file. -/
structure AffectedByte (opts : Opts) (fileSize byte : ℕ) : Prop where
  chunk : ∃ chunk : ℕ, chunk ≡ opts.index [MOD opts.mod] ∧
    opts.start + chunk * opts.chunkSize ≤ byte ∧ byte < opts.start + (chunk + 1) * opts.chunkSize
  start : opts.start ≤ byte
  stop : byte < opts.stop
  inFile : byte < fileSize

/-- `chunk_size` for the chunk at an offset. -/
def clampedSize (opts : Opts) (fileSize : ℕ) (start : ℤ) : ℤ :=
  -- How big is this chunk?
  let stop := offT (start + opts.chunkSize)
  -- Don't go past the end of the file or region
  let stop := if (fileSize : ℤ) < stop then (fileSize : ℤ) else stop
  let stop := clampStop opts stop
  offT (stop - start)

section

variable {opts : Opts} {fileSize : ℕ}

theorem startOf_eq (hvalid : Valid opts) (chunk : ℕ) :
    (startOf opts chunk : ℤ) = opts.start + chunk * opts.chunkSize := by
  have hpos := hvalid.chunkSize
  have hstart := hvalid.start
  rw [startOf, Int.toNat_of_nonneg (by positivity)]

theorem regionEnd_eq (hvalid : Valid opts) (fileSize : ℕ) :
    (regionEnd opts fileSize : ℤ) = min opts.stop fileSize := by
  have hstop := hvalid.start.trans hvalid.le
  rw [regionEnd, Nat.cast_min, Int.toNat_of_nonneg hstop]

theorem sizeOf_eq (opts : Opts) (fileSize chunk : ℕ) :
    sizeOf opts fileSize chunk =
      min (startOf opts chunk + opts.chunkSize.toNat) (regionEnd opts fileSize) -
        startOf opts chunk := List.length_range'

/-- What a counted chunk looks like. -/
theorem sizeOf_spec (hvalid : Valid opts) {chunk : ℕ} (hchunk : chunk < chunkCount opts fileSize) :
    0 < sizeOf opts fileSize chunk ∧
      startOf opts chunk + sizeOf opts fileSize chunk ≤ regionEnd opts fileSize ∧
      (startOf opts chunk + sizeOf opts fileSize chunk = regionEnd opts fileSize ∨
        (sizeOf opts fileSize chunk : ℤ) = opts.chunkSize) ∧
      (sizeOf opts fileSize chunk : ℤ) ≤ opts.chunkSize := by
  obtain ⟨hstop, hfile⟩ := (lt_chunkCount_iff hvalid).mp hchunk
  rw [← startOf_eq hvalid] at hstop hfile
  have hpos := hvalid.chunkSize
  have hend := regionEnd_eq hvalid fileSize
  rw [sizeOf_eq]
  omega

theorem mem_chunkBytes {chunk byte : ℕ} :
    byte ∈ chunkBytes opts fileSize chunk ↔
      startOf opts chunk ≤ byte ∧ byte < startOf opts chunk + opts.chunkSize.toNat ∧
        byte < regionEnd opts fileSize := by
  rw [chunkBytes, List.mem_range'_1]
  omega

/-- Chunks do not overlap. -/
theorem startOf_lt (hvalid : Valid opts) {chunk chunk' : ℕ} (hlt : chunk < chunk') :
    startOf opts chunk + opts.chunkSize.toNat ≤ startOf opts chunk' := by
  have hpos := hvalid.chunkSize
  have hmul : ((chunk : ℤ) + 1) * opts.chunkSize ≤ chunk' * opts.chunkSize :=
    mul_le_mul_of_nonneg_right (by omega) hpos.le
  have hchunk := startOf_eq hvalid chunk
  have hchunk' := startOf_eq hvalid chunk'
  rw [add_mul, one_mul] at hmul
  omega

theorem chunkOffset_eq_startOf (hvalid : Valid opts) {chunk : ℕ}
    (hchunk : chunk < chunkCount opts fileSize) : chunkOffset opts chunk = startOf opts chunk :=
  (chunkOffset_eq hvalid hchunk).trans (startOf_eq hvalid chunk).symm

/-- An offset that is too small by one turn. -/
theorem offT_sub_turn (x : ℤ) : offT (x - 2 ^ 64) = offT x := by
  rw [offT, offT, Int.bmod_def, Int.bmod_def]
  have hmod : (x - 2 ^ 64) % ((2 ^ 64 : ℕ) : ℤ) = x % ((2 ^ 64 : ℕ) : ℤ) := by omega
  rw [hmod]

/-- The size of a chunk is that of its bytes, unless its end wraps. -/
theorem clampedSize_eq (hvalid : Valid opts) {chunk : ℕ}
    (hchunk : chunk < chunkCount opts fileSize) :
    clampedSize opts fileSize (startOf opts chunk) =
      if startOf opts chunk + opts.chunkSize ≤ offMax then (sizeOf opts fileSize chunk : ℤ)
      else opts.chunkSize := by
  obtain ⟨hpos, hend, hsize, hle⟩ := sizeOf_spec hvalid hchunk
  have hregion := regionEnd_eq hvalid fileSize
  have hstop := hvalid.stop
  have hstart := hvalid.start.trans hvalid.le
  have hchunkPos := hvalid.chunkSize
  have hchunkLe := hvalid.chunkSize_le
  unfold clampedSize
  dsimp only
  rcases @offT_cases (startOf opts chunk + opts.chunkSize) (by omega) (by omega) with
    ⟨hfits, heq⟩ | ⟨hwraps, heq⟩
  · rw [heq, if_pos hfits]
    have hclamped : clampStop opts (if (fileSize : ℤ) < startOf opts chunk + opts.chunkSize
        then (fileSize : ℤ) else startOf opts chunk + opts.chunkSize) -
          startOf opts chunk = sizeOf opts fileSize chunk := by
      rw [clampStop]
      split_ifs <;> omega
    rw [hclamped]
    exact offT_eq_self (by omega) (by omega)
  · rw [heq, if_neg (not_le.mpr hwraps), if_neg (by unfold offMax at *; omega), clampStop,
      if_neg (by unfold offMax at *; omega)]
    have hturn : (startOf opts chunk : ℤ) + opts.chunkSize - 2 ^ 64 - startOf opts chunk =
        opts.chunkSize - 2 ^ 64 := by ring
    rw [hturn, offT_sub_turn]
    exact offT_eq_self hchunkPos.le hchunkLe

theorem affectedByte_of_mem_chunkBytes (hvalid : Valid opts) {chunk byte : ℕ}
    (hchunk : chunk ∈ affectedChunks opts fileSize)
    (hbyte : byte ∈ chunkBytes opts fileSize chunk) : AffectedByte opts fileSize byte := by
  obtain ⟨hle, hlt, hend⟩ := mem_chunkBytes.mp hbyte
  obtain ⟨j, rfl, -⟩ := (mem_affectedChunks hvalid).mp hchunk
  have hstart := startOf_eq hvalid (opts.index + j * opts.mod)
  have hregion := regionEnd_eq hvalid fileSize
  have hpos := hvalid.chunkSize
  have hnonneg : 0 ≤ ((opts.index + j * opts.mod : ℕ) : ℤ) * opts.chunkSize := by positivity
  refine ⟨⟨opts.index + j * opts.mod, ?_, ?_, ?_⟩, ?_, ?_, ?_⟩
  · rw [Nat.ModEq, Nat.add_mul_mod_self_right]
  · omega
  · rw [add_mul, one_mul]
    omega
  · omega
  · omega
  · omega

end

end Jepsen.Resources.CorruptFile
