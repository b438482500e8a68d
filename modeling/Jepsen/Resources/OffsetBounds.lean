/-
# When the arithmetic of the loops is exact

Chunk offsets and counts never overflow. The loops overflow where they add `chunk_size` before
they clamp, where the next chunk number is too large, and in bitflip mode where bits are counted.
-/

import Jepsen.Resources.OffsetArithmetic

namespace Jepsen.Resources.CorruptFile.Arithmetic

open Jepsen.Library Jepsen.Library.ByteRange

variable {opts : Opts} {fileSize : ℕ} {file : Bytes}

/-! ## Results -/

@[simp]
theorem noneOverflows_nil : NoneOverflows [] := fun _ h => absurd h List.not_mem_nil

@[simp]
theorem noneOverflows_cons {x : ℤ} {results : List ℤ} :
    NoneOverflows (x :: results) ↔ Representable x ∧ NoneOverflows results :=
  List.forall_mem_cons

@[simp]
theorem noneOverflows_append {results results' : List ℤ} :
    NoneOverflows (results ++ results') ↔ NoneOverflows results ∧ NoneOverflows results' :=
  List.forall_mem_append

theorem representable_of_nonneg {x : ℤ} (hnonneg : 0 ≤ x) (hle : x ≤ offMax) :
    Representable x := by
  refine ⟨?_, hle⟩
  omega

theorem noneOverflows_chunkOffset (hvalid : Valid opts) {chunk : ℕ}
    (hchunk : chunk < CorruptFile.chunkCount opts fileSize) :
    NoneOverflows (chunkOffset opts chunk) := by
  obtain ⟨hstop, -⟩ := (lt_chunkCount_iff hvalid).mp hchunk
  have hpos := hvalid.chunkSize
  have hnonneg : 0 ≤ (chunk : ℤ) * opts.chunkSize := by positivity
  have hstart := hvalid.start
  have hmax := hvalid.stop
  rw [chunkOffset, offT_eq_self hnonneg (by omega)]
  simp only [noneOverflows_cons, noneOverflows_nil, and_true]
  exact ⟨representable_of_nonneg hnonneg (by omega),
    representable_of_nonneg (by omega) (by omega)⟩

theorem noneOverflows_chunkCount (hvalid : Valid opts) (fileSize : ℕ) :
    NoneOverflows (chunkCount opts fileSize) := by
  have hstart := hvalid.start
  have hstop := hvalid.stop
  have hpos := hvalid.chunkSize
  rw [chunkCount]
  dsimp only
  generalize hend : (if (fileSize : ℤ) < opts.stop then (fileSize : ℤ) else opts.stop) = stop
  have hle : stop ≤ opts.stop := by
    rw [← hend]
    split_ifs <;> omega
  by_cases hbefore : stop < opts.start
  · rw [if_pos hbefore]
    exact noneOverflows_nil
  · rw [if_neg hbefore, noneOverflows_cons]
    refine ⟨representable_of_nonneg (by omega) (by omega), ?_⟩
    split_ifs with hremainder
    · rw [noneOverflows_cons]
      refine ⟨?_, noneOverflows_nil⟩
      -- With a remainder, fewer whole chunks than bytes fit.
      have hsplit := Int.mul_ediv_add_emod (stop - opts.start) opts.chunkSize
      have hrest := Int.emod_nonneg (stop - opts.start) hpos.ne'
      have hquotient := Int.ediv_nonneg (show 0 ≤ stop - opts.start by omega) hpos.le
      have hmul : (stop - opts.start) / opts.chunkSize ≤
          opts.chunkSize * ((stop - opts.start) / opts.chunkSize) :=
        le_mul_of_one_le_left hquotient (by omega)
      exact representable_of_nonneg (by omega) (by omega)
    · exact noneOverflows_nil

theorem noneOverflows_clampedSize (hvalid : Valid opts) {chunk : ℕ}
    (hchunk : chunk < CorruptFile.chunkCount opts fileSize) :
    NoneOverflows (clampedSize opts fileSize (startOf opts chunk)) ↔
      (startOf opts chunk : ℤ) + opts.chunkSize ≤ offMax := by
  have hspec := sizeOf_spec hvalid hchunk
  have hregion := regionEnd_eq hvalid fileSize
  have hstop := hvalid.stop
  have hpos := hvalid.chunkSize
  rw [clampedSize]
  simp only [noneOverflows_cons, noneOverflows_nil, and_true]
  constructor
  · exact fun h => h.1.2
  · intro hfits
    refine ⟨representable_of_nonneg (by omega) hfits, ?_⟩
    rw [offT_eq_self (by omega) hfits, clampStop]
    split_ifs <;> exact representable_of_nonneg (by omega) (by omega)

/-! ## Loops over chunks -/

/-- The state in which an iteration starts. -/
def stateAt {σ : Type} (mod : ℕ) (next : σ → ℕ → σ) (chunk : ℕ) (s : σ) : ℕ → σ
  | 0 => s
  | j + 1 => next (stateAt mod next chunk s j) (chunk + j * mod)

theorem stateAt_succ {σ : Type} (mod : ℕ) (next : σ → ℕ → σ) (chunk : ℕ) (s : σ) (j : ℕ) :
    stateAt mod next (chunk + mod) (next s chunk) j = stateAt mod next chunk s (j + 1) := by
  induction j with
  | zero => rw [stateAt, stateAt, stateAt, Nat.zero_mul, Nat.add_zero]
  | succ j ih =>
    have hchunk : chunk + mod + j * mod = chunk + (j + 1) * mod := by ring
    rw [stateAt, ih, hchunk]
    rfl

theorem noneOverflows_ofLoop {σ : Type} {iteration : σ → ℕ → List ℤ} {next : σ → ℕ → σ}
    {mod count : ℕ} (hmod : 0 < mod) (fuel chunk : ℕ) (hfuel : count ≤ chunk + fuel) (s : σ) :
    NoneOverflows (ofLoop iteration next s (forChunks mod count fuel chunk)) ↔
      ∀ j, chunk + j * mod < count →
        NoneOverflows (iteration (stateAt mod next chunk s j) (chunk + j * mod)) := by
  induction fuel generalizing chunk s with
  | zero =>
    refine iff_of_true noneOverflows_nil fun j hj => ?_
    omega
  | succ fuel ih =>
    rw [forChunks]
    split_ifs with hchunk
    · rw [ofLoop, noneOverflows_append, ih (chunk + mod) (by omega)]
      constructor
      · rintro ⟨hfirst, hrest⟩ j hj
        cases j with
        | zero =>
          rw [stateAt, Nat.zero_mul, Nat.add_zero]
          exact hfirst
        | succ j =>
          have hnext : chunk + mod + j * mod = chunk + (j + 1) * mod := by ring
          rw [← stateAt_succ, ← hnext]
          exact hrest j (hnext ▸ hj)
      · intro hall
        refine ⟨?_, fun j hj => ?_⟩
        · have hfirst := hall 0
          rw [stateAt, Nat.zero_mul, Nat.add_zero] at hfirst
          exact hfirst hchunk
        · have hnext : chunk + mod + j * mod = chunk + (j + 1) * mod := by ring
          rw [hnext, stateAt_succ]
          exact hall (j + 1) (hnext ▸ hj)
    · refine iff_of_true noneOverflows_nil fun j hj => ?_
      omega

/-- A loop over the affected chunks does not overflow if none of its iterations does. -/
theorem noneOverflows_affectedChunks {σ : Type} {iteration : σ → ℕ → List ℤ} {next : σ → ℕ → σ}
    (hvalid : Valid opts) (s : σ) :
    NoneOverflows (ofLoop iteration next s (affectedChunks opts fileSize)) ↔
      ∀ j, opts.index + j * opts.mod < CorruptFile.chunkCount opts fileSize →
        NoneOverflows (iteration (stateAt opts.mod next opts.index s j)
          (opts.index + j * opts.mod)) :=
  noneOverflows_ofLoop (Nat.zero_lt_of_lt hvalid.index) _ _ (Nat.le_add_left _ _) s

theorem index_add_mem (hvalid : Valid opts) {j : ℕ}
    (hj : opts.index + j * opts.mod < CorruptFile.chunkCount opts fileSize) :
    opts.index + j * opts.mod ∈ affectedChunks opts fileSize :=
  (mem_affectedChunks hvalid).mpr ⟨j, rfl, hj⟩

theorem le_index_add (hvalid : Valid opts) (j : ℕ) : j ≤ opts.index + j * opts.mod := by
  have hmod : 0 < opts.mod := Nat.zero_lt_of_lt hvalid.index
  exact (Nat.le_mul_of_pos_right j hmod).trans (Nat.le_add_left _ _)

/-- The next affected chunk starts after this one. -/
theorem startOf_add_sizeOf_le (hvalid : Valid opts) {chunk : ℕ}
    (hchunk : chunk < CorruptFile.chunkCount opts fileSize) :
    startOf opts chunk + sizeOf opts fileSize chunk ≤ startOf opts (chunk + opts.mod) := by
  have hspec := sizeOf_spec hvalid hchunk
  have hmod := hvalid.index
  have hapart := @startOf_lt opts hvalid chunk (chunk + opts.mod) (by omega)
  omega

/-! ## `corrupt_snapshot` -/

theorem snapshotCopied_le (hvalid : Valid opts) {chunk : ℕ}
    (hchunk : chunk < CorruptFile.chunkCount opts file.length)
    (hfits : (startOf opts chunk : ℤ) + opts.chunkSize ≤ offMax) :
    snapshotCopied opts file chunk ≤ sizeOf opts file.length chunk := by
  have hspec := sizeOf_spec hvalid hchunk
  have hregion := regionEnd_eq hvalid file.length
  have hmax := hvalid.stop
  have hoff : offMax = 2 ^ 63 - 1 := rfl
  have hstart := startOf_eq hvalid chunk
  rcases snapshotStop_cases hvalid hchunk with ⟨-, hstop⟩ | ⟨hover, -⟩
  · have hlength : (content file (snapshotPath opts chunk)).length =
        min (sizeT (offT (snapshotStop opts chunk - startOf opts chunk)))
          (file.length - startOf opts chunk) := by
      rw [content, snapshotPath, chunkOffset_eq_startOf hvalid hchunk, Int.toNat_natCast,
        copyRange, List.length_take, List.length_drop]
    rw [snapshotCopied, hlength, hstop, ← hstart, offT_eq_self (by omega) (by omega), sizeT]
    omega
  · omega

theorem snapshot_stats (hvalid : Valid opts) (hfits : EndsFit opts file.length) (j : ℕ)
    (hj : opts.index + j * opts.mod < CorruptFile.chunkCount opts file.length) :
    (stateAt opts.mod (fun stats chunk => Stats.add stats (snapshotCopied opts file chunk))
        opts.index ⟨0, 0⟩ j).chunks = j ∧
      (stateAt opts.mod (fun stats chunk => Stats.add stats (snapshotCopied opts file chunk))
        opts.index ⟨0, 0⟩ j).bytes ≤ startOf opts (opts.index + j * opts.mod) := by
  induction j with
  | zero => exact ⟨rfl, Nat.zero_le _⟩
  | succ j ih =>
    have hnext : opts.index + (j + 1) * opts.mod = opts.index + j * opts.mod + opts.mod := by ring
    obtain ⟨hchunks, hbytes⟩ := ih (by omega)
    have hcounted : opts.index + j * opts.mod < CorruptFile.chunkCount opts file.length := by omega
    have hcopied := snapshotCopied_le hvalid hcounted (hfits _ (index_add_mem hvalid hcounted))
    have hafter := startOf_add_sizeOf_le hvalid hcounted
    rw [stateAt, hnext]
    exact ⟨congrArg (· + 1) hchunks, (Nat.add_le_add hbytes hcopied).trans hafter⟩

theorem snapshot_iff (hvalid : Valid opts) (file : Bytes) :
    NoneOverflows (snapshot opts file) ↔
      NumbersFit opts file.length ∧ EndsFit opts file.length := by
  rw [snapshot, noneOverflows_affectedChunks hvalid]
  simp only [snapshotIteration, noneOverflows_append, noneOverflows_cons, noneOverflows_nil,
    and_true, Stats.results]
  constructor
  · intro hnone
    constructor
    · intro chunk hmem
      obtain ⟨j, rfl, hj⟩ := (mem_affectedChunks hvalid).mp hmem
      obtain ⟨-, hnumber⟩ := hnone j hj
      exact hnumber.2
    · intro chunk hmem
      obtain ⟨j, rfl, hj⟩ := (mem_affectedChunks hvalid).mp hmem
      obtain ⟨⟨⟨-, hstop, -⟩, -⟩, -⟩ := hnone j hj
      rw [chunkOffset_eq_startOf hvalid hj] at hstop
      exact hstop.2
  · rintro ⟨hnumbers, hends⟩ j hj
    have hmem := index_add_mem hvalid hj
    have hnumber := hnumbers _ hmem
    have hend := hends _ hmem
    obtain ⟨hchunks, hbytes⟩ := snapshot_stats hvalid hends j hj
    have hcopied := snapshotCopied_le hvalid hj hend
    have hspec := sizeOf_spec hvalid hj
    have hregion := regionEnd_eq hvalid file.length
    have hstop := hvalid.stop
    have hle := le_index_add hvalid j
    have hmod := hvalid.index
    have hstart := startOf_eq hvalid (opts.index + j * opts.mod)
    rw [chunkOffset_eq_startOf hvalid hj]
    refine ⟨⟨⟨noneOverflows_chunkOffset hvalid hj, ?_, ?_⟩, ?_, ?_⟩, ?_⟩
    · exact representable_of_nonneg (by have := hvalid.chunkSize; omega) hend
    · rcases snapshotStop_cases hvalid hj with ⟨-, heq⟩ | ⟨hover, -⟩
      · rw [heq]
        exact representable_of_nonneg (by omega) (by omega)
      · omega
    · refine representable_of_nonneg (Nat.cast_nonneg _) ?_
      rw [Stats.add, hchunks]
      dsimp only
      omega
    · refine representable_of_nonneg (Nat.cast_nonneg _) ?_
      rw [Stats.add]
      dsimp only
      omega
    · exact representable_of_nonneg (by omega) hnumber

/-! ## `corrupt_restore` -/

theorem length_copyRange_le (source : Bytes) (off len : ℕ) :
    (copyRange source off len).length ≤ source.length - off := by
  rw [copyRange, List.length_take, List.length_drop]
  exact min_le_right _ _

/-- A snapshot's name says how many bytes it has at most, unless its end wrapped. -/
theorem length_le_of_snapshotted {snapshots : Snapshots} (h : Snapshotted snapshots)
    {path : SnapshotPath} {snapshot : Bytes} (hlookup : snapshots.lookup path = some snapshot)
    (hstop : 0 ≤ path.stop) : (snapshot.length : ℤ) ≤ path.stop - path.start := by
  induction h with
  | empty => cases hlookup
  | @snapshot opts snapshots htyped hok file _ ih =>
    have hvalid := valid_of_validateOpts htyped hok
    rw [lookup_corruptSnapshot] at hlookup
    split_ifs at hlookup with hmem
    · obtain ⟨chunk, hchunk, rfl⟩ := List.mem_map.mp hmem
      have hcounted := lt_of_mem_affectedChunks hvalid hchunk
      have hspec := sizeOf_spec hvalid hcounted
      have hregion := regionEnd_eq hvalid file.length
      have hstart := startOf_eq hvalid chunk
      have hmax := hvalid.stop
      have hsize := hvalid.chunkSize_le
      have hoff : offMax = 2 ^ 63 - 1 := rfl
      rw [← Option.some.inj hlookup]
      rcases snapshotStop_cases hvalid hcounted with ⟨hfits, heq⟩ | ⟨hover, heq⟩
      · rw [content, copyRange, List.length_take, snapshotPath,
          chunkOffset_eq_startOf hvalid hcounted, heq, ← hstart]
        dsimp only
        rw [offT_eq_self (by omega) (by omega), sizeT]
        omega
      · have hneg : snapshotStop opts chunk < 0 := by omega
        exact absurd hstop (not_le.mpr hneg)
    · exact ih hlookup

/-- The loop variables of `corrupt_restore` when an iteration starts. -/
def restoreAt (opts : Opts) (draw : ℕ → Draw) (snapshots : Snapshots) (file : Bytes) :
    ℕ → RestoreState × Stats :=
  stateAt opts.mod (fun s chunk => (restoreChunk opts draw snapshots s.1 chunk,
    restoreStats opts draw snapshots s.1 s.2 chunk)) opts.index (⟨file, 0, 0⟩, ⟨0, 0⟩)

/-- While the ends fit, they stay below the chunks, and the bytes restored so far below the ends. -/
structure RestoreInv (opts : Opts) (j : ℕ) (s : RestoreState × Stats) : Prop where
  nonneg : 0 ≤ s.1.stop
  le_stop : s.1.stop ≤ opts.stop
  le_chunks : s.1.stop ≤ j * opts.chunkSize
  chunks : s.2.chunks ≤ j
  bytes : (s.2.bytes : ℤ) ≤ s.1.stop

/-- The end that an iteration computes. -/
theorem clampStop_add_chunkSize (hvalid : Valid opts) {stop : ℤ} (hnonneg : 0 ≤ stop)
    (hfits : stop + opts.chunkSize ≤ offMax) :
    clampStop opts (offT (stop + opts.chunkSize)) = min opts.stop (stop + opts.chunkSize) := by
  have hpos := hvalid.chunkSize
  rw [offT_eq_self (by omega) hfits, clampStop]
  split_ifs <;> omega

/-- What a found snapshot has at most. -/
theorem copied_le_of_snapshotted {snapshots : Snapshots} (h : Snapshotted snapshots)
    {start stop : ℤ} {snapshot : Bytes} (hlookup : snapshots.lookup ⟨start, stop⟩ = some snapshot)
    (hstop : 0 ≤ stop) :
    ((copyRange snapshot 0 (sizeT (offT (stop - start)))).length : ℤ) ≤ stop - start := by
  have hcopied := length_copyRange_le snapshot 0 (sizeT (offT (stop - start)))
  have hlength := length_le_of_snapshotted h hlookup hstop
  dsimp only at hlength
  omega

/-- What an iteration of `corrupt_restore` does to the end and the statistics. -/
theorem restore_cases (hvalid : Valid opts) (draw : ℕ → Draw) {snapshots : Snapshots}
    (hsnapshots : Snapshotted snapshots) {st : RestoreState} (stats : Stats) (chunk : ℕ)
    (hnonneg : 0 ≤ st.stop) (hfits : st.stop + opts.chunkSize ≤ offMax) :
    (restoreChunk opts draw snapshots st chunk).stop = st.stop ∧
        restoreStats opts draw snapshots st stats chunk = stats ∨
      (restoreChunk opts draw snapshots st chunk).stop =
          min opts.stop (st.stop + opts.chunkSize) ∧
        (restoreStats opts draw snapshots st stats chunk = stats ∨
          ∃ copied : ℕ, (copied : ℤ) ≤
              min opts.stop (st.stop + opts.chunkSize) - CorruptFile.chunkOffset opts chunk ∧
            restoreStats opts draw snapshots st stats chunk = stats.add copied) := by
  have hnext := clampStop_add_chunkSize hvalid hnonneg hfits
  have hmin : 0 ≤ min opts.stop (st.stop + opts.chunkSize) := by
    have hstop := hvalid.start.trans hvalid.le
    have hpos := hvalid.chunkSize
    omega
  rw [restoreChunk, restoreStats]
  by_cases hdraw : opts.probability < (draw st.draws).1
  · rw [if_pos hdraw, if_pos hdraw]
    exact Or.inl ⟨rfl, rfl⟩
  · rw [if_neg hdraw, if_neg hdraw]
    dsimp only
    rw [hnext]
    cases hlookup : snapshots.lookup
      ⟨CorruptFile.chunkOffset opts chunk, min opts.stop (st.stop + opts.chunkSize)⟩ with
    | none => exact Or.inr ⟨rfl, Or.inl rfl⟩
    | some snapshot =>
      exact Or.inr ⟨rfl, Or.inr ⟨_, copied_le_of_snapshotted hsnapshots hlookup hmin, rfl⟩⟩

theorem RestoreInv.next (hvalid : Valid opts) {draw : ℕ → Draw} {snapshots : Snapshots}
    (hsnapshots : Snapshotted snapshots) {j : ℕ} {s : RestoreState × Stats}
    (hcounted : opts.index + j * opts.mod < CorruptFile.chunkCount opts fileSize)
    (hfits : min opts.stop (j * opts.chunkSize) + opts.chunkSize ≤ offMax)
    (hinv : RestoreInv opts j s) :
    RestoreInv opts (j + 1)
      (restoreChunk opts draw snapshots s.1 (opts.index + j * opts.mod),
        restoreStats opts draw snapshots s.1 s.2 (opts.index + j * opts.mod)) := by
  obtain ⟨hnonneg, hstop, hchunks, hcount, hbytes⟩ := hinv
  have hpos := hvalid.chunkSize
  have hmul : ((j + 1 : ℕ) : ℤ) * opts.chunkSize = j * opts.chunkSize + opts.chunkSize := by
    push_cast
    ring
  -- The chunk starts after the end before it, and so after the bytes restored so far.
  have hstart := chunkOffset_eq hvalid hcounted
  have hbefore : (j : ℤ) * opts.chunkSize ≤
      ((opts.index + j * opts.mod : ℕ) : ℤ) * opts.chunkSize := by
    refine mul_le_mul_of_nonneg_right ?_ hpos.le
    exact_mod_cast le_index_add hvalid j
  have hfirst := hvalid.start
  have hcases := restore_cases hvalid draw hsnapshots s.2 (opts.index + j * opts.mod) hnonneg
    (by omega)
  generalize restoreChunk opts draw snapshots s.1 (opts.index + j * opts.mod) = st at hcases ⊢
  generalize restoreStats opts draw snapshots s.1 s.2 (opts.index + j * opts.mod) = stats
    at hcases ⊢
  rcases hcases with ⟨hst, rfl⟩ | ⟨hst, rfl | ⟨copied, hcopied, rfl⟩⟩
  · constructor <;> dsimp only <;> omega
  · constructor <;> dsimp only <;> omega
  · constructor <;> dsimp only [Stats.add] <;> omega

theorem restoreInv_restoreAt (hvalid : Valid opts) (draw : ℕ → Draw) {snapshots : Snapshots}
    (hsnapshots : Snapshotted snapshots)
    (hfits : ∀ j, opts.index + j * opts.mod < CorruptFile.chunkCount opts file.length →
      min opts.stop (j * opts.chunkSize) + opts.chunkSize ≤ offMax) (j : ℕ)
    (hbefore : ∀ i < j, opts.index + i * opts.mod < CorruptFile.chunkCount opts file.length) :
    RestoreInv opts j (restoreAt opts draw snapshots file j) := by
  induction j with
  | zero =>
    have hstop := hvalid.start.trans hvalid.le
    refine ⟨le_refl 0, hstop, ?_, le_refl 0, le_refl 0⟩
    rw [Nat.cast_zero, zero_mul]
    exact le_refl 0
  | succ j ih =>
    have hcounted := hbefore j (Nat.lt_succ_self j)
    exact RestoreInv.next hvalid hsnapshots hcounted (hfits j hcounted)
      (ih fun i hi => hbefore i (Nat.lt_succ_of_lt hi))

theorem stop_restoreChunk_empty (hok : validateOpts opts = .ok) (st : RestoreState) (chunk : ℕ) :
    (restoreChunk opts (fun _ => Copy.zeroDraw) ∅ st chunk).stop =
      clampStop opts (offT (st.stop + opts.chunkSize)) := by
  have hdraw : ¬ opts.probability < Copy.zeroDraw.1 := not_lt.mpr (Copy.probability_nonneg hok)
  rw [restoreChunk, if_neg hdraw]
  rfl

/-- If every chunk is affected but none was snapshotted, every iteration adds to the end. -/
theorem restoreAt_empty (hvalid : Valid opts) (hok : validateOpts opts = .ok) {j : ℕ}
    (hfits : ∀ i < j, min opts.stop (i * opts.chunkSize) + opts.chunkSize ≤ offMax) :
    (restoreAt opts (fun _ => Copy.zeroDraw) ∅ file j).1.stop =
      min opts.stop (j * opts.chunkSize) := by
  have hpos := hvalid.chunkSize
  have hstop := hvalid.start.trans hvalid.le
  induction j with
  | zero =>
    rw [Nat.cast_zero, zero_mul]
    exact (min_eq_right hstop).symm
  | succ j ih =>
    have heq := ih fun i hi => hfits i (Nat.lt_succ_of_lt hi)
    have hlast := hfits j (Nat.lt_succ_self j)
    have hnonneg : 0 ≤ (j : ℤ) * opts.chunkSize := by positivity
    have hmul : ((j + 1 : ℕ) : ℤ) * opts.chunkSize = j * opts.chunkSize + opts.chunkSize := by
      push_cast
      ring
    have hnext := clampStop_add_chunkSize hvalid
      (show 0 ≤ min opts.stop (j * opts.chunkSize) by omega) hlast
    have hchunk : (restoreAt opts (fun _ => Copy.zeroDraw) ∅ file (j + 1)).1.stop =
        clampStop opts (offT
          ((restoreAt opts (fun _ => Copy.zeroDraw) ∅ file j).1.stop + opts.chunkSize)) := by
      exact stop_restoreChunk_empty hok (restoreAt opts (fun _ => Copy.zeroDraw) ∅ file j).1
        (opts.index + j * opts.mod)
    rw [hchunk, heq, hnext]
    omega

theorem noneOverflows_restoreIteration (hvalid : Valid opts) {draw : ℕ → Draw}
    {snapshots : Snapshots} {s : RestoreState × Stats} {j : ℕ}
    (hj : opts.index + j * opts.mod < CorruptFile.chunkCount opts file.length)
    (hnumber : ((opts.index + j * opts.mod : ℕ) : ℤ) + opts.mod ≤ offMax)
    (hfits : min opts.stop (j * opts.chunkSize) + opts.chunkSize ≤ offMax)
    (hinv : RestoreInv opts j s)
    (hnext : RestoreInv opts (j + 1)
      (restoreChunk opts draw snapshots s.1 (opts.index + j * opts.mod),
        restoreStats opts draw snapshots s.1 s.2 (opts.index + j * opts.mod))) :
    NoneOverflows (restoreIteration opts draw snapshots s (opts.index + j * opts.mod)) := by
  have hle := le_index_add hvalid j
  have hmod := hvalid.index
  have hstop := hvalid.stop
  have hpos := hvalid.chunkSize
  have hnonneg := hinv.nonneg
  have hbelow := hinv.le_stop
  have hbefore := hinv.le_chunks
  have hchunks := hnext.chunks
  have hbytes := hnext.bytes
  have hend := hnext.le_stop
  dsimp only at hchunks hbytes hend
  have hcounters : NoneOverflows
      ((restoreStats opts draw snapshots s.1 s.2 (opts.index + j * opts.mod)).results ++
        [((opts.index + j * opts.mod : ℕ) : ℤ) + opts.mod]) := by
    simp only [Stats.results, noneOverflows_append, noneOverflows_cons, noneOverflows_nil, and_true]
    exact ⟨⟨representable_of_nonneg (by omega) (by omega),
      representable_of_nonneg (by omega) (by omega)⟩, representable_of_nonneg (by omega) hnumber⟩
  rw [restoreIteration]
  dsimp only
  split_ifs
  · exact hcounters
  · obtain ⟨hbefore, -⟩ := (lt_chunkCount_iff hvalid).mp hj
    rw [← startOf_eq hvalid] at hbefore
    rw [clampStop_add_chunkSize hvalid hnonneg (by omega), chunkOffset_eq_startOf hvalid hj]
    have hoff : offMax = 2 ^ 63 - 1 := rfl
    refine noneOverflows_append.mpr ⟨?_, hcounters⟩
    simp only [noneOverflows_append, noneOverflows_cons, noneOverflows_nil, and_true]
    exact ⟨⟨noneOverflows_chunkOffset hvalid hj,
      representable_of_nonneg (by omega) (by omega)⟩, by omega, by omega⟩
  · rw [List.append_nil]
    refine noneOverflows_append.mpr ⟨?_, hcounters⟩
    simp only [noneOverflows_append, noneOverflows_cons, noneOverflows_nil, and_true]
    exact ⟨noneOverflows_chunkOffset hvalid hj, representable_of_nonneg (by omega) (by omega)⟩

theorem restore_iff (hvalid : Valid opts) (hok : validateOpts opts = .ok) (file : Bytes) :
    (∀ draw snapshots, Snapshotted snapshots →
        NoneOverflows (restore opts draw snapshots file)) ↔
      NumbersFit opts file.length ∧ RestoreFits opts file.length := by
  have hbefore : ∀ j, opts.index + j * opts.mod < CorruptFile.chunkCount opts file.length →
      ∀ i < j, opts.index + i * opts.mod < CorruptFile.chunkCount opts file.length := by
    intro j hj i hi
    have := Nat.mul_le_mul_right opts.mod hi.le
    omega
  constructor
  · intro hnone
    -- No chunk is skipped, and none was snapshotted.
    have hempty := hnone (fun _ => Copy.zeroDraw) ∅ .empty
    have hdraw : ¬ opts.probability < Copy.zeroDraw.1 := not_lt.mpr (Copy.probability_nonneg hok)
    rw [restore, noneOverflows_affectedChunks hvalid] at hempty
    simp only [restoreIteration, if_neg hdraw, noneOverflows_append, noneOverflows_cons,
      noneOverflows_nil, and_true] at hempty
    constructor
    · intro chunk hmem
      obtain ⟨j, rfl, hj⟩ := (mem_affectedChunks hvalid).mp hmem
      obtain ⟨-, -, hnumber⟩ := hempty j hj
      exact hnumber.2
    · intro j
      induction j using Nat.strong_induction_on with
      | _ j ih =>
        intro hj
        obtain ⟨⟨⟨-, hend⟩, -⟩, -⟩ := hempty j hj
        have heq := @restoreAt_empty opts file hvalid hok j fun i hi => ih i hi (hbefore j hj i hi)
        rw [restoreAt] at heq
        rw [← heq]
        exact hend.2
  · rintro ⟨hnumbers, hfits⟩ draw snapshots hsnapshots
    rw [restore, noneOverflows_affectedChunks hvalid]
    intro j hj
    have hinv := restoreInv_restoreAt hvalid draw hsnapshots hfits j (hbefore j hj)
    exact noneOverflows_restoreIteration hvalid hj (hnumbers _ (index_add_mem hvalid hj))
      (hfits j hj) hinv (hinv.next hvalid hsnapshots hj (hfits j hj))

end Jepsen.Resources.CorruptFile.Arithmetic
