/-
# Options for which nothing overflows

Snapshots and copies overflow exactly if the end of a chunk or the number of the next one does,
and bit flips also if the bits of a chunk, a gap or the flips are too many for an offset.
-/

import Jepsen.Resources.OffsetBounds

namespace Jepsen.Resources.CorruptFile.Arithmetic

open Jepsen.Library Jepsen.Library.ByteRange

variable {opts : Opts} {fileSize : ℕ} {file : Bytes}

/-! ## `corrupt_copy` -/

/-- While the ends fit, no more bytes are copied than lie before the chunk. -/
structure CopyInv (opts : Opts) (fileSize : ℕ) (h : Copy.Head) : Prop where
  size : h.state.file.length = fileSize
  chunk : ∃ j, h.state.chunk = opts.index + j * opts.mod
  copies : h.state.copies.length ≤ h.state.chunk
  bytes : (h.state.copies.map Copy.Copied.length).sum ≤ startOf opts h.state.chunk
  region : (h.state.copies.map Copy.Copied.length).sum ≤ regionEnd opts fileSize

theorem CopyInv.step (hvalid : Valid opts) (hends : EndsFit opts fileSize) {h h' : Copy.Head}
    {draws : Copy.Draws} (hinv : CopyInv opts fileSize h)
    (hstep : Copy.step opts fileSize h draws = some h') : CopyInv opts fileSize h' := by
  cases h with
  | returned code s => cases hstep
  | loop s =>
    obtain ⟨hsize, ⟨j, hj⟩, hcopies, hbytes, hregion⟩ := hinv
    change s.file.length = fileSize at hsize
    change s.chunk = _ at hj
    change s.copies.length ≤ s.chunk at hcopies
    change (s.copies.map Copy.Copied.length).sum ≤ startOf opts s.chunk at hbytes
    change (s.copies.map Copy.Copied.length).sum ≤ _ at hregion
    subst hsize
    rw [Copy.step] at hstep
    split_ifs at hstep with hcounted
    · have hnext : ∃ j, s.chunk + opts.mod = opts.index + j * opts.mod :=
        ⟨j + 1, by rw [hj]; ring⟩
      have hmem : s.chunk ∈ affectedChunks opts s.file.length :=
        (mem_affectedChunks hvalid).mpr ⟨j, hj, hcounted⟩
      have hmod := hvalid.index
      have hafter := startOf_add_sizeOf_le hvalid hcounted
      have hspec := sizeOf_spec hvalid hcounted
      rcases Copy.iteration_eq_some hvalid hcounted hstep with
        rfl | rfl | ⟨source, limit, hcopy, hle, rfl⟩
      · exact ⟨rfl, hnext, hcopies.trans (Nat.le_add_right _ _),
          hbytes.trans ((Nat.le_add_right _ _).trans hafter), hregion⟩
      · exact ⟨rfl, ⟨j, hj⟩, hcopies, hbytes, hregion⟩
      · have hlimit := @Copy.fullLimit_le opts _ hvalid _ source hcounted (Or.inl (hends _ hmem))
        rw [← hcopy.limit_eq] at hlimit
        have hsum : ((s.copies ++ [(⟨startOf opts source, startOf opts s.chunk, draws.copied⟩ :
            Copy.Copied)]).map Copy.Copied.length).sum =
              (s.copies.map Copy.Copied.length).sum + draws.copied := by
          rw [List.map_append, List.sum_append, List.map_singleton, List.sum_singleton]
        refine ⟨Copy.length_writeAt ?_, hnext, ?_, hsum.trans_le ?_, hsum.trans_le ?_⟩
        · have hlength := (List.length_take_le draws.copied
            (s.file.drop (startOf opts source))).trans hle
          rw [copyRange]
          have hend := regionEnd_eq hvalid s.file.length
          omega
        · change (s.copies ++ [_]).length ≤ s.chunk + opts.mod
          rw [List.length_append, List.length_singleton]
          omega
        · change _ ≤ startOf opts (s.chunk + opts.mod)
          omega
        · omega
    · cases hstep
      exact ⟨rfl, ⟨j, hj⟩, hcopies, hbytes, hregion⟩

theorem noneOverflows_copyNext (hvalid : Valid opts) {s : Copy.Loop} {draws : Copy.Draws}
    {h : Copy.Head} (hcounted : s.chunk < CorruptFile.chunkCount opts s.file.length)
    (hnumber : (s.chunk : ℤ) + opts.mod ≤ offMax)
    (hstep : Copy.step opts s.file.length (.loop s) draws = some h)
    (hinv : CopyInv opts fileSize h) : NoneOverflows (copyNext opts s.chunk h) := by
  have hchunk : h.state.chunk = s.chunk ∨ h.state.chunk = s.chunk + opts.mod := by
    rw [Copy.step, if_pos hcounted] at hstep
    rcases Copy.iteration_eq_some hvalid hcounted hstep with rfl | rfl | ⟨_, _, -, -, rfl⟩
    · exact Or.inr rfl
    · exact Or.inl rfl
    · exact Or.inr rfl
  have hcopies := hinv.copies
  have hbytes := hinv.region
  have hregion := regionEnd_eq hvalid fileSize
  have hstop := hvalid.stop
  cases h with
  | loop s' =>
    change s'.copies.length ≤ s'.chunk at hcopies
    change (s'.copies.map Copy.Copied.length).sum ≤ _ at hbytes
    change s'.chunk = _ ∨ s'.chunk = _ at hchunk
    simp only [copyNext, noneOverflows_cons, noneOverflows_nil, and_true]
    exact ⟨representable_of_nonneg (by omega) (by omega),
      representable_of_nonneg (by omega) (by omega), representable_of_nonneg (by omega) hnumber⟩
  | returned code s' => exact noneOverflows_nil

theorem noneOverflows_randSourceOffset (hvalid : Valid opts) {chunk : ℕ}
    (hchunk : chunk < CorruptFile.chunkCount opts fileSize) (rolls : List Copy.Roll) :
    NoneOverflows (randSourceOffset opts fileSize rolls) := by
  refine noneOverflows_append.mpr ⟨noneOverflows_chunkCount hvalid fileSize, fun x hx => ?_⟩
  obtain ⟨roll, -, hx⟩ := List.mem_flatMap.mp hx
  exact noneOverflows_chunkOffset hvalid (Copy.randInt_lt (Nat.zero_lt_of_lt hchunk) roll) x hx

/-- Every affected chunk is reached, and not skipped. -/
theorem exists_copy_step (hvalid : Valid opts) (hok : validateOpts opts = .ok) {chunk : ℕ}
    (hmem : chunk ∈ affectedChunks opts file.length) :
    ∃ trace s draws s', Copy.Execution opts file trace (.loop s) ∧ s.chunk = chunk ∧
      draws.draw = Copy.zeroDraw ∧
      Copy.step opts file.length (.loop s) draws = some (.loop s') := by
  obtain ⟨j, rfl, hcounted⟩ := (mem_affectedChunks hvalid).mp hmem
  by_cases htwo : 2 ≤ CorruptFile.chunkCount opts file.length
  · obtain ⟨trace, s, hrun, hchunk, hsize⟩ := Copy.exists_execution hvalid hok htwo j hcounted
    obtain ⟨roll, hclean⟩ := Copy.exists_admissible hvalid htwo hcounted
    have hsource := Copy.randInt_lt (Nat.zero_lt_of_lt hcounted) roll
    have hne := Copy.ne_of_clean hvalid hcounted hsource hclean
    rw [← hchunk] at hne hclean
    rw [← hsize] at hcounted htwo hne hclean
    have hstep := Copy.iteration_copies hvalid hok (hchunk ▸ hcounted) htwo rfl hclean hne
    rw [hsize] at hstep
    exact ⟨trace, s, _, _, hrun, hchunk, rfl, hstep⟩
  · -- There is one chunk, and nothing to copy from.
    have hindex : opts.index + j * opts.mod = opts.index := by omega
    rw [hindex] at hcounted ⊢
    have hdraw : ¬ opts.probability < Copy.zeroDraw.1 := not_lt.mpr (Copy.probability_nonneg hok)
    refine ⟨[], ⟨opts.index, file, []⟩, ⟨Copy.zeroDraw, [], 0⟩, ⟨opts.index + opts.mod, file, []⟩,
      .nil, rfl, rfl, ?_⟩
    rw [Copy.step, if_pos hcounted, Copy.iteration]
    dsimp only
    rw [if_neg hdraw, Copy.randSourceOffset, if_pos (by omega)]
    rfl

theorem copy_iff (hvalid : Valid opts) (hok : validateOpts opts = .ok) (file : Bytes) :
    (∀ trace h draws h', Copy.Execution opts file trace h →
        Copy.step opts file.length h draws = some h' →
          NoneOverflows (copyStep opts file.length h draws h')) ↔
      NumbersFit opts file.length ∧ EndsFit opts file.length := by
  constructor
  · intro hnone
    have hboth : ∀ chunk ∈ affectedChunks opts file.length, (chunk : ℤ) + opts.mod ≤ offMax ∧
        (startOf opts chunk : ℤ) + opts.chunkSize ≤ offMax := by
      intro chunk hmem
      have hcounted := lt_of_mem_affectedChunks hvalid hmem
      obtain ⟨trace, s, draws, s', hrun, rfl, hdraw, hstep⟩ := exists_copy_step hvalid hok hmem
      have hzero : ¬ opts.probability < draws.draw.1 := by
        rw [hdraw]
        exact not_lt.mpr (Copy.probability_nonneg hok)
      have hresults := hnone trace _ draws _ hrun hstep
      rw [copyStep, if_pos hcounted, if_neg hzero, chunkOffset_eq_startOf hvalid hcounted,
        copyNext] at hresults
      simp only [noneOverflows_append, noneOverflows_cons, noneOverflows_nil, and_true,
        noneOverflows_clampedSize hvalid hcounted] at hresults
      exact ⟨hresults.2.2.2.2, hresults.1.1.2⟩
    exact ⟨fun chunk hmem => (hboth chunk hmem).1, fun chunk hmem => (hboth chunk hmem).2⟩
  · rintro ⟨hnumbers, hends⟩ trace h draws h' hrun hstep
    have hfirst : CopyInv opts file.length (Copy.begin opts file) :=
      ⟨rfl, ⟨0, by rw [Nat.zero_mul]; rfl⟩, Nat.zero_le _, Nat.zero_le _, Nat.zero_le _⟩
    have hinv := hrun.invariant (CopyInv opts file.length) hfirst (CopyInv.step hvalid hends)
    have hnext := hinv.step hvalid hends hstep
    cases h with
    | returned code s => cases hstep
    | loop s =>
      obtain ⟨j, hj⟩ := hinv.chunk
      have hsize : s.file.length = file.length := hinv.size
      rw [copyStep]
      by_cases hcounted : s.chunk < CorruptFile.chunkCount opts file.length
      · have hmem : s.chunk ∈ affectedChunks opts file.length :=
          (mem_affectedChunks hvalid).mpr ⟨j, hj, hcounted⟩
        rw [if_pos hcounted]
        refine noneOverflows_append.mpr ⟨?_, ?_⟩
        · split_ifs
          · exact noneOverflows_nil
          · rw [chunkOffset_eq_startOf hvalid hcounted]
            simp only [noneOverflows_append, noneOverflows_clampedSize hvalid hcounted]
            exact ⟨⟨noneOverflows_chunkOffset hvalid hcounted, hends _ hmem⟩,
              noneOverflows_randSourceOffset hvalid hcounted _⟩
        · rw [← hsize] at hcounted hstep
          exact noneOverflows_copyNext hvalid hcounted (hnumbers _ hmem) hstep hnext
      · rw [if_neg hcounted]
        exact noneOverflows_nil

/-! ## `corrupt_bitflip` -/

section Bitflip

open Bitflip

variable {gap : ℕ → Gap}

theorem length_flipsTo {k : ℕ} (h : ∀ m < k, place opts fileSize (position gap m) ≠ none) :
    (flipsTo opts gap fileSize k).length = k := by
  induction k with
  | zero => rfl
  | succ k ih =>
    obtain ⟨bit, hbit⟩ := Option.ne_none_iff_exists'.mp (h k (Nat.lt_succ_self k))
    rw [flipsTo_succ hbit, List.length_append, ih fun m hm => h m (Nat.lt_succ_of_lt hm),
      List.length_singleton]

/-- What `corrupt_bitflip` has done when `before` are the chunks behind it and `k` bits are
flipped, if nothing overflowed so far. -/
structure Walked (opts : Opts) (gap : ℕ → Gap) (file : Bytes) (before : List ℕ) (k : ℕ)
    (s : Loop) : Prop where
  ideal : Ideal opts gap file (before.flatMap (chunkBytes opts file.length)).length k s
  unwrapped : Unwrapped opts gap file.length k
  count : (k : ℤ) ≤ offMax
  numbers : ∀ chunk ∈ before, (chunk : ℤ) + opts.mod ≤ offMax
  ends : ∀ chunk ∈ before, (startOf opts chunk : ℤ) + opts.chunkSize ≤ offMax
  sizes : ∀ chunk ∈ before, (sizeOf opts file.length chunk : ℤ) * 8 ≤ offMax

/-- The loop heads of an execution in which nothing overflows. -/
def BitflipInv (opts : Opts) (gap : ℕ → Gap) (file : Bytes) : Head → Prop
  | .outer s => ∃ before fuel k, Walked opts gap file before k s ∧
      affectedChunks opts file.length =
        before ++ forChunks opts.mod (CorruptFile.chunkCount opts file.length) fuel s.chunk ∧
      CorruptFile.chunkCount opts file.length ≤ s.chunk + fuel
  | .inner s => ∃ before fuel k, Walked opts gap file before k s ∧
      affectedChunks opts file.length = before ++ s.chunk ::
        forChunks opts.mod (CorruptFile.chunkCount opts file.length) fuel (s.chunk + opts.mod) ∧
      CorruptFile.chunkCount opts file.length ≤ s.chunk + opts.mod + fuel ∧
      s.start = startOf opts s.chunk ∧ s.chunkSize = sizeOf opts file.length s.chunk ∧
      (startOf opts s.chunk : ℤ) + opts.chunkSize ≤ offMax
  | .returned _ _ => Fits opts gap file.length .bitflip

theorem bitflipInv_begin : BitflipInv opts gap file (begin opts gap file) := by
  have hpos : (0 : ℤ) ≤ offMax := by decide
  refine ⟨[], CorruptFile.chunkCount opts file.length, 0, ?_, rfl, Nat.le_add_left _ _⟩
  refine ⟨?_, fun _ h => absurd h (Nat.not_lt_zero _), hpos,
    fun _ h => absurd h List.not_mem_nil, fun _ h => absurd h List.not_mem_nil,
    fun _ h => absurd h List.not_mem_nil⟩
  exact
    { le := Nat.zero_le _
      fits := (gap 0).isLt
      bitOffset := rfl
      byteOffset := rfl
      draws := rfl
      flips := rfl
      inside := fun _ h => absurd h (Nat.not_lt_zero _)
      contents := rfl }

/-- Past the last affected chunk. -/
theorem Walked.fits {before : List ℕ} {k : ℕ} {s : Loop} (h : Walked opts gap file before k s)
    (hchunks : affectedChunks opts file.length = before) :
    Fits opts gap file.length .bitflip := by
  subst hchunks
  have hle := h.ideal.le
  have hpast : place opts file.length (position gap k) = none := by
    rw [place_eq_none, affectedBytes]
    omega
  refine ⟨h.numbers, h.ends, h.sizes, fun m chunk rel => h.unwrapped.not_exceeds hpast, ?_⟩
  intro m hm
  have hlt : m < k := by
    by_contra hge
    exact hm (place_none_of_le hpast ((position_strictMono gap).monotone (not_lt.mp hge)))
  have hcount := h.count
  omega

/-- Where a bit of the current chunk is flipped. -/
theorem Walked.at {before after : List ℕ} {k chunk : ℕ} {s : Loop}
    (h : Walked opts gap file before k s)
    (hchunks : affectedChunks opts file.length = before ++ chunk :: after)
    (hlt : s.byteOffset < sizeOf opts file.length chunk) :
    At opts gap file.length k chunk
      (position gap k - 8 * (before.flatMap (chunkBytes opts file.length)).length) := by
  have hbyte := h.ideal.byteOffset_eq
  exact at_of_lt hchunks h.ideal.le (by omega)

/-- The byte that is read is in the region. -/
theorem Walked.offset (hvalid : Valid opts) {before : List ℕ} {k : ℕ} {s : Loop}
    (h : Walked opts gap file before k s)
    (hcounted : s.chunk < CorruptFile.chunkCount opts file.length)
    (hstart : s.start = startOf opts s.chunk)
    (hlt : s.byteOffset < sizeOf opts file.length s.chunk) :
    0 ≤ s.start + s.byteOffset ∧ s.start + s.byteOffset ≤ offMax := by
  have hbyte := h.ideal.byteOffset_eq
  have hspec := sizeOf_spec hvalid hcounted
  have hregion := regionEnd_eq hvalid file.length
  have hstop := hvalid.stop
  omega

theorem Walked.length_flips {before : List ℕ} {k : ℕ} {s : Loop}
    (h : Walked opts gap file before k s) : s.flips.length = k := by
  rw [h.ideal.flips, length_flipsTo h.ideal.inside]

/-- What a step that does not overflow leaves. -/
theorem BitflipInv.step (hvalid : Valid opts) {h : Head} (hinv : BitflipInv opts gap file h)
    (hnone : NoneOverflows (bitflipStep opts gap file.length h)) :
    BitflipInv opts gap file (Bitflip.step opts gap file.length h) := by
  cases h with
  | returned code s => exact hinv
  | outer s =>
    obtain ⟨before, fuel, k, hwalked, hchunks, hfuel⟩ := hinv
    rw [Bitflip.step]
    rw [bitflipStep] at hnone
    by_cases hcounted : s.chunk < CorruptFile.chunkCount opts file.length
    · obtain ⟨hstart, hsize⟩ := enterChunk_eq hvalid hcounted
      rw [if_pos hcounted, chunkOffset_eq_startOf hvalid hcounted, noneOverflows_append,
        noneOverflows_clampedSize hvalid hcounted] at hnone
      rw [if_pos hnone.2] at hsize
      rw [if_pos hcounted]
      obtain ⟨hideal, hunwrapped, hcount, hnumbers, hends, hsizes⟩ := hwalked
      cases fuel with
      | zero => omega
      | succ fuel =>
        rw [forChunks, if_pos hcounted] at hchunks
        exact ⟨before, fuel, k, ⟨⟨hideal.le, hideal.fits, hideal.bitOffset, hideal.byteOffset,
          hideal.draws, hideal.flips, hideal.inside, hideal.contents⟩, hunwrapped, hcount,
          hnumbers, hends, hsizes⟩, hchunks, by
            change _ ≤ s.chunk + opts.mod + fuel
            have := hvalid.index
            omega, hstart, hsize, hnone.2⟩
    · rw [if_neg hcounted]
      refine hwalked.fits ?_
      cases fuel with
      | zero => rwa [forChunks, List.append_nil] at hchunks
      | succ fuel => rwa [forChunks, if_neg hcounted, List.append_nil] at hchunks
  | inner s =>
    obtain ⟨before, fuel, k, hwalked, hchunks, hfuel, hstart, hsize, hend⟩ := hinv
    have hmem : s.chunk ∈ affectedChunks opts file.length :=
      hchunks ▸ List.mem_append_right _ List.mem_cons_self
    by_cases hlt : s.byteOffset < s.chunkSize
    · have hat := hwalked.at hchunks (hsize ▸ hlt)
      obtain ⟨s', hstep, hflipped⟩ := hwalked.ideal.flip hvalid hat hstart hsize.ge
      obtain ⟨hnonneg, hle⟩ := hwalked.offset hvalid (lt_of_mem_affectedChunks hvalid hmem) hstart
        (hsize ▸ hlt)
      have hbit := hwalked.ideal.bitOffset
      rw [bitflipStep, if_pos hlt, offT_eq_self hnonneg hle, if_neg (not_lt.mpr hnonneg)] at hnone
      simp only [noneOverflows_cons, noneOverflows_nil, and_true, hwalked.length_flips, hbit,
        hwalked.ideal.draws] at hnone
      have hflip := hnone.2.2.2
      have hoff : offMax = 2 ^ 63 - 1 := rfl
      have hfits : position gap k - 8 * (before.flatMap (chunkBytes opts file.length)).length +
          distance gap (k + 1) < 2 ^ 63 := by omega
      rw [hstep]
      refine ⟨before, fuel, k + 1, ⟨hflipped.next hfits, hwalked.unwrapped.succ hvalid hat hfits,
        hnone.2.1.2, hwalked.numbers, hwalked.ends, hwalked.sizes⟩, ?_⟩
      rw [hflipped.chunk, hflipped.start, hflipped.chunkSize]
      exact ⟨hchunks, hfuel, hstart, hsize, hend⟩
    · have hbyte := hwalked.ideal.byteOffset_eq
      have hnext := hwalked.ideal.nextChunk hsize (by have := hwalked.ideal.le; omega)
      rw [bitflipStep, if_neg hlt, hsize] at hnone
      simp only [noneOverflows_cons, noneOverflows_nil, and_true] at hnone
      obtain ⟨-, hbits, -, -, hnumber⟩ := hnone
      have hlen : ((before ++ [s.chunk]).flatMap (chunkBytes opts file.length)).length =
          (before.flatMap (chunkBytes opts file.length)).length +
            sizeOf opts file.length s.chunk := by
        rw [List.flatMap_append, List.length_append, List.flatMap_singleton]
        rfl
      have hall : ∀ {P : ℕ → Prop}, (∀ chunk ∈ before, P chunk) → P s.chunk →
          ∀ chunk ∈ before ++ [s.chunk], P chunk := by
        intro P hbefore hlast
        exact List.forall_mem_append.mpr ⟨hbefore, List.forall_mem_singleton.mpr hlast⟩
      rw [Bitflip.step, if_neg hlt]
      refine ⟨before ++ [s.chunk], fuel, k, ⟨hlen ▸ hnext, hwalked.unwrapped, hwalked.count,
        hall hwalked.numbers hnumber.2, hall hwalked.ends hend, hall hwalked.sizes hbits.2⟩, ?_, hfuel⟩
      rw [hchunks, List.append_assoc, List.singleton_append]
      rfl

theorem BitflipInv.noneOverflows (hvalid : Valid opts) {h : Head}
    (hinv : BitflipInv opts gap file h) (hfits : Fits opts gap file.length .bitflip) :
    NoneOverflows (bitflipStep opts gap file.length h) := by
  obtain ⟨hnumbers, hends, hbits⟩ := hfits
  cases h with
  | returned code s => exact noneOverflows_nil
  | outer s =>
    obtain ⟨before, fuel, k, -, hchunks, hfuel⟩ := hinv
    rw [bitflipStep]
    by_cases hcounted : s.chunk < CorruptFile.chunkCount opts file.length
    · cases fuel with
      | zero => omega
      | succ fuel =>
        rw [forChunks, if_pos hcounted] at hchunks
        have hmem : s.chunk ∈ affectedChunks opts file.length :=
          hchunks ▸ List.mem_append_right _ List.mem_cons_self
        rw [if_pos hcounted, chunkOffset_eq_startOf hvalid hcounted]
        exact noneOverflows_append.mpr ⟨noneOverflows_chunkOffset hvalid hcounted,
          (noneOverflows_clampedSize hvalid hcounted).mpr (hends _ hmem)⟩
    · rw [if_neg hcounted]
      exact noneOverflows_nil
  | inner s =>
    obtain ⟨before, fuel, k, hwalked, hchunks, hfuel, hstart, hsize, hend⟩ := hinv
    have hmem : s.chunk ∈ affectedChunks opts file.length :=
      hchunks ▸ List.mem_append_right _ List.mem_cons_self
    have hbit := hwalked.ideal.bitOffset
    have hbyte := hwalked.ideal.byteOffset_eq
    have hrel := hwalked.ideal.fits
    have hoff : offMax = 2 ^ 63 - 1 := rfl
    rw [bitflipStep]
    by_cases hlt : s.byteOffset < s.chunkSize
    · have hat := hwalked.at hchunks (hsize ▸ hlt)
      obtain ⟨hnonneg, hle⟩ := hwalked.offset hvalid (lt_of_mem_affectedChunks hvalid hmem) hstart
        (hsize ▸ hlt)
      have hgap : ¬ 2 ^ 63 ≤ position gap k -
          8 * (before.flatMap (chunkBytes opts file.length)).length + distance gap (k + 1) :=
        fun hexceeds => hbits.gaps k s.chunk _ ⟨hat, hexceeds⟩
      have hcount := hbits.flips k (by rw [hat.place_eq]; exact Option.some_ne_none _)
      rw [if_pos hlt, offT_eq_self hnonneg hle, if_neg (not_lt.mpr hnonneg)]
      simp only [noneOverflows_cons, noneOverflows_nil, and_true, hwalked.length_flips, hbit,
        hwalked.ideal.draws]
      exact ⟨representable_of_nonneg hnonneg hle, representable_of_nonneg (by omega) hcount,
        representable_of_nonneg (by omega) (by omega)⟩
    · have hnumber := hnumbers _ hmem
      have hsizes := hbits.sizes _ hmem
      have hspec := sizeOf_spec hvalid (lt_of_mem_affectedChunks hvalid hmem)
      have hmod := hvalid.index
      have hdiv := Nat.div_le_self (s.chunk - opts.index) opts.mod
      generalize (s.chunk - opts.index) / opts.mod = processed at hdiv ⊢
      rw [if_neg hlt, hsize, offT_eq_self (by omega) hsizes]
      simp only [noneOverflows_cons, noneOverflows_nil, and_true]
      exact ⟨representable_of_nonneg (by omega) (by omega),
        representable_of_nonneg (by omega) hsizes, ⟨by omega, by omega⟩, ⟨by omega, by omega⟩,
        representable_of_nonneg (by omega) hnumber⟩

/-- If nothing overflows, the loops are left. -/
theorem exists_returned (hvalid : Valid opts)
    (hinv : ∀ n, BitflipInv opts gap file (headAt opts gap file n)) :
    ∃ n code s, headAt opts gap file n = .returned code s := by
  rcases @outcome_begin opts gap file hvalid with
    ⟨k, s, hreaches, -⟩ | ⟨k, chunk, rel, s, hreaches, hwrapped⟩ | ⟨k, chunk, s, hreaches, hoverrun⟩
  · obtain ⟨n, hn, -⟩ := exists_headAt hreaches
    exact ⟨n, _, s, hn⟩
  · obtain ⟨n, hn, -⟩ := exists_headAt hreaches
    obtain ⟨before, fuel, k', hwalked, -⟩ := hn ▸ hinv n
    obtain ⟨-, hneg, -⟩ := hwrapped.offset_eq hvalid
    have hbit := hwalked.ideal.bitOffset
    omega
  · obtain ⟨n, hn, -⟩ := exists_headAt hreaches
    obtain ⟨before, fuel, k', -, -, -, -, -, hend⟩ := hn ▸ hinv n
    have hwraps := hoverrun.wraps
    rw [← hoverrun.chunk_eq] at hwraps
    omega

theorem bitflip_iff (hvalid : Valid opts) (gap : ℕ → Gap) (file : Bytes) :
    (∀ n, NoneOverflows (bitflipStep opts gap file.length (headAt opts gap file n))) ↔
      Fits opts gap file.length .bitflip := by
  constructor
  · intro hnone
    have hinv : ∀ n, BitflipInv opts gap file (headAt opts gap file n) := by
      intro n
      induction n with
      | zero => exact bitflipInv_begin
      | succ n ih =>
        rw [headAt_succ]
        exact ih.step hvalid (hnone n)
    obtain ⟨n, code, s, hn⟩ := exists_returned hvalid hinv
    have hlast := hinv n
    rw [hn] at hlast
    exact hlast
  · intro hfits n
    have hinv : BitflipInv opts gap file (headAt opts gap file n) := by
      induction n with
      | zero => exact bitflipInv_begin
      | succ n ih =>
        rw [headAt_succ]
        exact ih.step hvalid (ih.noneOverflows hvalid hfits)
    exact hinv.noneOverflows hvalid hfits

end Bitflip

/-- In each mode, no operation overflows if and only if the options fit. -/
theorem overflowFree_iff (htyped : opts.Typed) (hok : validateOpts opts = .ok)
    (gap : ℕ → Bitflip.Gap) (file : Bytes) (mode : Mode) :
    OverflowFree opts gap file mode ↔ Fits opts gap file.length mode := by
  have hvalid := valid_of_validateOpts htyped hok
  have hcount := noneOverflows_chunkCount hvalid file.length
  rw [OverflowFree, and_iff_right hcount]
  cases mode with
  | snapshot => exact snapshot_iff hvalid file
  | restore => exact restore_iff hvalid hok file
  | copy => exact copy_iff hvalid hok file
  | bitflip => exact bitflip_iff hvalid gap file

section Example

/-- The end of the one chunk is past the largest offset before it is clamped. -/
theorem largeChunk_overflows :
    validateOpts Bitflip.largeChunk = .ok ∧
      ¬ OverflowFree Bitflip.largeChunk Bitflip.pastTheFile Bitflip.tenBytes .snapshot := by
  refine ⟨by decide, fun hfree => ?_⟩
  have hmem : 1 + offMax ∈ snapshot Bitflip.largeChunk Bitflip.tenBytes := by decide
  exact absurd (hfree.2 _ hmem).2 (by decide)

/-- A chunk of ten bytes is far from the largest offset. -/
theorem oneChunk_overflowFree :
    OverflowFree Bitflip.oneChunk Bitflip.pastTheFile Bitflip.tenBytes .snapshot := by
  have htyped : Bitflip.oneChunk.Typed := by
    constructor <;> decide
  have hok : validateOpts Bitflip.oneChunk = .ok := by decide
  refine (overflowFree_iff htyped hok _ Bitflip.tenBytes .snapshot).mpr ⟨?_, ?_⟩
  · unfold NumbersFit
    decide
  · change EndsFit _ _
    unfold EndsFit
    decide

end Example

end Jepsen.Resources.CorruptFile.Arithmetic
