/-
# When copies stay in the region

A destination ends where its chunk does, but a source ends where the copy does. Copies read past
the region if its last chunk is shorter than the others, is copied from, and is not the end of the
file; and they write past it if the end of the last chunk wraps.
-/

import Jepsen.Resources.CorruptCopy

namespace Jepsen.Resources.CorruptFile.Copy

open Jepsen.Library Jepsen.Library.ByteRange

variable {opts : Opts} {fileSize : ℕ}

/-! ## Rolls -/

theorem rollChunk_eq_some {destOffset : ℤ} {count chunk : ℕ} {rolls : List Roll}
    (h : rollChunk opts destOffset count rolls = some chunk) :
    rejects opts destOffset chunk = false ∧ ∃ roll, chunk = randInt count roll := by
  induction rolls with
  | nil => cases h
  | cons roll rolls ih =>
    rw [rollChunk] at h
    split_ifs at h with hrejects
    · exact ih h
    · rw [← Option.some.inj h]
      exact ⟨Bool.eq_false_iff.mpr hrejects, roll, rfl⟩

theorem randInt_lt {count : ℕ} (hcount : 0 < count) (roll : Roll) : randInt count roll < count := by
  rw [randInt, if_pos hcount]
  exact Nat.mod_lt _ hcount

theorem startOf_ne (hvalid : Valid opts) {chunk chunk' : ℕ} (hne : chunk ≠ chunk') :
    startOf opts chunk ≠ startOf opts chunk' := by
  have hpos := hvalid.chunkSize
  rcases Nat.lt_or_gt_of_ne hne with h | h
  · have := startOf_lt hvalid h
    omega
  · have := startOf_lt hvalid h
    omega

theorem rejects_iff (hvalid : Valid opts) {chunk source : ℕ}
    (hchunk : chunk < chunkCount opts fileSize) (hsource : source < chunkCount opts fileSize) :
    rejects opts (chunkOffset opts chunk) source = true ↔
      if opts.mod = 1 then source = chunk else source % opts.mod = opts.index := by
  rw [rejects]
  split_ifs
  · rw [decide_eq_true_eq, chunkOffset_eq_startOf hvalid hchunk,
      chunkOffset_eq_startOf hvalid hsource, Nat.cast_inj]
    constructor
    · intro heq
      by_contra hne
      exact startOf_ne hvalid hne heq
    · exact fun heq => heq ▸ rfl
  · rw [decide_eq_true_eq]

/-- One of the first two chunks is not rejected. -/
theorem exists_admissible (hvalid : Valid opts) {chunk : ℕ}
    (hcount : 2 ≤ chunkCount opts fileSize) (hchunk : chunk < chunkCount opts fileSize) :
    ∃ roll : Roll, rejects opts (chunkOffset opts chunk)
      (randInt (chunkCount opts fileSize) roll) = false := by
  have hroll : ∀ source < 2, ∃ roll : Roll, randInt (chunkCount opts fileSize) roll = source := by
    intro source hlt
    refine ⟨⟨source, by omega⟩, ?_⟩
    have hsource : source < chunkCount opts fileSize := by omega
    rw [randInt, if_pos (by omega)]
    exact Nat.mod_eq_of_lt hsource
  have hclean : ∃ source < 2, ¬ (if opts.mod = 1 then source = chunk else
      source % opts.mod = opts.index) := by
    have hindex := hvalid.index
    by_cases hmod : opts.mod = 1
    · simp only [if_pos hmod]
      by_cases hzero : chunk = 0
      · exact ⟨1, by omega, by omega⟩
      · exact ⟨0, by omega, by omega⟩
    · simp only [if_neg hmod]
      by_cases hzero : opts.index = 0
      · refine ⟨1, by omega, ?_⟩
        rw [Nat.mod_eq_of_lt (by omega)]
        omega
      · refine ⟨0, by omega, ?_⟩
        rw [Nat.zero_mod]
        omega
  obtain ⟨source, hlt, hclean⟩ := hclean
  obtain ⟨roll, hroll⟩ := hroll source hlt
  refine ⟨roll, Bool.eq_false_iff.mpr fun hrejects => ?_⟩
  rw [hroll, rejects_iff hvalid hchunk (by omega)] at hrejects
  exact hclean hrejects

/-! ## One iteration -/

/-- The bytes that a copy of one chunk over another takes if the system call copies all it can. -/
def fullLimit (opts : Opts) (fileSize chunk source : ℕ) : ℕ :=
  min (min (sizeT (clampedSize opts fileSize (startOf opts chunk)))
    (fileSize - startOf opts source)) (offMax.toNat - startOf opts chunk)

/-- A copy over a chunk from another one. -/
structure CopyOf (opts : Opts) (file : Bytes) (chunk source limit : ℕ) : Prop where
  two : 2 ≤ chunkCount opts file.length
  source_lt : source < chunkCount opts file.length
  clean : ¬ (if opts.mod = 1 then source = chunk else source % opts.mod = opts.index)
  drawn : ∃ roll, source = randInt (chunkCount opts file.length) roll
  limit_eq : limit = fullLimit opts file.length chunk source

/-- What an iteration can do to the copies made so far. -/
theorem iteration_eq_some (hvalid : Valid opts) {s : Loop} {draws : Draws} {h : Head}
    (hcounted : s.chunk < chunkCount opts s.file.length)
    (hiteration : iteration opts s.file.length s draws = some h) :
    h = .loop { s with chunk := s.chunk + opts.mod } ∨ h = .returned .io s ∨
      ∃ source limit, CopyOf opts s.file s.chunk source limit ∧ draws.copied ≤ limit ∧
        h = .loop
          { chunk := s.chunk + opts.mod
            file := writeAt s.file (startOf opts s.chunk)
              (copyRange s.file (startOf opts source) draws.copied)
            copies := s.copies ++ [⟨startOf opts source, startOf opts s.chunk, draws.copied⟩] } := by
  have hstart := chunkOffset_eq_startOf hvalid hcounted
  rw [iteration] at hiteration
  dsimp only at hiteration
  split_ifs at hiteration with hdraw
  · exact Or.inl (Option.some.inj hiteration).symm
  · rw [randSourceOffset] at hiteration
    by_cases htwo : chunkCount opts s.file.length < 2
    · rw [if_pos htwo] at hiteration
      exact Or.inl (Option.some.inj hiteration).symm
    · rw [if_neg htwo] at hiteration
      cases hroll : rollChunk opts (chunkOffset opts s.chunk) (chunkCount opts s.file.length)
          draws.rolls with
      | none =>
        rw [hroll] at hiteration
        cases hiteration
      | some source =>
        obtain ⟨hclean, roll, hdrawn⟩ := rollChunk_eq_some hroll
        have hsource : source < chunkCount opts s.file.length :=
          hdrawn ▸ randInt_lt (by omega) roll
        rw [hroll, Option.map_some, chunkOffset_eq_startOf hvalid hsource, hstart] at hiteration
        dsimp only at hiteration
        rw [if_neg (by omega), Int.toNat_natCast, Int.toNat_natCast] at hiteration
        split at hiteration
        · exact Or.inr (Or.inl (Option.some.inj hiteration).symm)
        · rename_i limit hlimit
          split_ifs at hiteration with hle
          refine Or.inr (Or.inr ⟨source, limit, ?_, hle, (Option.some.inj hiteration).symm⟩)
          refine ⟨by omega, hsource, ?_, ⟨roll, hdrawn⟩, ?_⟩
          · rw [← rejects_iff hvalid hcounted hsource, hclean]
            exact Bool.false_ne_true
          · rw [copyLimit] at hlimit
            split_ifs at hlimit
            exact (Option.some.inj hlimit).symm

/-! ## Options that fit -/

theorem chunkOf_eq (hvalid : Valid opts) {chunk byte : ℕ} (hle : startOf opts chunk ≤ byte)
    (hlt : byte < startOf opts chunk + opts.chunkSize.toNat) : chunkOf opts byte = chunk := by
  have hstart := startOf_eq hvalid chunk
  have hpos := hvalid.chunkSize
  have hoffset : (byte : ℤ) - opts.start = chunk * opts.chunkSize + (byte - startOf opts chunk) := by
    rw [hstart]
    ring
  rw [chunkOf, hoffset, Int.add_comm, Int.add_mul_ediv_right _ _ hpos.ne',
    Int.ediv_eq_zero_of_lt (by omega) (by omega), zero_add, Int.toNat_natCast]

/-- The last chunk is as large as the others if the region is a number of whole chunks. -/
theorem last_whole (hvalid : Valid opts) {chunk : ℕ}
    (hchunk : chunk < chunkCount opts fileSize)
    (hwhole : (opts.stop - opts.start) % opts.chunkSize = 0) :
    startOf opts chunk + opts.chunkSize ≤ opts.stop := by
  have hstart := startOf_eq hvalid chunk
  have hpos := hvalid.chunkSize
  have hbefore := ((lt_chunkCount_iff hvalid).mp hchunk).1
  obtain ⟨n, hn⟩ := Int.dvd_of_emod_eq_zero hwhole
  have hlt : (chunk : ℤ) < n := by
    by_contra hle
    have hmul := mul_le_mul_of_nonneg_right (not_lt.mp hle) hpos.le
    rw [mul_comm n] at hmul
    omega
  have hmul : ((chunk : ℤ) + 1) * opts.chunkSize ≤ n * opts.chunkSize :=
    mul_le_mul_of_nonneg_right (by omega) hpos.le
  rw [add_mul, one_mul, mul_comm n] at hmul
  omega

/-- A source of a copy has as many bytes as are copied. -/
theorem CopyOf.source_fits (hvalid : Valid opts) {file : Bytes} {chunk source limit : ℕ}
    (hfits : Fits opts file.length) (hmem : chunk ∈ affectedChunks opts file.length)
    (hcopy : CopyOf opts file chunk source limit) (hle : limit ≤ opts.chunkSize.toNat) :
    startOf opts source + limit ≤ regionEnd opts file.length := by
  have hregion := regionEnd_eq hvalid file.length
  have hspec := sizeOf_spec hvalid hcopy.source_lt
  have hlimit := hcopy.limit_eq
  rw [fullLimit] at hlimit
  by_cases hlast : source + 1 < chunkCount opts file.length
  · have hnext := sizeOf_spec hvalid hlast
    have hapart := @startOf_lt opts hvalid source (source + 1) (by omega)
    omega
  · by_cases hend : opts.stop < file.length
    · rcases hfits.source hend with hwhole | htwo | hmany | ⟨hmod, hclean | hnone⟩
      · have := last_whole hvalid hcopy.source_lt hwhole
        omega
      · have := hcopy.two
        omega
      · obtain ⟨roll, hroll⟩ := hcopy.drawn
        rw [randInt, if_pos (by omega), Nat.mod_eq_of_lt (by omega)] at hroll
        omega
      · have hsource : source = chunkCount opts file.length - 1 := by
          have := hcopy.source_lt
          omega
        have h := hcopy.clean
        rw [if_neg (by omega), hsource] at h
        exact absurd hclean h
      · obtain ⟨j, rfl, hlt⟩ := (mem_affectedChunks hvalid).mp hmem
        omega
    · omega

theorem sizeT_natCast {n : ℕ} (hn : n < 2 ^ 64) : sizeT n = n := by
  rw [sizeT]
  omega

/-- No destination is larger than `chunk_size`. -/
theorem sizeT_clampedSize_le (hvalid : Valid opts) {chunk : ℕ}
    (hchunk : chunk < chunkCount opts fileSize) :
    sizeT (clampedSize opts fileSize (startOf opts chunk)) ≤ opts.chunkSize.toNat := by
  have hspec := sizeOf_spec hvalid hchunk
  have hpos := hvalid.chunkSize
  have hmax := hvalid.chunkSize_le
  have hoff : offMax = 2 ^ 63 - 1 := rfl
  rw [clampedSize_eq hvalid hchunk]
  split_ifs
  · rw [sizeT_natCast (by omega)]
    omega
  · rw [sizeT]
    omega

theorem fullLimit_le (hvalid : Valid opts) {chunk source : ℕ}
    (hchunk : chunk < chunkCount opts fileSize)
    (hfits : startOf opts chunk + opts.chunkSize ≤ offMax ∨ offMax ≤ regionEnd opts fileSize) :
    fullLimit opts fileSize chunk source ≤ sizeOf opts fileSize chunk := by
  have hspec := sizeOf_spec hvalid hchunk
  have hmax := hvalid.chunkSize_le
  have hoff : offMax = 2 ^ 63 - 1 := rfl
  rw [fullLimit]
  by_cases hunwrapped : startOf opts chunk + opts.chunkSize ≤ offMax
  · rw [clampedSize_eq hvalid hchunk, if_pos hunwrapped, sizeT_natCast (by omega)]
    exact (min_le_left _ _).trans (min_le_left _ _)
  · refine (min_le_right _ _).trans ?_
    omega

theorem CopyOf.dest_fits (hvalid : Valid opts) {file : Bytes} {chunk source limit : ℕ}
    (hfits : Fits opts file.length) (hmem : chunk ∈ affectedChunks opts file.length)
    (hcopy : CopyOf opts file chunk source limit) : limit ≤ sizeOf opts file.length chunk := by
  rw [hcopy.limit_eq]
  exact fullLimit_le hvalid (lt_of_mem_affectedChunks hvalid hmem)
    (hfits.dest hcopy.two chunk hmem)

/-- A copy over an affected chunk is proper. -/
theorem CopyOf.proper (hvalid : Valid opts) {file : Bytes} {chunk source limit length : ℕ}
    (hfits : Fits opts file.length) (hmem : chunk ∈ affectedChunks opts file.length)
    (hcopy : CopyOf opts file chunk source limit) (hlength : length ≤ limit) :
    Proper opts file.length ⟨startOf opts source, startOf opts chunk, length⟩ := by
  have hchunk := lt_of_mem_affectedChunks hvalid hmem
  have hspec := sizeOf_spec hvalid hchunk
  have hdest := hcopy.dest_fits hvalid hfits hmem
  have hsource := hcopy.source_fits hvalid hfits hmem (by omega)
  have hregion := regionEnd_eq hvalid file.length
  have hchunkOf : ∀ i < length, chunkOf opts (startOf opts chunk + i) = chunk := fun i hi =>
    chunkOf_eq hvalid (by omega) (by omega)
  have hsourceOf : ∀ i < length, chunkOf opts (startOf opts source + i) = source := fun i hi =>
    chunkOf_eq hvalid (by omega) (by omega)
  have hclean := hcopy.clean
  refine ⟨fun i (hi : i < length) => ?_, fun i (hi : i < length) => ?_,
    fun i (hi : i < length) j (hj : j < length) => ?_, fun hmod i (hi : i < length) => ?_⟩
  · have hbyte : startOf opts chunk + i ∈ chunkBytes opts file.length chunk :=
      mem_chunkBytes.mpr (by omega)
    exact affectedByte_of_mem_chunkBytes hvalid hmem hbyte
  · have hstart := startOf_eq hvalid source
    have hnonneg : 0 ≤ (source : ℤ) * opts.chunkSize := by
      have := hvalid.chunkSize
      positivity
    change opts.start ≤ (startOf opts source + i : ℕ) ∧
      ((startOf opts source + i : ℕ) : ℤ) < opts.stop ∧ startOf opts source + i < file.length
    omega
  · rw [hsourceOf i hi, hchunkOf j hj]
    rintro rfl
    split_ifs at hclean with hone
    · exact hclean rfl
    · obtain ⟨j, rfl, -⟩ := (mem_affectedChunks hvalid).mp hmem
      rw [Nat.add_mul_mod_self_right, Nat.mod_eq_of_lt hvalid.index] at hclean
      exact hclean rfl
  · rw [hsourceOf i hi]
    rwa [if_neg (by omega)] at hclean

theorem length_writeAt {file bytes : Bytes} {off : ℕ} (hle : off + bytes.length ≤ file.length) :
    (writeAt file off bytes).length = file.length := by
  rw [writeAt, List.length_append, List.length_append, List.length_take, List.length_drop]
  omega

/-- The invariant: the file keeps its size, and the copies are proper. -/
structure Inv (opts : Opts) (fileSize : ℕ) (h : Head) : Prop where
  size : h.state.file.length = fileSize
  chunk : ∃ j, h.state.chunk = opts.index + j * opts.mod
  proper : ∀ copied ∈ h.state.copies, Proper opts fileSize copied

theorem Inv.step (hvalid : Valid opts) (hfits : Fits opts fileSize) {h h' : Head} {draws : Draws}
    (hinv : Inv opts fileSize h) (hstep : step opts fileSize h draws = some h') :
    Inv opts fileSize h' := by
  cases h with
  | returned code s => cases hstep
  | loop s =>
    obtain ⟨hsize, ⟨j, hj⟩, hproper⟩ := hinv
    change s.file.length = fileSize at hsize
    subst hsize
    rw [Copy.step] at hstep
    split_ifs at hstep with hcounted
    · have hnext : ∃ j, s.chunk + opts.mod = opts.index + j * opts.mod :=
        ⟨j + 1, by rw [show s.chunk = _ from hj]; ring⟩
      have hmem : s.chunk ∈ affectedChunks opts s.file.length :=
        (mem_affectedChunks hvalid).mpr ⟨j, hj, hcounted⟩
      rcases iteration_eq_some hvalid hcounted hstep with
        rfl | rfl | ⟨source, limit, hcopy, hle, rfl⟩
      · exact ⟨rfl, hnext, hproper⟩
      · exact ⟨rfl, ⟨j, hj⟩, hproper⟩
      · refine ⟨length_writeAt ?_, hnext, fun copied h => ?_⟩
        · have hspec := sizeOf_spec hvalid hcounted
          have hdest := hcopy.dest_fits hvalid hfits hmem
          have hregion := regionEnd_eq hvalid s.file.length
          have hlength : (copyRange s.file (startOf opts source) draws.copied).length ≤ limit :=
            (List.length_take_le _ _).trans hle
          omega
        · cases List.mem_append.mp h with
          | inl h => exact hproper copied h
          | inr h =>
            rw [List.mem_singleton.mp h]
            exact hcopy.proper hvalid hfits hmem hle
    · cases hstep
      exact ⟨rfl, ⟨j, hj⟩, hproper⟩

theorem right_of_fits (hvalid : Valid opts) {file : Bytes} (hfits : Fits opts file.length) :
    Right opts file where
  proper := fun draws h hrun => by
    have hstart : Inv opts file.length (begin opts file) :=
      ⟨rfl, ⟨0, by rw [Nat.zero_mul]; rfl⟩, fun _ h => absurd h List.not_mem_nil⟩
    exact (hrun.invariant (Inv opts file.length) hstart (Inv.step hvalid hfits)).proper
  admissible := fun htwo chunk hmem =>
    exists_admissible hvalid htwo (lt_of_mem_affectedChunks hvalid hmem)

/-! ## Options that do not -/

theorem probability_nonneg (hok : validateOpts opts = .ok) : 0 ≤ opts.probability := by
  unfold validateOpts at hok
  repeat' split at hok
  all_goals first
    | exact not_lt.mp fun h => absurd (Or.inl h) ‹¬(opts.probability < 0 ∨ 1 < opts.probability)›
    | cases hok

/-- The lowest draw: the chunk is affected. -/
def zeroDraw : Draw := ⟨0, le_refl 0, one_pos⟩

/-- Any roll that is not rejected makes a copy. -/
theorem iteration_copies (hvalid : Valid opts) (hok : validateOpts opts = .ok) {s : Loop}
    (hcounted : s.chunk < chunkCount opts s.file.length)
    (htwo : 2 ≤ chunkCount opts s.file.length) {roll : Roll} {source : ℕ}
    (hdrawn : randInt (chunkCount opts s.file.length) roll = source)
    (hclean : rejects opts (chunkOffset opts s.chunk) source = false)
    (hne : source ≠ s.chunk) :
    step opts s.file.length (.loop s)
        ⟨zeroDraw, [roll], fullLimit opts s.file.length s.chunk source⟩ =
      some (.loop
        { chunk := s.chunk + opts.mod
          file := writeAt s.file (startOf opts s.chunk) (copyRange s.file (startOf opts source)
            (fullLimit opts s.file.length s.chunk source))
          copies := s.copies ++ [⟨startOf opts source, startOf opts s.chunk,
            fullLimit opts s.file.length s.chunk source⟩] }) := by
  have hsource : source < chunkCount opts s.file.length := hdrawn ▸ randInt_lt (by omega) roll
  have hroll : rollChunk opts (chunkOffset opts s.chunk) (chunkCount opts s.file.length) [roll] =
      some source := by
    rw [rollChunk, hdrawn, hclean]
    rfl
  have hsmall := sizeT_clampedSize_le hvalid hcounted
  have hlimit : copyLimit s.file (startOf opts source) (startOf opts s.chunk)
      (sizeT (clampedSize opts s.file.length (startOf opts s.chunk))) =
        some (fullLimit opts s.file.length s.chunk source) := by
    refine if_neg ?_
    rcases Nat.lt_or_gt_of_ne hne with h | h
    · have := startOf_lt hvalid h
      omega
    · have := startOf_lt hvalid h
      omega
  have hdraw : ¬ opts.probability < zeroDraw.1 := not_lt.mpr (probability_nonneg hok)
  rw [step, if_pos hcounted, iteration]
  dsimp only
  rw [if_neg hdraw, randSourceOffset, if_neg (by omega), hroll,
    Option.map_some, chunkOffset_eq_startOf hvalid hsource, chunkOffset_eq_startOf hvalid hcounted]
  dsimp only
  rw [if_neg (by omega), Int.toNat_natCast, Int.toNat_natCast, hlimit]
  exact if_pos (le_refl _)

/-- A chunk is not copied over itself. -/
theorem ne_of_clean (hvalid : Valid opts) {j source : ℕ}
    (hcounted : opts.index + j * opts.mod < chunkCount opts fileSize)
    (hsource : source < chunkCount opts fileSize)
    (hclean : rejects opts (chunkOffset opts (opts.index + j * opts.mod)) source = false) :
    source ≠ opts.index + j * opts.mod := by
  rintro rfl
  have hrejects := rejects_iff hvalid hcounted hsource
  rw [hclean, Nat.add_mul_mod_self_right, Nat.mod_eq_of_lt hvalid.index] at hrejects
  split_ifs at hrejects <;> exact absurd (hrejects.mpr rfl) not_false

/-- As long as chunks do not end past the largest offset, the loop goes on. -/
theorem exists_execution (hvalid : Valid opts) (hok : validateOpts opts = .ok) {file : Bytes}
    (htwo : 2 ≤ chunkCount opts file.length) (j : ℕ)
    (hcounted : opts.index + j * opts.mod < chunkCount opts file.length) :
    ∃ draws s, Execution opts file draws (.loop s) ∧ s.chunk = opts.index + j * opts.mod ∧
      s.file.length = file.length := by
  have hmod : 0 < opts.mod := Nat.zero_lt_of_lt hvalid.index
  induction j with
  | zero =>
    rw [Nat.zero_mul]
    exact ⟨[], _, .nil, rfl, rfl⟩
  | succ j ih =>
    have hnext : opts.index + (j + 1) * opts.mod = opts.index + j * opts.mod + opts.mod := by ring
    obtain ⟨draws, s, hrun, hchunk, hsize⟩ := ih (by omega)
    obtain ⟨roll, hclean⟩ := @exists_admissible opts file.length hvalid s.chunk htwo (by omega)
    rw [← hsize] at hcounted htwo hclean
    have hsource := randInt_lt (show 0 < chunkCount opts s.file.length by omega) roll
    have hne : randInt (chunkCount opts s.file.length) roll ≠ s.chunk := by
      rw [hchunk] at hclean ⊢
      exact ne_of_clean hvalid (by omega) hsource hclean
    have hstep := iteration_copies hvalid hok (by omega) htwo rfl hclean hne
    rw [hsize] at hstep
    refine ⟨_, _, .snoc hrun hstep, ?_, ?_⟩
    · change s.chunk + opts.mod = _
      omega
    · refine (length_writeAt ?_).trans hsize
      have hbefore : s.chunk < chunkCount opts s.file.length := by omega
      have hspec := sizeOf_spec hvalid hbefore
      have hspec' := sizeOf_spec hvalid hcounted
      have hregion := regionEnd_eq hvalid s.file.length
      have hapart := @startOf_lt opts hvalid s.chunk (opts.index + (j + 1) * opts.mod) (by omega)
      have hstop := hvalid.stop
      have hlimit := @fullLimit_le opts _ hvalid _
        (randInt (chunkCount opts s.file.length) roll) hbefore (by omega)
      have hlength := (List.length_take_le (fullLimit opts s.file.length s.chunk
        (randInt (chunkCount opts s.file.length) roll)) (s.file.drop
          (startOf opts (randInt (chunkCount opts s.file.length) roll)))).trans hlimit
      rw [copyRange, ← hsize]
      omega

/-- A last chunk that ends past the largest offset is written past the region. -/
theorem fits_dest_of_right (hvalid : Valid opts) (hok : validateOpts opts = .ok) {file : Bytes}
    (hright : Right opts file) (htwo : 2 ≤ chunkCount opts file.length) :
    ∀ chunk ∈ affectedChunks opts file.length, startOf opts chunk + opts.chunkSize ≤ offMax ∨
      offMax ≤ regionEnd opts file.length := by
  intro chunk hmem
  by_contra hunfit
  obtain ⟨hwraps, hregionEnd⟩ := not_or.mp hunfit
  obtain ⟨j, rfl, hcounted⟩ := (mem_affectedChunks hvalid).mp hmem
  obtain ⟨draws, s, hrun, hchunk, hsize⟩ := exists_execution hvalid hok htwo j hcounted
  obtain ⟨roll, hclean⟩ := hright.admissible htwo _ hmem
  obtain ⟨source, hdrawn⟩ : ∃ source, randInt (chunkCount opts file.length) roll = source := ⟨_, rfl⟩
  have hsource : source < chunkCount opts file.length := hdrawn ▸ randInt_lt (by omega) roll
  rw [hdrawn] at hclean
  have hne : source ≠ opts.index + j * opts.mod := ne_of_clean hvalid hcounted hsource hclean
  rw [← hchunk, ← hsize] at hcounted
  rw [← hchunk] at hne hclean hwraps
  rw [← hsize] at htwo hdrawn hsource
  have hstep := iteration_copies hvalid hok hcounted htwo hdrawn hclean hne
  rw [hsize] at hstep
  have hcopy := hright.proper _ _ (.snoc hrun hstep) _ (List.mem_append_right _ List.mem_cons_self)
  -- The source comes before the destination, which is the last chunk.
  have hbefore := (lt_chunkCount_iff hvalid).mp hcounted
  rw [← startOf_eq hvalid] at hbefore
  have hstop := hvalid.stop
  have hpos := hvalid.chunkSize
  have hlt : source < s.chunk := by
    by_contra hge
    have hapart := @startOf_lt opts hvalid s.chunk source (by omega)
    have hcountedSource := (lt_chunkCount_iff hvalid).mp hsource
    rw [← startOf_eq hvalid] at hcountedSource
    omega
  have hapart := startOf_lt hvalid hlt
  have hlimit : fullLimit opts file.length s.chunk source = offMax.toNat - startOf opts s.chunk := by
    have hmax := hvalid.chunkSize_le
    have hoff : offMax = 2 ^ 63 - 1 := rfl
    rw [fullLimit, ← hsize, clampedSize_eq hvalid hcounted, if_neg hwraps, sizeT]
    omega
  have hregion := regionEnd_eq hvalid file.length
  have hafter : regionEnd opts file.length - startOf opts s.chunk <
      fullLimit opts file.length s.chunk source := by omega
  have hwritten := hcopy.written _ hafter
  have hbeforeStop := hwritten.stop
  have hinFile := hwritten.inFile
  dsimp only at hbeforeStop hinFile
  omega

/-- The last chunk is shorter than the others if the region is not a number of whole chunks. -/
theorem stop_sub_startOf_lt (hvalid : Valid opts) {last : ℕ}
    (hlast : chunkCount opts fileSize = last + 1) (hend : opts.stop < fileSize)
    (hshort : (opts.stop - opts.start) % opts.chunkSize ≠ 0) :
    opts.stop - startOf opts last < opts.chunkSize := by
  have hstart := startOf_eq hvalid last
  have hnext : ¬ last + 1 < chunkCount opts fileSize := by omega
  rw [lt_chunkCount_iff hvalid, Nat.cast_add_one, add_mul, one_mul] at hnext
  by_contra hle
  refine hshort (Int.emod_eq_zero_of_dvd ⟨last + 1, ?_⟩)
  rw [mul_add, mul_one, mul_comm]
  omega

/-- A last chunk that is shorter than the others is copied from past its end. -/
theorem fits_source_of_right (hvalid : Valid opts) (hok : validateOpts opts = .ok) {file : Bytes}
    (hright : Right opts file) (hend : opts.stop < file.length) :
    (opts.stop - opts.start) % opts.chunkSize = 0 ∨
      chunkCount opts file.length < 2 ∨ 2 ^ 31 < chunkCount opts file.length ∨
        1 < opts.mod ∧ ((chunkCount opts file.length - 1) % opts.mod = opts.index ∨
          chunkCount opts file.length ≤ opts.index) := by
  by_contra hunfit
  obtain ⟨hshort, htwo, hfew, hdrawable⟩ : (opts.stop - opts.start) % opts.chunkSize ≠ 0 ∧
      2 ≤ chunkCount opts file.length ∧ chunkCount opts file.length ≤ 2 ^ 31 ∧
        ¬(1 < opts.mod ∧ ((chunkCount opts file.length - 1) % opts.mod = opts.index ∨
          chunkCount opts file.length ≤ opts.index)) := by
    simpa only [not_or, not_lt] using hunfit
  obtain ⟨last, hlast⟩ : ∃ last, chunkCount opts file.length = last + 1 :=
    ⟨chunkCount opts file.length - 1, by omega⟩
  have hindex := hvalid.index
  have hlastCounted : last < chunkCount opts file.length := by omega
  have hcounted : opts.index < chunkCount opts file.length := by
    by_contra hge
    exact hdrawable ⟨by omega, Or.inr (not_lt.mp hge)⟩
  have hclean : rejects opts (chunkOffset opts opts.index) last = false := by
    rw [Bool.eq_false_iff]
    intro hrejects
    rw [rejects_iff hvalid hcounted hlastCounted] at hrejects
    split_ifs at hrejects with hone
    · omega
    · exact hdrawable ⟨by omega, Or.inl (by rw [hlast, Nat.add_sub_cancel]; exact hrejects)⟩
  obtain ⟨roll, hroll⟩ : ∃ roll : Roll, roll.val = last := ⟨⟨last, by omega⟩, rfl⟩
  have hdrawn : randInt (chunkCount opts file.length) roll = last := by
    rw [randInt, if_pos (by omega), hroll]
    exact Nat.mod_eq_of_lt hlastCounted
  have hne : last ≠ opts.index := by
    have h := @ne_of_clean opts file.length hvalid 0 last
    rw [Nat.zero_mul, Nat.add_zero] at h
    exact h hcounted hlastCounted hclean
  obtain ⟨draws, s, hrun, hchunk, hsize⟩ :=
    exists_execution hvalid hok htwo 0 (by rwa [Nat.zero_mul, Nat.add_zero])
  rw [Nat.zero_mul, Nat.add_zero] at hchunk
  rw [← hchunk] at hcounted hclean hne
  rw [← hsize] at hcounted htwo hdrawn
  have hstep := iteration_copies hvalid hok hcounted htwo hdrawn hclean hne
  rw [hsize] at hstep
  have hcopy := hright.proper _ _ (.snoc hrun hstep) _ (List.mem_append_right _ List.mem_cons_self)
  -- The byte after the region would be in the last chunk.
  have hbefore := (lt_chunkCount_iff hvalid).mp hlastCounted
  rw [← startOf_eq hvalid] at hbefore
  have hstop := hvalid.stop
  have hlt := stop_sub_startOf_lt hvalid hlast hend hshort
  have hlimit : (opts.stop - startOf opts last).toNat < fullLimit opts file.length s.chunk last := by
    have hapart := @startOf_lt opts hvalid s.chunk last (by omega)
    have hspec := sizeOf_spec hvalid hcounted
    have hregion := regionEnd_eq hvalid s.file.length
    have hmax := hvalid.chunkSize_le
    have hoff : offMax = 2 ^ 63 - 1 := rfl
    rw [fullLimit, ← hsize, clampedSize_eq hvalid hcounted, if_pos (by omega),
      sizeT_natCast (by omega)]
    omega
  have hread := (hcopy.read _ hlimit).2.1
  change ((startOf opts last + (opts.stop - startOf opts last).toNat : ℕ) : ℤ) < opts.stop at hread
  omega

section Example

/-- `--start 0 --end 10 -c 4 -m 3` -/
def partialLast : Opts := ⟨0, 10, 4, 0, 3, 1⟩

/-- Twelve zero bytes. -/
def twelveBytes : Bytes := List.replicate 12 0

/-- `--start 0 --end 8 -c 4 -m 2` -/
def wholeChunks : Opts := ⟨0, 8, 4, 0, 2, 1⟩

end Example

end Jepsen.Resources.CorruptFile.Copy
