/-
# Restoring what was snapshotted

Both modes walk the same chunks. The snapshot of a chunk ends `chunk_size` bytes
after the chunk starts, but the restore adds `chunk_size` to where the last chunk
ended, which begins at 0. The two ends agree on every affected chunk only for some
options, and exactly those restore every file.
-/

import Jepsen.Resources.CorruptFile

namespace Jepsen.Resources.CorruptFile

open Jepsen.Library Jepsen.Library.ByteRange

/-! ## Offsets -/

/-- An offset that fits is kept, and one that is a little too large wraps. -/
theorem offT_cases {x : ℤ} (hx : 0 ≤ x) (hle : x ≤ 2 * offMax) :
    x ≤ offMax ∧ offT x = x ∨ offMax < x ∧ offT x = x - 2 ^ 64 := by
  unfold offMax at *
  unfold offT
  rw [Int.bmod_def]
  by_cases hfits : x ≤ 2 ^ 63 - 1
  · left
    refine ⟨hfits, ?_⟩
    rw [Int.emod_eq_of_lt (by omega) (by norm_num; omega), if_pos (by norm_num; omega)]
  · right
    refine ⟨by omega, ?_⟩
    rw [Int.emod_eq_of_lt (by omega) (by norm_num; omega), if_neg (by norm_num; omega)]
    norm_num

theorem offT_eq_self {x : ℤ} (hx : 0 ≤ x) (hle : x ≤ offMax) : offT x = x := by
  rcases offT_cases hx (by unfold offMax at *; omega) with ⟨-, heq⟩ | ⟨hlt, -⟩
  · exact heq
  · omega

/-- Validated options, as numbers. -/
structure Valid (opts : Opts) : Prop where
  start : 0 ≤ opts.start
  le : opts.start ≤ opts.stop
  stop : opts.stop ≤ offMax
  chunkSize : 0 < opts.chunkSize
  chunkSize_le : opts.chunkSize ≤ offMax
  index : opts.index < opts.mod

theorem valid_of_validateOpts {opts : Opts} (htyped : opts.Typed)
    (hvalid : validateOpts opts = .ok) : Valid opts := by
  unfold validateOpts at hvalid
  repeat' split at hvalid
  all_goals first
    | exact ⟨by omega, by omega, by omega, by omega, htyped.chunkSize.2, by omega⟩
    | cases hvalid

section

variable {opts : Opts} {fileSize : ℕ}

/-- A chunk is counted if it starts within the region and the file. -/
theorem lt_chunkCount_iff (hvalid : Valid opts) {k : ℕ} :
    k < chunkCount opts fileSize ↔
      opts.start + k * opts.chunkSize < opts.stop ∧ opts.start + k * opts.chunkSize < fileSize := by
  have hpos := hvalid.chunkSize
  have hnonneg : 0 ≤ (k : ℤ) * opts.chunkSize := by positivity
  have hle := hvalid.le
  unfold chunkCount
  simp only
  generalize hstop : (if (fileSize : ℤ) < opts.stop then (fileSize : ℤ) else opts.stop) = stop
  have hmin : ∀ x : ℤ, x < stop ↔ x < opts.stop ∧ x < fileSize := by
    intro x
    rw [← hstop]
    split <;> omega
  rw [← hmin]
  split
  · omega
  · have hregion : 0 ≤ stop - opts.start := by omega
    have hdiv := Int.emod_add_mul_ediv (stop - opts.start) opts.chunkSize
    have hmodNonneg := Int.emod_nonneg (stop - opts.start) hpos.ne'
    have hmodLt := Int.emod_lt_of_pos (stop - opts.start) hpos
    generalize (stop - opts.start) / opts.chunkSize = q at *
    generalize (stop - opts.start) % opts.chunkSize = r at *
    have hq : 0 ≤ q := by
      by_contra hneg
      have : opts.chunkSize * q ≤ opts.chunkSize * (-1) :=
        mul_le_mul_of_nonneg_left (by omega) hpos.le
      omega
    have hcompare : ∀ n : ℤ, n ≤ (k : ℤ) ↔ opts.chunkSize * n ≤ k * opts.chunkSize := by
      intro n
      rw [mul_comm (k : ℤ), mul_le_mul_iff_right₀ hpos]
    by_cases hr : r = 0
    · rw [if_neg (not_not.mpr hr)]
      have h := hcompare q
      omega
    · rw [if_pos hr]
      have h := hcompare (q + 1)
      have h' := hcompare q
      rw [mul_add, mul_one] at h
      constructor
      · intro hlt
        have hqk : (k : ℤ) ≤ q := by omega
        have hmul : (k : ℤ) * opts.chunkSize ≤ q * opts.chunkSize :=
          mul_le_mul_of_nonneg_right hqk hpos.le
        rw [mul_comm q] at hmul
        omega
      · intro hlt
        by_contra hge
        have hqk : q + 1 ≤ (k : ℤ) := by omega
        have := h.mp hqk
        omega

/-- The offset of a chunk that is counted does not wrap. -/
theorem chunkOffset_eq (hvalid : Valid opts) {k : ℕ} (hk : k < chunkCount opts fileSize) :
    chunkOffset opts k = opts.start + k * opts.chunkSize := by
  obtain ⟨hstop, -⟩ := (lt_chunkCount_iff hvalid).mp hk
  have hnonneg : 0 ≤ (k : ℤ) * opts.chunkSize := by
    have := hvalid.chunkSize
    positivity
  have hstart := hvalid.start
  have hmax := hvalid.stop
  unfold chunkOffset
  rw [offT_eq_self hnonneg (by omega), offT_eq_self (by omega) (by omega)]

theorem mem_forChunks {mod count : ℕ} (hmod : 0 < mod) (fuel chunk : ℕ)
    (hfuel : count ≤ chunk + fuel) {k : ℕ} :
    k ∈ forChunks mod count fuel chunk ↔ ∃ j, k = chunk + j * mod ∧ k < count := by
  induction fuel generalizing chunk with
  | zero =>
    simp only [forChunks, List.not_mem_nil, false_iff, not_exists, not_and]
    rintro j rfl
    have : 0 ≤ j * mod := Nat.zero_le _
    omega
  | succ fuel ih =>
    unfold forChunks
    by_cases hlt : chunk < count
    · rw [if_pos hlt, List.mem_cons, ih (chunk + mod) (by omega)]
      constructor
      · rintro (rfl | ⟨j, rfl, hk⟩)
        · exact ⟨0, by omega, hlt⟩
        · exact ⟨j + 1, by rw [Nat.add_mul]; omega, hk⟩
      · rintro ⟨j, rfl, hk⟩
        cases j with
        | zero => exact Or.inl (by omega)
        | succ j => exact Or.inr ⟨j, by rw [Nat.add_mul]; omega, hk⟩
    · rw [if_neg hlt]
      simp only [List.not_mem_nil, false_iff, not_exists, not_and]
      rintro j rfl
      omega

/-- The chunks are walked in steps of `mod`. -/
theorem getElem?_forChunks {mod count : ℕ} (fuel chunk j : ℕ) {k : ℕ}
    (hk : (forChunks mod count fuel chunk)[j]? = some k) : k = chunk + j * mod := by
  induction fuel generalizing chunk j with
  | zero => cases hk
  | succ fuel ih =>
    unfold forChunks at hk
    split at hk
    · cases j with
      | zero =>
        rw [List.getElem?_cons_zero] at hk
        rw [← Option.some.inj hk]
        omega
      | succ j =>
        rw [List.getElem?_cons_succ] at hk
        rw [ih _ _ hk, Nat.add_mul]
        omega
    · cases hk

theorem mem_affectedChunks (hvalid : Valid opts) {k : ℕ} :
    k ∈ affectedChunks opts fileSize ↔
      ∃ j, k = opts.index + j * opts.mod ∧ k < chunkCount opts fileSize :=
  mem_forChunks (by have := hvalid.index; omega) _ _ (by omega)

theorem lt_of_mem_affectedChunks (hvalid : Valid opts) {k : ℕ}
    (hk : k ∈ affectedChunks opts fileSize) : k < chunkCount opts fileSize := by
  obtain ⟨j, -, hlt⟩ := (mem_affectedChunks hvalid).mp hk
  exact hlt

/-! ## Where chunks end -/

/-- The end in the name of a chunk's snapshot. -/
def snapshotStop (opts : Opts) (k : ℕ) : ℤ :=
  clampStop opts (offT (chunkOffset opts k + opts.chunkSize))

/-- The end that the restore has computed after some iterations. -/
def restoreStop (opts : Opts) : ℕ → ℤ
  | 0 => 0
  | j + 1 => clampStop opts (offT (restoreStop opts j + opts.chunkSize))

/-- On every affected chunk the restore looks for the end that the snapshot named. -/
def StopsAgree (opts : Opts) (fileSize : ℕ) : Prop :=
  ∀ j, opts.index + j * opts.mod < chunkCount opts fileSize →
    restoreStop opts (j + 1) = snapshotStop opts (opts.index + j * opts.mod)

/-- The options for which the two ends agree: there is no affected chunk, or the chunks
are all of those from offset 0 on, or only the first of these; or there is only the
first chunk of a region that ends within `chunk_size` bytes of offset 0. -/
def Restorable (opts : Opts) (fileSize : ℕ) : Prop :=
  chunkCount opts fileSize ≤ opts.index ∨
    (opts.start = 0 ∧ opts.index = 0 ∧ (opts.mod = 1 ∨ chunkCount opts fileSize ≤ opts.mod)) ∨
    (opts.index = 0 ∧ opts.stop ≤ opts.chunkSize ∧ opts.start + opts.chunkSize ≤ offMax)

theorem stopsAgree_of_restorable (hvalid : Valid opts) (h : Restorable opts fileSize) :
    StopsAgree opts fileSize := by
  have hpos := hvalid.chunkSize
  have hmod : 0 < opts.mod := by
    have := hvalid.index
    omega
  intro j hj
  rcases h with hnone | ⟨hstart, hindex, hmod' | hfew⟩ | ⟨hindex, hstop, hfits⟩
  · have : 0 ≤ j * opts.mod := Nat.zero_le _
    omega
  · -- Every chunk from offset 0 on ends where the next one starts.
    have hends : ∀ j : ℕ, j < chunkCount opts fileSize → restoreStop opts j = j * opts.chunkSize := by
      intro j
      induction j with
      | zero => exact fun _ => by simp [restoreStop]
      | succ j ih =>
        intro hlt
        obtain ⟨hin, -⟩ := (lt_chunkCount_iff hvalid).mp hlt
        have hmax := hvalid.stop
        rw [hstart] at hin
        have hsum : (j : ℤ) * opts.chunkSize + opts.chunkSize = (j + 1 : ℕ) * opts.chunkSize := by
          push_cast
          ring
        rw [restoreStop, ih (by omega), hsum,
          offT_eq_self (by positivity) (by omega), clampStop, if_neg (by omega)]
    rw [hindex, hmod'] at hj ⊢
    have hj' : j < chunkCount opts fileSize := by omega
    rw [restoreStop, hends j hj', snapshotStop, show 0 + j * 1 = j by omega,
      chunkOffset_eq hvalid hj', hstart, zero_add]
  · have hzero : j = 0 := by
      by_contra hne
      have : opts.mod ≤ j * opts.mod := Nat.le_mul_of_pos_left _ (Nat.pos_of_ne_zero hne)
      omega
    subst hzero
    rw [Nat.zero_mul] at hj ⊢
    rw [restoreStop, restoreStop, snapshotStop, chunkOffset_eq hvalid hj, hstart, hindex]
    simp
  · have hzero : j = 0 := by
      by_contra hne
      have hone : opts.mod ≤ j * opts.mod := Nat.le_mul_of_pos_left _ (Nat.pos_of_ne_zero hne)
      have hlt : 1 < chunkCount opts fileSize ∨ 1 = opts.index + j * opts.mod := by omega
      obtain ⟨hin, -⟩ := (lt_chunkCount_iff hvalid).mp hj
      have hmul : opts.chunkSize ≤ ((opts.index + j * opts.mod : ℕ) : ℤ) * opts.chunkSize := by
        apply le_mul_of_one_le_left hpos.le
        have : 1 ≤ opts.index + j * opts.mod := by omega
        exact_mod_cast this
      have := hvalid.start
      omega
    subst hzero
    rw [Nat.zero_mul] at hj ⊢
    have hstart := hvalid.start
    have hmax := hvalid.chunkSize_le
    rw [restoreStop, restoreStop, snapshotStop, chunkOffset_eq hvalid hj, hindex, Nat.add_zero,
      Nat.cast_zero, zero_mul, add_zero, zero_add, offT_eq_self hpos.le hmax,
      offT_eq_self (by omega) hfits]
    unfold clampStop
    split <;> split <;> omega

/-- The end in a snapshot's name: past the largest offset it is negative. -/
theorem snapshotStop_cases (hvalid : Valid opts) {k : ℕ} (hk : k < chunkCount opts fileSize) :
    (opts.start + k * opts.chunkSize + opts.chunkSize ≤ offMax ∧
      snapshotStop opts k = min opts.stop (opts.start + k * opts.chunkSize + opts.chunkSize)) ∨
    (offMax < opts.start + k * opts.chunkSize + opts.chunkSize ∧ snapshotStop opts k =
      opts.start + k * opts.chunkSize + opts.chunkSize - 2 ^ 64) := by
  obtain ⟨hstop, -⟩ := (lt_chunkCount_iff hvalid).mp hk
  have hnonneg : 0 ≤ (k : ℤ) * opts.chunkSize := by
    have := hvalid.chunkSize
    positivity
  have hstart := hvalid.start
  have hpos := hvalid.chunkSize
  have hmax := hvalid.stop
  have hsize := hvalid.chunkSize_le
  have hle := hvalid.le
  rw [snapshotStop, chunkOffset_eq hvalid hk]
  rcases offT_cases (x := opts.start + k * opts.chunkSize + opts.chunkSize) (by omega)
    (by omega) with ⟨hfits, heq⟩ | ⟨hlt, heq⟩
  · left
    refine ⟨hfits, ?_⟩
    rw [heq, clampStop]
    split <;> omega
  · right
    refine ⟨hlt, ?_⟩
    rw [heq, clampStop, if_neg]
    unfold offMax at *
    omega

theorem restorable_of_stopsAgree (hvalid : Valid opts) (h : StopsAgree opts fileSize) :
    Restorable opts fileSize := by
  by_contra hnot
  unfold Restorable at hnot
  push Not at hnot
  obtain ⟨hcount, hzero, hfirst⟩ := hnot
  have hpos := hvalid.chunkSize
  have hstart := hvalid.start
  have hmax := hvalid.stop
  have hsize := hvalid.chunkSize_le
  have hle := hvalid.le
  have hone : restoreStop opts 1 = min opts.stop opts.chunkSize := by
    rw [restoreStop, restoreStop, zero_add, offT_eq_self hpos.le hsize, clampStop]
    split <;> omega
  have hagree := h 0 (by omega)
  simp only [Nat.zero_mul, Nat.add_zero, Nat.zero_add, hone] at hagree
  obtain ⟨hstop, -⟩ := (lt_chunkCount_iff hvalid).mp hcount
  have hindexMul : 0 ≤ (opts.index : ℤ) * opts.chunkSize := by positivity
  have hindexPos : opts.index ≠ 0 → opts.chunkSize ≤ (opts.index : ℤ) * opts.chunkSize := by
    intro hne
    apply le_mul_of_one_le_left hpos.le
    have : 1 ≤ opts.index := Nat.pos_of_ne_zero hne
    exact_mod_cast this
  rcases snapshotStop_cases hvalid hcount with ⟨hfits, heq⟩ | ⟨hover, heq⟩
  · rw [heq] at hagree
    by_cases hsmall : opts.stop ≤ opts.chunkSize
    · -- The region ends within one chunk, which is the only one.
      have hindex : opts.index = 0 := by
        by_contra hne
        have := hindexPos hne
        omega
      rw [hindex, Nat.cast_zero, zero_mul, add_zero] at hfits
      have := hfirst hindex hsmall
      omega
    · have hindex : opts.index = 0 := by
        by_contra hne
        have := hindexPos hne
        omega
      rw [hindex, Nat.cast_zero, zero_mul, add_zero] at hagree
      have hstart' : opts.start = 0 := by omega
      obtain ⟨hmod, hmany⟩ := hzero hstart' hindex
      -- The second affected chunk lies two chunks or more after the first.
      have hmodTwo : 2 ≤ opts.mod := by
        have := hvalid.index
        omega
      have hagree' := h 1 (by omega)
      rw [hindex, Nat.one_mul, Nat.zero_add] at hagree'
      obtain ⟨hstop', -⟩ := (lt_chunkCount_iff hvalid).mp hmany
      have hmul : 2 * opts.chunkSize ≤ (opts.mod : ℤ) * opts.chunkSize :=
        mul_le_mul_of_nonneg_right (by exact_mod_cast hmodTwo) hpos.le
      have htwo : restoreStop opts 2 = 2 * opts.chunkSize := by
        rw [show restoreStop opts 2 = clampStop opts (offT (restoreStop opts 1 + opts.chunkSize))
          from rfl, hone, min_eq_right (by omega), offT_eq_self (by omega) (by omega), clampStop,
          if_neg (by omega)]
        omega
      rw [show (1 + 1 : ℕ) = 2 from rfl, htwo] at hagree'
      rcases snapshotStop_cases hvalid hmany with ⟨-, heq'⟩ | ⟨hover', heq'⟩
      · rw [heq'] at hagree'
        omega
      · rw [heq'] at hagree'
        unfold offMax at *
        omega
  · rw [heq] at hagree
    unfold offMax at *
    omega

theorem stopsAgree_iff (hvalid : Valid opts) :
    StopsAgree opts fileSize ↔ Restorable opts fileSize :=
  ⟨restorable_of_stopsAgree hvalid, stopsAgree_of_restorable hvalid⟩

end

/-! ## Snapshots and what is written back -/

/-- The path of a chunk's snapshot. -/
def snapshotPath (opts : Opts) (k : ℕ) : SnapshotPath := ⟨chunkOffset opts k, snapshotStop opts k⟩

/-- How many bytes a chunk's snapshot asks for. -/
def snapshotLength (opts : Opts) (k : ℕ) : ℕ :=
  sizeT (offT (snapshotStop opts k - chunkOffset opts k))

/-- What is written to a snapshot. -/
def content (file : Bytes) (path : SnapshotPath) : Bytes :=
  copyRange file path.start.toNat (sizeT (offT (path.stop - path.start)))

section

variable {opts : Opts} {file overwritten : Bytes} {snapshots : Snapshots}

theorem lookup_corruptSnapshot (path : SnapshotPath) :
    (corruptSnapshot opts file snapshots).lookup path =
      if path ∈ (affectedChunks opts file.length).map (snapshotPath opts)
        then some (content file path) else snapshots.lookup path := by
  unfold corruptSnapshot
  induction affectedChunks opts file.length generalizing snapshots with
  | nil => rfl
  | cons k ks ih =>
    have hstep : snapshotChunk opts file snapshots k =
        snapshots.insert (snapshotPath opts k) (content file (snapshotPath opts k)) := rfl
    rw [List.foldl_cons, ih, hstep, Assoc.lookup_insert_eq_ite]
    by_cases hmem : path ∈ ks.map (snapshotPath opts)
    · simp [hmem]
    · by_cases heq : path = snapshotPath opts k
      · subst heq
        simp [hmem]
      · simp [hmem, heq]

/-- A snapshot asks for the rest of the region, if that is less than a chunk. -/
theorem snapshotLength_cases (hvalid : Valid opts) {fileSize k : ℕ}
    (hk : k < chunkCount opts fileSize) :
    (snapshotLength opts k : ℤ) =
        min opts.stop (opts.start + k * opts.chunkSize + opts.chunkSize) -
          (opts.start + k * opts.chunkSize) ∨
      offMax < opts.start + k * opts.chunkSize + opts.chunkSize ∧
        (snapshotLength opts k : ℤ) = opts.chunkSize := by
  obtain ⟨hstop, -⟩ := (lt_chunkCount_iff hvalid).mp hk
  have hnonneg : 0 ≤ (k : ℤ) * opts.chunkSize := by
    have := hvalid.chunkSize
    positivity
  have hstart := hvalid.start
  have hpos := hvalid.chunkSize
  have hmax := hvalid.stop
  have hsize := hvalid.chunkSize_le
  unfold snapshotLength
  rw [chunkOffset_eq hvalid hk]
  have hsizeT : ∀ x : ℤ, 0 ≤ x → x ≤ offMax → (sizeT x : ℤ) = x := by
    intro x hx hle
    unfold offMax at hle
    rw [sizeT, Int.emod_eq_of_lt hx (by omega), Int.toNat_of_nonneg hx]
  rcases snapshotStop_cases hvalid hk with ⟨hfits, heq⟩ | ⟨hover, heq⟩
  · left
    rw [heq, offT_eq_self (by omega) (by omega), hsizeT _ (by omega) (by omega)]
  · right
    refine ⟨hover, ?_⟩
    have hwrap : offT (opts.chunkSize - 2 ^ 64) = opts.chunkSize := by
      unfold offMax at hsize
      have hmod : (opts.chunkSize - 2 ^ 64) % (2 ^ 64 : ℕ) = opts.chunkSize := by
        norm_num
        omega
      rw [offT, Int.bmod_def, hmod, if_pos]
      norm_num
      omega
    rw [heq, show opts.start + k * opts.chunkSize + opts.chunkSize - 2 ^ 64 -
      (opts.start + k * opts.chunkSize) = opts.chunkSize - 2 ^ 64 by ring, hwrap,
      hsizeT _ hpos.le hsize]

/-- The bytes that the snapshot of a chunk has, as far as the file goes. -/
def InSnapshot (opts : Opts) (k i : ℕ) : Prop :=
  (chunkOffset opts k).toNat ≤ i ∧ i < (chunkOffset opts k).toNat + snapshotLength opts k

instance (opts : Opts) (k i : ℕ) : Decidable (InSnapshot opts k i) :=
  inferInstanceAs (Decidable (_ ∧ _))

/-- The byte is in a chunk whose two ends agree. -/
def Matched (opts : Opts) (ks : List ℕ) (i : ℕ) : Prop :=
  ∃ j k, ks[j]? = some k ∧ restoreStop opts (j + 1) = snapshotStop opts k ∧ InSnapshot opts k i

/-- The file after some iterations of the restore: the chunks whose ends agree are as
they were. -/
structure Restored (opts : Opts) (file overwritten : Bytes) (ks : List ℕ) (st : RestoreState) :
    Prop where
  stop : st.stop = restoreStop opts ks.length
  length : st.file.length = file.length
  back : ∀ i, Matched opts ks i → st.file[i]? = file[i]?
  kept : ∀ i, ¬ Matched opts ks i → st.file[i]? = overwritten[i]?

/-- The snapshots that the restore finds are those whose ends agree. -/
structure Found (opts : Opts) (file : Bytes) (snapshots : Snapshots) (ks : List ℕ) : Prop where
  agree : ∀ j k, ks[j]? = some k → restoreStop opts (j + 1) = snapshotStop opts k →
    snapshots.lookup ⟨chunkOffset opts k, restoreStop opts (j + 1)⟩ =
      some (content file (snapshotPath opts k))
  differ : ∀ j k, ks[j]? = some k → restoreStop opts (j + 1) ≠ snapshotStop opts k →
    snapshots.lookup ⟨chunkOffset opts k, restoreStop opts (j + 1)⟩ = none

theorem matched_snoc {ks : List ℕ} {k i : ℕ} :
    Matched opts (ks ++ [k]) i ↔ Matched opts ks i ∨
      restoreStop opts (ks.length + 1) = snapshotStop opts k ∧ InSnapshot opts k i := by
  constructor
  · rintro ⟨j, k', hk', hstop, hin⟩
    by_cases hj : j < ks.length
    · rw [List.getElem?_append_left hj] at hk'
      exact Or.inl ⟨j, k', hk', hstop, hin⟩
    · have hj' : j = ks.length := by
        have := (List.getElem?_eq_some_iff.mp hk').1
        rw [List.length_append, List.length_singleton] at this
        omega
      subst hj'
      rw [List.getElem?_append_right le_rfl, Nat.sub_self] at hk'
      obtain rfl := Option.some.inj hk'
      exact Or.inr ⟨hstop, hin⟩
  · rintro (⟨j, k', hk', hstop, hin⟩ | ⟨hstop, hin⟩)
    · have hj := (List.getElem?_eq_some_iff.mp hk').1
      exact ⟨j, k', by rw [List.getElem?_append_left hj]; exact hk', hstop, hin⟩
    · exact ⟨ks.length, k, by simp, hstop, hin⟩

/-- One iteration of the restore. -/
theorem Restored.step {draw : ℕ → Draw} {ks rest : List ℕ} {k : ℕ} {st : RestoreState}
    (hrestored : Restored opts file overwritten ks st) (hprobability : opts.probability = 1)
    (hfound : Found opts file snapshots (ks ++ k :: rest))
    (hoffset : (chunkOffset opts k).toNat ≤ file.length) :
    Restored opts file overwritten (ks ++ [k]) (restoreChunk opts draw snapshots st k) := by
  have hk : (ks ++ k :: rest)[ks.length]? = some k := by simp
  have hstop : clampStop opts (offT (st.stop + opts.chunkSize)) =
      restoreStop opts (ks.length + 1) := by
    rw [restoreStop, hrestored.stop]
  have hdraw : ¬ opts.probability < (draw st.draws).1 := by
    rw [hprobability]
    exact not_lt.mpr (draw st.draws).2.2.le
  have hlength : (ks ++ [k]).length = ks.length + 1 := by simp
  unfold restoreChunk
  rw [if_neg hdraw, hstop]
  by_cases hagree : restoreStop opts (ks.length + 1) = snapshotStop opts k
  · -- The chunk is written back.
    have hcopy : copyRange (content file (snapshotPath opts k)) 0 (snapshotLength opts k) =
        copyRange file (chunkOffset opts k).toNat (snapshotLength opts k) :=
      copyRange_copyRange file _ _
    have hoffset' : (chunkOffset opts k).toNat ≤ st.file.length := by
      rw [hrestored.length]
      exact hoffset
    have hbytes := @getElem?_writeAt_copyRange UInt8 st.file file (chunkOffset opts k).toNat
      (snapshotLength opts k) hrestored.length hoffset'
    simp only [hfound.agree _ _ hk hagree]
    rw [hagree, ← snapshotLength, hcopy]
    refine ⟨by rw [hlength, hagree], ?_, fun i hi => ?_, fun i hi => ?_⟩
    · exact (length_writeAt_copyRange hrestored.length hoffset').trans hrestored.length
    · dsimp only
      rw [hbytes]
      split
      · rfl
      · rename_i hout
        rcases matched_snoc.mp hi with hbefore | ⟨-, hin⟩
        · exact hrestored.back i hbefore
        · exact absurd hin hout
    · rw [matched_snoc] at hi
      push Not at hi
      dsimp only
      rw [hbytes, if_neg (show ¬ (_ ∧ _) from hi.2 hagree)]
      exact hrestored.kept i hi.1
  · simp only [hfound.differ _ _ hk hagree]
    refine ⟨by rw [hlength], hrestored.length, fun i hi => ?_, fun i hi => ?_⟩
    · rcases matched_snoc.mp hi with hbefore | ⟨hstop', -⟩
      · exact hrestored.back i hbefore
      · exact absurd hstop' hagree
    · exact hrestored.kept i fun hbefore => hi (matched_snoc.mpr (Or.inl hbefore))

/-- The whole restore. -/
theorem restored_foldl {draw : ℕ → Draw} (hprobability : opts.probability = 1)
    (hlength : overwritten.length = file.length) (ks rest : List ℕ)
    (hfound : Found opts file snapshots (ks ++ rest))
    (hoffset : ∀ k ∈ ks, (chunkOffset opts k).toNat ≤ file.length) :
    Restored opts file overwritten ks
      (ks.foldl (restoreChunk opts draw snapshots) ⟨overwritten, 0, 0⟩) := by
  induction ks using List.reverseRecOn generalizing rest with
  | nil =>
    refine ⟨rfl, hlength, ?_, fun i _ => rfl⟩
    rintro i ⟨j, k, hk, -⟩
    cases hk
  | append_singleton ks k ih =>
    rw [List.append_assoc] at hfound
    rw [List.foldl_append]
    exact (ih _ hfound fun k' hk' => hoffset k' (List.mem_append_left _ hk')).step hprobability
      hfound (hoffset k (List.mem_append_right _ (List.mem_singleton_self k)))

end

/-! ## The round trip -/

/-- The byte is in an affected chunk. -/
def Affected (opts : Opts) (fileSize i : ℕ) : Prop :=
  i < fileSize ∧ (i : ℤ) < opts.stop ∧ ∃ k ∈ affectedChunks opts fileSize,
    opts.start + k * opts.chunkSize ≤ i ∧ i < opts.start + k * opts.chunkSize + opts.chunkSize

/-- After a snapshot and after overwriting affected chunks, whatever was snapshotted
before, a restore leaves every byte of the affected chunks as it was and changes no
other. -/
def RoundTrips (opts : Opts) (file : Bytes) : Prop :=
  ∀ (snapshots : Snapshots) (draw : ℕ → Draw) (overwritten : Bytes),
    overwritten.length = file.length →
    (∀ i, ¬ Affected opts file.length i → overwritten[i]? = file[i]?) →
    ∀ i, let restored := corruptRestore opts draw (corruptSnapshot opts file snapshots) overwritten
      (Affected opts file.length i → restored[i]? = file[i]?) ∧
      (¬ Affected opts file.length i → restored[i]? = overwritten[i]?)

section

variable {opts : Opts} {file : Bytes}

theorem toNat_chunkOffset (hvalid : Valid opts) {fileSize k : ℕ}
    (hk : k ∈ affectedChunks opts fileSize) :
    ((chunkOffset opts k).toNat : ℤ) = opts.start + k * opts.chunkSize ∧
      (chunkOffset opts k).toNat < fileSize := by
  have hlt := lt_of_mem_affectedChunks hvalid hk
  obtain ⟨-, hsize⟩ := (lt_chunkCount_iff hvalid).mp hlt
  have hnonneg : 0 ≤ (k : ℤ) * opts.chunkSize := by
    have := hvalid.chunkSize
    positivity
  have hstart := hvalid.start
  rw [chunkOffset_eq hvalid hlt]
  constructor
  · exact Int.toNat_of_nonneg (by omega)
  · omega

/-- Where the ends agree, the restore finds what was snapshotted. -/
theorem found_of_stopsAgree (hvalid : Valid opts) (hagree : StopsAgree opts file.length)
    (snapshots : Snapshots) :
    Found opts file (corruptSnapshot opts file snapshots) (affectedChunks opts file.length) := by
  have hstops : ∀ j k, (affectedChunks opts file.length)[j]? = some k →
      restoreStop opts (j + 1) = snapshotStop opts k := by
    intro j k hk
    have hlt := lt_of_mem_affectedChunks hvalid (List.mem_of_getElem? hk)
    obtain rfl := getElem?_forChunks _ _ _ hk
    exact hagree j hlt
  constructor
  · intro j k hk hstop
    rw [hstop, lookup_corruptSnapshot, if_pos]
    · rfl
    · exact List.mem_map.mpr ⟨k, List.mem_of_getElem? hk, rfl⟩
  · intro j k hk hne
    exact absurd (hstops j k hk) hne

/-- Without earlier snapshots, it finds nothing else. -/
theorem found_of_empty (hvalid : Valid opts) :
    Found opts file (corruptSnapshot opts file ∅) (affectedChunks opts file.length) := by
  constructor
  · intro j k hk hstop
    rw [hstop, lookup_corruptSnapshot, if_pos]
    · rfl
    · exact List.mem_map.mpr ⟨k, List.mem_of_getElem? hk, rfl⟩
  · intro j k hk hne
    rw [lookup_corruptSnapshot, if_neg]
    · exact AList.lookup_empty _
    · intro hmem
      obtain ⟨k', hk', hpath⟩ := List.mem_map.mp hmem
      injection hpath with hoffset hstop
      have hk := List.mem_of_getElem? hk
      rw [chunkOffset_eq hvalid (lt_of_mem_affectedChunks hvalid hk),
        chunkOffset_eq hvalid (lt_of_mem_affectedChunks hvalid hk')] at hoffset
      have hmul : (k' : ℤ) * opts.chunkSize = k * opts.chunkSize := by omega
      have heq := mul_right_cancel₀ hvalid.chunkSize.ne' hmul
      rw [Nat.cast_inj] at heq
      rw [heq] at hstop
      exact hne hstop.symm

theorem roundTrips_of_restorable (hvalid : Valid opts) (hprobability : opts.probability = 1)
    (hrestorable : Restorable opts file.length) : RoundTrips opts file := by
  have hagree := stopsAgree_of_restorable hvalid hrestorable
  intro snapshots draw overwritten hlength hothers i restored
  have hall := @restored_foldl opts file overwritten _ draw hprobability hlength
    (affectedChunks opts file.length) []
    (by rw [List.append_nil]; exact found_of_stopsAgree hvalid hagree snapshots)
    fun k hk => (toNat_chunkOffset hvalid hk).2.le
  have hrestored : restored = ((affectedChunks opts file.length).foldl
      (restoreChunk opts draw (corruptSnapshot opts file snapshots)) ⟨overwritten, 0, 0⟩).file := by
    change corruptRestore _ _ _ _ = _
    rw [corruptRestore, hlength]
  rw [hrestored]
  constructor
  · rintro ⟨hi, hstop, k, hk, hge, hlt⟩
    apply hall.back
    obtain ⟨j, hj, rfl⟩ := List.mem_iff_getElem.mp hk
    have hj' := List.getElem?_eq_getElem hj
    have hcount := lt_of_mem_affectedChunks hvalid hk
    refine ⟨j, _, hj', ?_, ?_⟩
    · have hk' := getElem?_forChunks _ _ _ hj'
      rw [hk'] at hcount ⊢
      exact hagree j hcount
    · obtain ⟨hoffset, -⟩ := toNat_chunkOffset hvalid hk
      unfold InSnapshot
      rcases snapshotLength_cases hvalid hcount with hlen | ⟨-, hlen⟩
      · constructor <;> omega
      · constructor <;> omega
  · intro hnot
    by_cases hmatched : Matched opts (affectedChunks opts file.length) i
    · rw [hall.back i hmatched, hothers i hnot]
    · exact hall.kept i hmatched

/-- A chunk whose ends differ is not restored. -/
theorem restorable_of_roundTrips (hvalid : Valid opts) (hprobability : opts.probability = 1)
    (htrips : RoundTrips opts file) : Restorable opts file.length := by
  apply restorable_of_stopsAgree hvalid
  intro j hj
  by_contra hne
  set k := opts.index + j * opts.mod with hkdef
  have hk : k ∈ affectedChunks opts file.length := (mem_affectedChunks hvalid).mpr ⟨j, rfl, hj⟩
  obtain ⟨hoffset, hlt⟩ := toNat_chunkOffset hvalid hk
  obtain ⟨hstop, -⟩ := (lt_chunkCount_iff hvalid).mp hj
  have hpos := hvalid.chunkSize
  -- Overwrite the first byte of the chunk.
  set i := (chunkOffset opts k).toNat with hi
  have haffected : Affected opts file.length i :=
    ⟨hlt, by omega, k, hk, by omega, by omega⟩
  have hbytes : Nontrivial UInt8 := ⟨0, 1, by decide⟩
  obtain ⟨other, hother⟩ := exists_ne (file.get ⟨i, hlt⟩)
  have hothers : ∀ i', ¬ Affected opts file.length i' → (file.set i other)[i']? = file[i']? := by
    intro i' hi'
    apply List.getElem?_set_ne
    rintro rfl
    exact hi' haffected
  have hoverwritten := htrips ∅ (fun _ => ⟨0, le_rfl, one_pos⟩) (file.set i other)
    (List.length_set ..) hothers i
  have hback := hoverwritten.1 haffected
  have hall := @restored_foldl opts file (file.set i other) _ (fun _ => ⟨0, le_rfl, one_pos⟩)
    hprobability (List.length_set ..)
    (affectedChunks opts file.length) [] (by rw [List.append_nil]; exact found_of_empty hvalid)
    fun k hk => (toNat_chunkOffset hvalid hk).2.le
  rw [corruptRestore, List.length_set, hall.kept] at hback
  · rw [List.getElem?_set_self hlt, List.getElem?_eq_getElem hlt] at hback
    exact hother (Option.some.inj hback)
  · rintro ⟨j', k', hk', hstop', hge, hle⟩
    have hmem := List.mem_of_getElem? hk'
    have hcount := lt_of_mem_affectedChunks hvalid hmem
    obtain ⟨hoffset', -⟩ := toNat_chunkOffset hvalid hmem
    have hlen : (snapshotLength opts k' : ℤ) ≤ opts.chunkSize := by
      rcases snapshotLength_cases hvalid hcount with hlen | ⟨-, hlen⟩
      · omega
      · omega
    -- Chunks do not overlap, so this is the chunk whose ends differ.
    have heq : k' = k := by
      have hmul : (k' : ℤ) * opts.chunkSize ≤ k * opts.chunkSize := by omega
      have hmul' : (k : ℤ) * opts.chunkSize < (k' + 1 : ℕ) * opts.chunkSize := by
        push_cast
        rw [add_mul]
        omega
      have hle' := le_of_mul_le_mul_right hmul hpos
      have hlt' := lt_of_mul_lt_mul_right hmul' hpos.le
      have hle'' : k' ≤ k := by exact_mod_cast hle'
      have hlt'' : k < k' + 1 := by exact_mod_cast hlt'
      omega
    have hj' := getElem?_forChunks _ _ _ hk'
    rw [heq, hkdef] at hj'
    have hmod : 0 < opts.mod := by
      have := hvalid.index
      omega
    have hjj : j = j' := Nat.eq_of_mul_eq_mul_right hmod (by omega)
    subst hjj
    rw [heq] at hstop'
    exact hne hstop'

/-- With probability 1, a snapshot and a restore with the same options bring back a
file exactly if the options are restorable. -/
theorem roundTrips_iff (htyped : opts.Typed) (hvalid : validateOpts opts = .ok)
    (hprobability : opts.probability = 1) :
    RoundTrips opts file ↔ Restorable opts file.length := by
  have hvalid := valid_of_validateOpts htyped hvalid
  exact ⟨restorable_of_roundTrips hvalid hprobability,
    roundTrips_of_restorable hvalid hprobability⟩

end

/-- All chunks of two bytes from some offset on. -/
def chunksFrom (start : ℤ) : Opts := ⟨start, offMax, 2, 0, 1, 1⟩

theorem typed_chunksFrom {start : ℤ} (hstart : 0 ≤ start) (hle : start ≤ offMax) :
    (chunksFrom start).Typed := by
  unfold offMax at *
  refine ⟨⟨?_, hle⟩, ⟨?_, le_rfl⟩, ⟨?_, ?_⟩, ?_, ?_⟩ <;> norm_num [chunksFrom, offMax]
  omega

theorem roundTrips_chunksFrom_zero : RoundTrips (chunksFrom 0) [1, 2, 3, 4, 5] :=
  (roundTrips_iff (typed_chunksFrom le_rfl (by norm_num [offMax])) (by rfl) rfl).mpr
    (Or.inr (Or.inl ⟨rfl, rfl, Or.inl rfl⟩))

/-- From offset 1 on, the restore of five bytes looks for a snapshot that ends at 2, and
an overwritten byte stays as it is. -/
theorem chunksFrom_one_not_roundTrips :
    validateOpts (chunksFrom 1) = .ok ∧ ¬ RoundTrips (chunksFrom 1) [1, 2, 3, 4, 5] := by
  have hvalid : Valid (chunksFrom 1) :=
    valid_of_validateOpts (typed_chunksFrom one_pos.le (by norm_num [offMax])) rfl
  refine ⟨rfl, fun htrips => ?_⟩
  rcases restorable_of_roundTrips hvalid rfl htrips with hnone | ⟨hstart, -⟩ | ⟨-, hstop, -⟩
  · exact absurd hnone (by decide)
  · exact absurd hstart (by decide)
  · exact absurd hstop (by decide)

end Jepsen.Resources.CorruptFile
