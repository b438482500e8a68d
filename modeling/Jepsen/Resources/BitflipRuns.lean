/-
# Which bits are flipped

The loops are followed for as long as no offset wraps: they flip the bits at the drawn positions,
one after another. An offset can wrap where the next position is drawn, and at the end of the
last affected chunk. What happens there decides whether the flipped bits are the selected ones.
-/

import Jepsen.Resources.Bitflip

namespace Jepsen.Resources.CorruptFile.Bitflip

open Jepsen.Library Jepsen.Library.ByteRange

/-! ## Positions -/

section Positions

variable {opts : Opts} {gap : ℕ → Gap} {fileSize : ℕ}

theorem position_strictMono (gap : ℕ → Gap) : StrictMono (position gap) :=
  strictMono_nat_of_lt_succ fun k => by
    rw [position, distance]
    omega

theorem place_eq_none {p : ℕ} :
    place opts fileSize p = none ↔ (affectedBytes opts fileSize).length ≤ p / 8 := by
  rw [place, Option.map_eq_none_iff, List.getElem?_eq_none_iff]

theorem place_eq_some {p byte bit : ℕ} :
    place opts fileSize p = some (byte, bit) ↔
      (affectedBytes opts fileSize)[p / 8]? = some byte ∧ p % 8 = bit := by
  rw [place, Option.map_eq_some_iff]
  constructor
  · rintro ⟨byte', hbyte, heq⟩
    cases heq
    exact ⟨hbyte, rfl⟩
  · rintro ⟨hbyte, rfl⟩
    exact ⟨byte, hbyte, rfl⟩

theorem pairwise_forChunks {mod count : ℕ} (hmod : 0 < mod) (fuel chunk : ℕ) :
    (forChunks mod count fuel chunk).Pairwise (· < ·) := by
  induction fuel generalizing chunk with
  | zero => exact List.Pairwise.nil
  | succ fuel ih =>
    unfold forChunks
    split
    · refine List.Pairwise.cons (fun k hk => ?_) (ih _)
      obtain ⟨j, hj⟩ := List.getElem?_of_mem hk
      rw [getElem?_forChunks fuel _ j hj]
      omega
    · exact List.Pairwise.nil

/-- The affected bytes are in the order of the file. -/
theorem pairwise_affectedBytes (hvalid : Valid opts) :
    (affectedBytes opts fileSize).Pairwise (· < ·) := by
  have hmod : 0 < opts.mod := Nat.zero_lt_of_lt hvalid.index
  rw [affectedBytes, List.pairwise_flatMap]
  refine ⟨fun chunk _ => List.pairwise_lt_range', ?_⟩
  refine (pairwise_forChunks hmod _ _).imp fun hlt byte hbyte byte' hbyte' => ?_
  have hapart := startOf_lt hvalid hlt
  rw [mem_chunkBytes] at hbyte hbyte'
  omega

theorem affectedByte_of_mem (hvalid : Valid opts) {byte : ℕ}
    (hbyte : byte ∈ affectedBytes opts fileSize) : AffectedByte opts fileSize byte := by
  obtain ⟨chunk, hchunk, hbyte⟩ := List.mem_flatMap.mp hbyte
  exact affectedByte_of_mem_chunkBytes hvalid hchunk hbyte

theorem place_injective (hvalid : Valid opts) {p q : ℕ} {bit : ℕ × ℕ}
    (hp : place opts fileSize p = some bit) (hq : place opts fileSize q = some bit) : p = q := by
  obtain ⟨byte, bit⟩ := bit
  obtain ⟨hbyte, hbit⟩ := place_eq_some.mp hp
  obtain ⟨hbyte', hbit'⟩ := place_eq_some.mp hq
  have hnodup : (affectedBytes opts fileSize).Nodup :=
    (pairwise_affectedBytes hvalid).imp fun h => h.ne
  obtain ⟨hlt, -⟩ := List.getElem?_eq_some_iff.mp hbyte
  have hdiv : p / 8 = q / 8 := (List.getElem?_inj hlt hnodup).mp (hbyte.trans hbyte'.symm)
  omega

/-- Bytes that come first in the file come first among the affected ones. -/
theorem index_lt (hvalid : Valid opts) {i j byte byte' : ℕ}
    (hi : (affectedBytes opts fileSize)[i]? = some byte)
    (hj : (affectedBytes opts fileSize)[j]? = some byte') (hlt : byte < byte') : i < j := by
  obtain ⟨hilt, hbyte⟩ := List.getElem?_eq_some_iff.mp hi
  obtain ⟨hjlt, hbyte'⟩ := List.getElem?_eq_some_iff.mp hj
  have hpairwise := List.pairwise_iff_getElem.mp (@pairwise_affectedBytes opts fileSize hvalid)
  rcases Nat.lt_trichotomy i j with h | h | h
  · exact h
  · subst h
    omega
  · have := hpairwise j i hjlt hilt h
    omega

/-- A position in a chunk, some bits from where the chunk starts. -/
structure At (opts : Opts) (gap : ℕ → Gap) (fileSize k chunk rel : ℕ) : Prop where
  mem : chunk ∈ affectedChunks opts fileSize
  lt : rel / 8 < sizeOf opts fileSize chunk
  place_eq : place opts fileSize (position gap k) = some (startOf opts chunk + rel / 8, rel % 8)

theorem At.unique (hvalid : Valid opts) {k chunk rel chunk' rel' : ℕ}
    (h : At opts gap fileSize k chunk rel) (h' : At opts gap fileSize k chunk' rel') :
    chunk = chunk' ∧ rel = rel' := by
  have heq := Option.some.inj (h.place_eq.symm.trans h'.place_eq)
  rw [Prod.mk.injEq] at heq
  have hsize := (sizeOf_spec hvalid (lt_of_mem_affectedChunks hvalid h.mem)).2.2.2
  have hsize' := (sizeOf_spec hvalid (lt_of_mem_affectedChunks hvalid h'.mem)).2.2.2
  have hrel := h.lt
  have hrel' := h'.lt
  rcases Nat.lt_trichotomy chunk chunk' with hlt | rfl | hlt
  · have := startOf_lt hvalid hlt
    omega
  · exact ⟨rfl, by omega⟩
  · have := startOf_lt hvalid hlt
    omega

/-- Positions past the bytes of some chunks, and not past those of the next. -/
theorem at_of_lt {before after : List ℕ} {k chunk : ℕ}
    (hchunks : affectedChunks opts fileSize = before ++ chunk :: after)
    (hle : 8 * (before.flatMap (chunkBytes opts fileSize)).length ≤ position gap k)
    (hlt : (position gap k - 8 * (before.flatMap (chunkBytes opts fileSize)).length) / 8 <
      sizeOf opts fileSize chunk) :
    At opts gap fileSize k chunk
      (position gap k - 8 * (before.flatMap (chunkBytes opts fileSize)).length) := by
  generalize hbefore : (before.flatMap (chunkBytes opts fileSize)).length = S at *
  refine ⟨hchunks ▸ List.mem_append_right _ List.mem_cons_self, hlt, ?_⟩
  rw [place_eq_some, affectedBytes, hchunks, List.flatMap_append, List.flatMap_cons,
    List.getElem?_append_right (by omega), hbefore, List.getElem?_append_left (by
      change _ < sizeOf opts fileSize chunk
      omega), chunkBytes, List.getElem?_range' (by
      rw [← sizeOf_eq]
      omega)]
  refine ⟨?_, by omega⟩
  rw [Option.some.injEq]
  omega

/-- The bits at the first positions. -/
def flipsTo (opts : Opts) (gap : ℕ → Gap) (fileSize k : ℕ) : List (ℕ × ℕ) :=
  (List.range k).filterMap fun m => place opts fileSize (position gap m)

theorem flipsTo_succ {k : ℕ} {bit : ℕ × ℕ}
    (hplace : place opts fileSize (position gap k) = some bit) :
    flipsTo opts gap fileSize (k + 1) = flipsTo opts gap fileSize k ++ [bit] := by
  have hlast : [k].filterMap (fun m => place opts fileSize (position gap m)) = [bit] :=
    List.filterMap_cons_some hplace
  rw [flipsTo, List.range_succ, List.filterMap_append, hlast, flipsTo]

theorem mem_flipsTo {k : ℕ} {bit : ℕ × ℕ} :
    bit ∈ flipsTo opts gap fileSize k ↔
      ∃ m < k, place opts fileSize (position gap m) = some bit := by
  rw [flipsTo, List.mem_filterMap]
  simp only [List.mem_range]

theorem nodup_flipsTo (hvalid : Valid opts) (k : ℕ) : (flipsTo opts gap fileSize k).Nodup :=
  List.Nodup.filterMap (fun _ _ _ hm hm' => (position_strictMono gap).injective
    (place_injective hvalid hm hm')) List.nodup_range

/-- Past a position that is past the affected bytes there is nothing to flip. -/
theorem place_none_of_le {p q : ℕ} (hnone : place opts fileSize p = none) (hle : p ≤ q) :
    place opts fileSize q = none := by
  rw [place_eq_none] at hnone ⊢
  omega

/-- All positions before the first one past the affected bytes are flipped. -/
theorem exact_flipsTo (hvalid : Valid opts) {k : ℕ}
    (hnone : place opts fileSize (position gap k) = none) :
    Exact opts gap fileSize (flipsTo opts gap fileSize k) := by
  refine ⟨fun byte bit hmem => ?_, nodup_flipsTo hvalid k, fun flipped => ?_⟩
  · obtain ⟨m, -, hplace⟩ := mem_flipsTo.mp hmem
    obtain ⟨hbyte, rfl⟩ := place_eq_some.mp hplace
    exact ⟨affectedByte_of_mem hvalid (List.mem_of_getElem? hbyte), Nat.mod_lt _ (by omega)⟩
  · rw [mem_flipsTo]
    constructor
    · rintro ⟨m, -, hplace⟩
      exact ⟨m, hplace⟩
    · rintro ⟨m, hplace⟩
      refine ⟨m, ?_, hplace⟩
      by_contra hle
      rw [place_none_of_le hnone ((position_strictMono gap).monotone (not_lt.mp hle))] at hplace
      cases hplace

end Positions

/-! ## Single flips -/

section Flips

variable {opts : Opts} {gap : ℕ → Gap} {file : Bytes}

/-- Flipping a bit that is in the file leaves a file of the same length. -/
theorem pwrite_eq_flipBit {offset bit : ℕ} (hlt : offset < file.length) (buf : UInt8) :
    pwrite file offset (pread file offset buf ^^^ mask bit) = flipBit file (offset, bit) := by
  rw [pwrite, pread, Nat.sub_eq_zero_of_le hlt.le, List.replicate_zero, List.append_nil,
    List.getElem?_eq_getElem hlt, Option.getD_some]
  refine List.ext_getElem? fun i => ?_
  rw [getElem?_writeAt hlt.le, flipBit, List.getElem?_modify]
  by_cases hi : i = offset
  · subst hi
    rw [if_pos ⟨le_refl _, Nat.lt_succ_self _⟩, Nat.sub_self, List.getElem?_eq_getElem hlt]
    simp
  · rw [if_neg (by rw [List.length_singleton]; omega)]
    simp [Ne.symm hi]

theorem length_foldl_flipBit (flips : List (ℕ × ℕ)) (file : Bytes) :
    (flips.foldl flipBit file).length = file.length := by
  induction flips generalizing file with
  | nil => rfl
  | cons bit flips ih => rw [List.foldl_cons, ih, flipBit, List.length_modify]

/-- The loop variables while no offset has wrapped: `done` bytes of the affected chunks are behind
the current chunk, and `k` bits are flipped. -/
structure Ideal (opts : Opts) (gap : ℕ → Gap) (file : Bytes) (done k : ℕ) (s : Loop) : Prop where
  le : 8 * done ≤ position gap k
  fits : position gap k - 8 * done < 2 ^ 63
  bitOffset : s.bitOffset = (position gap k - 8 * done : ℕ)
  byteOffset : s.byteOffset = s.bitOffset.tdiv 8
  draws : s.draws = k + 1
  flips : s.flips = flipsTo opts gap file.length k
  inside : ∀ m < k, place opts file.length (position gap m) ≠ none
  contents : s.file = s.flips.foldl flipBit file

theorem Ideal.byteOffset_eq {done k : ℕ} {s : Loop} (h : Ideal opts gap file done k s) :
    s.byteOffset = ((position gap k - 8 * done) / 8 : ℕ) := by
  rw [h.byteOffset, h.bitOffset]
  exact (Int.ofNat_tdiv _ 8).symm

/-- The next offset, as `off_t` holds it. -/
theorem offT_add_distance {rel : ℕ} (hrel : rel < 2 ^ 63) (gap : ℕ → Gap) (k : ℕ) :
    offT ((rel : ℤ) + ((if (gap k).val = 0 then 1 else (gap k).val : ℕ) : ℤ)) =
      if rel + distance gap k < 2 ^ 63 then ((rel + distance gap k : ℕ) : ℤ)
      else ((rel + distance gap k : ℕ) : ℤ) - 2 ^ 64 := by
  have hgap := (gap k).isLt
  have hdistance : (if (gap k).val = 0 then 1 else (gap k).val) = distance gap k := by
    rw [distance]
    split_ifs <;> omega
  have hle : distance gap k < 2 ^ 63 := by
    rw [distance]
    omega
  rw [hdistance, ← Nat.cast_add]
  rcases @offT_cases ((rel + distance gap k : ℕ) : ℤ) (by positivity)
    (by unfold offMax; omega) with ⟨hfits, heq⟩ | ⟨hwraps, heq⟩
  · rw [heq, if_pos (by unfold offMax at hfits; omega)]
  · rw [heq, if_neg (by unfold offMax at hwraps; omega)]

theorem targetBit_natCast (rel : ℕ) : targetBit rel = rel % 8 := by
  have htmod : ((rel : ℤ).tmod 8) = ((rel % 8 : ℕ) : ℤ) := (Int.ofNat_tmod rel 8).symm
  rw [targetBit, htmod]
  omega

/-- What a flip leaves: the next position, or a wrapped offset. -/
structure Flipped (opts : Opts) (gap : ℕ → Gap) (file : Bytes) (done k rel : ℕ) (s s' : Loop) :
    Prop where
  chunk : s'.chunk = s.chunk
  start : s'.start = s.start
  chunkSize : s'.chunkSize = s.chunkSize
  byteOffset : s'.byteOffset = s'.bitOffset.tdiv 8
  flips : s'.flips = flipsTo opts gap file.length (k + 1)
  contents : s'.file = s'.flips.foldl flipBit file
  next : rel + distance gap (k + 1) < 2 ^ 63 → Ideal opts gap file done (k + 1) s'
  wrapped : 2 ^ 63 ≤ rel + distance gap (k + 1) →
    s'.bitOffset = ((rel + distance gap (k + 1) : ℕ) : ℤ) - 2 ^ 64

/-- A bit of the current chunk is flipped. -/
theorem Ideal.flip (hvalid : Valid opts) {done k chunk : ℕ} {s : Loop}
    (h : Ideal opts gap file done k s)
    (hat : At opts gap file.length k chunk (position gap k - 8 * done))
    (hstart : s.start = startOf opts chunk)
    (hsize : (sizeOf opts file.length chunk : ℤ) ≤ s.chunkSize) :
    ∃ s', step opts gap file.length (.inner s) = .inner s' ∧
      Flipped opts gap file done k (position gap k - 8 * done) s s' := by
  generalize hrel : position gap k - 8 * done = rel at *
  have hbyte := h.byteOffset_eq
  rw [hrel] at hbyte
  have hfits := h.fits
  rw [hrel] at hfits
  have hbit := h.bitOffset
  rw [hrel] at hbit
  obtain ⟨-, hend, -, -⟩ := sizeOf_spec hvalid (lt_of_mem_affectedChunks hvalid hat.mem)
  have hregion := regionEnd_eq hvalid file.length
  have hmax := hvalid.stop
  have hlt := hat.lt
  have hoffset : offT (s.start + s.byteOffset) = (startOf opts chunk + rel / 8 : ℕ) := by
    rw [hstart, hbyte, ← Nat.cast_add]
    exact offT_eq_self (by positivity) (by omega)
  have hfile : startOf opts chunk + rel / 8 < s.file.length := by
    rw [h.contents, length_foldl_flipBit]
    omega
  refine ⟨Bitflip.flip gap s (startOf opts chunk + rel / 8), ?_, ?_⟩
  · rw [step, if_pos (by omega), hoffset]
    exact if_neg (not_lt.mpr (by positivity))
  · have hflips : (Bitflip.flip gap s (startOf opts chunk + rel / 8)).flips =
        flipsTo opts gap file.length (k + 1) := by
      rw [flipsTo_succ hat.place_eq, ← h.flips]
      change s.flips ++ [(_, targetBit s.bitOffset)] = _
      rw [hbit, targetBit_natCast]
    have hcontents : (Bitflip.flip gap s (startOf opts chunk + rel / 8)).file =
        (Bitflip.flip gap s (startOf opts chunk + rel / 8)).flips.foldl flipBit file := by
      change pwrite s.file _ (pread s.file _ s.buf ^^^ mask (targetBit s.bitOffset)) =
        (s.flips ++ [(_, targetBit s.bitOffset)]).foldl flipBit file
      rw [pwrite_eq_flipBit hfile, List.foldl_append, ← h.contents]
      rfl
    have hoffset' : (Bitflip.flip gap s (startOf opts chunk + rel / 8)).bitOffset =
        if rel + distance gap (k + 1) < 2 ^ 63 then ((rel + distance gap (k + 1) : ℕ) : ℤ)
        else ((rel + distance gap (k + 1) : ℕ) : ℤ) - 2 ^ 64 := by
      rw [← offT_add_distance hfits gap (k + 1), ← h.draws, ← hbit]
      rfl
    have hle := h.le
    refine
      { chunk := rfl
        start := rfl
        chunkSize := rfl
        byteOffset := rfl
        flips := hflips
        contents := hcontents
        next := fun hnext => ?_
        wrapped := fun hwraps => ?_ }
    · have hposition : position gap (k + 1) - 8 * done = rel + distance gap (k + 1) := by
        rw [position]
        omega
      refine
        { le := hle.trans ((position_strictMono gap).monotone k.le_succ)
          fits := hposition ▸ hnext
          bitOffset := ?_
          byteOffset := rfl
          draws := ?_
          flips := hflips
          inside := fun m hm => ?_
          contents := hcontents }
      · rw [hoffset', if_pos hnext, hposition]
      · exact congrArg (· + 1) h.draws
      · cases Nat.lt_succ_iff_lt_or_eq.mp hm with
        | inl hm => exact h.inside m hm
        | inr heq =>
          rw [heq, hat.place_eq]
          exact Option.some_ne_none _
    · rw [hoffset', if_neg (not_lt.mpr hwraps)]

end Flips

/-! ## Walking the chunks -/

section Walk

variable {opts : Opts} {gap : ℕ → Gap} {file : Bytes}

/-- One loop head is reached from another, and the two offsets agree at all heads before it. -/
def Reaches (opts : Opts) (gap : ℕ → Gap) (fileSize : ℕ) : Head → Head → Prop :=
  Relation.ReflTransGen fun h h' => h.Aligned ∧ step opts gap fileSize h = h'

/-- No offset wraps where one of the first positions is drawn. -/
def Unwrapped (opts : Opts) (gap : ℕ → Gap) (fileSize k : ℕ) : Prop :=
  ∀ m < k, ∀ chunk rel, At opts gap fileSize m chunk rel → rel + distance gap (m + 1) < 2 ^ 63

theorem Unwrapped.succ (hvalid : Valid opts) {fileSize k chunk rel : ℕ}
    (h : Unwrapped opts gap fileSize k) (hat : At opts gap fileSize k chunk rel)
    (hfits : rel + distance gap (k + 1) < 2 ^ 63) : Unwrapped opts gap fileSize (k + 1) := by
  intro m hm chunk' rel' hat'
  cases Nat.lt_succ_iff_lt_or_eq.mp hm with
  | inl hm => exact h m hm chunk' rel' hat'
  | inr heq =>
    subst heq
    obtain ⟨-, rfl⟩ := hat.unique hvalid hat'
    exact hfits

/-- The loop variables after the first offset wrapped. -/
structure Wrapped (opts : Opts) (gap : ℕ → Gap) (file : Bytes) (k chunk rel : ℕ) (s : Loop) :
    Prop where
  at_chunk : At opts gap file.length k chunk rel
  fits : rel < 2 ^ 63
  exceeds : 2 ^ 63 ≤ rel + distance gap (k + 1)
  unwrapped : Unwrapped opts gap file.length k
  start : s.start = startOf opts chunk
  chunkSize : 0 < s.chunkSize
  bitOffset : s.bitOffset = ((rel + distance gap (k + 1) : ℕ) : ℤ) - 2 ^ 64
  byteOffset : s.byteOffset = s.bitOffset.tdiv 8
  flips : s.flips = flipsTo opts gap file.length (k + 1)
  contents : s.file = s.flips.foldl flipBit file

/-- The loop over the bits of a chunk ends past the chunk, unless an offset wraps. -/
theorem walk_inner (hvalid : Valid opts) {before after : List ℕ} {chunk done : ℕ}
    (hchunks : affectedChunks opts file.length = before ++ chunk :: after)
    (hdone : (before.flatMap (chunkBytes opts file.length)).length = done) {k : ℕ} {s : Loop}
    (h : Ideal opts gap file done k s) (hunwrapped : Unwrapped opts gap file.length k)
    (hstart : s.start = startOf opts chunk)
    (hsize : (sizeOf opts file.length chunk : ℤ) ≤ s.chunkSize) :
    (∃ k' s', Reaches opts gap file.length (.inner s) (.inner s') ∧
        Ideal opts gap file done k' s' ∧ Unwrapped opts gap file.length k' ∧
        s'.chunk = s.chunk ∧ s'.start = s.start ∧ s'.chunkSize = s.chunkSize ∧
        8 * (done + sizeOf opts file.length chunk) ≤ position gap k') ∨
      ∃ k' rel s', Reaches opts gap file.length (.inner s) (.inner s') ∧
        Wrapped opts gap file k' chunk rel s' := by
  generalize hn : 8 * (done + sizeOf opts file.length chunk) - position gap k = n
  induction n using Nat.strong_induction_on generalizing k s with
  | _ n ih =>
    by_cases hpast : 8 * (done + sizeOf opts file.length chunk) ≤ position gap k
    · exact Or.inl ⟨k, s, .refl, h, hunwrapped, rfl, rfl, rfl, hpast⟩
    · have hle := h.le
      have hat : At opts gap file.length k chunk (position gap k - 8 * done) := by
        subst hdone
        exact at_of_lt hchunks hle (by omega)
      obtain ⟨s', hstep, hflipped⟩ := h.flip hvalid hat hstart hsize
      have hfirst : Reaches opts gap file.length (.inner s) (.inner s') :=
        .single ⟨h.byteOffset, hstep⟩
      by_cases hfits : position gap k - 8 * done + distance gap (k + 1) < 2 ^ 63
      · have hlt := position_strictMono gap (Nat.lt_add_one k)
        obtain ⟨k', s'', hreach, h', hun, hchunk, hst, hsz, hle'⟩ | ⟨k', rel, s'', hreach, hw⟩ :=
          ih _ (by omega) (hflipped.next hfits) (hunwrapped.succ hvalid hat hfits)
            (hflipped.start.trans hstart) (hflipped.chunkSize ▸ hsize) rfl
        · exact Or.inl ⟨k', s'', hfirst.trans hreach, h', hun, hchunk.trans hflipped.chunk,
            hst.trans hflipped.start, hsz.trans hflipped.chunkSize, hle'⟩
        · exact Or.inr ⟨k', rel, s'', hfirst.trans hreach, hw⟩
      · have hpos := (sizeOf_spec hvalid (lt_of_mem_affectedChunks hvalid hat.mem)).1
        refine Or.inr ⟨k, position gap k - 8 * done, s', hfirst, ?_⟩
        exact
          { at_chunk := hat
            fits := h.fits
            exceeds := not_lt.mp hfits
            unwrapped := hunwrapped
            start := hflipped.start.trans hstart
            chunkSize := by
              rw [hflipped.chunkSize]
              omega
            bitOffset := hflipped.wrapped (not_lt.mp hfits)
            byteOffset := hflipped.byteOffset
            flips := hflipped.flips
            contents := hflipped.contents }

/-- A chunk is entered with its size, unless its end wraps. -/
theorem enterChunk_eq (hvalid : Valid opts) {s : Loop}
    (hchunk : s.chunk < chunkCount opts file.length) :
    (enterChunk opts file.length s).start = startOf opts s.chunk ∧
      (enterChunk opts file.length s).chunkSize =
        if startOf opts s.chunk + opts.chunkSize ≤ offMax then
          (sizeOf opts file.length s.chunk : ℤ) else opts.chunkSize := by
  have hoffset := chunkOffset_eq_startOf hvalid hchunk
  refine ⟨hoffset, ?_⟩
  rw [← clampedSize_eq hvalid hchunk, ← hoffset]
  rfl

/-- Past a chunk, the offsets are relative to the next one. -/
theorem Ideal.nextChunk {done k size : ℕ} {s : Loop} (h : Ideal opts gap file done k s)
    (hsize : s.chunkSize = size) (hpast : 8 * (done + size) ≤ position gap k) :
    Ideal opts gap file (done + size) k (nextChunk opts s) := by
  have hfits := h.fits
  have hle := h.le
  have hbyte := h.byteOffset_eq
  have height : offT (s.chunkSize * 8) = s.chunkSize * 8 :=
    offT_eq_self (by omega) (by unfold offMax; omega)
  have hbit : offT (s.bitOffset - offT (s.chunkSize * 8)) =
      (position gap k - 8 * (done + size) : ℕ) := by
    rw [height, h.bitOffset, offT_eq_self (by omega) (by unfold offMax; omega)]
    omega
  have hbyte' : offT (s.byteOffset - s.chunkSize) =
      ((position gap k - 8 * (done + size)) / 8 : ℕ) := by
    rw [hbyte, offT_eq_self (by omega) (by unfold offMax; omega)]
    omega
  exact
    { le := hpast
      fits := by omega
      bitOffset := hbit
      byteOffset := by
        change offT (s.byteOffset - s.chunkSize) = (offT (s.bitOffset - offT (s.chunkSize * 8))).tdiv 8
        rw [hbit, hbyte']
        exact Int.ofNat_tdiv _ 8
      draws := h.draws
      flips := h.flips
      inside := h.inside
      contents := h.contents }

/-- The loop variables after the loops, if no offset wrapped. -/
structure Ended (opts : Opts) (gap : ℕ → Gap) (file : Bytes) (k : ℕ) (s : Loop) : Prop where
  past : place opts file.length (position gap k) = none
  unwrapped : Unwrapped opts gap file.length k
  fits : ∀ chunk ∈ affectedChunks opts file.length, startOf opts chunk + opts.chunkSize ≤ offMax
  flips : s.flips = flipsTo opts gap file.length k
  contents : s.file = s.flips.foldl flipBit file

/-- The loop variables past the affected bytes, in the last affected chunk, whose end wraps. -/
structure Overrun (opts : Opts) (gap : ℕ → Gap) (file : Bytes) (k chunk : ℕ) (s : Loop) :
    Prop where
  mem : chunk ∈ affectedChunks opts file.length
  wraps : offMax < startOf opts chunk + opts.chunkSize
  past : place opts file.length (position gap k) = none
  unwrapped : Unwrapped opts gap file.length k
  ideal : ∃ done, Ideal opts gap file done k s
  chunk_eq : s.chunk = chunk
  start : s.start = startOf opts chunk
  chunkSize : s.chunkSize = opts.chunkSize
  reaches : s.start + s.byteOffset = (regionEnd opts file.length +
    (position gap k / 8 - (affectedBytes opts file.length).length) : ℕ)

/-- How an execution goes on from a loop head. -/
def Outcome (opts : Opts) (gap : ℕ → Gap) (file : Bytes) (h : Head) : Prop :=
  (∃ k s, Reaches opts gap file.length h (.returned .ok s) ∧ Ended opts gap file k s) ∨
    (∃ k chunk rel s, Reaches opts gap file.length h (.inner s) ∧
      Wrapped opts gap file k chunk rel s) ∨
    ∃ k chunk s, Reaches opts gap file.length h (.inner s) ∧ Overrun opts gap file k chunk s

theorem Outcome.of_reaches {h h' : Head} (hreaches : Reaches opts gap file.length h h')
    (houtcome : Outcome opts gap file h') : Outcome opts gap file h := by
  rcases houtcome with ⟨k, s, hr, hs⟩ | ⟨k, chunk, rel, s, hr, hs⟩ | ⟨k, chunk, s, hr, hs⟩
  · exact Or.inl ⟨k, s, hreaches.trans hr, hs⟩
  · exact Or.inr (Or.inl ⟨k, chunk, rel, s, hreaches.trans hr, hs⟩)
  · exact Or.inr (Or.inr ⟨k, chunk, s, hreaches.trans hr, hs⟩)

/-- Only the last affected chunk can end past the largest offset. -/
theorem last_of_wraps (hvalid : Valid opts) {before after : List ℕ} {chunk : ℕ}
    (hchunks : affectedChunks opts file.length = before ++ chunk :: after)
    (hwraps : offMax < startOf opts chunk + opts.chunkSize) : after = [] := by
  cases after with
  | nil => rfl
  | cons next after =>
    have hmod : 0 < opts.mod := Nat.zero_lt_of_lt hvalid.index
    have hpairwise := @pairwise_forChunks opts.mod (chunkCount opts file.length) hmod
      (chunkCount opts file.length) opts.index
    rw [← affectedChunks, hchunks, List.pairwise_append] at hpairwise
    have hlt := List.rel_of_pairwise_cons hpairwise.2.1 List.mem_cons_self
    have hmem : next ∈ affectedChunks opts file.length := by
      rw [hchunks]
      simp
    have hspec := sizeOf_spec hvalid (lt_of_mem_affectedChunks hvalid hmem)
    have hregion := regionEnd_eq hvalid file.length
    have hapart := startOf_lt hvalid hlt
    have hstop := hvalid.stop
    omega

/-- Past the last affected chunk. -/
theorem outcome_end {before : List ℕ} {k : ℕ} {s : Loop}
    (hchunks : affectedChunks opts file.length = before)
    (hcount : chunkCount opts file.length ≤ s.chunk)
    (hfits : ∀ chunk ∈ before, startOf opts chunk + opts.chunkSize ≤ offMax)
    (h : Ideal opts gap file (before.flatMap (chunkBytes opts file.length)).length k s)
    (hunwrapped : Unwrapped opts gap file.length k) : Outcome opts gap file (.outer s) := by
  have hreach : Reaches opts gap file.length (.outer s) (.returned .ok s) :=
    .single ⟨h.byteOffset, if_neg (not_lt.mpr hcount)⟩
  have hle := h.le
  have hpast : place opts file.length (position gap k) = none := by
    rw [place_eq_none, affectedBytes, hchunks]
    omega
  exact Or.inl ⟨k, s, hreach, hpast, hunwrapped, hchunks ▸ hfits, h.flips, h.contents⟩

/-- Past the affected bytes, in a last chunk that ends past the largest offset. -/
theorem overrun_of_wraps (hvalid : Valid opts) {before after : List ℕ} {chunk k : ℕ} {s : Loop}
    (hchunks : affectedChunks opts file.length = before ++ chunk :: after)
    (hwraps : offMax < startOf opts chunk + opts.chunkSize)
    (h : Ideal opts gap file (before.flatMap (chunkBytes opts file.length)).length k s)
    (hunwrapped : Unwrapped opts gap file.length k) (hchunk : s.chunk = chunk)
    (hstart : s.start = startOf opts chunk) (hsize : s.chunkSize = opts.chunkSize)
    (hpast : 8 * ((before.flatMap (chunkBytes opts file.length)).length +
      sizeOf opts file.length chunk) ≤ position gap k) : Overrun opts gap file k chunk s := by
  have hmem : chunk ∈ affectedChunks opts file.length :=
    hchunks ▸ List.mem_append_right _ List.mem_cons_self
  have hspec := sizeOf_spec hvalid (lt_of_mem_affectedChunks hvalid hmem)
  rw [last_of_wraps hvalid hchunks hwraps] at hchunks
  have hlength : (affectedBytes opts file.length).length =
      (before.flatMap (chunkBytes opts file.length)).length + sizeOf opts file.length chunk := by
    rw [affectedBytes, hchunks, List.flatMap_append, List.length_append, List.flatMap_singleton]
    rfl
  have hregion := regionEnd_eq hvalid file.length
  have hstop := hvalid.stop
  have hle := h.le
  refine
    { mem := hmem
      wraps := hwraps
      past := ?_
      unwrapped := hunwrapped
      ideal := ⟨_, h⟩
      chunk_eq := hchunk
      start := hstart
      chunkSize := hsize
      reaches := ?_ }
  · rw [place_eq_none, hlength]
    omega
  · rw [hstart, h.byteOffset_eq, hlength]
    omega

/-- From the head of the loop over chunks, by induction on the chunks that are left. -/
theorem walk_outer (hvalid : Valid opts) (fuel : ℕ) {before : List ℕ} {k : ℕ} {s : Loop}
    (hchunks : affectedChunks opts file.length =
      before ++ forChunks opts.mod (chunkCount opts file.length) fuel s.chunk)
    (hfuel : chunkCount opts file.length ≤ s.chunk + fuel)
    (hfits : ∀ chunk ∈ before, startOf opts chunk + opts.chunkSize ≤ offMax)
    (h : Ideal opts gap file (before.flatMap (chunkBytes opts file.length)).length k s)
    (hunwrapped : Unwrapped opts gap file.length k) : Outcome opts gap file (.outer s) := by
  have hmod : 0 < opts.mod := Nat.zero_lt_of_lt hvalid.index
  induction fuel generalizing before k s with
  | zero =>
    rw [forChunks, List.append_nil] at hchunks
    exact outcome_end hchunks hfuel hfits h hunwrapped
  | succ fuel ih =>
    by_cases hlt : s.chunk < chunkCount opts file.length
    · rw [forChunks, if_pos hlt] at hchunks
      obtain ⟨hstart, hsize⟩ := enterChunk_eq hvalid hlt
      have hspec := sizeOf_spec hvalid hlt
      have henter : Reaches opts gap file.length (.outer s)
          (.inner (enterChunk opts file.length s)) := .single ⟨h.byteOffset, if_pos hlt⟩
      have hentered : Ideal opts gap file (before.flatMap (chunkBytes opts file.length)).length k
          (enterChunk opts file.length s) :=
        ⟨h.le, h.fits, h.bitOffset, h.byteOffset, h.draws, h.flips, h.inside, h.contents⟩
      have hsize' : (sizeOf opts file.length s.chunk : ℤ) ≤
          (enterChunk opts file.length s).chunkSize := by
        rw [hsize]
        split_ifs
        · exact le_refl _
        · exact hspec.2.2.2
      rcases walk_inner hvalid hchunks rfl hentered hunwrapped hstart hsize' with
        ⟨k', s', hreach, h', hun, hchunk', hstart', hchunkSize', hpast⟩ | ⟨k', rel, s', hreach, hw⟩
      · rw [hsize] at hchunkSize'
        by_cases hwraps : startOf opts s.chunk + opts.chunkSize ≤ offMax
        · rw [if_pos hwraps] at hchunkSize'
          have hnext := h'.nextChunk hchunkSize' hpast
          have hlen : ((before ++ [s.chunk]).flatMap (chunkBytes opts file.length)).length =
              (before.flatMap (chunkBytes opts file.length)).length +
                sizeOf opts file.length s.chunk := by
            rw [List.flatMap_append, List.length_append, List.flatMap_singleton]
            rfl
          have hbyte := h'.byteOffset_eq
          have hleave : Reaches opts gap file.length (.inner s') (.outer (nextChunk opts s')) :=
            .single ⟨h'.byteOffset, if_neg (by omega)⟩
          have hchunk'' : (nextChunk opts s').chunk = s.chunk + opts.mod :=
            congrArg (· + opts.mod) hchunk'
          refine Outcome.of_reaches ((henter.trans hreach).trans hleave) ?_
          refine @ih (before ++ [s.chunk]) k' (nextChunk opts s') ?_ (by omega) ?_ (hlen ▸ hnext) hun
          · rw [hchunk'', hchunks, List.append_assoc, List.singleton_append]
          · intro chunk hmem
            cases List.mem_append.mp hmem with
            | inl hmem => exact hfits chunk hmem
            | inr hmem => exact List.mem_singleton.mp hmem ▸ hwraps
        · rw [if_neg hwraps] at hchunkSize'
          have hoverrun := overrun_of_wraps hvalid hchunks (not_le.mp hwraps) h' hun hchunk'
            (hstart'.trans hstart) hchunkSize' hpast
          exact Or.inr (Or.inr ⟨k', s.chunk, s', henter.trans hreach, hoverrun⟩)
      · exact Or.inr (Or.inl ⟨k', s.chunk, rel, s', henter.trans hreach, hw⟩)
    · have hnil : forChunks opts.mod (chunkCount opts file.length) (fuel + 1) s.chunk = [] :=
        if_neg hlt
      rw [hnil, List.append_nil] at hchunks
      exact outcome_end hchunks (not_lt.mp hlt) hfits h hunwrapped

/-- Every execution ends with no offset wrapped, or with the first one that does. -/
theorem outcome_begin (hvalid : Valid opts) :
    Outcome opts gap file (begin opts gap file) := by
  refine @walk_outer opts gap file hvalid (chunkCount opts file.length) [] 0 _ rfl
    (Nat.le_add_left _ _) (fun _ h => absurd h List.not_mem_nil) ?_
    (fun _ h => absurd h (Nat.not_lt_zero _))
  exact
    { le := Nat.zero_le _
      fits := (gap 0).isLt
      bitOffset := rfl
      byteOffset := rfl
      draws := rfl
      flips := rfl
      inside := fun _ h => absurd h (Nat.not_lt_zero _)
      contents := rfl }

end Walk

end Jepsen.Resources.CorruptFile.Bitflip
