/-
# When bit flips stay where they belong

An execution of `corrupt_bitflip` flips exactly the selected bits, unless an offset wraps and the
next read does not fail: where a position is drawn, or at the end of the last affected chunk.
-/

import Jepsen.Resources.BitflipRuns

namespace Jepsen.Resources.CorruptFile.Bitflip

open Jepsen.Library Jepsen.Library.ByteRange

variable {opts : Opts} {gap : ℕ → Gap} {file : Bytes}

/-- A gap leads from a position in a chunk past the largest offset that is counted from the
start of the chunk. -/
def Exceeds (opts : Opts) (gap : ℕ → Gap) (fileSize k chunk rel : ℕ) : Prop :=
  At opts gap fileSize k chunk rel ∧ 2 ^ 63 ≤ rel + distance gap (k + 1)

/-- An offset that wraps does no harm. -/
structure Contained (opts : Opts) (gap : ℕ → Gap) (fileSize : ℕ) : Prop where
  /-- A gap that leads past the largest offset leads past the affected chunks too, and the wrapped
  offset lies before the start of the file. -/
  caught : ∀ k chunk rel, Exceeds opts gap fileSize k chunk rel →
    place opts fileSize (position gap (k + 1)) = none ∧
      (startOf opts chunk : ℤ) +
        (((rel + distance gap (k + 1) : ℕ) : ℤ) - 2 ^ 64).tdiv 8 < 0
  /-- If an affected chunk ends past the largest offset, there is such a gap, or the first
  position past the affected chunks is past the largest offset as well. -/
  ends : ∀ chunk ∈ affectedChunks opts fileSize, offMax < startOf opts chunk + opts.chunkSize →
    (∃ k chunk' rel, Exceeds opts gap fileSize k chunk' rel) ∨
      ∀ k, place opts fileSize (position gap k) = none →
        offMax < (regionEnd opts fileSize +
          (position gap k / 8 - (affectedBytes opts fileSize).length) : ℕ)

/-! ## Executions -/

theorem headAt_succ (n : ℕ) :
    headAt opts gap file (n + 1) = step opts gap file.length (headAt opts gap file n) :=
  Function.iterate_succ_apply' _ _ _

theorem headAt_of_returned {n : ℕ} {code : ExitCode} {s : Loop}
    (hn : headAt opts gap file n = .returned code s) (m : ℕ) :
    headAt opts gap file (n + m) = .returned code s := by
  induction m with
  | zero => exact hn
  | succ m ih => rw [← Nat.add_assoc, headAt_succ, ih, step]

/-- What is reached is at some loop head, and the offsets agree before. -/
theorem exists_headAt {h : Head}
    (hreaches : Reaches opts gap file.length (begin opts gap file) h) :
    ∃ n, headAt opts gap file n = h ∧ ∀ m < n, (headAt opts gap file m).Aligned := by
  induction hreaches with
  | refl => exact ⟨0, rfl, fun m hm => absurd hm (Nat.not_lt_zero m)⟩
  | tail _ hstep ih =>
    obtain ⟨n, rfl, haligned⟩ := ih
    refine ⟨n + 1, (headAt_succ n).trans hstep.2, fun m hm => ?_⟩
    cases Nat.lt_succ_iff_lt_or_eq.mp hm with
    | inl hm => exact haligned m hm
    | inr heq => exact heq ▸ hstep.1

theorem right_of_reaches {code : ExitCode} {s : Loop}
    (hreaches : Reaches opts gap file.length (begin opts gap file) (.returned code s))
    (hexact : Exact opts gap file.length s.flips) (hcontents : s.file = s.flips.foldl flipBit file) :
    Right opts gap file := by
  obtain ⟨n, hn, haligned⟩ := exists_headAt hreaches
  refine ⟨⟨n, code, s, hn, hexact, hcontents⟩, fun m => ?_⟩
  by_cases hm : m < n
  · exact haligned m hm
  · rw [← Nat.add_sub_of_le (not_lt.mp hm), headAt_of_returned hn]
    trivial

/-- No step takes a flip back. -/
theorem flips_step (h : Head) :
    h.loop.flips <+: (step opts gap file.length h).loop.flips := by
  cases h with
  | outer s =>
    rw [step]
    split_ifs <;> exact List.prefix_rfl
  | inner s =>
    rw [step]
    dsimp only
    split_ifs
    · exact List.prefix_rfl
    · exact List.prefix_append _ _
    · exact List.prefix_rfl
  | returned code s => exact List.prefix_rfl

theorem flips_headAt (n m : ℕ) :
    (headAt opts gap file n).loop.flips <+: (headAt opts gap file (n + m)).loop.flips := by
  induction m with
  | zero => exact List.prefix_rfl
  | succ m ih =>
    rw [← Nat.add_assoc, headAt_succ]
    exact ih.trans (flips_step _)

/-- What is flipped on the way is flipped at the end. -/
theorem flips_of_right {h : Head} (hright : Right opts gap file)
    (hreaches : Reaches opts gap file.length (begin opts gap file) h) :
    ∃ flips, h.loop.flips <+: flips ∧ Exact opts gap file.length flips := by
  obtain ⟨n, code, s, hn, hexact, -⟩ := hright.returns
  obtain ⟨m, rfl, -⟩ := exists_headAt hreaches
  refine ⟨s.flips, ?_, hexact⟩
  have hlater := @flips_headAt opts gap file m n
  rw [Nat.add_comm, headAt_of_returned hn] at hlater
  exact hlater

theorem exact_of_right {code : ExitCode} {s : Loop} (hright : Right opts gap file)
    (hreaches : Reaches opts gap file.length (begin opts gap file) (.returned code s)) :
    Exact opts gap file.length s.flips := by
  obtain ⟨n, code', s', hn, hexact, -⟩ := hright.returns
  obtain ⟨m, hm, -⟩ := exists_headAt hreaches
  have hboth := headAt_of_returned hn m
  rw [Nat.add_comm, headAt_of_returned hm] at hboth
  cases hboth
  exact hexact

/-! ## Offsets that wrap -/

theorem offT_of_fits {x : ℤ} (hle : -2 ^ 63 ≤ x) (hx : x ≤ offMax) : offT x = x := by
  unfold offMax at hx
  rw [offT, Int.bmod_def]
  split_ifs <;> omega

/-- No position before one past the affected bytes exceeds, if none of the first do. -/
theorem Unwrapped.not_exceeds {k : ℕ} (h : Unwrapped opts gap file.length k)
    (hpast : place opts file.length (position gap k) = none) {m chunk rel : ℕ} :
    ¬ Exceeds opts gap file.length m chunk rel := by
  rintro ⟨hat, hexceeds⟩
  have hm : m < k := by
    by_contra hle
    have hnone := place_none_of_le hpast ((position_strictMono gap).monotone (not_lt.mp hle))
    rw [hat.place_eq] at hnone
    cases hnone
  exact absurd (h m hm chunk rel hat) (not_lt.mpr hexceeds)

/-- If no offset wraps, the selected bits are flipped. -/
theorem Ended.right (hvalid : Valid opts) {k : ℕ} {s : Loop}
    (hreaches : Reaches opts gap file.length (begin opts gap file) (.returned .ok s))
    (hended : Ended opts gap file k s) : Right opts gap file :=
  right_of_reaches hreaches (hended.flips ▸ exact_flipsTo hvalid hended.past) hended.contents

theorem Ended.contained {k : ℕ} {s : Loop} (hended : Ended opts gap file k s) :
    Contained opts gap file.length where
  caught := fun _ _ _ h => absurd h (hended.unwrapped.not_exceeds hended.past)
  ends := fun chunk hchunk hwraps => absurd (hended.fits chunk hchunk) (not_le.mpr hwraps)

/-- Where the first wrapped offset points to. -/
theorem Wrapped.offset_eq (hvalid : Valid opts) {k chunk rel : ℕ} {s : Loop}
    (hwrapped : Wrapped opts gap file k chunk rel s) :
    s.byteOffset ≤ 0 ∧ s.bitOffset < 0 ∧ offT (s.start + s.byteOffset) =
      startOf opts chunk + (((rel + distance gap (k + 1) : ℕ) : ℤ) - 2 ^ 64).tdiv 8 := by
  have hfits := hwrapped.fits
  have hexceeds := hwrapped.exceeds
  have hgap := (gap (k + 1)).isLt
  have hdistance : distance gap (k + 1) ≤ 2 ^ 63 - 1 := by
    rw [distance]
    omega
  have hspec := sizeOf_spec hvalid (lt_of_mem_affectedChunks hvalid hwrapped.at_chunk.mem)
  have hregion := regionEnd_eq hvalid file.length
  have hstop := hvalid.stop
  have hbit := hwrapped.bitOffset
  have hbyte := hwrapped.byteOffset
  rw [hbit] at hbyte
  generalize hb : ((rel + distance gap (k + 1) : ℕ) : ℤ) - 2 ^ 64 = b at *
  have hneg : b < 0 := by omega
  have htdiv : b.tdiv 8 = -((-b) / 8) := by
    rw [← Int.tdiv_eq_ediv_of_nonneg (by omega), Int.neg_tdiv, neg_neg]
  have hle : b.tdiv 8 ≤ 0 := by omega
  refine ⟨by omega, by omega, ?_⟩
  rw [hwrapped.start, hbyte]
  exact offT_of_fits (by omega) (by unfold offMax at *; omega)

/-- After the first wrapped offset, the execution is right exactly if the offset should not be
there and the next read fails. -/
theorem Wrapped.right_iff (hvalid : Valid opts) {k chunk rel : ℕ} {s : Loop}
    (hreaches : Reaches opts gap file.length (begin opts gap file) (.inner s))
    (hwrapped : Wrapped opts gap file k chunk rel s) :
    Right opts gap file ↔ place opts file.length (position gap (k + 1)) = none ∧
      (startOf opts chunk : ℤ) + (((rel + distance gap (k + 1) : ℕ) : ℤ) - 2 ^ 64).tdiv 8 < 0 := by
  obtain ⟨hbyte, hbit, hoffset⟩ := hwrapped.offset_eq hvalid
  have hsize := hwrapped.chunkSize
  generalize hx : (startOf opts chunk : ℤ) +
    (((rel + distance gap (k + 1) : ℕ) : ℤ) - 2 ^ 64).tdiv 8 = x at *
  by_cases hneg : x < 0
  · have hstep : step opts gap file.length (.inner s) = .returned .io s := by
      rw [step, if_pos (by omega), hoffset]
      exact if_pos hneg
    have hreturned := hreaches.tail ⟨hwrapped.byteOffset, hstep⟩
    constructor
    · intro hright
      refine ⟨?_, hneg⟩
      have hexact := exact_of_right hright hreturned
      rw [hwrapped.flips] at hexact
      by_contra hne
      obtain ⟨bit, hplace⟩ := Option.ne_none_iff_exists'.mp hne
      obtain ⟨m, hm, hplace'⟩ := mem_flipsTo.mp ((hexact.selected bit).mpr ⟨k + 1, hplace⟩)
      have heq := (position_strictMono gap).injective (place_injective hvalid hplace hplace')
      omega
    · rintro ⟨hnone, -⟩
      exact right_of_reaches hreturned (hwrapped.flips ▸ exact_flipsTo hvalid hnone)
        hwrapped.contents
  · refine iff_of_false (fun hright => ?_) (fun h => hneg h.2)
    -- A bit before the current chunk is flipped.
    have hstep : step opts gap file.length (.inner s) = .inner (Bitflip.flip gap s x.toNat) := by
      rw [step, if_pos (by omega), hoffset]
      exact if_neg hneg
    obtain ⟨flips, hbegins, hexact⟩ :=
      flips_of_right hright (hreaches.tail ⟨hwrapped.byteOffset, hstep⟩)
    have hflips : (Bitflip.flip gap s x.toNat).flips =
        flipsTo opts gap file.length (k + 1) ++ [(x.toNat, targetBit s.bitOffset)] :=
      congrArg (· ++ [(x.toNat, targetBit s.bitOffset)]) hwrapped.flips
    replace hbegins : flipsTo opts gap file.length (k + 1) ++ [(x.toNat, targetBit s.bitOffset)] <+:
        flips := hflips ▸ hbegins
    have hmem : (x.toNat, targetBit s.bitOffset) ∈ flips :=
      hbegins.subset (List.mem_append_right _ (List.mem_singleton_self _))
    have hnew : (x.toNat, targetBit s.bitOffset) ∉ flipsTo opts gap file.length (k + 1) := by
      have hnodup := hexact.once.sublist hbegins.sublist
      exact fun h => (List.disjoint_of_nodup_append hnodup) h (List.mem_singleton_self _)
    obtain ⟨-, htarget⟩ := hexact.confined _ _ hmem
    obtain ⟨m, hplace⟩ := (hexact.selected _).mp hmem
    have hm : k < m := by
      by_contra hle
      exact hnew (mem_flipsTo.mpr ⟨m, by omega, hplace⟩)
    have hdiv : x.toNat < startOf opts chunk + rel / 8 := by
      have hbitOffset := hwrapped.bitOffset
      generalize hb : ((rel + distance gap (k + 1) : ℕ) : ℤ) - 2 ^ 64 = b at *
      have htdiv : b.tdiv 8 = -((-b) / 8) := by
        rw [← Int.tdiv_eq_ediv_of_nonneg (by omega), Int.neg_tdiv, neg_neg]
      have htmod : b.tmod 8 = -((-b) % 8) := by
        rw [← Int.tmod_eq_emod_of_nonneg (by omega), Int.neg_tmod, neg_neg]
      rw [targetBit, hbitOffset, htmod] at htarget
      omega
    have hlt := index_lt hvalid (place_eq_some.mp hplace).1
      (place_eq_some.mp hwrapped.at_chunk.place_eq).1 hdiv
    have hlater := position_strictMono gap hm
    omega

theorem Wrapped.contained_iff (hvalid : Valid opts) {k chunk rel : ℕ} {s : Loop}
    (hwrapped : Wrapped opts gap file k chunk rel s) :
    Contained opts gap file.length ↔ place opts file.length (position gap (k + 1)) = none ∧
      (startOf opts chunk : ℤ) + (((rel + distance gap (k + 1) : ℕ) : ℤ) - 2 ^ 64).tdiv 8 < 0 := by
  have hexceeds : Exceeds opts gap file.length k chunk rel :=
    ⟨hwrapped.at_chunk, hwrapped.exceeds⟩
  constructor
  · intro hcontained
    exact hcontained.caught k chunk rel hexceeds
  · rintro ⟨hnone, hneg⟩
    refine ⟨fun m chunk' rel' h => ?_, fun _ _ _ => Or.inl ⟨k, chunk, rel, hexceeds⟩⟩
    have hmk : m = k := by
      rcases Nat.lt_trichotomy m k with hm | hm | hm
      · exact absurd (hwrapped.unwrapped m hm chunk' rel' h.1) (not_lt.mpr h.2)
      · exact hm
      · have hplace := place_none_of_le hnone ((position_strictMono gap).monotone hm)
        rw [h.1.place_eq] at hplace
        cases hplace
    subst hmk
    obtain ⟨rfl, rfl⟩ := hwrapped.at_chunk.unique hvalid h.1
    exact ⟨hnone, hneg⟩

/-- An offset past the largest one, but not by a turn, becomes negative. -/
theorem offT_neg {x : ℤ} (hlt : offMax < x) (hturn : x < 2 ^ 64) : offT x < 0 := by
  unfold offMax at hlt
  rw [offT, Int.bmod_def]
  split_ifs <;> omega

theorem add_div_lt_turn {start rel : ℕ} (hstart : (start : ℤ) ≤ offMax) (hrel : rel < 2 ^ 63) :
    (start : ℤ) + (rel / 8 : ℕ) < 2 ^ 64 := by
  unfold offMax at hstart
  omega

/-- In a last chunk whose end wraps, the next position is in the chunk unless it is past the
largest offset. -/
theorem Overrun.right_iff (hvalid : Valid opts) {k chunk : ℕ} {s : Loop}
    (hreaches : Reaches opts gap file.length (begin opts gap file) (.inner s))
    (hoverrun : Overrun opts gap file k chunk s) :
    Right opts gap file ↔ offMax < (regionEnd opts file.length +
      (position gap k / 8 - (affectedBytes opts file.length).length) : ℕ) := by
  obtain ⟨done, hideal⟩ := hoverrun.ideal
  have hoffset := hoverrun.reaches
  have hstart := hoverrun.start
  have hwraps := hoverrun.wraps
  have hsize := hoverrun.chunkSize
  have hregion := regionEnd_eq hvalid file.length
  have hstop := hvalid.stop
  have hpos := hvalid.chunkSize
  have hspec := sizeOf_spec hvalid (lt_of_mem_affectedChunks hvalid hoverrun.mem)
  have hbyte := hideal.byteOffset_eq
  have hfits := hideal.fits
  have hexact : Exact opts gap file.length s.flips := by
    rw [hideal.flips]
    exact exact_flipsTo hvalid hoverrun.past
  generalize hx : regionEnd opts file.length +
    (position gap k / 8 - (affectedBytes opts file.length).length) = x at *
  by_cases hle : (x : ℤ) ≤ offMax
  · refine iff_of_false (fun hright => ?_) (not_lt.mpr hle)
    -- A bit past the region is flipped.
    have hstep : step opts gap file.length (.inner s) = .inner (Bitflip.flip gap s x) := by
      rw [step, if_pos (by omega), hoffset, offT_eq_self (by omega) hle]
      exact if_neg (by omega)
    obtain ⟨flips, hbegins, hexact'⟩ :=
      flips_of_right hright (hreaches.tail ⟨hideal.byteOffset, hstep⟩)
    have hmem : (x, targetBit s.bitOffset) ∈ flips :=
      hbegins.subset (List.mem_append_right _ (List.mem_singleton_self _))
    obtain ⟨haffected, -⟩ := hexact'.confined _ _ hmem
    have hbefore := haffected.stop
    have hinFile := haffected.inFile
    omega
  · refine iff_of_true ?_ (not_le.mp hle)
    by_cases hlt : s.byteOffset < s.chunkSize
    · have hbound : startOf opts chunk ≤ offMax := by omega
      have hsum : (x : ℤ) = startOf opts chunk + ((position gap k - 8 * done) / 8 : ℕ) := by
        rw [← hoffset, hstart, hbyte]
      have hturn : (x : ℤ) < 2 ^ 64 := hsum ▸ add_div_lt_turn hbound hfits
      have hneg : offT (x : ℤ) < 0 := offT_neg (not_le.mp hle) hturn
      have hstep : step opts gap file.length (.inner s) = .returned .io s := by
        rw [step, if_pos hlt, hoffset]
        exact if_pos hneg
      exact right_of_reaches (hreaches.tail ⟨hideal.byteOffset, hstep⟩) hexact hideal.contents
    · have hnat : s.chunkSize = opts.chunkSize.toNat := by omega
      have hnext := hideal.nextChunk hnat (by omega)
      have hcount : ¬ (nextChunk opts s).chunk < chunkCount opts file.length := by
        have hmod := hvalid.index
        change ¬ s.chunk + opts.mod < _
        rw [hoverrun.chunk_eq]
        intro hcounted
        have hbefore := ((lt_chunkCount_iff hvalid).mp hcounted).1
        rw [← startOf_eq hvalid] at hbefore
        have hapart := @startOf_lt opts hvalid chunk (chunk + opts.mod) (by omega)
        omega
      have hleave : Reaches opts gap file.length (.inner s) (.outer (nextChunk opts s)) :=
        .single ⟨hideal.byteOffset, if_neg hlt⟩
      have hreturn : Reaches opts gap file.length (.outer (nextChunk opts s))
          (.returned .ok (nextChunk opts s)) := .single ⟨hnext.byteOffset, if_neg hcount⟩
      exact right_of_reaches ((hreaches.trans hleave).trans hreturn) hexact hideal.contents

theorem Overrun.contained_iff {k chunk : ℕ} {s : Loop}
    (hoverrun : Overrun opts gap file k chunk s) :
    Contained opts gap file.length ↔ offMax < (regionEnd opts file.length +
      (position gap k / 8 - (affectedBytes opts file.length).length) : ℕ) := by
  have hnone : ∀ m chunk' rel, ¬ Exceeds opts gap file.length m chunk' rel := fun _ _ _ =>
    hoverrun.unwrapped.not_exceeds hoverrun.past
  obtain ⟨done, hideal⟩ := hoverrun.ideal
  constructor
  · intro hcontained
    rcases hcontained.ends chunk hoverrun.mem hoverrun.wraps with ⟨m, chunk', rel, h⟩ | hfar
    · exact absurd h (hnone m chunk' rel)
    · exact hfar k hoverrun.past
  · intro hfar
    refine ⟨fun m chunk' rel h => absurd h (hnone m chunk' rel), fun _ _ _ => Or.inr ?_⟩
    intro m hm
    have hle : k ≤ m := by
      by_contra hlt
      exact hideal.inside m (not_le.mp hlt) hm
    have hmono := (position_strictMono gap).monotone hle
    omega

section Example

/-- `--start 1 -c 9223372036854775807` -/
def largeChunk : Opts := ⟨1, offMax, offMax, 0, 1, 1⟩

/-- Ten zero bytes. -/
def tenBytes : Bytes := List.replicate 10 0

/-- The first gap leads to the byte after the file, and the next one past everything. -/
def pastTheFile : ℕ → Gap
  | 0 => ⟨72, by norm_num⟩
  | _ => ⟨2 ^ 63 - 1, by norm_num⟩

/-- One chunk of ten bytes. -/
def oneChunk : Opts := ⟨0, 10, 10, 0, 1, 1⟩

end Example

end Jepsen.Resources.CorruptFile.Bitflip
