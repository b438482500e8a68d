/-
# Ranges of a file

A file as the list of its bytes: reading a range, which ends at the end of the
file, and overwriting one.
-/

import Mathlib

namespace Jepsen.Library.ByteRange

universe u

variable {B : Type u}

/-- The bytes from an offset on, at most `len` of them. -/
def copyRange (source : List B) (off len : ℕ) : List B := (source.drop off).take len

/-- Overwrite a file from an offset on. -/
def writeAt (file : List B) (off : ℕ) (bytes : List B) : List B :=
  file.take off ++ bytes ++ file.drop (off + bytes.length)

/-- What a copied range starts with is the range itself. -/
theorem copyRange_copyRange (source : List B) (off len : ℕ) :
    copyRange (copyRange source off len) 0 len = copyRange source off len := by
  unfold copyRange
  rw [List.drop_zero, List.take_take, min_self]

theorem getElem?_writeAt {file bytes : List B} {off : ℕ} (hoff : off ≤ file.length) (i : ℕ) :
    (writeAt file off bytes)[i]? =
      if off ≤ i ∧ i < off + bytes.length then bytes[i - off]? else file[i]? := by
  have htake : (file.take off).length = off := List.length_take_of_le hoff
  unfold writeAt
  rw [List.append_assoc, List.getElem?_append, htake]
  by_cases hlt : i < off
  · rw [if_pos hlt, if_neg (by omega), List.getElem?_take_of_lt hlt]
  · rw [if_neg hlt, List.getElem?_append]
    by_cases hin : i - off < bytes.length
    · rw [if_pos hin, if_pos (by omega)]
    · rw [if_neg hin, if_neg (by omega), List.getElem?_drop]
      congr 1
      omega

/-- Writing back what another file of the same length has in a range. -/
theorem getElem?_writeAt_copyRange {file source : List B} {off len : ℕ}
    (hlength : file.length = source.length) (hoff : off ≤ file.length) (i : ℕ) :
    (writeAt file off (copyRange source off len))[i]? =
      if off ≤ i ∧ i < off + len then source[i]? else file[i]? := by
  have hlen : (copyRange source off len).length = min len (source.length - off) := by
    rw [copyRange, List.length_take, List.length_drop]
  rw [getElem?_writeAt hoff, hlen]
  by_cases hin : off ≤ i ∧ i < off + len
  · rw [if_pos hin]
    by_cases hi : i < source.length
    · rw [if_pos (by omega), copyRange, List.getElem?_take_of_lt (by omega), List.getElem?_drop]
      congr 1
      omega
    · rw [if_neg (by omega), List.getElem?_eq_none (by omega), List.getElem?_eq_none (by omega)]
  · rw [if_neg hin, if_neg (by omega)]

theorem length_writeAt_copyRange {file source : List B} {off len : ℕ}
    (hlength : file.length = source.length) (hoff : off ≤ file.length) :
    (writeAt file off (copyRange source off len)).length = file.length := by
  unfold writeAt copyRange
  simp only [List.length_append, List.length_take, List.length_drop]
  omega

end Jepsen.Library.ByteRange
