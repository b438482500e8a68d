/-
# Splitting and joining strings

`clojure.string/split` at a character and `clojure.string/join` with it: pieces
that do not contain the character can be read off what they are joined to.
-/

import Mathlib

namespace Jepsen.Util

/-- `str/split` at a character, without trailing empty strings. -/
def split (sep : Char) (s : List Char) : List (List Char) :=
  if sep ∈ s then (s.splitOn sep).rdropWhile fun piece => piece = [] else [s]

/-- `str/join` with a character. -/
def join (sep : Char) (pieces : List (List Char)) : List Char := [sep].intercalate pieces

theorem notMem_of_mem_splitOn {sep : Char} {s piece : List Char} (hmem : piece ∈ s.splitOn sep) :
    sep ∉ piece := by
  induction s generalizing piece with
  | nil =>
    rw [List.splitOn_nil, List.mem_singleton] at hmem
    subst hmem
    exact List.not_mem_nil
  | cons c s ih =>
    rw [List.splitOn_cons_eq_if_modifyHead] at hmem
    split_ifs at hmem with hsep
    · rcases List.mem_cons.mp hmem with rfl | hmem
      · exact List.not_mem_nil
      · exact ih hmem
    · have hne : c ≠ sep := by simpa using hsep
      cases hsplit : s.splitOn sep with
      | nil => exact absurd hsplit (List.splitOn_ne_nil sep s)
      | cons head rest =>
        rw [hsplit] at ih hmem
        rcases List.mem_cons.mp hmem with rfl | hmem
        · intro hin
          rcases List.mem_cons.mp hin with heq | hin
          · exact hne heq.symm
          · exact ih List.mem_cons_self hin
        · exact ih (List.mem_cons_of_mem head hmem)

theorem notMem_of_mem_split {sep : Char} {s piece : List Char} (hmem : piece ∈ split sep s) :
    sep ∉ piece := by
  unfold split at hmem
  split_ifs at hmem with hsep
  · exact notMem_of_mem_splitOn ((List.rdropWhile_prefix _ _).subset hmem)
  · rw [List.mem_singleton.mp hmem]
    exact hsep

/-- Pieces without the separator can be read off what they are joined to. -/
theorem splitOn_join {sep : Char} {pieces : List (List Char)}
    (hpieces : ∀ piece ∈ pieces, sep ∉ piece) (hne : pieces ≠ []) :
    (join sep pieces).splitOn sep = pieces :=
  List.splitOn_intercalate sep hpieces hne

theorem join_inj {sep : Char} {a b : List (List Char)} (ha : ∀ piece ∈ a, sep ∉ piece)
    (hb : ∀ piece ∈ b, sep ∉ piece) (hane : a ≠ []) (hbne : b ≠ [])
    (heq : join sep a = join sep b) : a = b := by
  rw [← splitOn_join ha hane, heq, splitOn_join hb hbne]

theorem join_splitOn (sep : Char) (s : List Char) : join sep (s.splitOn sep) = s :=
  List.intercalate_splitOn sep

theorem eq_singleton_nil_of_join {sep : Char} {pieces : List (List Char)}
    (hpieces : ∀ piece ∈ pieces, sep ∉ piece) (hne : pieces ≠ []) (hnil : join sep pieces = []) :
    pieces = [[]] := by
  rw [← splitOn_join hpieces hne, hnil]
  rfl

/-- Without empty pieces, nothing is left out. -/
theorem split_eq_splitOn {sep : Char} {s : List Char}
    (hpieces : ∀ piece ∈ s.splitOn sep, piece ≠ []) : split sep s = s.splitOn sep := by
  unfold split
  split_ifs with hsep
  · rw [List.rdropWhile_eq_self_iff]
    intro hne
    have hlast := hpieces _ (List.getLast_mem hne)
    simpa using hlast
  · exact (List.splitOn_eq_singleton hsep).symm

end Jepsen.Util
