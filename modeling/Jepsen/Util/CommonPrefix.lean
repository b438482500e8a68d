/-
# Common prefixes

`longest-common-prefix` goes through some sequences and keeps what they have in
common, and `drop-common-proper-prefix` drops that from each of them, as far as it
leaves something of the shortest one. So what is dropped is the longest common
prefix that leaves no sequence empty, and sequences that differ still differ.
-/

import Mathlib

namespace Jepsen.Util

universe u

variable {α : Type u} [DecidableEq α]

/-- How many elements two sequences have in common. -/
def commonLength (s₁ s₂ : List α) : ℕ :=
  ((s₁.zip s₂).takeWhile fun p => p.1 = p.2).length

/-- The function that `longest-common-prefix` reduces with. -/
def commonPrefix (s₁ s₂ : List α) : List α :=
  let len := commonLength s₁ s₂
  if len = s₁.length then s₁ else s₂.take len

/-- `longest-common-prefix`, with nil as no elements. -/
def longestCommonPrefix : List (List α) → List α
  | [] => []
  | c :: cs => cs.foldl commonPrefix c

/-- How many elements `drop-common-proper-prefix` drops. -/
def properLength (cs : List (List α)) : ℤ :=
  (cs.map fun c => (c.length : ℤ) - 1).foldl min (longestCommonPrefix cs).length

/-- `drop-common-proper-prefix` -/
def dropCommonProperPrefix (cs : List (List α)) : List (List α) :=
  cs.map (List.drop (properLength cs).toNat)

/-! ## The common proper prefix -/

theorem take_commonLength (s₁ s₂ : List α) :
    s₁.take (commonLength s₁ s₂) = s₂.take (commonLength s₁ s₂) := by
  unfold commonLength
  induction s₁ generalizing s₂ with
  | nil => simp
  | cons x s₁ ih =>
    cases s₂ with
    | nil => simp
    | cons y s₂ =>
      rw [List.zip_cons_cons, List.takeWhile_cons]
      by_cases heq : x = y
      · subst heq
        rw [if_pos (decide_eq_true rfl), List.length_cons, List.take_succ_cons,
          List.take_succ_cons, ih]
      · rw [if_neg (by simpa using heq)]
        rfl

theorem commonPrefix_eq_take (s₁ s₂ : List α) :
    commonPrefix s₁ s₂ = s₂.take (commonLength s₁ s₂) := by
  unfold commonPrefix
  dsimp only
  split_ifs with hall
  · rw [← take_commonLength, hall, List.take_length]
  · rfl

theorem longestCommonPrefix_isPrefix {cs : List (List α)} {c : List α} (hc : c ∈ cs) :
    longestCommonPrefix cs <+: c := by
  have hfold : ∀ (cs : List (List α)) (c : List α),
      cs.foldl commonPrefix c <+: c ∧ ∀ c' ∈ cs, cs.foldl commonPrefix c <+: c' := by
    intro cs
    induction cs with
    | nil => exact fun c => ⟨List.prefix_refl c, fun c' hc' => absurd hc' List.not_mem_nil⟩
    | cons x cs ih =>
      intro c
      obtain ⟨hfirst, hrest⟩ := ih (commonPrefix c x)
      rw [List.foldl_cons]
      constructor
      · refine hfirst.trans ?_
        rw [commonPrefix_eq_take, ← take_commonLength]
        exact List.take_prefix _ _
      · intro c' hc'
        rcases List.mem_cons.mp hc' with rfl | hc'
        · refine hfirst.trans ?_
          rw [commonPrefix_eq_take]
          exact List.take_prefix _ _
        · exact hrest c' hc'
  cases cs with
  | nil => exact absurd hc List.not_mem_nil
  | cons x cs =>
    rcases List.mem_cons.mp hc with rfl | hc
    · exact (hfold cs c).1
    · exact (hfold cs x).2 c hc

theorem foldl_min_le (l : List ℤ) (m : ℤ) :
    l.foldl min m ≤ m ∧ ∀ x ∈ l, l.foldl min m ≤ x := by
  induction l generalizing m with
  | nil => exact ⟨le_rfl, fun x hx => absurd hx List.not_mem_nil⟩
  | cons y l ih =>
    obtain ⟨hle, hall⟩ := ih (min m y)
    rw [List.foldl_cons]
    refine ⟨hle.trans (min_le_left m y), fun x hx => ?_⟩
    rcases List.mem_cons.mp hx with rfl | hx
    · exact hle.trans (min_le_right m x)
    · exact hall x hx

theorem properLength_le {cs : List (List α)} {c : List α} (hc : c ∈ cs) :
    properLength cs ≤ (longestCommonPrefix cs).length ∧ properLength cs ≤ (c.length : ℤ) - 1 := by
  obtain ⟨hle, hall⟩ := foldl_min_le (cs.map fun c => (c.length : ℤ) - 1)
    (longestCommonPrefix cs).length
  exact ⟨hle, hall _ (List.mem_map_of_mem hc)⟩

theorem take_properLength {cs : List (List α)} {c : List α} (hc : c ∈ cs) :
    c.take (properLength cs).toNat = (longestCommonPrefix cs).take (properLength cs).toNat := by
  obtain ⟨rest, hrest⟩ := longestCommonPrefix_isPrefix hc
  have hle := (properLength_le hc).1
  rw [← hrest, List.take_append_of_le_length (by omega)]

/-! ## Nothing longer is common -/

/-- All that two sequences have in common is in the prefix. -/
theorem length_le_commonLength {pre s₁ s₂ : List α} (h₁ : pre <+: s₁) (h₂ : pre <+: s₂) :
    pre.length ≤ commonLength s₁ s₂ := by
  unfold commonLength
  induction pre generalizing s₁ s₂ with
  | nil => exact Nat.zero_le _
  | cons x pre ih =>
    obtain ⟨t₁, rfl⟩ := h₁
    obtain ⟨t₂, rfl⟩ := h₂
    rw [List.cons_append, List.cons_append, List.zip_cons_cons, List.takeWhile_cons,
      if_pos (decide_eq_true rfl), List.length_cons, List.length_cons]
    exact Nat.succ_le_succ (ih (List.prefix_append _ _) (List.prefix_append _ _))

theorem prefix_commonPrefix {pre s₁ s₂ : List α} (h₁ : pre <+: s₁) (h₂ : pre <+: s₂) :
    pre <+: commonPrefix s₁ s₂ := by
  rw [commonPrefix_eq_take]
  exact List.prefix_take_iff.mpr ⟨h₂, length_le_commonLength h₁ h₂⟩

/-- A common prefix of some sequences is one of their longest. -/
theorem prefix_longestCommonPrefix {cs : List (List α)} {pre : List α} (hne : cs ≠ [])
    (hpre : ∀ c ∈ cs, pre <+: c) : pre <+: longestCommonPrefix cs := by
  have hfold : ∀ (cs : List (List α)) (c : List α), pre <+: c → (∀ c' ∈ cs, pre <+: c') →
      pre <+: cs.foldl commonPrefix c := by
    intro cs
    induction cs with
    | nil => exact fun c hc _ => hc
    | cons x cs ih =>
      intro c hc hcs
      rw [List.foldl_cons]
      exact ih _ (prefix_commonPrefix hc (hcs x List.mem_cons_self))
        fun c' hc' => hcs c' (List.mem_cons_of_mem x hc')
  cases cs with
  | nil => exact absurd rfl hne
  | cons c cs =>
    exact hfold cs c (hpre c List.mem_cons_self)
      fun c' hc' => hpre c' (List.mem_cons_of_mem c hc')

theorem le_foldl_min {l : List ℤ} {k m : ℤ} (hm : k ≤ m) (hl : ∀ x ∈ l, k ≤ x) :
    k ≤ l.foldl min m := by
  induction l generalizing m with
  | nil => exact hm
  | cons y l ih =>
    rw [List.foldl_cons]
    exact ih (le_min hm (hl y List.mem_cons_self)) fun x hx => hl x (List.mem_cons_of_mem y hx)

/-! ## What is dropped -/

/-- The prefix that is dropped. -/
def properPrefix (cs : List (List α)) : List α :=
  (longestCommonPrefix cs).take (properLength cs).toNat

theorem length_properPrefix {cs : List (List α)} (hne : cs ≠ []) :
    (properPrefix cs).length = (properLength cs).toNat := by
  obtain ⟨c, hc⟩ := List.exists_mem_of_ne_nil cs hne
  have hle := (properLength_le hc).1
  unfold properPrefix
  rw [List.length_take]
  omega

theorem properPrefix_prefix {cs : List (List α)} {c : List α} (hc : c ∈ cs) :
    properPrefix cs <+: c :=
  (List.take_prefix _ _).trans (longestCommonPrefix_isPrefix hc)

theorem dropCommonProperPrefix_eq (cs : List (List α)) :
    dropCommonProperPrefix cs = cs.map (List.drop (properPrefix cs).length) := by
  cases cs with
  | nil => rfl
  | cons c cs =>
    rw [length_properPrefix (List.cons_ne_nil c cs)]
    rfl

/-- Something is left of each sequence that is not empty. -/
theorem drop_ne_nil {cs : List (List α)} {c : List α} (hc : c ∈ cs) (hne : c ≠ []) :
    c.drop (properPrefix cs).length ≠ [] := by
  have hle := (properLength_le hc).2
  have hpos := List.length_pos_iff.mpr hne
  rw [length_properPrefix (List.ne_nil_of_mem hc), Ne, List.drop_eq_nil_iff]
  omega

/-- No longer common prefix leaves something of each sequence. -/
theorem length_le_properPrefix {cs : List (List α)} {pre : List α} (hne : cs ≠ [])
    (hpre : ∀ c ∈ cs, pre <+: c ∧ c.drop pre.length ≠ []) :
    pre.length ≤ (properPrefix cs).length := by
  have hcommon := (prefix_longestCommonPrefix hne fun c hc => (hpre c hc).1).length_le
  have hproper : (pre.length : ℤ) ≤ properLength cs := by
    apply le_foldl_min
    · exact Int.ofNat_le.mpr hcommon
    · intro x hx
      obtain ⟨c, hc, rfl⟩ := List.mem_map.mp hx
      have hleft := (hpre c hc).2
      rw [Ne, List.drop_eq_nil_iff] at hleft
      omega
  rw [length_properPrefix hne]
  omega

theorem drop_inj {cs : List (List α)} {a b : List α} (ha : a ∈ cs) (hb : b ∈ cs)
    (heq : a.drop (properPrefix cs).length = b.drop (properPrefix cs).length) : a = b := by
  obtain ⟨s, rfl⟩ := properPrefix_prefix ha
  obtain ⟨t, rfl⟩ := properPrefix_prefix hb
  rw [List.drop_left, List.drop_left] at heq
  rw [heq]

/-- The longest common prefix that leaves no sequence empty is removed. -/
structure DropsLongest (cs results : List (List α)) (pre : List α) : Prop where
  removed : results = cs.map (List.drop pre.length)
  common : ∀ c ∈ cs, pre <+: c
  nonempty : ∀ c ∈ results, c ≠ []
  longest : ∀ pre' : List α, cs ≠ [] → (∀ c ∈ cs, pre' <+: c ∧ c.drop pre'.length ≠ []) →
    pre'.length ≤ pre.length

/-- Where two elements differ, so do the results at their positions. -/
def KeepsDistinct {β : Type*} {γ : Type*} (inputs : List β) (results : List γ) : Prop :=
  results.length = inputs.length ∧
    ∀ (i j : ℕ) (a b : β), inputs[i]? = some a → inputs[j]? = some b → a ≠ b →
      results[i]? ≠ results[j]?

theorem keepsDistinct_map {β : Type*} {γ : Type*} {inputs : List β} {f : β → γ}
    (hf : ∀ a ∈ inputs, ∀ b ∈ inputs, f a = f b → a = b) : KeepsDistinct inputs (inputs.map f) := by
  refine ⟨List.length_map _, fun i j a b ha hb hne heq => ?_⟩
  rw [List.getElem?_map, List.getElem?_map, ha, hb] at heq
  exact hne (hf a (List.mem_of_getElem? ha) b (List.mem_of_getElem? hb) (Option.some.inj heq))

theorem dropsLongest {cs : List (List α)} (hne : ∀ c ∈ cs, c ≠ []) :
    DropsLongest cs (dropCommonProperPrefix cs) (properPrefix cs) where
  removed := dropCommonProperPrefix_eq cs
  common _ hc := properPrefix_prefix hc
  nonempty c hc := by
    rw [dropCommonProperPrefix_eq] at hc
    obtain ⟨c', hc', rfl⟩ := List.mem_map.mp hc
    exact drop_ne_nil hc' (hne c' hc')
  longest _ hcs hpre := length_le_properPrefix hcs hpre

theorem keepsDistinct (cs : List (List α)) : KeepsDistinct cs (dropCommonProperPrefix cs) := by
  rw [dropCommonProperPrefix_eq]
  exact keepsDistinct_map fun a ha b hb => drop_inj ha hb

end Jepsen.Util
