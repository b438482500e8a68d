/-
# Tracing a graph by recursion

What a node leads to is found by a recursion into everything that it refers to, as deep as
the stack allows. What is found is exact, and a stack of some depth suffices unless what a
node refers to cannot be found out, or a path goes on forever.
-/

import Mathlib.Data.Finset.Insert
import Mathlib.Data.Finset.Lattice.Basic
import Mathlib.Logic.Relation

namespace Jepsen.Library.Descent

universe u v

variable {α : Type u} {ε : Type v} [DecidableEq α]

/-! ## Unions of what may fail -/

/-- What was found, and all that some function finds for some nodes, one after another. -/
def gather (f : α → Except ε (Finset α)) : Finset α → List α → Except ε (Finset α)
  | found, [] => .ok found
  | found, b :: bs =>
      match f b with
      | .error e => .error e
      | .ok more => gather f (found ∪ more) bs

theorem mem_of_gather {f : α → Except ε (Finset α)} {found s : Finset α} {bs : List α}
    (hgather : gather f found bs = .ok s) (a : α) :
    a ∈ s ↔ a ∈ found ∨ ∃ b ∈ bs, ∃ more, f b = .ok more ∧ a ∈ more := by
  induction bs generalizing found with
  | nil =>
    cases hgather
    simp only [List.not_mem_nil, false_and, exists_false, or_false]
  | cons b bs ih =>
    unfold gather at hgather
    cases hb : f b with
    | error e =>
      rw [hb] at hgather
      cases hgather
    | ok more =>
      rw [hb] at hgather
      rw [ih hgather, Finset.mem_union, or_assoc]
      simp only [List.mem_cons, exists_eq_or_imp, hb, Except.ok.injEq, exists_eq_left']

theorem forall_of_gather {f : α → Except ε (Finset α)} {found s : Finset α} {bs : List α}
    (hgather : gather f found bs = .ok s) : ∀ b ∈ bs, ∃ more, f b = .ok more := by
  induction bs generalizing found with
  | nil => exact fun b hb => absurd hb List.not_mem_nil
  | cons b bs ih =>
    unfold gather at hgather
    cases hb : f b with
    | error e =>
      rw [hb] at hgather
      cases hgather
    | ok more =>
      rw [hb] at hgather
      exact List.forall_mem_cons.mpr ⟨⟨more, hb⟩, ih hgather⟩

theorem exists_gather {f : α → Except ε (Finset α)} (found : Finset α) {bs : List α}
    (hall : ∀ b ∈ bs, ∃ more, f b = .ok more) : ∃ s, gather f found bs = .ok s := by
  induction bs generalizing found with
  | nil => exact ⟨found, rfl⟩
  | cons b bs ih =>
    obtain ⟨⟨more, hb⟩, hrest⟩ := List.forall_mem_cons.mp hall
    obtain ⟨s, hs⟩ := ih (found ∪ more) hrest
    refine ⟨s, ?_⟩
    unfold gather
    rw [hb]
    exact hs

theorem gather_mono {f g : α → Except ε (Finset α)}
    (hmono : ∀ b more, f b = .ok more → g b = .ok more) {found s : Finset α} {bs : List α}
    (hgather : gather f found bs = .ok s) : gather g found bs = .ok s := by
  induction bs generalizing found with
  | nil => exact hgather
  | cons b bs ih =>
    unfold gather at hgather ⊢
    cases hb : f b with
    | error e =>
      rw [hb] at hgather
      cases hgather
    | ok more =>
      rw [hb] at hgather
      rw [hmono b more hb]
      exact ih hgather

/-! ## What a node leads to -/

section Graph

variable (next : α → Except ε (List α))

/-- A node is found to refer to another one. -/
def Refers (a b : α) : Prop := ∃ bs, next a = .ok bs ∧ b ∈ bs

/-- A node leads to another one, or is that one. -/
def Reaches : α → α → Prop := Relation.ReflTransGen (Refers next)

/-- Nodes that a node refers to, and those that they lead to, by a recursion of some depth. -/
def descendants (overflow : ε) : ℕ → α → Except ε (Finset α)
  | 0, _ => .error overflow
  | depth + 1, a =>
      match next a with
      | .error e => .error e
      | .ok bs => gather (descendants overflow depth) bs.toFinset bs

end Graph

variable {next : α → Except ε (List α)} {overflow : ε}

theorem descendants_succ_eq_ok {depth : ℕ} {a : α} {s : Finset α}
    (hs : descendants next overflow (depth + 1) a = .ok s) :
    ∃ bs, next a = .ok bs ∧ gather (descendants next overflow depth) bs.toFinset bs = .ok s := by
  unfold descendants at hs
  cases hnext : next a with
  | error e =>
    rw [hnext] at hs
    cases hs
  | ok bs =>
    rw [hnext] at hs
    exact ⟨bs, rfl, hs⟩

theorem descendants_succ_of_next {depth : ℕ} {a : α} {bs : List α} (hnext : next a = .ok bs) :
    descendants next overflow (depth + 1) a =
      gather (descendants next overflow depth) bs.toFinset bs := by
  rw [descendants, hnext]

/-- What is found is what a node leads to, and nothing else. -/
theorem mem_descendants {depth : ℕ} {a : α} {s : Finset α}
    (hs : descendants next overflow depth a = .ok s) (b : α) :
    b ∈ s ↔ Relation.TransGen (Refers next) a b := by
  induction depth generalizing a s b with
  | zero => cases hs
  | succ depth ih =>
    obtain ⟨bs, hnext, hgather⟩ := descendants_succ_eq_ok hs
    have hrefers : ∀ c, Refers next a c ↔ c ∈ bs := by
      intro c
      unfold Refers
      rw [hnext]
      simp only [Except.ok.injEq, exists_eq_left']
    rw [mem_of_gather hgather, List.mem_toFinset, Relation.TransGen.head'_iff]
    constructor
    · rintro (hdirect | ⟨c, hc, more, hmore, hb⟩)
      · exact ⟨b, (hrefers b).mpr hdirect, Relation.ReflTransGen.refl⟩
      · exact ⟨c, (hrefers c).mpr hc, ((ih hmore b).mp hb).to_reflTransGen⟩
    · rintro ⟨c, hc, hpath⟩
      have hmem := (hrefers c).mp hc
      obtain ⟨more, hmore⟩ := forall_of_gather hgather c hmem
      cases Relation.reflTransGen_iff_eq_or_transGen.mp hpath with
      | inl heq => exact Or.inl (heq ▸ hmem)
      | inr hlater => exact Or.inr ⟨c, hmem, more, hmore, (ih hmore b).mpr hlater⟩

/-- What the nodes refer to that a node leads to has been found out. -/
theorem next_of_descendants {depth : ℕ} {a b : α} {s : Finset α}
    (hs : descendants next overflow depth a = .ok s) (hreaches : Reaches next a b) :
    ∃ bs, next b = .ok bs := by
  induction depth generalizing a s with
  | zero => cases hs
  | succ depth ih =>
    obtain ⟨bs, hnext, hgather⟩ := descendants_succ_eq_ok hs
    cases Relation.ReflTransGen.cases_head hreaches with
    | inl heq => exact heq ▸ ⟨bs, hnext⟩
    | inr hlater =>
      obtain ⟨c, ⟨bs', hnext', hc⟩, hpath⟩ := hlater
      rw [hnext] at hnext'
      cases hnext'
      obtain ⟨more, hmore⟩ := forall_of_gather hgather c hc
      exact ih hmore hpath

/-- A deeper stack does not find anything else. -/
theorem descendants_mono {depth depth' : ℕ} (hle : depth ≤ depth') {a : α} {s : Finset α}
    (hs : descendants next overflow depth a = .ok s) :
    descendants next overflow depth' a = .ok s := by
  induction depth generalizing depth' a s with
  | zero => cases hs
  | succ depth ih =>
    obtain ⟨bs, hnext, hgather⟩ := descendants_succ_eq_ok hs
    obtain ⟨deeper, rfl⟩ := Nat.exists_eq_add_of_le' (Nat.one_le_of_lt hle)
    rw [descendants_succ_of_next hnext]
    exact gather_mono (fun b more hb => ih (Nat.le_of_succ_le_succ hle) hb) hgather

/-- No path from a node goes on forever if a stack of some depth suffices. -/
theorem acc_of_descendants {depth : ℕ} {a : α} {s : Finset α}
    (hs : descendants next overflow depth a = .ok s) : Acc (fun b a => Refers next a b) a := by
  induction depth generalizing a s with
  | zero => cases hs
  | succ depth ih =>
    obtain ⟨bs, hnext, hgather⟩ := descendants_succ_eq_ok hs
    constructor
    rintro b ⟨bs', hnext', hb⟩
    rw [hnext] at hnext'
    cases hnext'
    obtain ⟨more, hmore⟩ := forall_of_gather hgather b hb
    exact ih hmore

theorem exists_depth_of_forall {bs : List α}
    (hall : ∀ b ∈ bs, ∃ depth more, descendants next overflow depth b = .ok more) :
    ∃ depth, ∀ b ∈ bs, ∃ more, descendants next overflow depth b = .ok more := by
  induction bs with
  | nil => exact ⟨0, fun b hb => absurd hb List.not_mem_nil⟩
  | cons b bs ih =>
    obtain ⟨⟨depth, more, hb⟩, hrest⟩ := List.forall_mem_cons.mp hall
    obtain ⟨depth', hdepth'⟩ := ih hrest
    refine ⟨max depth depth', List.forall_mem_cons.mpr ⟨⟨more, ?_⟩, fun c hc => ?_⟩⟩
    · exact descendants_mono (le_max_left _ _) hb
    · obtain ⟨more', hmore'⟩ := hdepth' c hc
      exact ⟨more', descendants_mono (le_max_right _ _) hmore'⟩

/-- A stack of some depth suffices if what all nodes refer to can be found out and no path goes on
forever. -/
theorem exists_descendants {a : α} (hacc : Acc (fun b a => Refers next a b) a)
    (hnext : ∀ b, Reaches next a b → ∃ bs, next b = .ok bs) :
    ∃ depth s, descendants next overflow depth a = .ok s := by
  induction hacc with
  | intro a _ ih =>
    obtain ⟨bs, hbs⟩ := hnext a Relation.ReflTransGen.refl
    obtain ⟨depth, hdepth⟩ := exists_depth_of_forall fun b hb =>
      ih b ⟨bs, hbs, hb⟩ fun c hc => hnext c (hc.head ⟨bs, hbs, hb⟩)
    obtain ⟨s, hs⟩ := exists_gather bs.toFinset hdepth
    exact ⟨depth + 1, s, (descendants_succ_of_next hbs).trans hs⟩

end Jepsen.Library.Descent
