/-
# Multimaps

Association maps whose values are lists or finite sets. A multimap of lists is
built by appending to what a key has; a multimap of sets by merging with unions.
Both constructions are folds, and the lemmas here say what the result of the
whole fold has for a key in terms of the inputs alone.
-/

import Jepsen.Library.Assoc

namespace Jepsen.Library

universe u v w

/-- An order in which the elements of any finite set can be walked. -/
structure SetOrder (V : Type v) where
  walk : Finset V → List V
  mem_walk : ∀ {s : Finset V} {v : V}, v ∈ walk s ↔ v ∈ s
  nodup_walk : ∀ s : Finset V, (walk s).Nodup

/-- Walk a set from its least element on. -/
def SetOrder.ascending (V : Type v) [LinearOrder V] : SetOrder V where
  walk s := Quot.liftOn s.1 (List.insertionSort (· ≤ ·)) fun l l' hperm =>
    List.Perm.eq_of_pairwise' (l.pairwise_insertionSort _) (l'.pairwise_insertionSort _)
      (((l.perm_insertionSort _).trans hperm).trans (l'.perm_insertionSort _).symm)
  mem_walk := by
    intro s v
    obtain ⟨l, hl⟩ := s
    induction l using Quot.ind
    exact List.mem_insertionSort _
  nodup_walk := by
    intro s
    obtain ⟨l, hl⟩ := s
    induction l using Quot.ind with
    | mk l => exact (l.perm_insertionSort _).nodup_iff.mpr hl

/-- A set with at least one element. -/
abbrev NonemptySet (V : Type v) := { s : Finset V // s.Nonempty }

namespace NonemptySet

variable {V : Type v} [DecidableEq V]

/-- Add an element to a set that need not exist yet. -/
def add (s : Option (NonemptySet V)) (v : V) : NonemptySet V :=
  match s with
  | none => ⟨{v}, Finset.singleton_nonempty v⟩
  | some s => ⟨insert v s.1, Finset.insert_nonempty v s.1⟩

/-- The set with one element. -/
def single (v : V) : NonemptySet V := ⟨{v}, Finset.singleton_nonempty v⟩

def union (s t : NonemptySet V) : NonemptySet V :=
  ⟨s.1 ∪ t.1, s.2.mono Finset.subset_union_left⟩

theorem mem_add {s : Option (NonemptySet V)} {v w : V} :
    w ∈ (add s v).1 ↔ (∃ t, s = some t ∧ w ∈ t.1) ∨ w = v := by
  cases s with
  | none => simp [add]
  | some t => simp [add, or_comm]

end NonemptySet

namespace SetOrder

variable {V : Type v} (order : SetOrder V)

theorem length_walk (s : Finset V) : (order.walk s).length = s.card := by
  classical
  rw [← List.toFinset_card_of_nodup (order.nodup_walk s)]
  congr 1
  ext v
  rw [List.mem_toFinset, order.mem_walk]

theorem walk_ne_nil {s : Finset V} (hs : s.Nonempty) : order.walk s ≠ [] := by
  intro hnil
  have hmem := order.mem_walk.mpr hs.choose_spec
  rw [hnil] at hmem
  cases hmem

/-- The element a walk of the set starts with. -/
def first (s : NonemptySet V) : V := (order.walk s.1).head (order.walk_ne_nil s.2)

theorem first_mem (s : NonemptySet V) : order.first s ∈ s.1 :=
  order.mem_walk.mp (List.head_mem _)

end SetOrder

namespace Assoc

variable {K : Type u} {V : Type v} {W : Type w} [DecidableEq K]

/-! ## Maps to lists -/

/-- Append to the list of a key, which starts out empty. -/
def extend (m : Assoc K (List V)) (k : K) (vs : List V) : Assoc K (List V) :=
  alter k (fun old => old.getD [] ++ vs) m

/-- Append every list to the list of its key. -/
def extendAll (m : Assoc K (List V)) (l : List (Σ _ : K, List V)) : Assoc K (List V) :=
  l.foldl (fun m e => m.extend e.1 e.2) m

/-- Everything a list of extensions appends to one key. -/
def appended (l : List (Σ _ : K, List V)) (k : K) : List V :=
  l.flatMap fun e => if e.1 = k then e.2 else []

theorem appended_of_notMem {l : List (Σ _ : K, List V)} {k : K}
    (hmem : k ∉ l.map Sigma.fst) : appended l k = [] := by
  rw [appended, List.flatMap_eq_nil_iff]
  intro e he
  rw [if_neg]
  intro heq
  exact hmem (heq ▸ List.mem_map_of_mem he)

theorem lookup_extendAll (m : Assoc K (List V)) (l : List (Σ _ : K, List V)) (k : K) :
    (m.extendAll l).lookup k =
      if k ∈ l.map Sigma.fst then some ((m.lookup k).getD [] ++ appended l k)
      else m.lookup k := by
  induction l generalizing m with
  | nil => rfl
  | cons e l ih =>
    have hstep : m.extendAll (e :: l) = (m.extend e.1 e.2).extendAll l := rfl
    have happended : appended (e :: l) k = (if e.1 = k then e.2 else []) ++ appended l k := rfl
    rw [hstep, ih, extend, lookup_alter, happended]
    by_cases heq : k = e.1
    · subst heq
      by_cases hmem : e.1 ∈ l.map Sigma.fst
      · simp [hmem, List.append_assoc]
      · simp [hmem, appended_of_notMem hmem]
    · have hne : e.1 ≠ k := fun h => heq h.symm
      simp only [heq, hne, if_false, List.nil_append, List.map_cons, List.mem_cons, false_or]

theorem mem_appended {l : List (Σ _ : K, List V)} {k : K} {v : V} :
    v ∈ appended l k ↔ ∃ e ∈ l, e.1 = k ∧ v ∈ e.2 := by
  rw [appended, List.mem_flatMap]
  constructor
  · rintro ⟨e, he, hv⟩
    by_cases heq : e.1 = k
    · rw [if_pos heq] at hv
      exact ⟨e, he, heq, hv⟩
    · rw [if_neg heq] at hv
      cases hv
  · rintro ⟨e, he, heq, hv⟩
    refine ⟨e, he, ?_⟩
    rw [if_pos heq]
    exact hv

/-- `group-by`: the elements of a list under what a function gives for them. -/
def groupBy (g : V → K) (l : List V) : Assoc K (List V) :=
  (∅ : Assoc K (List V)).extendAll (l.map fun v => ⟨g v, [v]⟩)

theorem lookup_groupBy (g : V → K) (l : List V) (k : K) :
    (groupBy g l).lookup k =
      if k ∈ l.map g then some (l.filter fun v => decide (g v = k)) else none := by
  have happended : appended (l.map fun v => (⟨g v, [v]⟩ : Σ _ : K, List V)) k =
      l.filter fun v => decide (g v = k) := by
    induction l with
    | nil => rfl
    | cons v l ih =>
      have hsplit : appended ((v :: l).map fun v => (⟨g v, [v]⟩ : Σ _ : K, List V)) k =
          (if g v = k then [v] else []) ++
            appended (l.map fun v => (⟨g v, [v]⟩ : Σ _ : K, List V)) k := rfl
      rw [hsplit, ih, List.filter_cons]
      by_cases heq : g v = k <;> simp [heq]
  have hkeys : (l.map fun v => (⟨g v, [v]⟩ : Σ _ : K, List V)).map Sigma.fst = l.map g := by
    rw [List.map_map]
    rfl
  rw [groupBy, lookup_extendAll, hkeys, happended]
  rfl

/-! ## Maps to sets -/

/-- The set of a key; a key that is missing has the empty set. -/
def valuesAt (m : Assoc K (Finset V)) (k : K) : Finset V := (m.lookup k).getD ∅

@[simp]
theorem valuesAt_empty (k : K) :
    valuesAt (∅ : Assoc K (Finset V)) k = ∅ := rfl

theorem lookup_eq_valuesAt {m : Assoc K (Finset V)} {k : K} (hmem : k ∈ m) :
    m.lookup k = some (m.valuesAt k) := by
  obtain ⟨vs, hvs⟩ := Option.isSome_iff_exists.mp (AList.lookup_isSome.mpr hmem)
  rw [Assoc.valuesAt, hvs]
  rfl

theorem mem_mergeWith {f : V → V → V} {m₁ m₂ : Assoc K V} {k : K} :
    k ∈ mergeWith f m₁ m₂ ↔ k ∈ m₁ ∨ k ∈ m₂ := by
  rw [← AList.lookup_isSome, ← AList.lookup_isSome, ← AList.lookup_isSome, lookup_mergeWith]
  cases m₁.lookup k <;> cases m₂.lookup k <;> simp

variable [DecidableEq V]

/-- Merge two maps to sets, with the union on the keys they share. -/
def mergeUnion (m₁ m₂ : Assoc K (Finset V)) : Assoc K (Finset V) := mergeWith (· ∪ ·) m₁ m₂

@[simp]
theorem valuesAt_mergeUnion (m₁ m₂ : Assoc K (Finset V)) (k : K) :
    (mergeUnion m₁ m₂).valuesAt k = m₁.valuesAt k ∪ m₂.valuesAt k := by
  unfold valuesAt mergeUnion
  rw [lookup_mergeWith]
  cases m₁.lookup k <;> cases m₂.lookup k <;> simp

/-- Merge a list of maps into one. -/
def unionAll (m : Assoc K (Finset V)) (l : List (Assoc K (Finset V))) : Assoc K (Finset V) :=
  l.foldl mergeUnion m

theorem mem_valuesAt_unionAll {m : Assoc K (Finset V)} {l : List (Assoc K (Finset V))} {k : K}
    {v : V} :
    v ∈ (m.unionAll l).valuesAt k ↔ v ∈ m.valuesAt k ∨ ∃ m' ∈ l, v ∈ m'.valuesAt k := by
  induction l generalizing m with
  | nil => simp [unionAll]
  | cons m' l ih =>
    have hstep : m.unionAll (m' :: l) = (mergeUnion m m').unionAll l := rfl
    rw [hstep, ih, valuesAt_mergeUnion, Finset.mem_union, or_assoc]
    simp only [List.mem_cons, exists_eq_or_imp]

theorem mem_unionAll {m : Assoc K (Finset V)} {l : List (Assoc K (Finset V))} {k : K} :
    k ∈ m.unionAll l ↔ k ∈ m ∨ ∃ m' ∈ l, k ∈ m' := by
  induction l generalizing m with
  | nil => simp [unionAll]
  | cons m' l ih =>
    have hstep : m.unionAll (m' :: l) = (mergeUnion m m').unionAll l := rfl
    rw [hstep, ih, mergeUnion, mem_mergeWith, or_assoc]
    simp only [List.mem_cons, exists_eq_or_imp]

end Assoc

end Jepsen.Library
