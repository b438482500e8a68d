/-
# Association maps

Finite maps as Mathlib's `AList`, with the operations functional programs use
beside lookup and insertion: changing the value under a key, mapping over the
values, merging two maps with a function for the keys they share, and counting
the elements of a list. Each comes with the lemma that says what a lookup finds
in its result.
-/

import Mathlib

namespace Jepsen.Library

universe u v w

/-- A finite map from keys to values. -/
abbrev Assoc (K : Type u) (V : Type v) := AList fun _ : K => V

namespace Assoc

variable {K : Type u} {V : Type v} {W : Type w} [DecidableEq K]

/-- Replace what is stored under a key by a function of what is stored there. -/
def alter (k : K) (f : Option V → V) (m : Assoc K V) : Assoc K V :=
  m.insert k (f (m.lookup k))

@[simp]
theorem lookup_alter_self (k : K) (f : Option V → V) (m : Assoc K V) :
    (alter k f m).lookup k = some (f (m.lookup k)) :=
  AList.lookup_insert m

theorem lookup_alter_of_ne {k k' : K} (hne : k' ≠ k) (f : Option V → V) (m : Assoc K V) :
    (alter k f m).lookup k' = m.lookup k' :=
  AList.lookup_insert_ne hne

theorem lookup_alter (k k' : K) (f : Option V → V) (m : Assoc K V) :
    (alter k f m).lookup k' = if k' = k then some (f (m.lookup k)) else m.lookup k' := by
  by_cases heq : k' = k
  · subst heq
    rw [lookup_alter_self, if_pos rfl]
  · rw [lookup_alter_of_ne heq, if_neg heq]

theorem lookup_insert_eq_ite (k k' : K) (v : V) (m : Assoc K V) :
    (m.insert k v).lookup k' = if k' = k then some v else m.lookup k' :=
  lookup_alter k k' (fun _ => v) m

/-! ## Mapping over the values -/

/-- Apply a function to every key and value. -/
def mapVals (f : K → V → W) (m : Assoc K V) : Assoc K W where
  entries := m.entries.map fun e => ⟨e.1, f e.1 e.2⟩
  nodupKeys := by
    have hkeys : (m.entries.map fun e => (⟨e.1, f e.1 e.2⟩ : Σ _ : K, W)).keys =
        m.entries.keys := by
      simp [List.keys, Function.comp_def]
    rw [List.NodupKeys, hkeys]
    exact m.nodupKeys

omit [DecidableEq K] in
@[simp]
theorem keys_mapVals (f : K → V → W) (m : Assoc K V) : (mapVals f m).keys = m.keys := by
  simp [mapVals, AList.keys, List.keys, Function.comp_def]

omit [DecidableEq K] in
theorem mem_mapVals {f : K → V → W} {m : Assoc K V} {k : K} : k ∈ mapVals f m ↔ k ∈ m := by
  rw [AList.mem_keys, AList.mem_keys, keys_mapVals]

theorem dlookup_map_snd (f : K → V → W) (k : K) (l : List (Σ _ : K, V)) :
    (l.map fun e => (⟨e.1, f e.1 e.2⟩ : Σ _ : K, W)).dlookup k = (l.dlookup k).map (f k) := by
  induction l with
  | nil => rfl
  | cons e l ih =>
    obtain ⟨k', v⟩ := e
    by_cases heq : k = k'
    · subst heq
      simp
    · rw [List.map_cons, List.dlookup_cons_ne _ _ heq, List.dlookup_cons_ne _ _ heq, ih]

@[simp]
theorem lookup_mapVals (f : K → V → W) (m : Assoc K V) (k : K) :
    (mapVals f m).lookup k = (m.lookup k).map (f k) :=
  dlookup_map_snd f k m.entries

/-! ## Entries -/

theorem mem_entries_iff {m : Assoc K V} {k : K} {v : V} :
    (⟨k, v⟩ : Σ _ : K, V) ∈ m.entries ↔ m.lookup k = some v :=
  AList.mem_lookup_iff.symm

omit [DecidableEq K] in
theorem keys_nodup (m : Assoc K V) : (m.entries.map Sigma.fst).Nodup := m.nodupKeys

omit [DecidableEq K] in
theorem entries_nodup (m : Assoc K V) : m.entries.Nodup := (keys_nodup m).of_map

omit [DecidableEq K] in
/-- What a map gives rise to, key by key, filtered to what one key gives rise to. -/
theorem filter_flatMap_entries [DecidableEq K] {A : Type*} {m : Assoc K V} {k : K} {v : V}
    (hlookup : m.lookup k = some v) (f : K → V → List A) (key : A → K)
    (hkey : ∀ k v, ∀ a ∈ f k v, key a = k) :
    ((m.entries.flatMap fun e => f e.1 e.2).filter fun a => decide (key a = k)) = f k v := by
  have hother : ∀ l : List (Σ _ : K, V), k ∉ l.keys →
      ((l.flatMap fun e => f e.1 e.2).filter fun a => decide (key a = k)) = [] := by
    intro l hnot
    rw [List.filter_eq_nil_iff]
    intro a ha
    obtain ⟨e, he, hmem⟩ := List.mem_flatMap.mp ha
    rw [decide_eq_true_iff, hkey e.1 e.2 a hmem]
    intro heq
    exact hnot (heq ▸ List.mem_keys_of_mem he)
  have hnodup := m.nodupKeys
  rw [AList.lookup] at hlookup
  revert hlookup hnodup
  generalize m.entries = l
  intro hlookup hnodup
  induction l with
  | nil => cases hlookup
  | cons e l ih =>
    obtain ⟨k', v'⟩ := e
    obtain ⟨hnot, htail⟩ := List.nodupKeys_cons.mp hnodup
    rw [List.flatMap_cons, List.filter_append]
    by_cases heq : k = k'
    · subst heq
      rw [List.dlookup_cons_eq] at hlookup
      cases hlookup
      rw [hother l hnot, List.append_nil, List.filter_eq_self]
      intro a ha
      exact decide_eq_true (hkey k v a ha)
    · rw [List.dlookup_cons_ne _ _ heq] at hlookup
      have hnone : (f k' v').filter (fun a => decide (key a = k)) = [] := by
        rw [List.filter_eq_nil_iff]
        intro a ha
        rw [decide_eq_true_iff, hkey k' v' a ha]
        exact Ne.symm heq
      rw [hnone, List.nil_append]
      exact ih hlookup htail

/-! ## Many keys at once -/

/-- Store one value under every key of a list. -/
def insertAll (ks : List K) (v : V) (m : Assoc K V) : Assoc K V :=
  ks.foldl (fun m k => m.insert k v) m

theorem lookup_insertAll (ks : List K) (v : V) (m : Assoc K V) (k : K) :
    (insertAll ks v m).lookup k = if k ∈ ks then some v else m.lookup k := by
  induction ks generalizing m with
  | nil => rfl
  | cons k' ks ih =>
    have hstep : insertAll (k' :: ks) v m = insertAll ks v (m.insert k' v) := rfl
    rw [hstep, ih, lookup_insert_eq_ite]
    by_cases hmem : k ∈ ks
    · simp [hmem]
    · by_cases heq : k = k' <;> simp [heq, hmem]

/-- `select-keys` -/
def selectKeys (m : Assoc K V) (ks : List K) : Assoc K V :=
  ks.foldl (fun selected k => (m.lookup k).elim selected fun v => selected.insert k v) ∅

theorem lookup_selectKeys (m : Assoc K V) (ks : List K) (k : K) :
    (selectKeys m ks).lookup k = if k ∈ ks then m.lookup k else none := by
  have hfold : ∀ (ks : List K) (selected : Assoc K V), selected.lookup k = none ∨
      selected.lookup k = m.lookup k →
      (ks.foldl (fun selected k => (m.lookup k).elim selected fun v => selected.insert k v)
        selected).lookup k = if k ∈ ks then m.lookup k else selected.lookup k := by
    intro ks
    induction ks with
    | nil => exact fun _ _ => rfl
    | cons k' ks ih =>
      intro selected hselected
      rw [List.foldl_cons]
      cases hk' : m.lookup k' with
      | none =>
        rw [Option.elim_none, ih selected hselected]
        by_cases heq : k = k'
        · subst heq
          by_cases hmem : k ∈ ks
          · simp [hmem]
          · simp only [hmem, if_false, List.mem_cons_self, if_true]
            cases hselected with
            | inl hnone => rw [hnone, hk']
            | inr hsame => exact hsame
        · simp [heq]
      | some v =>
        rw [Option.elim_some, ih]
        · rw [lookup_insert_eq_ite]
          by_cases heq : k = k'
          · subst heq
            simp [hk']
          · simp [heq]
        · rw [lookup_insert_eq_ite]
          by_cases heq : k = k'
          · subst heq
            rw [if_pos rfl, hk']
            exact Or.inr rfl
          · rw [if_neg heq]
            exact hselected
  exact hfold ks ∅ (Or.inl rfl)

/-! ## Functions that may fail -/

/-- Apply a function that may fail to every entry, from the first on. -/
def traverseEntries {ε : Type*} (f : K → V → Except ε W) :
    List (Σ _ : K, V) → Except ε (List (Σ _ : K, W))
  | [] => .ok []
  | e :: l =>
      match f e.1 e.2 with
      | .error t => .error t
      | .ok w =>
          match traverseEntries f l with
          | .error t => .error t
          | .ok l' => .ok (⟨e.1, w⟩ :: l')

/-- Apply a function that may fail to every key and value. -/
def traverse {ε : Type*} (f : K → V → Except ε W) (m : Assoc K V) : Except ε (Assoc K W) :=
  match traverseEntries f m.entries with
  | .error t => .error t
  | .ok l => .ok l.toAList

omit [DecidableEq K] in
theorem traverseEntries_eq_ok {ε : Type*} {f : K → V → Except ε W} {g : K → V → W}
    {l : List (Σ _ : K, V)} (hok : ∀ e ∈ l, f e.1 e.2 = .ok (g e.1 e.2)) :
    traverseEntries f l = .ok (l.map fun e => ⟨e.1, g e.1 e.2⟩) := by
  induction l with
  | nil => rfl
  | cons e l ih =>
    have hhead := hok e List.mem_cons_self
    have htail := ih fun e' he' => hok e' (List.mem_cons_of_mem e he')
    simp only [traverseEntries, hhead, htail, List.map_cons]

omit [DecidableEq K] in
theorem exists_traverseEntries_eq_ok {ε : Type*} {f : K → V → Except ε W}
    {l : List (Σ _ : K, V)} :
    (∃ l', traverseEntries f l = .ok l') ↔ ∀ e ∈ l, ∃ w, f e.1 e.2 = .ok w := by
  induction l with
  | nil => simp [traverseEntries]
  | cons e l ih =>
    rw [List.forall_mem_cons, ← ih, traverseEntries]
    cases f e.1 e.2 with
    | error t => simp
    | ok w => cases traverseEntries f l <;> simp

omit [DecidableEq K] in
theorem mem_of_traverseEntries_eq_ok {ε : Type*} {f : K → V → Except ε W}
    {l : List (Σ _ : K, V)} {l' : List (Σ _ : K, W)} (hok : traverseEntries f l = .ok l')
    (e' : Σ _ : K, W) : e' ∈ l' ↔ ∃ v, ⟨e'.1, v⟩ ∈ l ∧ f e'.1 v = .ok e'.2 := by
  induction l generalizing l' with
  | nil =>
    cases hok
    simp
  | cons e l ih =>
    rw [traverseEntries] at hok
    cases hhead : f e.1 e.2 with
    | error t =>
      rw [hhead] at hok
      cases hok
    | ok w =>
      rw [hhead] at hok
      cases htail : traverseEntries f l with
      | error t =>
        rw [htail] at hok
        cases hok
      | ok l'' =>
        rw [htail] at hok
        cases hok
        rw [List.mem_cons, ih htail]
        constructor
        · intro h
          cases h with
          | inl heq =>
            subst heq
            exact ⟨e.2, List.mem_cons_self, hhead⟩
          | inr hlater =>
            obtain ⟨v, hv, hf⟩ := hlater
            exact ⟨v, List.mem_cons_of_mem e hv, hf⟩
        · intro ⟨v, hv, hf⟩
          cases List.mem_cons.mp hv with
          | inl heq =>
            left
            obtain ⟨k, v'⟩ := e
            cases heq
            rw [hhead] at hf
            cases hf
            rfl
          | inr hlater => exact Or.inr ⟨v, hlater, hf⟩

theorem toAList_entries (m : Assoc K V) : m.entries.toAList = m := by
  apply AList.ext
  rw [AList.entries_toAList]
  have hdedup : ∀ l : List (Σ _ : K, V), l.NodupKeys → l.dedupKeys = l := by
    intro l hl
    induction l with
    | nil => rfl
    | cons e l ih =>
      obtain ⟨hnot, htail⟩ := List.nodupKeys_cons.mp hl
      rw [List.dedupKeys_cons, ih htail, List.kinsert_def, List.kerase_of_notMem_keys hnot]
  exact hdedup m.entries m.nodupKeys

/-- If the function does not fail on any entry, the result is the one of
`mapVals`. -/
theorem traverse_eq_ok {ε : Type*} {f : K → V → Except ε W} {g : K → V → W} {m : Assoc K V}
    (hok : ∀ k v, m.lookup k = some v → f k v = .ok (g k v)) :
    traverse f m = .ok (mapVals g m) := by
  have hentries : traverseEntries f m.entries = .ok (mapVals g m).entries :=
    traverseEntries_eq_ok fun e he => hok e.1 e.2 (mem_entries_iff.mp he)
  rw [traverse, hentries]
  exact congrArg Except.ok (toAList_entries _)

/-! ## Merging -/

/-- What a merge stores for a key, from what the two maps store for it. -/
def merged (f : V → V → V) : Option V → Option V → Option V
  | none, v => v
  | v, none => v
  | some v, some w => some (f v w)

@[simp] theorem merged_none_left (f : V → V → V) (v : Option V) : merged f none v = v := rfl

@[simp] theorem merged_none_right (f : V → V → V) (v : Option V) : merged f v none = v := by
  cases v <;> rfl

@[simp] theorem merged_some (f : V → V → V) (v w : V) :
    merged f (some v) (some w) = some (f v w) := rfl

/-- Store every entry of the second map in the first, with `f` on the keys that
both have. -/
def mergeWith (f : V → V → V) (m₁ m₂ : Assoc K V) : Assoc K V :=
  m₂.entries.foldl (fun m e => alter e.1 (fun v => (merged f v (some e.2)).getD e.2) m) m₁

theorem lookup_foldl_alter (f : V → V → V) (l : List (Σ _ : K, V)) (hl : l.NodupKeys)
    (m : Assoc K V) (k : K) :
    (l.foldl (fun m e => alter e.1 (fun v => (merged f v (some e.2)).getD e.2) m) m).lookup k =
      merged f (m.lookup k) (l.dlookup k) := by
  induction l generalizing m with
  | nil => simp
  | cons e l ih =>
    obtain ⟨k', v⟩ := e
    obtain ⟨hnot, htail⟩ := List.nodupKeys_cons.mp hl
    rw [List.foldl_cons, ih htail, lookup_alter]
    by_cases heq : k = k'
    · subst heq
      have hnone : l.dlookup k = none := List.dlookup_eq_none.mpr hnot
      rw [if_pos rfl, hnone, merged_none_right, List.dlookup_cons_eq]
      cases m.lookup k <;> rfl
    · rw [if_neg heq, List.dlookup_cons_ne _ _ heq]

@[simp]
theorem lookup_mergeWith (f : V → V → V) (m₁ m₂ : Assoc K V) (k : K) :
    (mergeWith f m₁ m₂).lookup k = merged f (m₁.lookup k) (m₂.lookup k) :=
  lookup_foldl_alter f m₂.entries m₂.nodupKeys m₁ k

/-! ## Maps of maps -/

section Nested

variable {L : Type*} [DecidableEq L]

/-- What a map of maps stores under two keys. -/
def lookup₂ (m : Assoc K (Assoc L V)) (k : K) (l : L) : Option V :=
  (m.lookup k).bind fun inner => inner.lookup l

/-- Replace what is stored under two keys. -/
def alter₂ (k : K) (l : L) (f : Option V → V) (m : Assoc K (Assoc L V)) : Assoc K (Assoc L V) :=
  alter k (fun inner => alter l f (inner.getD ∅)) m

theorem lookup₂_alter₂ (k k' : K) (l l' : L) (f : Option V → V) (m : Assoc K (Assoc L V)) :
    lookup₂ (alter₂ k l f m) k' l' =
      if k' = k ∧ l' = l then some (f (lookup₂ m k l)) else lookup₂ m k' l' := by
  unfold lookup₂ alter₂
  rw [lookup_alter]
  by_cases hk : k' = k
  · subst hk
    rw [if_pos rfl, Option.bind_some, lookup_alter]
    cases m.lookup k' with
    | none => by_cases hl : l' = l <;> simp [hl]
    | some inner => by_cases hl : l' = l <;> simp [hl]
  · simp [hk]

end Nested

/-! ## Counting -/

/-- How often each element of a list occurs in it. -/
def frequencies (l : List K) : Assoc K ℕ :=
  l.foldl (fun m k => alter k (fun n => n.getD 0 + 1) m) ∅

theorem lookup_frequencies_foldl (l : List K) (m : Assoc K ℕ) (k : K) :
    (l.foldl (fun m k => alter k (fun n => n.getD 0 + 1) m) m).lookup k =
      if k ∈ l then some ((m.lookup k).getD 0 + l.count k) else m.lookup k := by
  induction l generalizing m with
  | nil => simp
  | cons k' l ih =>
    rw [List.foldl_cons, ih, lookup_alter]
    by_cases heq : k = k'
    · subst heq
      by_cases hmem : k ∈ l
      · simp only [hmem, if_true, List.mem_cons, true_or, Option.getD_some,
          List.count_cons_self]
        congr 1
        omega
      · simp [hmem, List.count_eq_zero_of_not_mem]
    · have hne : (k' == k) = false := beq_eq_false_iff_ne.mpr (Ne.symm heq)
      simp [heq, List.count_cons, hne]

theorem lookup_frequencies (l : List K) (k : K) :
    (frequencies l).lookup k = if k ∈ l then some (l.count k) else none := by
  rw [frequencies, lookup_frequencies_foldl]
  simp

end Assoc

end Jepsen.Library
