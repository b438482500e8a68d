/-
# Who works on which key

The generator's record forgets which key position a group's generator came from.
A run's notes keep that: which group took each position, which position an
operation was emitted from, and which position's generator received an event.
`Served` ties the notes to the record: keys are handed out in order, and every
position's generator is where its own emissions and events have brought it.
-/

import Jepsen.Independent.Walk

namespace Jepsen.Independent

open Jepsen.Generator Jepsen.History Jepsen.Library
open Stream' (Seq)

universe u v w

/-! ## Notes -/

/-- What happened to the positions of the key sequence. -/
inductive Note (V : Type u)
  /-- The next position was given to a group. -/
  | took (group : ℕ)
  /-- The generator of a position emitted an operation, which a thread performs. -/
  | emitted (position : ℕ) (thread : Name) (op : Op V)
  /-- The generator of a position received an event of a thread. -/
  | delivered (position : ℕ) (thread : Name) (event : Op V)

/-- The groups that were given the positions 0, 1, 2, ... -/
def given {V : Type u} (notes : List (Note V)) : List ℕ :=
  notes.filterMap fun
    | .took group => some group
    | _ => none

/-- The operations a position's generator emitted, in order. -/
def emittedBy {V : Type u} (position : ℕ) (notes : List (Note V)) : List (Op V) :=
  notes.filterMap fun
    | .emitted p _ op => if p = position then some op else none
    | _ => none

/-- The position a group works on: the last one it was given. -/
def positionOf (given : List ℕ) (group : ℕ) : Option ℕ :=
  given.zipIdx.foldl (fun latest (g, position) => if g = group then some position else latest)
    none

section Notes

variable {V : Type u} (notes notes' : List (Note V)) (taken : List ℕ)

@[simp]
theorem given_append : given (notes ++ notes') = given notes ++ given notes' :=
  List.filterMap_append

@[simp]
theorem emittedBy_append (position : ℕ) :
    emittedBy position (notes ++ notes') =
      emittedBy position notes ++ emittedBy position notes' :=
  List.filterMap_append

@[simp]
theorem given_map_took : given (taken.map .took : List (Note V)) = taken := by
  induction taken with
  | nil => rfl
  | cons group taken ih => exact congrArg (group :: ·) ih

@[simp]
theorem emittedBy_map_took (position : ℕ) :
    emittedBy position (taken.map .took : List (Note V)) = [] := by
  induction taken with
  | nil => rfl
  | cons group taken ih => exact ih

@[simp]
theorem given_emitted (position : ℕ) (thread : Name) (op : Op V) :
    given [Note.emitted position thread op] = [] := rfl

@[simp]
theorem given_delivered (position : ℕ) (thread : Name) (event : Op V) :
    given [Note.delivered position thread event] = [] := rfl

@[simp]
theorem emittedBy_emitted (position p : ℕ) (thread : Name) (op : Op V) :
    emittedBy position [Note.emitted p thread op] = if p = position then [op] else [] := by
  unfold emittedBy
  split <;> simp [*]

@[simp]
theorem emittedBy_delivered (position p : ℕ) (thread : Name) (event : Op V) :
    emittedBy position [Note.delivered p thread event] = [] := rfl

end Notes

@[simp]
theorem positionOf_nil (group : ℕ) : positionOf [] group = none := rfl

theorem positionOf_concat (given : List ℕ) (g group : ℕ) :
    positionOf (given ++ [g]) group =
      if g = group then some given.length else positionOf given group := by
  simp [positionOf, List.zipIdx_append]

theorem getElem?_of_positionOf {given : List ℕ} {group position : ℕ}
    (hposition : positionOf given group = some position) :
    given[position]? = some group := by
  induction given using List.reverseRecOn with
  | nil => cases hposition
  | append_singleton given g ih =>
    rw [positionOf_concat] at hposition
    split at hposition
    · rename_i heq
      obtain rfl := Option.some.inj hposition
      rw [List.getElem?_concat_length, heq]
    · have hget := ih hposition
      rw [List.getElem?_append_left (List.getElem?_eq_some_iff.mp hget).1]
      exact hget

theorem positionOf_range {n group : ℕ} (hgroup : group < n) :
    positionOf (List.range n) group = some group := by
  induction n with
  | zero => cases hgroup
  | succ n ih =>
    rw [List.range_succ, positionOf_concat, List.length_range]
    split
    · rename_i heq
      rw [heq]
    · exact ih (by omega)

/-! ## The generators of the positions -/

variable {K : Type u} {A : Type v} {γ : Type w} [Protocol γ (Value K A)]

/-- Starting from `(tuple-gen k (fgen k))`, emitting `emitted` and receiving some
events leads to `gen`. -/
def Progress (fgen : K → Option γ) (k : K) (emitted : List (Op (Value K A)))
    (gen : Option (Map γ (Value K A))) : Prop :=
  ∃ drives, Run Driven (tupleGen k (fgen k)) drives gen ∧ Drive.emitted drives = emitted

/-- The generator answered `nil`. -/
def Exhausted (gen : Option (Map γ (Value K A))) : Prop :=
  ∃ oracle ctx, op oracle gen ctx = .ok none

theorem exhausted_nil : Exhausted (none : Option (Map γ (Value K A))) :=
  ⟨.zero, Context.context 0, rfl⟩

/-- The remaining keys and the groups' generators account for what the notes
say. -/
structure Served (fgen : K → Option γ) (keys : Seq K) (notes : List (Note (Value K A)))
    (rest : Seq K) (gens : Gens K A γ) : Prop where
  rest : rest = keys.drop (given notes).length
  group_lt : ∀ group ∈ given notes, group < gens.length
  /-- Every group got one of the first keys, as far as they went. -/
  first : (keys.take gens.length).length ≤ (given notes).length
  /-- Every position that was given away has a generator; the group works on the
  last one it was given until that is exhausted, and has exhausted the others. -/
  progress : ∀ position group, (given notes)[position]? = some group →
    ∃ k gen, keys.get? position = some k ∧ Progress fgen k (emittedBy position notes) gen ∧
      (Exhausted gen ∧ (positionOf (given notes) group = some position →
          gens[group]? = some none) ∨
        positionOf (given notes) group = some position ∧ gens[group]? = some gen)
  unserved : ∀ position, (given notes).length ≤ position → emittedBy position notes = []
  owned : ∀ group gen, gens[group]? = some (some gen) →
    ∃ position, positionOf (given notes) group = some position

section Served

variable {fgen : K → Option γ} {keys rest : Seq K} {notes : List (Note (Value K A))}
  {gens : Gens K A γ}

theorem Seq.drop_succ_eq_tail (s : Seq K) (n : ℕ) : s.drop (n + 1) = (s.drop n).tail := rfl

/-- A group whose generator is exhausted takes the next key. -/
theorem Served.take (hserved : Served fgen keys notes rest gens) {group : ℕ}
    {gen : Option (Map γ (Value K A))} (hcurrent : gens[group]? = some gen)
    (hexhausted : Exhausted gen) {k : K} (hkey : rest.head = some k) :
    Served fgen keys (notes ++ [.took group]) rest.tail
      (gens.set group (tupleGen k (fgen k))) := by
  have hlt : group < gens.length := (List.getElem?_eq_some_iff.mp hcurrent).1
  have hget : keys.get? (given notes).length = some k := by
    rw [← Seq.head_dropn, ← hserved.rest]
    exact hkey
  have hgiven : given (notes ++ [.took group]) = given notes ++ [group] := by
    rw [given_append]
    rfl
  have hemitted : ∀ position, emittedBy position (notes ++ [.took group]) =
      emittedBy position notes := by
    intro position
    rw [emittedBy_append]
    exact List.append_nil _
  constructor
  · rw [hgiven, List.length_append, hserved.rest]
    rfl
  · intro g hg
    rw [hgiven] at hg
    rw [List.length_set]
    rcases List.mem_append.mp hg with hold | hnew
    · exact hserved.group_lt g hold
    · rw [List.mem_singleton.mp hnew]
      exact hlt
  · rw [hgiven, List.length_set, List.length_append]
    exact hserved.first.trans (Nat.le_add_right _ _)
  · intro position g hg
    rw [hgiven] at hg ⊢
    rw [hemitted, positionOf_concat]
    by_cases hnew : position = (given notes).length
    · subst hnew
      rw [List.getElem?_concat_length] at hg
      obtain rfl := Option.some.inj hg
      refine ⟨k, tupleGen k (fgen k), hget, ⟨[], .nil, ?_⟩, Or.inr ⟨if_pos rfl, ?_⟩⟩
      · exact (hserved.unserved _ le_rfl).symm
      · exact List.getElem?_set_self hlt
    · have hold : (given notes)[position]? = some g := by
        have hbound := (List.getElem?_eq_some_iff.mp hg).1
        rw [List.length_append, List.length_singleton] at hbound
        rwa [List.getElem?_append_left (by omega)] at hg
      obtain ⟨k', gen', hk', hprogress, hstate⟩ := hserved.progress position g hold
      refine ⟨k', gen', hk', hprogress, ?_⟩
      by_cases hsame : group = g
      · subst hsame
        left
        constructor
        · rcases hstate with hdone | ⟨-, hlive⟩
          · exact hdone.1
          · rw [hcurrent] at hlive
            rw [← Option.some.inj hlive]
            exact hexhausted
        · rw [if_pos rfl]
          intro heq
          exact absurd (Option.some.inj heq).symm hnew
      · rw [if_neg hsame, List.getElem?_set_ne hsame]
        exact hstate
  · intro position hle
    rw [hgiven, List.length_append] at hle
    rw [hemitted]
    exact hserved.unserved position (by omega)
  · intro g gen' hg
    rw [hgiven, positionOf_concat]
    by_cases hsame : group = g
    · exact ⟨_, if_pos hsame⟩
    · rw [List.getElem?_set_ne hsame] at hg
      rw [if_neg hsame]
      exact hserved.owned g gen' hg

/-- A group whose generator is exhausted is left without one. -/
theorem Served.runOut (hserved : Served fgen keys notes rest gens) {group : ℕ}
    {gen : Option (Map γ (Value K A))} (hcurrent : gens[group]? = some gen)
    (hexhausted : Exhausted gen) (hkey : rest.head = none) :
    Served fgen keys notes rest.tail (gens.set group none) := by
  have hlt : group < gens.length := (List.getElem?_eq_some_iff.mp hcurrent).1
  have hnil : rest.tail = rest := by
    rw [Seq.head_eq_none hkey]
    rfl
  refine
    { rest := hnil.trans hserved.rest
      group_lt := by rw [List.length_set]; exact hserved.group_lt
      first := by rw [List.length_set]; exact hserved.first
      progress := fun position g hg => ?_
      unserved := hserved.unserved
      owned := fun g gen' hg => ?_ }
  · obtain ⟨k, gen', hk, hprogress, hstate⟩ := hserved.progress position g hg
    refine ⟨k, gen', hk, hprogress, ?_⟩
    by_cases hsame : group = g
    · subst hsame
      rw [List.getElem?_set_self hlt]
      rcases hstate with ⟨hdone, -⟩ | ⟨-, hlive⟩
      · exact Or.inl ⟨hdone, fun _ => rfl⟩
      · rw [hcurrent] at hlive
        rw [← Option.some.inj hlive]
        exact Or.inl ⟨hexhausted, fun _ => rfl⟩
    · rw [List.getElem?_set_ne hsame]
      exact hstate
  · by_cases hsame : group = g
    · subst hsame
      rw [List.getElem?_set_self hlt] at hg
      cases hg
    · rw [List.getElem?_set_ne hsame] at hg
      exact hserved.owned g gen' hg

/-- A walk keeps the account, with the positions it gave away noted. -/
theorem Walk.served {groups : Groups K A γ} {ctx : Context} {free taken : List ℕ}
    {rest' : Seq K} {gens' : Gens K A γ}
    {offers : List (Answer (Value K A) × Offer K A γ)}
    (hwalk : Walk fgen groups ctx free rest gens taken rest' gens' offers)
    (hserved : Served fgen keys notes rest gens) :
    Served fgen keys (notes ++ taken.map .took) rest' gens' := by
  induction hwalk generalizing notes with
  | done => simpa using hserved
  | answered _ _ _ _ _ ih => exact ih hserved
  | ranOut oracle hcurrent hasked hkey _ ih =>
    exact ih (hserved.runOut hcurrent ⟨oracle, _, hasked⟩ hkey)
  | tookNil oracle hcurrent hasked hkey hnil _ ih =>
    have htaken := hserved.take hcurrent ⟨oracle, _, hasked⟩ hkey
    rw [tupleGen_eq_none.mpr hnil] at htaken
    simpa using ih htaken
  | took oracle hcurrent hasked hkey _ _ ih =>
    simpa using ih (hserved.take hcurrent ⟨oracle, _, hasked⟩ hkey)

/-- Replacing a group's generator by what a drive made of it. -/
theorem Served.drive (hserved : Served fgen keys notes rest gens) {group position : ℕ}
    {gen gen' : Option (Map γ (Value K A))} (hcurrent : gens[group]? = some gen)
    (hposition : positionOf (given notes) group = some position)
    {drive : Drive (Value K A)} (hdriven : Driven gen drive gen') {new : List (Note (Value K A))}
    (hgiven : given new = [])
    (hemitted : ∀ p, emittedBy p new = if p = position then Drive.emitted [drive] else [])
    (hlive : gen ≠ none) :
    Served fgen keys (notes ++ new) rest (gens.set group gen') := by
  have hlt : group < gens.length := (List.getElem?_eq_some_iff.mp hcurrent).1
  have hsame : given (notes ++ new) = given notes := by
    rw [given_append, hgiven, List.append_nil]
  have hpos := getElem?_of_positionOf hposition
  refine
    { rest := by rw [hsame]; exact hserved.rest
      group_lt := by rw [hsame, List.length_set]; exact hserved.group_lt
      first := by rw [hsame, List.length_set]; exact hserved.first
      progress := fun p g hg => ?_
      unserved := fun p hp => ?_
      owned := fun g gen'' hg => ?_ }
  · rw [hsame] at hg ⊢
    obtain ⟨k, gen₀, hk, ⟨drives, hrun, hdrives⟩, hstate⟩ := hserved.progress p g hg
    rw [emittedBy_append, hemitted]
    by_cases hp : p = position
    · subst hp
      obtain rfl := Option.some.inj (hpos.symm.trans hg)
      have hgen : gen₀ = gen := by
        rcases hstate with ⟨-, hnone⟩ | ⟨-, hthis⟩
        · rw [hnone hposition] at hcurrent
          exact absurd (Option.some.inj hcurrent).symm hlive
        · exact Option.some.inj (hthis.symm.trans hcurrent)
      subst hgen
      refine ⟨k, gen', hk, ⟨_, .snoc hrun hdriven, ?_⟩, Or.inr ⟨hposition, ?_⟩⟩
      · rw [if_pos rfl, ← hdrives]
        exact List.filterMap_append
      · exact List.getElem?_set_self hlt
    · rw [if_neg hp, List.append_nil]
      refine ⟨k, gen₀, hk, ⟨drives, hrun, hdrives⟩, ?_⟩
      by_cases hg' : group = g
      · subst hg'
        rcases hstate with ⟨hdone, -⟩ | ⟨hcur, -⟩
        · refine Or.inl ⟨hdone, fun hcur => ?_⟩
          exact absurd (Option.some.inj (hcur.symm.trans hposition)) hp
        · exact absurd (Option.some.inj (hcur.symm.trans hposition)) hp
      · rw [List.getElem?_set_ne hg']
        exact hstate
  · rw [hsame] at hp
    have hlt' : position < (given notes).length := (List.getElem?_eq_some_iff.mp hpos).1
    rw [emittedBy_append, hserved.unserved p hp, hemitted, if_neg (by omega)]
    rfl
  · rw [hsame]
    by_cases hg' : group = g
    · exact ⟨position, hg' ▸ hposition⟩
    · rw [List.getElem?_set_ne hg'] at hg
      exact hserved.owned g gen'' hg

end Served

end Jepsen.Independent
