/-
# The timeline of one element

The checker's fold over a history is, for each element, a fold over that
history's operations. What it leaves behind for an element that was added is
described by the operations after the invocation of its add: the first one that
makes it known, and the latest invocations of the reads that saw it and of those
that did not.
-/

import Jepsen.Checker.SetFull

namespace Jepsen.Checker

open Jepsen.History Jepsen.Library
open Jepsen.Generator (Name)

universe u

variable {α : Type u}

/-! ## Client histories -/

/-- A completion has the `:f` of its invocation, and an add also its value. -/
def SetCall.Answers : SetCall α → SetCall α → Prop
  | .add v, .add w => v = w
  | .read _, .read _ => True
  | _, _ => False

/-- The operation starts the add of `a`. -/
def SetOp.Adds (a : α) (op : SetOp α) : Prop := op.type = .invoke ∧ op.call = .add a

/-- A history of adds and of reads, whose completions answer what their process
invoked. -/
structure SetHistory (history : List (SetOp α)) : Prop where
  index : ∀ (i : ℕ) (op : SetOp α), history[i]? = some op → op.index = i
  calls : ∀ op ∈ clientOps history, ∀ f, op.call ≠ .other f
  invoked : ∀ op ∈ clientOps history, op.type ≠ .invoke →
    ∃ inv, invocation history op = some inv ∧ inv.call.Answers op.call

/-- Such a history in which each element is invoked once. -/
structure ClientHistory (history : List (SetOp α)) : Prop extends SetHistory history where
  once : ∀ a, ∀ op ∈ clientOps history, ∀ op' ∈ clientOps history,
    op.Adds a → op'.Adds a → op = op'

theorem mem_clientOps {history : List (SetOp α)} {op : SetOp α} :
    op ∈ clientOps history ↔ op ∈ history ∧ op.process.isInteger = true :=
  List.mem_filter

namespace SetHistory

variable {history : List (SetOp α)}

/-- Operations come in the order of their indices. -/
theorem sorted (hwf : SetHistory history) :
    history.Pairwise fun op op' => op.index < op'.index := by
  rw [List.pairwise_iff_getElem]
  intro i j hi hj hij
  rw [hwf.index i _ (List.getElem?_eq_getElem hi), hwf.index j _ (List.getElem?_eq_getElem hj)]
  exact hij

theorem sorted_clientOps (hwf : SetHistory history) :
    (clientOps history).Pairwise fun op op' => op.index < op'.index :=
  hwf.sorted.filter _

theorem eq_of_index_eq (hwf : SetHistory history) {op op' : SetOp α} (hop : op ∈ history)
    (hop' : op' ∈ history) (heq : op.index = op'.index) : op = op' := by
  obtain ⟨i, hi⟩ := List.mem_iff_getElem?.mp hop
  obtain ⟨j, hj⟩ := List.mem_iff_getElem?.mp hop'
  rw [hwf.index i op hi, hwf.index j op' hj] at heq
  rw [heq, hj] at hi
  exact (Option.some.inj hi).symm

/-- The invocation is the last thing its process did before. -/
theorem invocation_eq_some (hwf : SetHistory history) {op inv : SetOp α}
    (hinv : invocation history op = some inv) :
    inv ∈ history ∧ inv.process = op.process ∧ inv.type = .invoke ∧ inv.index < op.index ∧
      ∀ o ∈ history, o.process = op.process → o.index < op.index → o.index ≤ inv.index := by
  obtain ⟨hfind, htype⟩ := Option.filter_eq_some_iff.mp hinv
  obtain ⟨hprocess, later, earlier, hsplit, hnone⟩ := List.find?_eq_some_iff_append.mp hfind
  have htake : history.take op.index = earlier.reverse ++ inv :: later.reverse := by
    rw [← List.reverse_reverse (history.take op.index), hsplit]
    simp
  have hindex : ∀ o ∈ history, o.index < op.index ↔ o ∈ history.take op.index := by
    intro o ho
    obtain ⟨i, hi⟩ := List.mem_iff_getElem?.mp ho
    constructor
    · intro hlt
      rw [hwf.index i o hi] at hlt
      exact List.mem_iff_getElem?.mpr ⟨i, by rw [List.getElem?_take_of_lt hlt, hi]⟩
    · intro hmem
      obtain ⟨j, hj⟩ := List.mem_iff_getElem?.mp hmem
      rw [List.getElem?_take] at hj
      split at hj
      · rename_i hlt
        rw [hwf.index j o hj]
        exact hlt
      · cases hj
  have hmem : inv ∈ history.take op.index := by
    rw [htake]
    exact List.mem_append_right _ List.mem_cons_self
  have hinHistory := List.mem_of_mem_take hmem
  refine ⟨hinHistory, of_decide_eq_true hprocess, of_decide_eq_true htype,
    (hindex inv hinHistory).mpr hmem, fun o ho hsame hlt => ?_⟩
  have hprior := (hindex o ho).mp hlt
  have hsorted : (history.take op.index).Pairwise fun op op' => op.index < op'.index :=
    hwf.sorted.sublist (List.take_sublist _ _)
  rw [htake] at hprior hsorted
  rcases List.mem_append.mp hprior with hearlier | hrest
  · have hlt := (List.pairwise_append.mp hsorted).2.2 o hearlier inv List.mem_cons_self
    exact hlt.le
  · rcases List.mem_cons.mp hrest with rfl | hlater
    · exact le_rfl
    · have hnot := hnone o (List.mem_reverse.mp hlater)
      rw [decide_eq_true hsame] at hnot
      cases hnot

/-- No two completions answer one invocation. -/
theorem invocation_injective (hwf : SetHistory history) {op op' inv : SetOp α}
    (hop : op ∈ history) (hop' : op' ∈ history) (hinv : invocation history op = some inv)
    (hinv' : invocation history op' = some inv) : op = op' := by
  obtain ⟨-, hprocess, -, hlt, hlast⟩ := hwf.invocation_eq_some hinv
  obtain ⟨-, hprocess', -, hlt', hlast'⟩ := hwf.invocation_eq_some hinv'
  apply hwf.eq_of_index_eq hop hop'
  rcases Nat.lt_trichotomy op.index op'.index with hless | heq | hless
  · have hle := hlast' op hop (hprocess.symm.trans hprocess') hless
    omega
  · exact heq
  · have hle := hlast op' hop' (hprocess'.symm.trans hprocess) hless
    omega

end SetHistory

/-! ## Folding one element -/

/-- The later of two invocations, where there are two. -/
def later (last iop : Option (SetOp α)) : Option (SetOp α) :=
  match last, iop with
  | none, iop => iop
  | some last, none => some last
  | some last, some iop => some (if last.index < iop.index then iop else last)

theorem laterInvocation_eq_ok {last : Option (SetOp α)} {iop : SetOp α} :
    laterInvocation last (some iop) = .ok (later last (some iop)) := by
  cases last <;> rfl

section Fold

variable [DecidableEq α]

/-- What a completed read does to the state of an element. -/
def SetFullElement.observe (inv : Option (SetOp α)) (op : SetOp α) (v : List α) (a : α)
    (state : SetFullElement α) : SetFullElement α :=
  if a ∈ v then
    { state with known := state.known.or (some op), lastPresent := later state.lastPresent inv }
  else { state with lastAbsent := later state.lastAbsent inv }

/-- What an operation does to the state of one element. -/
def stepAt (history : List (SetOp α)) (a : α) (state : Option (SetFullElement α))
    (op : SetOp α) : Option (SetFullElement α) :=
  match op.call with
  | .add v =>
      if v = a then
        match op.type with
        | .invoke => some (setFullElement v)
        | _ => state.map fun state => state.setFullAdd op
      else state
  | .read v =>
      match op.type with
      | .ok => state.map fun state => state.observe (invocation history op) op v a
      | _ => state
  | .other _ => state

theorem stepAt_isSome {history : List (SetOp α)} {a : α} {state : Option (SetFullElement α)}
    {op : SetOp α} (hstate : state.isSome) : (stepAt history a state op).isSome := by
  obtain ⟨st, rfl⟩ := Option.isSome_iff_exists.mp hstate
  unfold stepAt
  split
  · split
    · split <;> rfl
    · rfl
  · split <;> rfl
  · rfl

theorem foldl_stepAt_isSome {history ops : List (SetOp α)} {a : α}
    {state : Option (SetFullElement α)} (hstate : state.isSome) :
    (ops.foldl (stepAt history a) state).isSome := by
  induction ops generalizing state with
  | nil => exact hstate
  | cons op ops ih => exact ih (stepAt_isSome hstate)

/-- The add of an element starts over. -/
theorem stepAt_adds {history : List (SetOp α)} {a : α} {state : Option (SetFullElement α)}
    {op : SetOp α} (hadds : op.Adds a) : stepAt history a state op = some (setFullElement a) := by
  unfold stepAt
  rw [hadds.2, hadds.1]
  exact if_pos rfl

theorem foldl_stepAt_isSome_of_adds {history ops : List (SetOp α)} {a : α} {add : SetOp α}
    (hmem : add ∈ ops) (hadds : add.Adds a) : (ops.foldl (stepAt history a) none).isSome := by
  obtain ⟨pre, post, rfl⟩ := List.append_of_mem hmem
  rw [List.foldl_append, List.foldl_cons, stepAt_adds hadds]
  exact foldl_stepAt_isSome rfl

end Fold

/-! ## The checker's fold -/

section Track

variable [LinearOrder α]

/-- A frequency is at least one, so nothing is ever collected. -/
theorem duplicatesIn_eq_empty (v : List α) : duplicatesIn v = ∅ := by
  have hpos : ∀ e ∈ (Assoc.frequencies v).entries, ¬ e.2 < 1 := by
    intro e he hlt
    have hlookup := Assoc.mem_entries_iff.mp he
    rw [Assoc.lookup_frequencies] at hlookup
    split at hlookup
    · rename_i hmem
      have hcount := List.count_pos_iff.mpr hmem
      rw [Option.some.inj hlookup] at hcount
      omega
    · cases hlookup
  have hfold : ∀ l : List (Σ _ : α, ℕ), (∀ e ∈ l, ¬ e.2 < 1) →
      l.foldl (fun (m : Assoc α ℕ) e => if e.2 < 1 then m.insert e.1 e.2 else m) ∅ = ∅ := by
    intro l hl
    induction l with
    | nil => rfl
    | cons e l ih =>
      rw [List.foldl_cons, if_neg (hl e List.mem_cons_self)]
      exact ih fun e' he' => hl e' (List.mem_cons_of_mem e he')
  exact hfold _ hpos

theorem updateElement_eq_ok (inv op : SetOp α) (v : List α) (a : α)
    (state : SetFullElement α) :
    updateElement (some inv) op v a state = .ok (state.observe (some inv) op v a) := by
  unfold updateElement SetFullElement.observe
  split
  · simp only [SetFullElement.setFullReadPresent, laterInvocation_eq_ok]
  · simp only [SetFullElement.setFullReadAbsent, laterInvocation_eq_ok]

/-- On an operation with an invocation, or one that adds to an element that is
tracked, the fold takes one step for every element. -/
theorem red_eq_ok {history : List (SetOp α)} {elements : Assoc α (SetFullElement α)}
    {op : SetOp α} (hcall : ∀ f, op.call ≠ .other f)
    (hadd : ∀ v, op.call = .add v → op.type ≠ .invoke → (elements.lookup v).isSome)
    (hread : op.type ≠ .invoke → (invocation history op).isSome) :
    ∃ elements', red history (elements, ∅) op = .ok (elements', ∅) ∧
      ∀ a, elements'.lookup a = stepAt history a (elements.lookup a) op := by
  unfold red stepAt
  cases hc : op.call with
  | other f => exact absurd hc (hcall f)
  | add v =>
    cases ht : op.type with
    | invoke =>
      refine ⟨_, rfl, fun a => ?_⟩
      rw [Assoc.lookup_insert_eq_ite]
      by_cases heq : v = a
      · simp [heq]
      · simp [heq, Ne.symm heq]
    | _ =>
      obtain ⟨state, hstate⟩ := Option.isSome_iff_exists.mp (hadd v hc (by rw [ht]; nofun))
      simp only [hstate]
      refine ⟨_, rfl, fun a => ?_⟩
      rw [Assoc.lookup_insert_eq_ite]
      by_cases heq : v = a
      · subst heq
        simp [hstate]
      · simp [heq, Ne.symm heq]
  | read v =>
    cases ht : op.type with
    | ok =>
      obtain ⟨inv, hinv⟩ := Option.isSome_iff_exists.mp (hread (by rw [ht]; nofun))
      have htraverse := Assoc.traverse_eq_ok
        (f := updateElement (some inv) op v)
        (g := fun a state => state.observe (some inv) op v a) (m := elements)
        fun a state _ => updateElement_eq_ok inv op v a state
      simp only [hinv, htraverse, duplicatesIn_eq_empty]
      exact ⟨_, rfl, fun a => Assoc.lookup_mapVals _ _ a⟩
    | _ => exact ⟨elements, rfl, fun a => rfl⟩

/-- On a client history the checker's fold returns, and is the fold of each
element. -/
theorem foldlM_red {history : List (SetOp α)} (hwf : SetHistory history)
    (ops rest : List (SetOp α)) (hsplit : clientOps history = ops ++ rest) :
    ∃ elements, ops.foldlM (red history) (∅, ∅) = .ok (elements, ∅) ∧
      ∀ a, elements.lookup a = ops.foldl (stepAt history a) none := by
  induction ops using List.reverseRecOn generalizing rest with
  | nil => exact ⟨∅, rfl, fun a => AList.lookup_empty a⟩
  | append_singleton ops op ih =>
    have hsplit' : clientOps history = ops ++ op :: rest := by simpa using hsplit
    obtain ⟨elements, hfold, hlookup⟩ := ih (op :: rest) hsplit'
    have hmem : op ∈ clientOps history := by simp [hsplit']
    have hadd : ∀ v, op.call = .add v → op.type ≠ .invoke → (elements.lookup v).isSome := by
      intro v hv htype
      obtain ⟨inv, hinv, hanswers⟩ := hwf.invoked op hmem htype
      obtain ⟨hinHistory, hprocess, hinvoke, hlt, -⟩ := hwf.invocation_eq_some hinv
      have hclient : inv ∈ clientOps history :=
        mem_clientOps.mpr ⟨hinHistory, by rw [hprocess]; exact (mem_clientOps.mp hmem).2⟩
      have hadds : inv.Adds v := by
        refine ⟨hinvoke, ?_⟩
        rw [hv] at hanswers
        cases hcall : inv.call with
        | add w =>
          rw [hcall] at hanswers
          rw [show w = v from hanswers]
        | read w =>
          rw [hcall] at hanswers
          exact absurd hanswers id
        | other f =>
          rw [hcall] at hanswers
          exact absurd hanswers id
      have hprior : inv ∈ ops := by
        rw [hsplit'] at hclient
        rcases List.mem_append.mp hclient with hin | hin
        · exact hin
        · exfalso
          have hsorted := hwf.sorted_clientOps
          rw [hsplit'] at hsorted
          have htail := (List.pairwise_append.mp hsorted).2.1
          rcases List.mem_cons.mp hin with rfl | hlater
          · exact absurd hlt (lt_irrefl _)
          · have := List.rel_of_pairwise_cons htail hlater
            omega
      rw [hlookup v]
      exact foldl_stepAt_isSome_of_adds hprior hadds
    have hread : op.type ≠ .invoke → (invocation history op).isSome := by
      intro htype
      obtain ⟨inv, hinv, -⟩ := hwf.invoked op hmem htype
      rw [hinv]
      rfl
    obtain ⟨elements', hred, hlookup'⟩ := red_eq_ok (hwf.calls op hmem) hadd hread
    refine ⟨elements', ?_, fun a => ?_⟩
    · rw [List.foldlM_append, hfold]
      change List.foldlM (red history) (elements, ∅) [op] = _
      rw [List.foldlM_cons, hred]
      rfl
    · rw [List.foldl_append, hlookup' a, hlookup a]
      rfl

/-- What the checker tracks after a whole client history. -/
theorem track_eq_ok {history : List (SetOp α)} (hwf : SetHistory history) :
    ∃ elements, track history = .ok (elements, ∅) ∧
      ∀ a, elements.lookup a = (clientOps history).foldl (stepAt history a) none :=
  foldlM_red hwf (clientOps history) [] (List.append_nil _).symm

end Track

end Jepsen.Checker
