/-
# Outcomes against the timeline

An element that was added is stable when some read that saw it started after
every read that missed it, and lost when it was known before the last read of
all started and that read missed it. Both are stated about the operations of the
history; the checker's three remembered operations decide them.
-/

import Jepsen.Checker.SetFullTimeline

namespace Jepsen.Checker

open Jepsen.History Jepsen.Library

universe u

variable {α : Type u}

/-! ## The timeline -/

/-- A completed read, what it returned and how it was invoked. -/
structure OkRead (history : List (SetOp α)) (op : SetOp α) (v : List α) (inv : SetOp α) :
    Prop where
  mem : op ∈ clientOps history
  type : op.type = .ok
  call : op.call = .read v
  invoked : invocation history op = some inv

/-- One invocation is answered by one read, which has an element or not. -/
theorem OkRead.index_ne {history : List (SetOp α)} (hwf : SetHistory history)
    {op op' inv inv' : SetOp α} {v v' : List α} {a : α} (hread : OkRead history op v inv)
    (hread' : OkRead history op' v' inv') (hmem : a ∈ v) (hnot : a ∉ v') :
    inv.index ≠ inv'.index := by
  intro heq
  have hinv := (hwf.invocation_eq_some hread.invoked).1
  have hinv' := (hwf.invocation_eq_some hread'.invoked).1
  obtain rfl := hwf.eq_of_index_eq hinv hinv' heq
  obtain rfl := hwf.invocation_injective (mem_clientOps.mp hread.mem).1
    (mem_clientOps.mp hread'.mem).1 hread.invoked hread'.invoked
  have hcall := hread.call.symm.trans hread'.call
  injection hcall with hcall
  subst hcall
  exact absurd hmem hnot

/-- The operation acknowledges the element's add, or read the element. -/
def SetOp.MakesKnown (a : α) (op : SetOp α) : Prop :=
  op.type = .ok ∧ (op.call = .add a ∨ ∃ v, op.call = .read v ∧ a ∈ v)

/-- The first operation in scope that makes the element known. -/
structure FirstKnown (history : List (SetOp α)) (scope : SetOp α → Prop) (a : α)
    (op : SetOp α) : Prop where
  mem : op ∈ clientOps history
  makes : op.MakesKnown a
  inScope : scope op
  first : ∀ op' ∈ clientOps history, op'.MakesKnown a → scope op' → op.index ≤ op'.index

/-- Some read in scope that contains the element was invoked after every read
completing after the element's add that lacks it. -/
def Stable (history : List (SetOp α)) (scope : SetOp α → Prop) (add : SetOp α) (a : α) : Prop :=
  ∃ op v inv, OkRead history op v inv ∧ scope op ∧ a ∈ v ∧
    ∀ op' v' inv', OkRead history op' v' inv' → add.index < op'.index → a ∉ v' →
      inv'.index < inv.index

/-- The element is known, and the last-invoked read in scope lacks it and was
invoked after the first operation that made it known. -/
def Lost (history : List (SetOp α)) (scope : SetOp α → Prop) (a : α) : Prop :=
  ∃ known, FirstKnown history scope a known ∧ ∃ op v inv, OkRead history op v inv ∧ scope op ∧
    a ∉ v ∧ known.index < inv.index ∧
      ∀ op' v' inv', OkRead history op' v' inv' → scope op' → inv'.index ≤ inv.index

/-- Operations that complete after the invocation of the add. -/
def Since (add : SetOp α) (op : SetOp α) : Prop := add.index < op.index

/-- The values of the completed reads. -/
def okReads (history : List (SetOp α)) : List (List α) :=
  (clientOps history).filterMap fun op =>
    match op.call, op.type with
    | .read v, .ok => some v
    | _, _ => none

/-! ## What the fold remembers -/

/-- The latest of some invocations, if there is one. -/
def IsLatest (invs : List (SetOp α)) : Option (SetOp α) → Prop
  | none => invs = []
  | some last => last ∈ invs ∧ ∀ inv ∈ invs, inv.index ≤ last.index

theorem IsLatest.snoc {invs : List (SetOp α)} {last : Option (SetOp α)}
    (hlatest : IsLatest invs last) (iop : SetOp α) :
    IsLatest (invs ++ [iop]) (later last (some iop)) := by
  cases last with
  | none =>
    rw [show invs = [] from hlatest]
    exact ⟨List.mem_singleton_self iop, fun inv hinv => (List.mem_singleton.mp hinv ▸ le_rfl)⟩
  | some last =>
    obtain ⟨hmem, hmax⟩ := hlatest
    have hsplit : ∀ inv ∈ invs ++ [iop], inv.index ≤ last.index ∨ inv = iop := by
      intro inv hinv
      rcases List.mem_append.mp hinv with hold | hnew
      · exact Or.inl (hmax inv hold)
      · exact Or.inr (List.mem_singleton.mp hnew)
    by_cases hlt : last.index < iop.index
    · rw [show later (some last) (some iop) = some iop from congrArg some (if_pos hlt)]
      refine ⟨List.mem_append_right _ (List.mem_singleton_self iop), fun inv hinv => ?_⟩
      rcases hsplit inv hinv with hle | rfl
      · exact hle.trans hlt.le
      · exact le_rfl
    · rw [show later (some last) (some iop) = some last from congrArg some (if_neg hlt)]
      refine ⟨List.mem_append_left _ hmem, fun inv hinv => ?_⟩
      rcases hsplit inv hinv with hle | rfl
      · exact hle
      · exact not_lt.mp hlt

/-- The invocations of the completed reads whose value satisfies `p`. -/
def readInvocations (history ops : List (SetOp α)) (p : List α → Bool) : List (SetOp α) :=
  ops.filterMap fun op =>
    match op.call, op.type with
    | .read v, .ok => if p v then invocation history op else none
    | _, _ => none

theorem readInvocations_append (history ops ops' : List (SetOp α)) (p : List α → Bool) :
    readInvocations history (ops ++ ops') p =
      readInvocations history ops p ++ readInvocations history ops' p :=
  List.filterMap_append

theorem mem_readInvocations {history ops : List (SetOp α)} {p : List α → Bool}
    {inv : SetOp α} :
    inv ∈ readInvocations history ops p ↔
      ∃ op ∈ ops, ∃ v, op.call = .read v ∧ op.type = .ok ∧ p v = true ∧
        invocation history op = some inv := by
  unfold readInvocations
  rw [List.mem_filterMap]
  constructor
  · intro ⟨op, hop, hinv⟩
    split at hinv
    · rename_i v hcall htype
      split at hinv
      · rename_i hp
        exact ⟨op, hop, v, hcall, htype, hp, hinv⟩
      · cases hinv
    · cases hinv
  · intro ⟨op, hop, v, hcall, htype, hp, hinv⟩
    refine ⟨op, hop, ?_⟩
    simp only [hcall, htype, hp, if_true]
    exact hinv

section Follows

variable [DecidableEq α]

def makesKnown (a : α) (op : SetOp α) : Bool :=
  match op.call with
  | .add v => decide (op.type = .ok ∧ v = a)
  | .read v => decide (op.type = .ok ∧ a ∈ v)
  | .other _ => false

theorem makesKnown_iff {a : α} {op : SetOp α} : makesKnown a op = true ↔ op.MakesKnown a := by
  unfold makesKnown SetOp.MakesKnown
  cases op.call with
  | add v => simp
  | read v => simp
  | other f => simp

/-- The state of an element after the operations that followed its add. -/
structure Follows (history ops : List (SetOp α)) (a : α) (state : SetFullElement α) :
    Prop where
  element : state.element = a
  known : state.known = ops.find? (makesKnown a)
  present : IsLatest (readInvocations history ops fun v => decide (a ∈ v)) state.lastPresent
  absent : IsLatest (readInvocations history ops fun v => decide (a ∉ v)) state.lastAbsent

theorem Follows.snoc {history ops : List (SetOp α)} {a : α} {state : SetFullElement α}
    (hfollows : Follows history ops a state) {op : SetOp α} (hadds : ¬ op.Adds a)
    (hread : op.type ≠ .invoke → (invocation history op).isSome) :
    ∃ state', stepAt history a (some state) op = some state' ∧
      Follows history (ops ++ [op]) a state' := by
  -- An operation that is no completed read and does not make `a` known.
  have hskip : makesKnown a op = false →
      (∀ p, readInvocations history [op] p = []) → Follows history (ops ++ [op]) a state := by
    intro hknown hnone
    refine ⟨hfollows.element, ?_, ?_, ?_⟩
    · rw [List.find?_append, hfollows.known]
      simp [hknown]
    · rw [readInvocations_append, hnone, List.append_nil]
      exact hfollows.present
    · rw [readInvocations_append, hnone, List.append_nil]
      exact hfollows.absent
  unfold stepAt
  cases hc : op.call with
  | other f =>
    exact ⟨state, rfl, hskip (by simp [makesKnown, hc]) (by simp [readInvocations, hc])⟩
  | add v =>
    have hnone : ∀ p, readInvocations history [op] p = [] := by simp [readInvocations, hc]
    by_cases hv : v = a
    · subst hv
      simp only [if_true]
      cases ht : op.type with
      | invoke => exact absurd ⟨ht, hc⟩ hadds
      | ok =>
        refine ⟨_, rfl, ?_⟩
        simp only [SetFullElement.setFullAdd, ht]
        refine ⟨hfollows.element, ?_, ?_, ?_⟩
        · rw [List.find?_append, hfollows.known]
          simp [makesKnown, hc, ht]
        · rw [readInvocations_append, hnone, List.append_nil]
          exact hfollows.present
        · rw [readInvocations_append, hnone, List.append_nil]
          exact hfollows.absent
      | _ =>
        refine ⟨_, rfl, ?_⟩
        simp only [SetFullElement.setFullAdd, ht]
        exact hskip (by simp [makesKnown, hc, ht]) hnone
    · simp only [if_neg hv]
      exact ⟨state, rfl, hskip (by simp [makesKnown, hc, hv]) hnone⟩
  | read v =>
    cases ht : op.type with
    | ok =>
      obtain ⟨inv, hinv⟩ := Option.isSome_iff_exists.mp (hread (by rw [ht]; nofun))
      refine ⟨_, rfl, ?_⟩
      by_cases hmem : a ∈ v
      · simp only [SetFullElement.observe, if_pos hmem, hinv]
        refine ⟨hfollows.element, ?_, ?_, ?_⟩
        · rw [List.find?_append, hfollows.known]
          simp [makesKnown, hc, ht, hmem]
        · have hlatest := hfollows.present.snoc inv
          simpa [readInvocations, hc, ht, hmem, hinv] using hlatest
        · have hlatest := hfollows.absent
          simpa [readInvocations, hc, ht, hmem, hinv] using hlatest
      · simp only [SetFullElement.observe, if_neg hmem, hinv]
        refine ⟨hfollows.element, ?_, ?_, ?_⟩
        · rw [List.find?_append, hfollows.known]
          simp [makesKnown, hc, ht, hmem]
        · have hlatest := hfollows.present
          simpa [readInvocations, hc, ht, hmem, hinv] using hlatest
        · have hlatest := hfollows.absent.snoc inv
          simpa [readInvocations, hc, ht, hmem, hinv] using hlatest
    | _ =>
      exact ⟨state, rfl, hskip (by simp [makesKnown, hc, ht]) (by simp [readInvocations, hc, ht])⟩

/-- The last invocation of the element's add. -/
structure LastAdd (history : List (SetOp α)) (add : SetOp α) (a : α) : Prop where
  mem : add ∈ clientOps history
  adds : add.Adds a
  last : ∀ op ∈ clientOps history, op.Adds a → op.index ≤ add.index

/-- After its last add, an element's state follows the operations since. -/
theorem follows_foldl {history : List (SetOp α)} (hwf : SetHistory history) {a : α}
    {add : SetOp α} (hadd : LastAdd history add a) (pre post : List (SetOp α))
    (hsplit : clientOps history = pre ++ add :: post) :
    ∃ state, (clientOps history).foldl (stepAt history a) none = some state ∧
      Follows history post a state := by
  have hinit : Follows history [] a (setFullElement a) := ⟨rfl, rfl, rfl, rfl⟩
  have hpost : ∀ ops rest, post = ops ++ rest →
      ∃ state, ops.foldl (stepAt history a) (some (setFullElement a)) = some state ∧
        Follows history ops a state := by
    intro ops
    induction ops using List.reverseRecOn with
    | nil => exact fun _ _ => ⟨_, rfl, hinit⟩
    | append_singleton ops op ih =>
      intro rest hrest
      obtain ⟨state, hfold, hfollows⟩ := ih (op :: rest) (by simpa using hrest)
      have hmem : op ∈ clientOps history := by simp [hsplit, hrest]
      have hnot : ¬ op.Adds a := by
        intro hagain
        have hle := hadd.last op hmem hagain
        have hsorted := hwf.sorted_clientOps
        rw [hsplit, hrest] at hsorted
        have hlater : op ∈ ops ++ [op] ++ rest := by simp
        have hlt := List.rel_of_pairwise_cons (List.pairwise_append.mp hsorted).2.1 hlater
        exact absurd hle (not_le.mpr hlt)
      obtain ⟨state', hstep, hfollows'⟩ := hfollows.snoc hnot fun htype => by
        obtain ⟨inv, hinv, -⟩ := hwf.invoked op hmem htype
        rw [hinv]
        rfl
      refine ⟨state', ?_, hfollows'⟩
      rw [List.foldl_append, hfold]
      exact hstep
  obtain ⟨state, hfold, hfollows⟩ := hpost post [] (List.append_nil _).symm
  refine ⟨state, ?_, hfollows⟩
  rw [hsplit, List.foldl_append, List.foldl_cons, stepAt_adds hadd.adds]
  exact hfold

/-- Only what was added is tracked. -/
theorem exists_adds_of_foldl_isSome {history ops : List (SetOp α)} {a : α}
    (hsome : (ops.foldl (stepAt history a) none).isSome) : ∃ add ∈ ops, add.Adds a := by
  induction ops using List.reverseRecOn with
  | nil => cases hsome
  | append_singleton ops op ih =>
    rw [List.foldl_append] at hsome
    cases hfold : ops.foldl (stepAt history a) none with
    | some state =>
      obtain ⟨add, hadd, hadds⟩ := ih (by rw [hfold]; rfl)
      exact ⟨add, List.mem_append_left _ hadd, hadds⟩
    | none =>
      rw [hfold] at hsome
      refine ⟨op, List.mem_append_right _ (List.mem_singleton_self op), ?_⟩
      change (stepAt history a none op).isSome = true at hsome
      unfold stepAt at hsome
      cases hc : op.call with
      | other f =>
        rw [hc] at hsome
        cases hsome
      | read v =>
        rw [hc] at hsome
        cases ht : op.type <;> rw [ht] at hsome <;> cases hsome
      | add v =>
        rw [hc] at hsome
        by_cases hv : v = a
        · subst hv
          cases ht : op.type with
          | invoke => exact ⟨ht, hc⟩
          | _ =>
            simp only [if_true, ht] at hsome
            cases hsome
        · simp only [if_neg hv] at hsome
          cases hsome

/-! ## What the state decides -/

section Decide

variable {history pre post : List (SetOp α)} {a : α} {add : SetOp α} {state : SetFullElement α}

omit [DecidableEq α] in
/-- The operations after the add are those with a later index. -/
theorem mem_post_iff (hwf : SetHistory history)
    (hsplit : clientOps history = pre ++ add :: post) {op : SetOp α} :
    op ∈ post ↔ op ∈ clientOps history ∧ Since add op := by
  have hsorted := hwf.sorted_clientOps
  rw [hsplit] at hsorted
  obtain ⟨-, htail, hcross⟩ := List.pairwise_append.mp hsorted
  rw [hsplit]
  constructor
  · intro hop
    exact ⟨by simp [hop], List.rel_of_pairwise_cons htail hop⟩
  · intro ⟨hop, hlt⟩
    rcases List.mem_append.mp hop with hpre | hrest
    · have hbefore := hcross op hpre add List.mem_cons_self
      exact absurd (hbefore.trans hlt) (lt_irrefl _)
    · rcases List.mem_cons.mp hrest with rfl | hpost
      · exact absurd hlt (lt_irrefl _)
      · exact hpost

omit [DecidableEq α] in
theorem mem_readInvocations_iff (hwf : SetHistory history)
    (hsplit : clientOps history = pre ++ add :: post) {p : List α → Bool} {inv : SetOp α} :
    inv ∈ readInvocations history post p ↔
      ∃ op v, OkRead history op v inv ∧ Since add op ∧ p v = true := by
  rw [mem_readInvocations]
  constructor
  · intro ⟨op, hop, v, hcall, htype, hp, hinv⟩
    obtain ⟨hmem, hsince⟩ := (mem_post_iff hwf hsplit).mp hop
    exact ⟨op, v, ⟨hmem, htype, hcall, hinv⟩, hsince, hp⟩
  · intro ⟨op, v, hread, hsince, hp⟩
    exact ⟨op, (mem_post_iff hwf hsplit).mpr ⟨hread.mem, hsince⟩, v, hread.call, hread.type, hp,
      hread.invoked⟩

theorem firstKnown_iff (hwf : SetHistory history)
    (hsplit : clientOps history = pre ++ add :: post) (hfollows : Follows history post a state)
    {known : SetOp α} :
    state.known = some known ↔ FirstKnown history (Since add) a known := by
  rw [hfollows.known]
  have hsorted : post.Pairwise fun op op' => op.index < op'.index := by
    have hall := hwf.sorted_clientOps
    rw [hsplit] at hall
    exact (List.pairwise_cons.mp (List.pairwise_append.mp hall).2.1).2
  have hfirst : ∀ k, post.find? (makesKnown a) = some k → FirstKnown history (Since add) a k := by
    intro k hfind
    obtain ⟨hmakes, before, after, hpost, hnone⟩ := List.find?_eq_some_iff_append.mp hfind
    obtain ⟨hmem, hsince⟩ := (mem_post_iff hwf hsplit).mp (List.mem_of_find?_eq_some hfind)
    refine ⟨hmem, makesKnown_iff.mp hmakes, hsince, fun op hop hknown hsince' => ?_⟩
    have hin := (mem_post_iff hwf hsplit).mpr ⟨hop, hsince'⟩
    rw [hpost] at hin hsorted
    rcases List.mem_append.mp hin with hbefore | hrest
    · have hnot := hnone op hbefore
      rw [makesKnown_iff.mpr hknown] at hnot
      cases hnot
    · rcases List.mem_cons.mp hrest with rfl | hafter
      · exact le_rfl
      · exact (List.rel_of_pairwise_cons (List.pairwise_append.mp hsorted).2.1 hafter).le
  constructor
  · exact hfirst known
  · intro hknown
    cases hfind : post.find? (makesKnown a) with
    | none =>
      have hnot := List.find?_eq_none.mp hfind known
        ((mem_post_iff hwf hsplit).mpr ⟨hknown.mem, hknown.inScope⟩)
      exact absurd (makesKnown_iff.mpr hknown.makes) hnot
    | some k =>
      have hk := hfirst k hfind
      have hle := hk.first known hknown.mem hknown.makes hknown.inScope
      have hge := hknown.first k hk.mem hk.makes hk.inScope
      rw [hwf.eq_of_index_eq (mem_clientOps.mp hk.mem).1 (mem_clientOps.mp hknown.mem).1
        (le_antisymm hle hge)]

/-- A read that saw the element makes it known. -/
theorem known_isSome_of_lastPresent (hfollows : Follows history post a state)
    (hpresent : state.lastPresent.isSome) : state.known.isSome := by
  obtain ⟨last, hlast⟩ := Option.isSome_iff_exists.mp hpresent
  have hlatest := hfollows.present
  rw [hlast] at hlatest
  obtain ⟨op, hop, v, hcall, htype, hmem, -⟩ := mem_readInvocations.mp hlatest.1
  rw [hfollows.known, List.find?_isSome]
  exact ⟨op, hop, makesKnown_iff.mpr ⟨htype, Or.inr ⟨v, hcall, of_decide_eq_true hmem⟩⟩⟩

theorem isStable_iff (hwf : SetHistory history)
    (hsplit : clientOps history = pre ++ add :: post)
    (hfollows : Follows history post a state) :
    state.isStable = true ↔ Stable history (Since add) add a := by
  have hpresent := hfollows.present
  have habsent := hfollows.absent
  unfold SetFullElement.isStable
  rw [Bool.and_eq_true, decide_eq_true_iff]
  constructor
  · intro ⟨hsome, hlt⟩
    obtain ⟨last, hlast⟩ := Option.isSome_iff_exists.mp hsome
    rw [hlast] at hpresent hlt
    obtain ⟨op, v, hread, hsince, hmem⟩ := (mem_readInvocations_iff hwf hsplit).mp hpresent.1
    refine ⟨op, v, last, hread, hsince, of_decide_eq_true hmem, ?_⟩
    intro op' v' inv' hread' hsince' hnot
    have hin : inv' ∈ readInvocations history post fun v => decide (a ∉ v) :=
      (mem_readInvocations_iff hwf hsplit).mpr ⟨op', v', hread', hsince', decide_eq_true hnot⟩
    cases hl : state.lastAbsent with
    | none =>
      rw [hl] at habsent
      rw [show readInvocations history post _ = [] from habsent] at hin
      cases hin
    | some absent =>
      rw [hl] at habsent hlt
      have hle := habsent.2 inv' hin
      simp only [indexOr] at hlt
      omega
  · intro ⟨op, v, inv, hread, hsince, hmem, hafter⟩
    have hin : inv ∈ readInvocations history post fun v => decide (a ∈ v) :=
      (mem_readInvocations_iff hwf hsplit).mpr ⟨op, v, hread, hsince, decide_eq_true hmem⟩
    cases hl : state.lastPresent with
    | none =>
      rw [hl] at hpresent
      rw [show readInvocations history post _ = [] from hpresent] at hin
      cases hin
    | some last =>
      rw [hl] at hpresent
      have hle := hpresent.2 inv hin
      refine ⟨rfl, ?_⟩
      cases hl' : state.lastAbsent with
      | none => simp only [indexOr]; omega
      | some absent =>
        rw [hl'] at habsent
        obtain ⟨op', v', hread', hsince', hnot⟩ :=
          (mem_readInvocations_iff hwf hsplit).mp habsent.1
        have hlt := hafter op' v' absent hread' hsince' (of_decide_eq_true hnot)
        simp only [indexOr]
        omega

theorem isLost_iff (hwf : SetHistory history)
    (hsplit : clientOps history = pre ++ add :: post)
    (hfollows : Follows history post a state) :
    state.isLost = true ↔ Lost history (Since add) a := by
  have hpresent := hfollows.present
  have habsent := hfollows.absent
  unfold SetFullElement.isLost
  simp only [Bool.and_eq_true, decide_eq_true_iff]
  constructor
  · intro ⟨⟨⟨hk, ha⟩, hlt⟩, hltKnown⟩
    obtain ⟨known, hknown⟩ := Option.isSome_iff_exists.mp hk
    obtain ⟨absent, hlast⟩ := Option.isSome_iff_exists.mp ha
    have hfirst := (firstKnown_iff hwf hsplit hfollows).mp hknown
    rw [hknown, hlast] at hltKnown
    rw [hlast] at habsent hlt
    obtain ⟨op, v, hread, hsince, hnot⟩ := (mem_readInvocations_iff hwf hsplit).mp habsent.1
    refine ⟨known, hfirst, op, v, absent, hread, hsince, of_decide_eq_true hnot, ?_, ?_⟩
    · simp only [indexOr] at hltKnown
      omega
    · intro op' v' inv' hread' hsince'
      by_cases hmem : a ∈ v'
      · have hin : inv' ∈ readInvocations history post fun v => decide (a ∈ v) :=
          (mem_readInvocations_iff hwf hsplit).mpr ⟨op', v', hread', hsince', decide_eq_true hmem⟩
        cases hl : state.lastPresent with
        | none =>
          rw [hl] at hpresent
          rw [show readInvocations history post _ = [] from hpresent] at hin
          cases hin
        | some last =>
          rw [hl] at hpresent hlt
          have hle := hpresent.2 inv' hin
          simp only [indexOr] at hlt
          omega
      · exact habsent.2 inv' ((mem_readInvocations_iff hwf hsplit).mpr
          ⟨op', v', hread', hsince', decide_eq_true hmem⟩)
  · intro ⟨known, hfirst, op, v, inv, hread, hsince, hnot, hltKnown, hlast⟩
    have hknown := (firstKnown_iff hwf hsplit hfollows).mpr hfirst
    have hin : inv ∈ readInvocations history post fun v => decide (a ∉ v) :=
      (mem_readInvocations_iff hwf hsplit).mpr ⟨op, v, hread, hsince, decide_eq_true hnot⟩
    cases hl : state.lastAbsent with
    | none =>
      rw [hl] at habsent
      rw [show readInvocations history post _ = [] from habsent] at hin
      cases hin
    | some absent =>
      rw [hl] at habsent
      have hle := habsent.2 inv hin
      rw [hknown]
      refine ⟨⟨⟨rfl, rfl⟩, ?_⟩, ?_⟩
      · cases hl' : state.lastPresent with
        | none => simp only [indexOr]; omega
        | some present =>
          rw [hl'] at hpresent
          obtain ⟨op', v', hread', hsince', hmem⟩ :=
            (mem_readInvocations_iff hwf hsplit).mp hpresent.1
          have hle' := hlast op' v' present hread' hsince'
          obtain ⟨op'', v'', hread'', -, hnot''⟩ :=
            (mem_readInvocations_iff hwf hsplit).mp habsent.1
          have hne := hread'.index_ne hwf hread'' (of_decide_eq_true hmem)
            (of_decide_eq_true hnot'')
          simp only [indexOr]
          omega
      · simp only [indexOr]
        omega

end Decide

end Follows

end Jepsen.Checker
