/-
# The verdict of set-full

On every client history the checker returns. Its results classify each element
that was added as its timeline does, and the verdict follows from the elements
that are lost and stable. Duplicates are the exception: the filter that collects
them keeps frequencies below one, of which there are none.
-/

import Jepsen.Checker.SetFullOutcome

namespace Jepsen.Checker

open Jepsen.History Jepsen.Library

universe u

variable {α : Type u}

/-! ## Results of all elements -/

/-- A map that does not fail on any element of a list succeeds, and keeps the
order. -/
theorem mapM_eq_ok {β γ : Type*} {ε : Type*} {f : β → Except ε γ} {l : List β}
    (hok : ∀ b ∈ l, ∃ c, f b = .ok c) :
    ∃ cs, l.mapM f = .ok cs ∧ List.Forall₂ (fun b c => f b = .ok c) l cs := by
  induction l with
  | nil => exact ⟨[], rfl, .nil⟩
  | cons b l ih =>
    obtain ⟨c, hc⟩ := hok b List.mem_cons_self
    obtain ⟨cs, hcs, hall⟩ := ih fun b' hb' => hok b' (List.mem_cons_of_mem b hb')
    refine ⟨c :: cs, ?_, .cons hc hall⟩
    rw [List.mapM_cons, hc, hcs]
    rfl

/-- A result keeps the element and its outcome, whatever the latencies are. -/
theorem setFullElementResults_eq_ok {state : SetFullElement α}
    (hknown : state.lastPresent.isSome → state.known.isSome) :
    ∃ r, state.setFullElementResults = .ok r ∧ r.element = state.element ∧
      r.outcome =
        if state.isStable then .stable else if state.isLost then .lost else .neverRead := by
  have hlatency : ∀ (outcome : Bool) (last : Option (SetOp α)),
      (outcome = true → state.known.isSome) →
        ∃ x, SetFullElement.latencyWhen outcome state.known last = .ok x := by
    intro outcome last hsome
    unfold SetFullElement.latencyWhen
    cases outcome with
    | false => exact ⟨none, rfl⟩
    | true =>
      obtain ⟨known, hk⟩ := Option.isSome_iff_exists.mp (hsome rfl)
      rw [hk]
      exact ⟨_, rfl⟩
  obtain ⟨x, hx⟩ := hlatency state.isStable state.lastAbsent fun hstable => by
    unfold SetFullElement.isStable at hstable
    rw [Bool.and_eq_true] at hstable
    exact hknown hstable.1
  obtain ⟨y, hy⟩ := hlatency state.isLost state.lastPresent fun hlost => by
    unfold SetFullElement.isLost at hlost
    simp only [Bool.and_eq_true] at hlost
    exact hlost.1.1.1
  simp only [SetFullElement.setFullElementResults, hx, hy]
  exact ⟨_, rfl, rfl, rfl⟩

section Verdict

variable [LinearOrder α] {history : List (SetOp α)}

/-- The results of all elements, in the order of the elements. -/
def elementResults (history : List (SetOp α)) : Except Thrown (List (ElementResult α)) :=
  match track history with
  | .error t => .error t
  | .ok (elements, _) => (sortedElements elements).mapM SetFullElement.setFullElementResults

theorem mem_sortedElements {elements : Assoc α (SetFullElement α)} {state : SetFullElement α} :
    state ∈ sortedElements elements ↔ ∃ a, elements.lookup a = some state := by
  unfold sortedElements
  rw [List.mem_map]
  constructor
  · intro ⟨e, he, hstate⟩
    rw [List.mem_insertionSort] at he
    rw [← hstate]
    exact ⟨e.1, Assoc.mem_entries_iff.mp he⟩
  · intro ⟨a, hlookup⟩
    refine ⟨⟨a, state⟩, ?_, rfl⟩
    rw [List.mem_insertionSort]
    exact Assoc.mem_entries_iff.mpr hlookup

/-- The result of an element, from the timeline of its add. -/
structure Classified (history : List (SetOp α)) (add : SetOp α) (a : α)
    (r : ElementResult α) : Prop where
  element : r.element = a
  stable : r.outcome = .stable ↔ Stable history (Since add) add a
  lost : r.outcome = .lost ↔ Lost history (Since add) a
  neverRead : r.outcome = .neverRead ↔
    ¬ Stable history (Since add) add a ∧ ¬ Lost history (Since add) a

omit [LinearOrder α] in
/-- No read can be both after and before every other. -/
theorem not_lost_of_stable {add : SetOp α} {a : α}
    (hstable : Stable history (Since add) add a) : ¬ Lost history (Since add) a := by
  intro ⟨_, _, op, v, inv, hread, hsince, hnot, _, hlast⟩
  obtain ⟨op', v', inv', hread', hsince', -, hafter⟩ := hstable
  have hlt := hafter op v inv hread hsince hnot
  have hle := hlast op' v' inv' hread' hsince'
  omega

/-- The result of what the checker remembers of an element in the end. -/
def ResultOf (history : List (SetOp α)) (add : SetOp α) (a : α) (r : ElementResult α) : Prop :=
  ∃ pre post state, clientOps history = pre ++ add :: post ∧ Follows history post a state ∧
    state.setFullElementResults = .ok r

theorem exists_resultOf (hwf : SetHistory history) {add : SetOp α} {a : α}
    (hadd : LastAdd history add a) :
    ∃ state r, (clientOps history).foldl (stepAt history a) none = some state ∧
      state.setFullElementResults = .ok r ∧ ResultOf history add a r := by
  obtain ⟨pre, post, hsplit⟩ := List.append_of_mem hadd.mem
  obtain ⟨state, hfold, hfollows⟩ := follows_foldl hwf hadd pre post hsplit
  obtain ⟨r, hr, -, -⟩ := setFullElementResults_eq_ok (known_isSome_of_lastPresent hfollows)
  exact ⟨state, r, hfold, hr, pre, post, state, hsplit, hfollows, hr⟩

theorem ResultOf.classified (hwf : SetHistory history) {add : SetOp α} {a : α}
    {r : ElementResult α} (hresult : ResultOf history add a r) :
    Classified history add a r := by
  obtain ⟨pre, post, state, hsplit, hfollows, hr⟩ := hresult
  obtain ⟨r', hr', helement, houtcome⟩ :=
    setFullElementResults_eq_ok (known_isSome_of_lastPresent hfollows)
  obtain rfl := Except.ok.inj (hr.symm.trans hr')
  have hstable := isStable_iff hwf hsplit hfollows
  have hlost := isLost_iff hwf hsplit hfollows
  refine ⟨helement.trans hfollows.element, ?_, ?_, ?_⟩
  · rw [houtcome, ← hstable]
    cases state.isStable <;> cases state.isLost <;> simp
  · rw [houtcome]
    cases hs : state.isStable with
    | true =>
      have hnot := not_lost_of_stable (hstable.mp hs)
      simp [hnot]
    | false =>
      rw [← hlost]
      cases state.isLost <;> simp
  · rw [houtcome, ← hstable, ← hlost]
    cases state.isStable <;> cases state.isLost <;> simp

omit [LinearOrder α] in
/-- What was added at all has a last add. -/
theorem exists_lastAdd (hwf : SetHistory history) {add : SetOp α} {a : α}
    (hadd : add ∈ clientOps history) (hadds : add.Adds a) :
    ∃ last, LastAdd history last a := by
  have hlast : ∀ ops : List (SetOp α), (∃ op ∈ ops, op.Adds a) →
      ops.Pairwise (fun op op' => op.index < op'.index) →
      ∃ last ∈ ops, last.Adds a ∧ ∀ op ∈ ops, op.Adds a → op.index ≤ last.index := by
    intro ops
    induction ops using List.reverseRecOn with
    | nil =>
      rintro ⟨op, hop, -⟩
      cases hop
    | append_singleton ops op ih =>
      intro hsome hsorted
      obtain ⟨hinit, -, hbefore⟩ := List.pairwise_append.mp hsorted
      by_cases hop : op.Adds a
      · refine ⟨op, List.mem_append_right _ (List.mem_singleton_self op), hop, ?_⟩
        intro op' hop' _
        rcases List.mem_append.mp hop' with hold | hnew
        · exact (hbefore op' hold op (List.mem_singleton_self op)).le
        · rw [List.mem_singleton.mp hnew]
      · have honly : ∀ op' ∈ ops ++ [op], op'.Adds a → op' ∈ ops := by
          intro op' hop' hadds'
          rcases List.mem_append.mp hop' with hold | hnew
          · exact hold
          · exact absurd (List.mem_singleton.mp hnew ▸ hadds') hop
        obtain ⟨op', hop', hadds'⟩ := hsome
        obtain ⟨last, hmem, hl, hmax⟩ := ih ⟨op', honly op' hop' hadds', hadds'⟩ hinit
        exact ⟨last, List.mem_append_left _ hmem, hl,
          fun o ho hadds'' => hmax o (honly o ho hadds'') hadds''⟩
  obtain ⟨last, hmem, hl, hmax⟩ := hlast _ ⟨add, hadd, hadds⟩ hwf.sorted_clientOps
  exact ⟨last, hmem, hl, hmax⟩

omit [LinearOrder α] in
theorem LastAdd.of_once (hwf : ClientHistory history) {add : SetOp α} {a : α}
    (hadd : add ∈ clientOps history) (hadds : add.Adds a) : LastAdd history add a :=
  ⟨hadd, hadds, fun op hop hop' => (congrArg SetOp.index
    (hwf.once a op hop add hadd hop' hadds)).le⟩

/-- The checker returns, with one result for each element that was added. -/
theorem elementResults_eq_ok (hwf : SetHistory history) :
    ∃ rs, elementResults history = .ok rs ∧
      (∀ r ∈ rs, ∃ add a, LastAdd history add a ∧ ResultOf history add a r) ∧
      (∀ add a, LastAdd history add a →
        ∃ r ∈ rs, ResultOf history add a r ∧ ∀ r' ∈ rs, r'.element = a → r' = r) ∧
      ∀ linearizable, setFull linearizable history = .ok ⟨aggregate linearizable rs, 0, ∅⟩ := by
  obtain ⟨elements, htrack, hlookup⟩ := track_eq_ok hwf
  have hstate : ∀ state ∈ sortedElements elements, ∃ add a, LastAdd history add a ∧
      (clientOps history).foldl (stepAt history a) none = some state ∧
        ∃ r, state.setFullElementResults = .ok r ∧ ResultOf history add a r := by
    intro state hmem
    obtain ⟨a, ha⟩ := mem_sortedElements.mp hmem
    rw [hlookup a] at ha
    obtain ⟨add, hadd, hadds⟩ :=
      exists_adds_of_foldl_isSome (Option.isSome_iff_exists.mpr ⟨state, ha⟩)
    obtain ⟨last, hlast⟩ := exists_lastAdd hwf hadd hadds
    obtain ⟨state', r, hfold, hr, hresult⟩ := exists_resultOf hwf hlast
    obtain rfl := Option.some.inj (ha.symm.trans hfold)
    exact ⟨last, a, hlast, hfold, r, hr, hresult⟩
  obtain ⟨rs, hrs, hall⟩ := mapM_eq_ok (f := SetFullElement.setFullElementResults)
    fun state hmem => by
      obtain ⟨_, _, _, _, r, hr, -⟩ := hstate state hmem
      exact ⟨r, hr⟩
  have hresult : ∀ r ∈ rs, ∃ state ∈ sortedElements elements,
      state.setFullElementResults = .ok r := by
    intro r hr
    obtain ⟨i, hi, rfl⟩ := List.mem_iff_getElem.mp hr
    have hlen := hall.length_eq
    exact ⟨_, List.getElem_mem (by omega), (List.forall₂_iff_get.mp hall).2 i (by omega) hi⟩
  refine ⟨rs, ?_, ?_, ?_, ?_⟩
  · rw [elementResults, htrack]
    exact hrs
  · intro r hr
    obtain ⟨state, hmem, hok⟩ := hresult r hr
    obtain ⟨add, a, hadd, -, r', hr', hresultOf⟩ := hstate state hmem
    obtain rfl := Except.ok.inj (hok.symm.trans hr')
    exact ⟨add, a, hadd, hresultOf⟩
  · intro add a hadd
    obtain ⟨state, r, hfold, hr, hresultOf⟩ := exists_resultOf hwf hadd
    have hmem : state ∈ sortedElements elements :=
      mem_sortedElements.mpr ⟨a, (hlookup a).trans hfold⟩
    obtain ⟨i, hi, rfl⟩ := List.mem_iff_getElem.mp hmem
    have hlen := hall.length_eq
    have hok := (List.forall₂_iff_get.mp hall).2 i hi (by omega)
    obtain heq := Except.ok.inj (hr.symm.trans hok)
    refine ⟨r, ?_, hresultOf, fun r' hr' helement => ?_⟩
    · rw [heq]
      exact List.getElem_mem _
    · obtain ⟨state', hmem', hok'⟩ := hresult r' hr'
      obtain ⟨add', a', -, hfold', r'', hr'', hresultOf'⟩ := hstate state' hmem'
      obtain rfl := Except.ok.inj (hok'.symm.trans hr'')
      obtain rfl := (hresultOf'.classified hwf).element.symm.trans helement
      rw [hfold] at hfold'
      obtain hsame := Option.some.inj hfold'
      rw [← hsame, hr] at hok'
      exact (Except.ok.inj hok').symm
  · intro linearizable
    unfold setFull
    rw [htrack]
    simp only [setFullResults, hrs, Except.map, AList.empty_entries, if_true, List.length_nil]

/-- Some element that was added is lost. -/
def SomeLost (history : List (SetOp α)) : Prop :=
  ∃ add ∈ clientOps history, ∃ a, add.Adds a ∧ Lost history (Since add) a

/-- Some element that was added is stable. -/
def SomeStable (history : List (SetOp α)) : Prop :=
  ∃ add ∈ clientOps history, ∃ a, add.Adds a ∧ Stable history (Since add) add a

/-- The list of the elements with an outcome has an element exactly if its result
has the outcome. -/
theorem mem_sorted_iff {rs : List (ElementResult α)} {r : ElementResult α} {a : α}
    (hr : r ∈ rs) (helement : r.element = a) (honly : ∀ r' ∈ rs, r'.element = a → r' = r)
    (outcome : Outcome) :
    a ∈ ((rs.filter fun r => decide (r.outcome = outcome)).map
        ElementResult.element).insertionSort (· ≤ ·) ↔ r.outcome = outcome := by
  rw [List.mem_insertionSort, List.mem_map]
  constructor
  · intro ⟨r', hr', helement'⟩
    obtain ⟨hmem, houtcome⟩ := List.mem_filter.mp hr'
    rw [← honly r' hmem helement']
    exact of_decide_eq_true houtcome
  · intro houtcome
    exact ⟨r, List.mem_filter.mpr ⟨hr, decide_eq_true houtcome⟩, helement⟩

/-- Every element that was added has the outcome of its timeline, and without
duplicates the verdict of a test that is not linearizable follows from them. -/
theorem setFull_classifies (hwf : ClientHistory history) (linearizable : Bool) :
    ∃ rs checked, elementResults history = .ok rs ∧ setFull linearizable history = .ok checked ∧
      (∀ add ∈ clientOps history, ∀ a, add.Adds a →
        ¬ (Stable history (Since add) add a ∧ Lost history (Since add) a) ∧
        (a ∈ checked.lost ↔ Lost history (Since add) a) ∧
        (a ∈ checked.neverRead ↔
          ¬ Stable history (Since add) add a ∧ ¬ Lost history (Since add) a) ∧
        ∃ r ∈ rs, Classified history add a r ∧ ∀ r' ∈ rs, r'.element = a → r' = r) ∧
      ((∀ v ∈ okReads history, v.Nodup) → linearizable = false →
        (checked.valid = .false ↔ SomeLost history) ∧
        (checked.valid = .unknown ↔ ¬ SomeLost history ∧ ¬ SomeStable history)) := by
  obtain ⟨rs, hrs, hadded, hresult, hchecked⟩ := elementResults_eq_ok hwf.toSetHistory
  refine ⟨rs, _, hrs, hchecked linearizable, ?_, ?_⟩
  · intro add hadd a hadds
    obtain ⟨r, hr, hresultOf, honly⟩ := hresult add a (.of_once hwf hadd hadds)
    have hclassified := hresultOf.classified hwf.toSetHistory
    have hmem := mem_sorted_iff hr hclassified.element honly
    exact ⟨fun hboth => not_lost_of_stable hboth.1 hboth.2,
      (hmem .lost).trans hclassified.lost, (hmem .neverRead).trans hclassified.neverRead,
      r, hr, hclassified, honly⟩
  · intro _ hlinearizable
    have hcount : ∀ outcome : Outcome,
        (rs.filter fun r => decide (r.outcome = outcome)).length = 0 ↔
          ∀ r ∈ rs, r.outcome ≠ outcome := by
      intro outcome
      rw [List.length_eq_zero_iff, List.filter_eq_nil_iff]
      simp only [decide_eq_true_iff, ne_eq]
    have hlost : (∃ r ∈ rs, r.outcome = .lost) ↔ SomeLost history := by
      constructor
      · rintro ⟨r, hr, houtcome⟩
        obtain ⟨add, a, hadd, hresultOf⟩ := hadded r hr
        exact ⟨add, hadd.mem, a, hadd.adds,
          (hresultOf.classified hwf.toSetHistory).lost.mp houtcome⟩
      · rintro ⟨add, hadd, a, hadds, hisLost⟩
        obtain ⟨r, hr, hresultOf, -⟩ := hresult add a (.of_once hwf hadd hadds)
        exact ⟨r, hr, (hresultOf.classified hwf.toSetHistory).lost.mpr hisLost⟩
    have hstable : (∃ r ∈ rs, r.outcome = .stable) ↔ SomeStable history := by
      constructor
      · rintro ⟨r, hr, houtcome⟩
        obtain ⟨add, a, hadd, hresultOf⟩ := hadded r hr
        exact ⟨add, hadd.mem, a, hadd.adds,
          (hresultOf.classified hwf.toSetHistory).stable.mp houtcome⟩
      · rintro ⟨add, hadd, a, hadds, hisStable⟩
        obtain ⟨r, hr, hresultOf, -⟩ := hresult add a (.of_once hwf hadd hadds)
        exact ⟨r, hr, (hresultOf.classified hwf.toSetHistory).stable.mpr hisStable⟩
    rw [← hlost, ← hstable, hlinearizable]
    by_cases hnone : ∀ r ∈ rs, r.outcome ≠ .lost
    · have hzero := (hcount .lost).mpr hnone
      have hno : ¬ ∃ r ∈ rs, r.outcome = .lost := fun ⟨r, hr, h⟩ => hnone r hr h
      by_cases hnoStable : ∀ r ∈ rs, r.outcome ≠ .stable
      · have hzero' := (hcount .stable).mpr hnoStable
        have hno' : ¬ ∃ r ∈ rs, r.outcome = .stable := fun ⟨r, hr, h⟩ => hnoStable r hr h
        simp [aggregate, hzero, hzero', hno, hno']
      · have hpos := mt (hcount .stable).mp hnoStable
        have hyes : ∃ r ∈ rs, r.outcome = .stable := by
          push Not at hnoStable
          exact hnoStable
        simp only [aggregate, hzero, lt_self_iff_false, if_false, if_neg hpos]
        simp [hno, hyes]
    · have hpos := Nat.pos_of_ne_zero (mt (hcount .lost).mp hnone)
      have hyes : ∃ r ∈ rs, r.outcome = .lost := by
        push Not at hnone
        exact hnone
      simp only [aggregate, if_pos hpos]
      simp [hyes]

end Verdict

/-! ## A read of what nobody added -/

/-- Process 0 reads element 0 before process 1 adds it. -/
def phantomRead : List (SetOp ℤ) :=
  [⟨0, 0, .int 0, .invoke, .read []⟩, ⟨1, 1, .int 0, .ok, .read [0]⟩,
    ⟨2, 2, .int 1, .invoke, .add 0⟩, ⟨3, 3, .int 1, .ok, .add 0⟩]

/-- Process 0 reads the element that process 1 added. -/
def addThenRead : List (SetOp ℤ) :=
  [⟨0, 0, .int 1, .invoke, .add 0⟩, ⟨1, 1, .int 1, .ok, .add 0⟩,
    ⟨2, 2, .int 0, .invoke, .read []⟩, ⟨3, 3, .int 0, .ok, .read [0]⟩]

/-- The operation starts something, or its process started it. -/
def answers (history : List (SetOp ℤ)) (op : SetOp ℤ) : Bool :=
  match op.call with
  | .add v => decide (op.type = .invoke) ||
      decide ((invocation history op).map SetOp.call = some (.add v))
  | .read _ => decide (op.type = .invoke) ||
      decide ((invocation history op).map SetOp.call = some (.read []))
  | .other _ => false

/-- A history whose conditions evaluate to true is a client history. -/
theorem clientHistory_of_checks {history : List (SetOp ℤ)}
    (hindex : history.map SetOp.index = List.range history.length)
    (hanswers : ∀ op ∈ clientOps history, answers history op = true)
    (honce : ∀ op ∈ clientOps history, ∀ op' ∈ clientOps history, op.type = .invoke →
      op'.type = .invoke → op.call = op'.call → op.call ≠ .read [] → op = op') :
    ClientHistory history where
  index := fun i op hop => by
    have h := congrArg (fun l => l[i]?) hindex
    simp only [List.getElem?_map, hop, Option.map_some] at h
    obtain ⟨hlt, heq⟩ := List.getElem?_eq_some_iff.mp h.symm
    rw [List.getElem_range] at heq
    exact heq.symm
  calls := fun op hop f hcall => by
    have h := hanswers op hop
    rw [answers, hcall] at h
    cases h
  invoked := fun op hop htype => by
    have h := hanswers op hop
    unfold answers at h
    cases hcall : op.call with
    | add v =>
      simp only [hcall, htype, decide_false, Bool.false_or, decide_eq_true_iff] at h
      obtain ⟨inv, hinv, heq⟩ := Option.map_eq_some_iff.mp h
      refine ⟨inv, hinv, ?_⟩
      rw [heq]
      exact rfl
    | read v =>
      simp only [hcall, htype, decide_false, Bool.false_or, decide_eq_true_iff] at h
      obtain ⟨inv, hinv, heq⟩ := Option.map_eq_some_iff.mp h
      refine ⟨inv, hinv, ?_⟩
      rw [heq]
      trivial
    | other f =>
      rw [hcall] at h
      cases h
  once := fun a op hop op' hop' hadds hadds' => by
    apply honce op hop op' hop' hadds.1 hadds'.1 (hadds.2.trans hadds'.2.symm)
    rw [hadds.2]
    nofun

theorem clientHistory_addThenRead : ClientHistory addThenRead :=
  clientHistory_of_checks (by decide) (by decide) (by decide)

theorem clientHistory_phantomRead : ClientHistory phantomRead :=
  clientHistory_of_checks (by decide) (by decide) (by decide)

/-- Element 0 is read after its add, and stable. -/
theorem setFull_classifies_addThenRead :
    ∃ rs checked, elementResults addThenRead = .ok rs ∧
      setFull false addThenRead = .ok checked ∧
      ∃ r ∈ rs, r.element = 0 ∧ r.outcome = .stable := by
  obtain ⟨rs, checked, hrs, hchecked, hadded, -⟩ :=
    setFull_classifies clientHistory_addThenRead false
  obtain ⟨-, -, -, r, hr, hclassified, -⟩ :=
    hadded ⟨0, 0, .int 1, .invoke, .add 0⟩ (by decide) 0 ⟨rfl, rfl⟩
  refine ⟨rs, checked, hrs, hchecked, r, hr, hclassified.element, hclassified.stable.mpr ?_⟩
  refine ⟨⟨3, 3, .int 0, .ok, .read [0]⟩, [0], ⟨2, 2, .int 0, .invoke, .read []⟩,
    ⟨by decide, rfl, rfl, by decide⟩, by unfold Since; decide, by decide, ?_⟩
  intro op' v' inv' hread' _ hnot
  have hmem : op' ∈ addThenRead := (mem_clientOps.mp hread'.mem).1
  simp only [addThenRead, List.mem_cons, List.not_mem_nil, or_false] at hmem
  rcases hmem with rfl | rfl | rfl | rfl
  · cases hread'.type
  · cases hread'.call
  · cases hread'.type
  · obtain ⟨rfl⟩ := hread'.call
    exact absurd (List.mem_singleton_self 0) hnot

/-- Among all reads of the history, the one that saw element 0 was invoked after
every later read that missed it, of which there are none; but it completed before
element 0 was added, and the checker has never seen the element read. -/
theorem phantomRead_neverRead :
    ClientHistory phantomRead ∧
      Stable phantomRead (fun _ => True) ⟨2, 2, .int 1, .invoke, .add 0⟩ 0 ∧
      ∃ checked, setFull false phantomRead = .ok checked ∧ checked.stableCount = 0 ∧
        checked.neverRead = [0] := by
  refine ⟨clientHistory_phantomRead, ?_, _, rfl, rfl, rfl⟩
  refine ⟨⟨1, 1, .int 0, .ok, .read [0]⟩, [0], ⟨0, 0, .int 0, .invoke, .read []⟩,
    ⟨by decide, rfl, rfl, by decide⟩, trivial, by decide, ?_⟩
  intro op' v' inv' hread' hlater _
  have hmem : op' ∈ phantomRead := (mem_clientOps.mp hread'.mem).1
  simp only [phantomRead, List.mem_cons, List.not_mem_nil, or_false] at hmem
  rcases hmem with rfl | rfl | rfl | rfl
  · cases hread'.type
  · exact absurd hlater (by decide)
  · cases hread'.type
  · cases hread'.call

/-! ## Duplicates -/

section Duplicates

variable [LinearOrder α]

/-- The largest multiplicity of an element in any read. -/
def largestMultiplicity (history : List (SetOp α)) (a : α) : ℕ :=
  ((okReads history).map (List.count a)).foldr max 0

/-- A read with a repeated element makes the verdict false, and `:duplicated`
has exactly the repeated elements with their largest multiplicities. -/
def DuplicatesReported (history : List (SetOp α)) (checked : Checked α) : Prop :=
  ((∃ v ∈ okReads history, ¬ v.Nodup) → checked.valid = .false) ∧
    ∀ a, checked.duplicated.lookup a =
      if 1 < largestMultiplicity history a then some (largestMultiplicity history a) else none

theorem count_le_largestMultiplicity {history : List (SetOp α)} {v : List α}
    (hv : v ∈ okReads history) (a : α) : v.count a ≤ largestMultiplicity history a := by
  unfold largestMultiplicity
  revert hv
  generalize okReads history = reads
  intro hv
  induction reads with
  | nil => cases hv
  | cons w reads ih =>
    rw [List.map_cons, List.foldr_cons]
    rcases List.mem_cons.mp hv with rfl | htail
    · exact le_max_left _ _
    · exact (ih htail).trans (le_max_right _ _)

theorem largestMultiplicity_le_one {history : List (SetOp α)}
    (hnodup : ∀ v ∈ okReads history, v.Nodup) (a : α) : largestMultiplicity history a ≤ 1 := by
  unfold largestMultiplicity
  revert hnodup
  generalize okReads history = reads
  intro hnodup
  induction reads with
  | nil => exact Nat.zero_le 1
  | cons w reads ih =>
    rw [List.map_cons, List.foldr_cons]
    apply max_le
    · exact List.nodup_iff_count_le_one.mp (hnodup w List.mem_cons_self) a
    · exact ih fun v hv => hnodup v (List.mem_cons_of_mem w hv)

/-- No step of the checker's fold collects a duplicate. -/
theorem red_duplicates {history : List (SetOp α)} {acc acc' : Tracking α} {op : SetOp α}
    (hnone : acc.2 = ∅) (hred : red history acc op = .ok acc') : acc'.2 = ∅ := by
  unfold red at hred
  cases hc : op.call with
  | other f =>
    rw [hc] at hred
    cases hred
  | add v =>
    simp only [hc] at hred
    split at hred
    · cases hred
      exact hnone
    · split at hred
      · cases hred
      · cases hred
        exact hnone
  | read v =>
    simp only [hc, duplicatesIn_eq_empty] at hred
    split at hred
    · split at hred
      · cases hred
      · cases hred
        exact hnone
    · cases hred
      exact hnone

theorem foldlM_red_duplicates {history ops : List (SetOp α)} {acc acc' : Tracking α}
    (hnone : acc.2 = ∅) (hfold : ops.foldlM (red history) acc = .ok acc') : acc'.2 = ∅ := by
  induction ops generalizing acc with
  | nil =>
    cases hfold
    exact hnone
  | cons op ops ih =>
    rw [List.foldlM_cons] at hfold
    cases hred : red history acc op with
    | error t =>
      rw [hred] at hfold
      cases hfold
    | ok next =>
      rw [hred] at hfold
      exact ih (red_duplicates hnone hred) hfold

theorem duplicated_eq_empty {history : List (SetOp α)} {linearizable : Bool}
    {checked : Checked α} (hchecked : setFull linearizable history = .ok checked) :
    checked.duplicated = ∅ := by
  unfold setFull at hchecked
  cases htrack : track history with
  | error t =>
    rw [htrack] at hchecked
    cases hchecked
  | ok acc =>
    obtain ⟨elements, dups⟩ := acc
    have hdups : dups = ∅ := foldlM_red_duplicates rfl htrack
    simp only [htrack] at hchecked
    split at hchecked
    · cases hchecked
    · cases hchecked
      exact hdups

/-- Whenever the checker returns, and on client histories it does, duplicates are
reported as they should be exactly if there are none. -/
theorem duplicates_reported_iff (history : List (SetOp α)) (linearizable : Bool) :
    (∀ checked, setFull linearizable history = .ok checked →
      (DuplicatesReported history checked ↔ ∀ v ∈ okReads history, v.Nodup)) ∧
    (ClientHistory history → ∃ checked, setFull linearizable history = .ok checked) := by
  constructor
  · intro checked hchecked
    have hempty := duplicated_eq_empty hchecked
    constructor
    · intro ⟨_, hreported⟩ v hv
      rw [List.nodup_iff_count_le_one]
      intro a
      by_contra hgt
      have hle := count_le_largestMultiplicity hv a
      have hlookup := hreported a
      rw [hempty, AList.lookup_empty, if_pos (by omega)] at hlookup
      cases hlookup
    · intro hnodup
      constructor
      · intro ⟨v, hv, hnot⟩
        exact absurd (hnodup v hv) hnot
      · intro a
        have hle := largestMultiplicity_le_one hnodup a
        rw [hempty, AList.lookup_empty, if_neg (by omega)]
  · intro hwf
    obtain ⟨rs, -, -, -, hok⟩ := elementResults_eq_ok hwf.toSetHistory
    exact ⟨_, hok linearizable⟩

end Duplicates

/-- Process 1 reads its element twice in one read. -/
def readTwice : List (SetOp ℤ) :=
  [⟨0, 0, .int 1, .invoke, .add 0⟩, ⟨1, 1, .int 1, .ok, .add 0⟩,
    ⟨2, 2, .int 1, .invoke, .read []⟩, ⟨3, 3, .int 1, .ok, .read [0, 0]⟩]

theorem duplicates_reported_iff_addThenRead :
    ∃ checked, setFull false addThenRead = .ok checked ∧
      DuplicatesReported addThenRead checked := by
  obtain ⟨hiff, hreturns⟩ := duplicates_reported_iff addThenRead false
  obtain ⟨checked, hchecked⟩ := hreturns clientHistory_addThenRead
  exact ⟨checked, hchecked, (hiff checked hchecked).mpr (by decide)⟩

/-- The repeated element of a read is not reported, and the verdict is true. -/
theorem readTwice_not_reported :
    (∃ v ∈ okReads readTwice, ¬ v.Nodup) ∧
      ∃ checked, setFull false readTwice = .ok checked ∧ checked.valid = .true ∧
        checked.duplicated = ∅ :=
  ⟨⟨[0, 0], by decide, by decide⟩, _, rfl, rfl, rfl⟩

end Jepsen.Checker
