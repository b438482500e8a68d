/-
# Runs of labelled transition systems

A run lists the labels of the steps that lead from one state to another. Its
invariant rule asks for preservation by a single step only, and `Run.lift` adds
auxiliary state to a run the same way. `Run.throughout_iff_eachStep` finds the runs
that keep a property throughout by a condition on their steps.
-/

import Mathlib

namespace Jepsen.Library

universe u v w

/-- A run of `step`, read from its first state to its last. -/
inductive Run {σ : Type u} {label : Type v} (step : σ → label → σ → Prop) (start : σ) :
    List label → σ → Prop
  | nil : Run step start [] start
  | snoc {labels : List label} {s t : σ} {l : label}
      (prior : Run step start labels s) (last : step s l t) :
      Run step start (labels ++ [l]) t

namespace Run

variable {σ : Type u} {label : Type v} {step : σ → label → σ → Prop} {start : σ}

/-- What the start satisfies and every step preserves holds after every run. -/
theorem invariant (Inv : σ → Prop) (hstart : Inv start)
    (hstep : ∀ {s l t}, Inv s → step s l t → Inv t)
    {labels : List label} {s : σ} (hrun : Run step start labels s) : Inv s := by
  induction hrun with
  | nil => exact hstart
  | snoc _ hlast ih => exact hstep ih hlast

/-- Every run of a system is a run of any system that has its steps. -/
theorem mono {step' : σ → label → σ → Prop} (hstep : ∀ {s l t}, step s l t → step' s l t)
    {labels : List label} {s : σ} (hrun : Run step start labels s) :
    Run step' start labels s := by
  induction hrun with
  | nil => exact .nil
  | snoc _ hlast ih => exact .snoc ih (hstep hlast)

/-- A run that goes on from where another one ends. -/
theorem trans {labels labels' : List label} {s t : σ} (hrun : Run step start labels s)
    (hrest : Run step s labels' t) : Run step start (labels ++ labels') t := by
  induction hrest with
  | nil =>
    rw [List.append_nil]
    exact hrun
  | snoc _ hlast ih =>
    rw [← List.append_assoc]
    exact .snoc ih hlast

/-- A run of one step. -/
theorem single {l : label} {s t : σ} (hstep : step s l t) : Run step s [l] t :=
  List.nil_append [l] ▸ .snoc .nil hstep

/-- A system whose steps are answered by runs of another one, where `R` relates what has happened
and the states, has its runs answered by runs. -/
theorem simulates {τ : Type w} {label' : Type*} {step' : τ → label' → τ → Prop} {start' : τ}
    (R : List label → σ → List label' → τ → Prop) (hstart : R [] start [] start')
    (hsim : ∀ {labels s labels' t l s'}, R labels s labels' t → step s l s' →
      ∃ more t', Run step' t more t' ∧ R (labels ++ [l]) s' (labels' ++ more) t')
    {labels : List label} {s : σ} (hrun : Run step start labels s) :
    ∃ labels' t, Run step' start' labels' t ∧ R labels s labels' t := by
  induction hrun with
  | nil => exact ⟨[], start', .nil, hstart⟩
  | snoc _ hlast ih =>
    obtain ⟨labels', t, hrun', hR⟩ := ih
    obtain ⟨more, t', hmore, hR'⟩ := hsim hR hlast
    exact ⟨labels' ++ more, t', hrun'.trans hmore, hR'⟩

/-- A run of a system lifts to one that carries auxiliary state, if each of its
steps does from the states that satisfy the lifted system's invariant. -/
theorem lift {τ : Type w} {lifted : τ → label → τ → Prop} {project : τ → σ} {first : τ}
    (Inv : τ → Prop) (hfirst : Inv first) (hinv : ∀ {t l t'}, Inv t → lifted t l t' → Inv t')
    (hlift : ∀ {t l s'}, Inv t → step (project t) l s' → ∃ t', project t' = s' ∧ lifted t l t')
    {labels : List label} {s : σ} (hrun : Run step (project first) labels s) :
    ∃ t, project t = s ∧ Run lifted first labels t := by
  induction hrun with
  | nil => exact ⟨first, rfl, .nil⟩
  | snoc _ hlast ih =>
    obtain ⟨t, rfl, hprior⟩ := ih
    obtain ⟨t', ht', hstep⟩ := hlift (hprior.invariant Inv hfirst hinv) hlast
    exact ⟨t', ht', .snoc hprior hstep⟩

/-- A partial step function that gets through the labels has a run. -/
theorem of_foldlM {step : σ → label → Option σ} {labels : List label} {s : σ}
    (hfold : labels.foldlM step start = some s) :
    Run (fun s l t => step s l = some t) start labels s := by
  induction labels using List.reverseRecOn generalizing s with
  | nil =>
    rw [← Option.some.inj hfold]
    exact .nil
  | append_singleton labels l ih =>
    rw [List.foldlM_append] at hfold
    obtain ⟨t, ht, hlast⟩ := Option.bind_eq_some_iff.mp hfold
    rw [List.foldlM_cons] at hlast
    obtain ⟨s', hs', hnil⟩ := Option.bind_eq_some_iff.mp hlast
    obtain rfl := Option.some.inj hnil
    exact .snoc (ih ht) hs'

/-! ## Properties of whole runs -/

/-- Every state of the run has the property. -/
def Throughout (step : σ → label → σ → Prop) (start : σ) (labels : List label)
    (P : σ → Prop) : Prop :=
  ∀ before after t, labels = before ++ after → Run step start before t → P t

/-- Every step of the run meets the condition in the state before it. -/
def EachStep (step : σ → label → σ → Prop) (start : σ) (labels : List label)
    (Ok : σ → label → Prop) : Prop :=
  ∀ before l after t, labels = before ++ l :: after → Run step start before t → Ok t l

theorem throughout_nil {P : σ → Prop} : Throughout step start [] P ↔ P start := by
  constructor
  · intro h
    exact h [] [] start rfl .nil
  · intro h before after t happ hrun
    obtain ⟨rfl, -⟩ := List.append_eq_nil_iff.mp happ.symm
    generalize hlabels : ([] : List label) = labels at hrun
    cases hrun with
    | nil => exact h
    | snoc _ _ => exact absurd hlabels.symm (List.concat_ne_nil _ _)

theorem throughout_snoc {P : σ → Prop} {labels : List label} {l : label} :
    Throughout step start (labels ++ [l]) P ↔
      Throughout step start labels P ∧ ∀ t, Run step start (labels ++ [l]) t → P t := by
  constructor
  · intro h
    refine ⟨fun before after t happ hrun => ?_, fun t hrun => ?_⟩
    · exact h before (after ++ [l]) t (by rw [happ, List.append_assoc]) hrun
    · exact h _ [] t (List.append_nil _).symm hrun
  · rintro ⟨hprior, hlast⟩ before after t happ hrun
    cases after using List.reverseRecOn with
    | nil =>
      rw [List.append_nil] at happ
      exact hlast t (happ ▸ hrun)
    | append_singleton after l' =>
      rw [← List.append_assoc] at happ
      exact hprior before after t (List.append_inj_left' happ rfl) hrun

theorem eachStep_nil {Ok : σ → label → Prop} : EachStep step start [] Ok :=
  fun _ _ _ _ happ => absurd happ.symm (by simp)

theorem eachStep_snoc {Ok : σ → label → Prop} {labels : List label} {l : label} :
    EachStep step start (labels ++ [l]) Ok ↔
      EachStep step start labels Ok ∧ ∀ t, Run step start labels t → Ok t l := by
  constructor
  · intro h
    refine ⟨fun before l' after t happ hrun => ?_, fun t hrun => ?_⟩
    · exact h before l' (after ++ [l]) t (by rw [happ, List.append_assoc, List.cons_append]) hrun
    · exact h labels l [] t rfl hrun
  · rintro ⟨hprior, hlast⟩ before l' after t happ hrun
    cases after using List.reverseRecOn with
    | nil =>
      obtain ⟨rfl, hl⟩ := List.append_inj' happ rfl
      exact List.singleton_inj.mp hl ▸ hlast t hrun
    | append_singleton after l'' =>
      rw [← List.cons_append, ← List.append_assoc] at happ
      exact hprior before l' after t (List.append_inj_left' happ rfl) hrun

/-- A deterministic system has one run for each list of labels. -/
theorem unique (hdet : ∀ s l t t', step s l t → step s l t' → t = t')
    {labels : List label} {s s' : σ} (hrun : Run step start labels s)
    (hrun' : Run step start labels s') : s = s' := by
  induction hrun generalizing s' with
  | nil =>
    generalize hlabels : ([] : List label) = labels at hrun'
    cases hrun' with
    | nil => rfl
    | snoc _ _ => exact absurd hlabels.symm (List.concat_ne_nil _ _)
  | @snoc labels _ _ l _ hlast ih =>
    generalize hlabels : labels ++ [l] = labels' at hrun'
    cases hrun' with
    | nil => exact absurd hlabels (List.concat_ne_nil _ _)
    | snoc hprior' hlast' =>
      obtain ⟨rfl, hl⟩ := List.append_inj' hlabels rfl
      obtain rfl := List.singleton_inj.mp hl
      obtain rfl := ih hprior'
      exact hdet _ _ _ _ hlast hlast'

/-- Conditions that agree on every step that is made from the invariant agree on runs. -/
theorem eachStep_congr {Inv : σ → Prop} {Ok Ok' : σ → label → Prop}
    (hdet : ∀ s l t t', step s l t → step s l t' → t = t') (hstart : Inv start)
    (hkeep : ∀ {s l t}, Inv s → step s l t → Inv t)
    (hiff : ∀ {s l t}, Inv s → step s l t → (Ok s l ↔ Ok' s l))
    {labels : List label} {s : σ} (hrun : Run step start labels s) :
    EachStep step start labels Ok ↔ EachStep step start labels Ok' := by
  induction hrun with
  | nil => exact iff_of_true eachStep_nil eachStep_nil
  | @snoc labels s t l hprior hstep ih =>
    rw [eachStep_snoc, eachStep_snoc, ih]
    refine and_congr_right fun _ => forall_congr' fun s' => forall_congr' fun hrun' => ?_
    rw [← unique hdet hprior hrun']
    exact hiff (hprior.invariant Inv hstart hkeep) hstep

/-- Where an invariant gives the property, a step that meets the condition keeps the
invariant, and a step into the property meets the condition, the runs with the property
throughout are those whose every step meets the condition. What the environment
promises is stated of the last state and holds of the earlier ones. -/
theorem throughout_iff_eachStep {Inv P promised : σ → Prop} {Ok : σ → label → Prop}
    (hdet : ∀ s l t t', step s l t → step s l t' → t = t')
    (hpromised : ∀ {s l t}, step s l t → promised t → promised s)
    (hstart : Inv start) (hproperty : ∀ {s}, Inv s → P s)
    (hkeep : ∀ {s l t}, Inv s → step s l t → promised t → Ok s l → Inv t)
    (hneed : ∀ {s l t}, Inv s → step s l t → promised t → P t → Ok s l)
    {labels : List label} {s : σ} (hrun : Run step start labels s) (hlast : promised s) :
    Throughout step start labels P ↔ EachStep step start labels Ok := by
  have hboth : (Throughout step start labels P ↔ EachStep step start labels Ok) ∧
      (EachStep step start labels Ok → Inv s) := by
    induction hrun with
    | nil => exact ⟨⟨fun _ => eachStep_nil, fun _ => throughout_nil.mpr (hproperty hstart)⟩,
        fun _ => hstart⟩
    | @snoc labels s t l hprior hstep ih =>
      obtain ⟨hiff, hinv⟩ := ih (hpromised hstep hlast)
      rw [throughout_snoc, eachStep_snoc, hiff]
      refine ⟨and_congr_right fun heach => ⟨fun h s' hrun' => ?_, fun h t' hrun' => ?_⟩,
        fun h => hkeep (hinv h.1) hstep hlast (h.2 s hprior)⟩
      · rw [← unique hdet hprior hrun']
        exact hneed (hinv heach) hstep hlast (h t (.snoc hprior hstep))
      · rw [← unique hdet (.snoc hprior hstep) hrun']
        exact hproperty (hkeep (hinv heach) hstep hlast (h s hprior))
  exact hboth.1

end Run

end Jepsen.Library
