/-
# Fences of lock tenures

An accepted op observes a fence, acquires the lock again, or releases it once or for good. The
highest fence stays that of all acquisitions, and within a tenure the first valid fence stays
current.
-/

import Jepsen.Hazelcast.ReentrantFencedMutex

namespace Jepsen.Hazelcast.ReentrantFencedMutex

open Jepsen.Library

universe u v

variable {Client : Type u} {Uid : Type v} {this next : ReentrantFencedMutex Client}
variable {op : Op Client Uid}

/-! ## What a step can do -/

/-- What an accepted op does. -/
inductive Effect (this : ReentrantFencedMutex Client) (op : Op Client Uid) :
    ReentrantFencedMutex Client → Prop
  /-- The lock was not held, or is held without a fence. -/
  | observe (client : Client) (lockCount fence : ℤ) (hf : op.f = .acquire)
      (hfence : getFence op.value = some fence)
      (hcount : this.owner = none ∧ lockCount = 1 ∨
        this.owner = some client ∧ this.lockCount ≠ reentrantLockAcquireCount ∧
          this.currentFence = invalidFence ∧ lockCount = this.lockCount + 1)
      (hvalid : fence = invalidFence ∨ this.highestObservedFence < fence) :
      Effect this op ⟨some client, lockCount, fence, max fence this.highestObservedFence,
        this.highestObservedFenceOwner⟩
  /-- The lock is held with a fence. -/
  | again (client : Client) (hf : op.f = .acquire) (howner : this.owner = some client)
      (hcount : this.lockCount ≠ reentrantLockAcquireCount)
      (hcurrent : this.currentFence ≠ invalidFence)
      (hfence : getFence op.value = some invalidFence ∨
        getFence op.value = some this.currentFence) :
      Effect this op { this with lockCount := this.lockCount + 1 }
  | leave (client : Client) (hf : op.f = .release) (howner : this.owner = some client)
      (hcount : this.lockCount ≠ 1) :
      Effect this op { this with lockCount := this.lockCount - 1 }
  | unlock (owner : Option Client) (hf : op.f = .release) (howner : this.owner ≠ none)
      (hcount : this.lockCount = 1) :
      Effect this op ⟨none, 0, invalidFence, this.highestObservedFence, owner⟩

theorem observe_eq_ok {client : Client} {lockCount : ℤ}
    (h : this.observe client lockCount op = .ok next) :
    ∃ fence, getFence op.value = some fence ∧
      (fence = invalidFence ∨ this.highestObservedFence < fence) ∧
      next = ⟨some client, lockCount, fence, max fence this.highestObservedFence,
        this.highestObservedFenceOwner⟩ := by
  rw [observe] at h
  cases hfence : getFence op.value with
  | none =>
    rw [hfence] at h
    cases h
  | some fence =>
    rw [hfence] at h
    dsimp only at h
    split_ifs at h with hvalid
    exact ⟨fence, rfl, hvalid, (Except.ok.inj h).symm⟩

/-! ## Invariants -/

/-- What every reachable mutex satisfies. -/
structure Inv (this : ReentrantFencedMutex Client) : Prop where
  owner : this.owner = none ↔ this.lockCount = 0
  nonneg : 0 ≤ this.lockCount
  lockCount : this.lockCount ≤ reentrantLockAcquireCount
  currentFence : this.owner = none → this.currentFence = invalidFence
  current_le : this.currentFence ≤ this.highestObservedFence
  highest : invalidFence ≤ this.highestObservedFence

theorem inv_create : Inv (create : ReentrantFencedMutex Client) := by
  constructor <;> simp [create, reentrantLockAcquireCount]

theorem Inv.effect (hinv : Inv this) (h : Effect this op next) : Inv next := by
  obtain ⟨howner, hnonneg, hcount, hcurrent, hle, hhighest⟩ := hinv
  cases h with
  | observe client lockCount fence _ _ hheld _ =>
    have hpos : 0 < lockCount ∧ lockCount ≤ reentrantLockAcquireCount := by
      rcases hheld with ⟨-, rfl⟩ | ⟨-, hne, -, rfl⟩
      · decide
      · omega
    exact ⟨iff_of_false (Option.some_ne_none client) hpos.1.ne', hpos.1.le, hpos.2,
      fun h => absurd h (Option.some_ne_none client), le_max_left _ _,
      hhighest.trans (le_max_right _ _)⟩
  | again client _ hheld hne _ _ =>
    have hsome : this.owner ≠ none := hheld ▸ Option.some_ne_none client
    exact ⟨iff_of_false hsome (by dsimp only; omega), by dsimp only; omega, by dsimp only; omega,
      fun h => absurd h hsome, hle, hhighest⟩
  | leave client _ hheld hne =>
    have hsome : this.owner ≠ none := hheld ▸ Option.some_ne_none client
    have hzero : this.lockCount ≠ 0 := fun h => hsome (howner.mpr h)
    exact ⟨iff_of_false hsome (by dsimp only; omega), by dsimp only; omega, by dsimp only; omega,
      fun h => absurd h hsome, hle, hhighest⟩
  | unlock owner _ _ _ =>
    have hlimit : 0 ≤ reentrantLockAcquireCount := by decide
    exact ⟨iff_of_true rfl rfl, le_refl _, hlimit, fun _ => rfl, hhighest, hhighest⟩

theorem highest_le (h : Effect this op next) :
    this.highestObservedFence ≤ next.highestObservedFence := by
  cases h with
  | observe => exact le_max_right _ _
  | again => exact le_refl _
  | leave => exact le_refl _
  | unlock => exact le_refl _

/-! ## Fences -/

theorem validFence_of_acquire {fence : ℤ} (hf : op.f = .acquire)
    (hfence : getFence op.value = some fence) :
    op.validFence = if fence = invalidFence then none else some fence := by
  rw [Op.validFence, hf, hfence]
  split_ifs with hvalid
  · exact Option.filter_eq_none_iff.mpr fun _ h => by
      rw [← Option.some.inj h, hvalid]
      decide
  · exact Option.filter_eq_some_iff.mpr ⟨rfl, decide_eq_true hvalid⟩

theorem validFence_of_release (hf : op.f = .release) : op.validFence = none := by
  rw [Op.validFence, hf]

/-- The fence that an effect observes becomes the highest one, or already was not higher. -/
theorem highest_eq (hinv : Inv this) (h : Effect this op next) :
    next.highestObservedFence = op.validFence.elim this.highestObservedFence
      (max this.highestObservedFence) := by
  have hhighest := hinv.highest
  have hle := hinv.current_le
  cases h with
  | observe client lockCount fence hf hfence _ _ =>
    rw [validFence_of_acquire hf hfence]
    split_ifs with hvalid
    · exact max_eq_right (hvalid ▸ hhighest)
    · exact max_comm _ _
  | again client hf _ _ hcurrent hfence =>
    rcases hfence with hfence | hfence
    · rw [validFence_of_acquire hf hfence, if_pos rfl]
      rfl
    · rw [validFence_of_acquire hf hfence, if_neg hcurrent]
      exact (max_eq_left hle).symm
  | leave client hf _ _ =>
    rw [validFence_of_release hf]
    rfl
  | unlock owner hf _ _ =>
    rw [validFence_of_release hf]
    rfl

theorem ne_of_validFence {fence : ℤ} (h : op.validFence = some fence) : fence ≠ invalidFence := by
  rw [Op.validFence] at h
  cases hf : op.f with
  | acquire =>
    rw [hf] at h
    exact of_decide_eq_true (Option.filter_eq_some_iff.mp h).2
  | release =>
    rw [hf] at h
    cases h

theorem eq_of_validFence {fence fence' : ℤ} (hf : op.f = .acquire)
    (hfence : getFence op.value = some fence) (hvalid : op.validFence = some fence') :
    fence = fence' ∧ fence ≠ invalidFence := by
  rw [validFence_of_acquire hf hfence] at hvalid
  split_ifs at hvalid with hne
  exact ⟨Option.some.inj hvalid, hne⟩

/-- Where a valid fence is accepted: it is higher than all before, or it is current. -/
theorem lt_or_eq_of_validFence {fence : ℤ} (h : Effect this op next)
    (hvalid : op.validFence = some fence) :
    (this.highestObservedFence < fence ∧
        (this.owner = none ∨ this.currentFence = invalidFence)) ∨
      fence = this.currentFence := by
  cases h with
  | observe client lockCount fence' hf hfence hheld hhigher =>
    obtain ⟨rfl, hne⟩ := eq_of_validFence hf hfence hvalid
    refine Or.inl ⟨hhigher.resolve_left hne, ?_⟩
    rcases hheld with ⟨hnone, -⟩ | ⟨-, -, hcurrent, -⟩
    · exact Or.inl hnone
    · exact Or.inr hcurrent
  | again client hf _ _ _ hfence =>
    rcases hfence with hfence | hfence
    · exact absurd rfl (eq_of_validFence hf hfence hvalid).2
    · exact Or.inr (eq_of_validFence hf hfence hvalid).1.symm
  | leave client hf _ _ =>
    rw [validFence_of_release hf] at hvalid
    cases hvalid
  | unlock owner hf _ _ =>
    rw [validFence_of_release hf] at hvalid
    cases hvalid

/-- A valid fence that is accepted is current afterwards. -/
theorem current_of_validFence {fence : ℤ} (hinv : Inv this) (h : Effect this op next)
    (hvalid : op.validFence = some fence) :
    next.owner ≠ none ∧ next.currentFence = fence ∧ fence ≠ invalidFence ∧
      fence ≤ next.highestObservedFence := by
  have hle := hinv.current_le
  cases h with
  | observe client lockCount fence' hf hfence _ _ =>
    obtain ⟨rfl, hne⟩ := eq_of_validFence hf hfence hvalid
    exact ⟨Option.some_ne_none client, rfl, hne, le_max_left _ _⟩
  | again client hf howner _ hcurrent hfence =>
    rcases hfence with hfence | hfence
    · exact absurd rfl (eq_of_validFence hf hfence hvalid).2
    · obtain ⟨rfl, hne⟩ := eq_of_validFence hf hfence hvalid
      exact ⟨howner ▸ Option.some_ne_none client, rfl, hne, hle⟩
  | leave client hf _ _ =>
    rw [validFence_of_release hf] at hvalid
    cases hvalid
  | unlock owner hf _ _ =>
    rw [validFence_of_release hf] at hvalid
    cases hvalid

/-- Within a tenure a valid fence stays. -/
theorem currentFence_eq (h : Effect this op next) (hcurrent : this.currentFence ≠ invalidFence)
    (hheld : this.owner ≠ none) (hheld' : next.owner ≠ none) :
    next.currentFence = this.currentFence := by
  cases h with
  | observe client lockCount fence _ _ hcount _ =>
    rcases hcount with ⟨hnone, -⟩ | ⟨-, -, hinvalid, -⟩
    · exact absurd hnone hheld
    · exact absurd hinvalid hcurrent
  | again => rfl
  | leave => rfl
  | unlock => exact absurd rfl hheld'

/-- After a tenure, only higher fences become current. -/
theorem invalid_or_lt {fence : ℤ} (h : Effect this op next)
    (hbefore : this.currentFence = invalidFence ∨ fence < this.currentFence)
    (hle : fence ≤ this.highestObservedFence) :
    next.currentFence = invalidFence ∨ fence < next.currentFence := by
  cases h with
  | observe client lockCount fence' _ _ _ hvalid =>
    exact hvalid.imp id fun hlt => hle.trans_lt hlt
  | again => exact hbefore
  | leave => exact hbefore
  | unlock => exact Or.inl rfl

/-! ## Runs -/

variable [DecidableEq Client] {names : Uid → Option Client}

theorem step_effect (h : step names this op = .ok next) : Effect this op next := by
  rw [step] at h
  cases hclient : getClient names op.value with
  | none =>
    rw [hclient] at h
    cases h
  | some client =>
    rw [hclient] at h
    cases hf : op.f with
    | acquire =>
      rw [hf] at h
      dsimp only at h
      split_ifs at h with hnone hcannot hcurrent hfence
      · obtain ⟨fence, hfence, hvalid, rfl⟩ := observe_eq_ok h
        exact .observe client 1 fence hf hfence (Or.inl ⟨hnone, rfl⟩) hvalid
      · obtain ⟨howner, hcount⟩ := not_or.mp hcannot
        obtain ⟨fence, hfence, hvalid, rfl⟩ := observe_eq_ok h
        exact .observe client _ fence hf hfence
          (Or.inr ⟨not_not.mp howner, hcount, hcurrent, rfl⟩) hvalid
      · obtain ⟨howner, hcount⟩ := not_or.mp hcannot
        cases h
        rw [← not_not.mp howner]
        exact .again client hf (not_not.mp howner) hcount hcurrent hfence
    | release =>
      rw [hf] at h
      dsimp only at h
      split_ifs at h with hcannot hcount hcurrent
      all_goals
        obtain ⟨howner, hmine⟩ := not_or.mp hcannot
        cases h
      · exact .unlock _ hf howner hcount
      · exact .unlock _ hf howner hcount
      · exact .leave client hf (not_not.mp hmine) hcount

theorem inv_of_accepts {ops : List (Op Client Uid)} (h : Accepts names create ops this) :
    Inv this :=
  h.invariant Inv inv_create fun hinv hstep => hinv.effect (step_effect hstep)

theorem sound_of_accepts {ops : List (Op Client Uid)} (h : Accepts names create ops this) :
    Sound ops this := by
  have hinv := inv_of_accepts h
  refine ⟨hinv.owner, hinv.lockCount, hinv.currentFence, ?_⟩
  induction h with
  | nil => rfl
  | @snoc ops this next op hprior hstep ih =>
    have hbefore := inv_of_accepts hprior
    rw [highest_eq hbefore (step_effect hstep), ih hbefore, List.filterMap_append,
      List.foldl_append, List.filterMap_cons, List.filterMap_nil]
    cases op.validFence with
    | none => rfl
    | some fence => rfl

theorem step_det (this : ReentrantFencedMutex Client) (op : Op Client Uid)
    (next next' : ReentrantFencedMutex Client) (h : step names this op = .ok next)
    (h' : step names this op = .ok next') : next = next' :=
  Except.ok.inj (h.symm.trans h')

/-- From an accepted fence on, that fence is current as long as the lock is held, and after that
only higher ones are. -/
theorem current_of_accepts {fence : ℤ} {ops : List (Op Client Uid)}
    {that : ReentrantFencedMutex Client} (h : Accepts names this ops that)
    (howner : this.owner ≠ none) (hcurrent : this.currentFence = fence)
    (hvalid : fence ≠ invalidFence) (hle : fence ≤ this.highestObservedFence) :
    fence ≤ that.highestObservedFence ∧
      (Held names this ops ∧ that.owner ≠ none ∧ that.currentFence = fence ∨
        ¬ Held names this ops ∧ (that.currentFence = invalidFence ∨ fence < that.currentFence)) := by
  induction h with
  | nil => exact ⟨hle, Or.inl ⟨Run.throughout_nil.mpr howner, howner, hcurrent⟩⟩
  | @snoc ops that next op hprior hstep ih =>
    obtain ⟨hbelow, hcases⟩ := ih
    have heffect := step_effect hstep
    have hlast : ∀ t, Accepts names this (ops ++ [op]) t → t = next := fun t ht =>
      Run.unique step_det ht (.snoc hprior hstep)
    refine ⟨hbelow.trans (highest_le heffect), ?_⟩
    rw [Held, Run.throughout_snoc]
    rcases hcases with ⟨hheld, hsome, hfence⟩ | ⟨hleft, hfence⟩
    · by_cases hnone : next.owner = none
      · -- The tenure ends.
        refine Or.inr ⟨fun h => h.2 next (.snoc hprior hstep) hnone, Or.inl ?_⟩
        cases heffect with
        | observe client => exact absurd hnone (Option.some_ne_none client)
        | again => exact absurd hnone hsome
        | leave => exact absurd hnone hsome
        | unlock => rfl
      · refine Or.inl ⟨⟨hheld, fun t ht => hlast t ht ▸ hnone⟩, hnone, ?_⟩
        rw [← hfence]
        exact currentFence_eq heffect (hfence ▸ hvalid) hsome hnone
    · exact Or.inr ⟨fun h => hleft h.1, invalid_or_lt heffect hfence hbelow⟩

theorem fencesGrow (names : Uid → Option Client) : FencesGrow names := by
  intro before op this between op' that next fence fence' hbefore hbetween hstep hfence hfence'
  generalize hops : before ++ [op] = ops at hbefore
  cases hbefore with
  | nil => exact absurd hops (List.concat_ne_nil _ _)
  | snoc hprior hlast =>
    obtain ⟨rfl, hop⟩ := List.append_inj' hops rfl
    obtain rfl := List.singleton_inj.mp hop
    obtain ⟨howner, hcurrent, hvalid, hle⟩ :=
      current_of_validFence (inv_of_accepts hprior) (step_effect hlast) hfence
    obtain ⟨hbelow, hcases⟩ := current_of_accepts hbetween howner hcurrent hvalid hle
    have hvalid' := ne_of_validFence hfence'
    rcases lt_or_eq_of_validFence (step_effect hstep) hfence' with ⟨hlt, hfree⟩ | rfl
    · rcases hcases with ⟨-, hsome, hsame⟩ | ⟨hleft, -⟩
      · rcases hfree with hnone | hinvalid
        · exact absurd hnone hsome
        · exact absurd (hsame.symm.trans hinvalid) hvalid
      · exact ⟨fun hheld => absurd hheld hleft, fun _ => hbelow.trans_lt hlt⟩
    · rcases hcases with ⟨hheld, -, hsame⟩ | ⟨hleft, hhigher⟩
      · exact ⟨fun _ => hsame.symm, fun hleft => absurd hheld hleft⟩
      · exact ⟨fun hheld => absurd hheld hleft, fun _ => hhigher.resolve_left hvalid'⟩

/-- The model keeps its promises for every sequence of ops it accepts. -/
theorem reentrantFencedMutex_lawful (names : Uid → Option Client) : Lawful names where
  sound := fun _ _ h => sound_of_accepts h
  monotone := fun _ _ _ _ _ hstep => highest_le (step_effect hstep)
  fences := fencesGrow names

end Jepsen.Hazelcast.ReentrantFencedMutex
