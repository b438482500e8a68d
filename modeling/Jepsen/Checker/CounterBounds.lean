/-
# The counter checker against linearizable histories

On every history whose completions answer invocations, each completed read meets
the sum of the adds acknowledged before it was invoked and the sum of the adds
attempted before it completed. The value of a linearizable counter lies between
the two, wherever between the invocation and the completion the read took effect.
-/

import Jepsen.Checker.Counter

namespace Jepsen.Checker.Counter

open Jepsen.History Jepsen.Library
open Jepsen.Generator (Name)

/-! ## Histories of a counter -/

/-- A completion has the `:f` of its invocation, and an add also its value. -/
def Answers : CounterCall → CounterCall → Prop
  | .add v, .add w => v = w
  | .read _, .read _ => True
  | _, _ => False

/-- A history whose adds are not negative, and whose acknowledgements answer
invocations. -/
structure CounterHistory (history : List CounterOp) : Prop where
  index : ∀ (i : ℕ) (op : CounterOp), history[i]? = some op → op.index = i
  nonneg : ∀ op ∈ history, ∀ value, op.type = .invoke → op.call = .add value → 0 ≤ value
  answered : ∀ op ∈ history, op.type = .ok → (∀ f, op.call ≠ .other f) →
    ∃ inv ∈ history, inv.type = .invoke ∧ completion history inv = some op ∧
      Answers inv.call op.call

/-- How much an operation adds. -/
def amount (op : CounterOp) : ℤ :=
  match op.call with
  | .add value => value
  | _ => 0

def isAdd (op : CounterOp) : Bool :=
  match op.call with
  | .add _ => true
  | _ => false

def isRead (op : CounterOp) : Bool :=
  match op.call with
  | .read _ => true
  | _ => false

/-- The add of the operation fails. -/
def fails (history : List CounterOp) (op : CounterOp) : Bool :=
  (completion history op).any fun c => decide (c.type = .fail)

def acknowledged (op : CounterOp) : Bool := decide (op.type = .ok) && isAdd op

def invokesAdd (op : CounterOp) : Bool := decide (op.type = .invoke) && isAdd op

def attempted (history : List CounterOp) (op : CounterOp) : Bool :=
  invokesAdd op && !fails history op

def okRead (op : CounterOp) : Bool := decide (op.type = .ok) && isRead op

/-- The sum of the adds acknowledged before an index. -/
def acknowledgedBefore (history : List CounterOp) (n : ℕ) : ℤ :=
  (((history.take n).filter acknowledged).map amount).sum

/-- The sum of the adds that do not fail and were invoked before an index. -/
def attemptedBefore (history : List CounterOp) (n : ℕ) : ℤ :=
  (((history.take n).filter (attempted history)).map amount).sum

/-- The adds that have taken effect at a time. -/
def inEffect (effect : CounterOp → Option ℚ) (t : ℚ) (op : CounterOp) : Bool :=
  invokesAdd op && (effect op).any fun t' => decide (t' ≤ t)

/-- The value of the counter at a time. -/
def valueAt (history : List CounterOp) (effect : CounterOp → Option ℚ) (t : ℚ) : ℤ :=
  ((history.filter (inEffect effect t)).map amount).sum

/-- When each add took effect and each read saw the counter. Events take place at
the times given by their indices. -/
structure Linearization (history : List CounterOp) where
  /-- The time at which the add with this invocation took effect. -/
  effect : CounterOp → Option ℚ
  invoked : ∀ inv ∈ history, ∀ t, invokesAdd inv = true → effect inv = some t → inv.index < t
  completed : ∀ inv ∈ history, ∀ c, invokesAdd inv = true → completion history inv = some c →
    c.type = .ok → ∃ t, effect inv = some t ∧ t < c.index
  failed : ∀ inv ∈ history, invokesAdd inv = true → fails history inv = true → effect inv = none
  reads : ∀ inv ∈ history, ∀ c, completion history inv = some c → okRead c = true →
    ∃ t : ℚ, inv.index < t ∧ t < c.index ∧ readValue c = some (valueAt history effect t)

namespace CounterHistory

variable {history : List CounterOp}

theorem sorted (hwf : CounterHistory history) :
    history.Pairwise fun op op' => op.index < op'.index := by
  rw [List.pairwise_iff_getElem]
  intro i j hi hj hij
  rw [hwf.index i _ (List.getElem?_eq_getElem hi), hwf.index j _ (List.getElem?_eq_getElem hj)]
  exact hij

theorem nodup (hwf : CounterHistory history) : history.Nodup :=
  hwf.sorted.imp fun hlt heq => hlt.ne (congrArg CounterOp.index heq)

theorem mem_take_iff (hwf : CounterHistory history) {op : CounterOp} {n : ℕ} :
    op ∈ history.take n ↔ op ∈ history ∧ op.index < n := by
  constructor
  · intro hmem
    obtain ⟨i, hi⟩ := List.mem_iff_getElem?.mp hmem
    rw [List.getElem?_take] at hi
    split at hi
    · rename_i hlt
      refine ⟨List.mem_of_mem_take hmem, ?_⟩
      rw [hwf.index i op hi]
      exact hlt
    · cases hi
  · rintro ⟨hmem, hlt⟩
    obtain ⟨i, hi⟩ := List.mem_iff_getElem?.mp hmem
    rw [hwf.index i op hi] at hlt
    exact List.mem_iff_getElem?.mpr ⟨i, by rw [List.getElem?_take_of_lt hlt, hi]⟩

/-- The completion is what the process does next. -/
theorem completion_eq_some (hwf : CounterHistory history) {inv c : CounterOp}
    (hc : completion history inv = some c) :
    c ∈ history ∧ c.process = inv.process ∧ inv.index < c.index ∧
      ∀ op ∈ history, op.process = inv.process → inv.index < op.index → c.index ≤ op.index := by
  obtain ⟨hfind, -⟩ := Option.filter_eq_some_iff.mp hc
  obtain ⟨hprocess, before, after, hsplit, hnone⟩ := List.find?_eq_some_iff_append.mp hfind
  have hmemDrop : c ∈ history.drop (inv.index + 1) := by
    rw [hsplit]
    exact List.mem_append_right _ List.mem_cons_self
  have hlater : ∀ op, op ∈ history.drop (inv.index + 1) ↔ op ∈ history ∧ inv.index < op.index := by
    intro op
    constructor
    · intro hop
      obtain ⟨i, hi⟩ := List.mem_iff_getElem?.mp hop
      rw [List.getElem?_drop] at hi
      refine ⟨List.mem_of_mem_drop hop, ?_⟩
      rw [hwf.index _ op hi]
      omega
    · rintro ⟨hop, hlt⟩
      obtain ⟨i, hi⟩ := List.mem_iff_getElem?.mp hop
      rw [hwf.index i op hi] at hlt
      refine List.mem_iff_getElem?.mpr ⟨i - (inv.index + 1), ?_⟩
      rw [List.getElem?_drop, Nat.add_sub_cancel' hlt, hi]
  obtain ⟨hmem, hlt⟩ := (hlater c).mp hmemDrop
  refine ⟨hmem, of_decide_eq_true hprocess, hlt, fun op hop hsame hop' => ?_⟩
  have hin := (hlater op).mpr ⟨hop, hop'⟩
  have hsorted := hwf.sorted.sublist (List.drop_sublist (inv.index + 1) history)
  rw [hsplit] at hin hsorted
  rcases List.mem_append.mp hin with hbefore | hrest
  · have hnot := hnone op hbefore
    rw [decide_eq_true hsame] at hnot
    cases hnot
  · rcases List.mem_cons.mp hrest with rfl | hafter
    · exact le_rfl
    · exact (List.rel_of_pairwise_cons (List.pairwise_append.mp hsorted).2.1 hafter).le

end CounterHistory

/-! ## The loop -/

/-- What the loop has found out about a completed read. -/
def ReadOf (history : List CounterOp) (op : CounterOp) (r : Read) : Prop :=
  ∃ inv ∈ history, inv.type = .invoke ∧ completion history inv = some op ∧
    r = ⟨some (acknowledgedBefore history inv.index, readValue op),
      attemptedBefore history op.index⟩

/-- The accumulators after the operations of a prefix. -/
structure Streamed (history ops : List CounterOp) (acc : Bounds) : Prop where
  lower : acc.lower = ((ops.filter acknowledged).map amount).sum
  upper : acc.upper = ((ops.filter (attempted history)).map amount).sum
  pending : ∀ inv ∈ ops, ∀ c, inv.type = .invoke → isRead inv = true →
    completion history inv = some c → c.type = .ok → ops.length ≤ c.index →
    acc.pendingReads.lookup inv.process =
      some (acknowledgedBefore history inv.index, readValue c)
  reads : List.Forall₂ (ReadOf history) (ops.filter okRead) acc.reads

section Loop

variable {history ops rest : List CounterOp} {op : CounterOp} {acc : Bounds}

theorem sum_filter_snoc (p : CounterOp → Bool) :
    (((ops ++ [op]).filter p).map amount).sum =
      ((ops.filter p).map amount).sum + if p op then amount op else 0 := by
  rw [List.filter_append, List.map_append, List.sum_append]
  by_cases hp : p op <;> simp [hp]

/-- The reads that were pending remain so until their process goes on. -/
theorem Streamed.pending_snoc (hwf : CounterHistory history)
    (hsplit : history = ops ++ op :: rest) (hstreamed : Streamed history ops acc)
    (pendingReads : Assoc Name (ℤ × Option ℤ))
    (hothers : ∀ p, p ≠ op.process → pendingReads.lookup p = acc.pendingReads.lookup p)
    (hown : ∀ c, op.type = .invoke → isRead op = true → completion history op = some c →
      c.type = .ok → pendingReads.lookup op.process =
        some (acknowledgedBefore history op.index, readValue c)) :
    ∀ inv ∈ ops ++ [op], ∀ c, inv.type = .invoke → isRead inv = true →
      completion history inv = some c → c.type = .ok → (ops ++ [op]).length ≤ c.index →
      pendingReads.lookup inv.process =
        some (acknowledgedBefore history inv.index, readValue c) := by
  intro inv hinv c htype hread hc hok hlen
  rw [List.length_append, List.length_singleton] at hlen
  rcases List.mem_append.mp hinv with hold | hnew
  · have hindex : op.index = ops.length := by
      apply hwf.index
      rw [hsplit, List.getElem?_append_right le_rfl, Nat.sub_self]
      rfl
    have hopMem : op ∈ history := by simp [hsplit]
    have hbefore : inv.index < op.index := by
      have hsorted := hwf.sorted
      rw [hsplit] at hsorted
      exact (List.pairwise_append.mp hsorted).2.2 inv hold op List.mem_cons_self
    obtain ⟨-, -, -, hnext⟩ := hwf.completion_eq_some hc
    have hne : inv.process ≠ op.process := by
      intro heq
      have hle := hnext op hopMem heq.symm hbefore
      omega
    rw [hothers _ hne]
    exact hstreamed.pending inv hold c htype hread hc hok (by omega)
  · rw [List.mem_singleton.mp hnew] at htype hread hc ⊢
    exact hown c htype hread hc hok

/-- One step of the loop. -/
theorem Streamed.step (hwf : CounterHistory history) (hsplit : history = ops ++ op :: rest)
    (hstreamed : Streamed history ops acc) :
    ∃ acc', step history acc op = .ok acc' ∧ Streamed history (ops ++ [op]) acc' := by
  have hmem : op ∈ history := by simp [hsplit]
  have hindex : op.index = ops.length := by
    apply hwf.index
    rw [hsplit, List.getElem?_append_right le_rfl, Nat.sub_self]
    rfl
  have htake : history.take op.index = ops := by
    rw [hindex, hsplit, List.take_left']
    rfl
  have hlowerAt : acc.lower = acknowledgedBefore history op.index := by
    rw [hstreamed.lower, acknowledgedBefore, htake]
  have hupperAt : acc.upper = attemptedBefore history op.index := by
    rw [hstreamed.upper, attemptedBefore, htake]
  -- The parts that an operation leaves alone.
  have hlowerSame : acknowledged op = false →
      acc.lower = (((ops ++ [op]).filter acknowledged).map amount).sum := by
    intro hnot
    rw [sum_filter_snoc, hnot, hstreamed.lower]
    simp
  have hupperSame : attempted history op = false →
      acc.upper = (((ops ++ [op]).filter (attempted history)).map amount).sum := by
    intro hnot
    rw [sum_filter_snoc, hnot, hstreamed.upper]
    simp
  have hreadsSame : okRead op = false →
      List.Forall₂ (ReadOf history) ((ops ++ [op]).filter okRead) acc.reads := by
    intro hnot
    rw [List.filter_append, List.filter_cons_of_neg (by simp [hnot]), List.filter_nil,
      List.append_nil]
    exact hstreamed.reads
  have hpendingSame : (∀ c, op.type = .invoke → isRead op = true →
      completion history op = some c → c.type ≠ .ok) →
      ∀ inv ∈ ops ++ [op], ∀ c, inv.type = .invoke → isRead inv = true →
        completion history inv = some c → c.type = .ok → (ops ++ [op]).length ≤ c.index →
        acc.pendingReads.lookup inv.process =
          some (acknowledgedBefore history inv.index, readValue c) := by
    intro hnone
    refine hstreamed.pending_snoc hwf hsplit _ (fun _ _ => rfl) fun c htype hread hc hok => ?_
    exact absurd hok (hnone c htype hread hc)
  have hskip : acknowledged op = false → attempted history op = false → okRead op = false →
      (∀ c, op.type = .invoke → isRead op = true → completion history op = some c →
        c.type ≠ .ok) → Streamed history (ops ++ [op]) acc := fun hl hu hr hp =>
    ⟨hlowerSame hl, hupperSame hu, hpendingSame hp, hreadsSame hr⟩
  unfold Counter.step
  cases ht : op.type with
  | invoke =>
    have hnotOk : okRead op = false := by simp [okRead, ht]
    have hnotAck : acknowledged op = false := by simp [acknowledged, ht]
    cases hcall : op.call with
    | read value =>
      have hnotAttempt : attempted history op = false := by
        simp [attempted, invokesAdd, isAdd, hcall]
      cases hc : completion history op with
      | none =>
        refine ⟨acc, rfl, hskip hnotAck hnotAttempt hnotOk fun c _ _ hc' => ?_⟩
        rw [hc] at hc'
        cases hc'
      | some c =>
        by_cases hok : c.type = .ok
        · refine ⟨_, if_pos hok, hlowerSame hnotAck, hupperSame hnotAttempt, ?_,
            hreadsSame hnotOk⟩
          refine hstreamed.pending_snoc hwf hsplit _ (fun p hp => ?_) fun c' _ _ hc' _ => ?_
          · exact AList.lookup_insert_ne hp
          · rw [hc] at hc'
            rw [← Option.some.inj hc', ← hlowerAt]
            exact AList.lookup_insert acc.pendingReads
        · refine ⟨acc, if_neg hok, hskip hnotAck hnotAttempt hnotOk fun c' _ _ hc' => ?_⟩
          rw [hc] at hc'
          rw [← Option.some.inj hc']
          exact hok
    | add value =>
      have hnonneg := hwf.nonneg op hmem value ht hcall
      have hnotRead : ∀ c, op.type = .invoke → isRead op = true →
          completion history op = some c → c.type ≠ .ok := by
        intro _ _ hread
        rw [isRead, hcall] at hread
        cases hread
      have hadded : fails history op = false →
          Streamed history (ops ++ [op]) { acc with upper := acc.upper + value } := by
        intro hfails
        refine ⟨hlowerSame hnotAck, ?_, hpendingSame hnotRead, hreadsSame hnotOk⟩
        rw [sum_filter_snoc, if_pos (by simp [attempted, invokesAdd, isAdd, ht, hcall, hfails]),
          ← hstreamed.upper, amount, hcall]
      simp only [if_neg (not_lt.mpr hnonneg)]
      cases hc : completion history op with
      | none => exact ⟨_, rfl, hadded (by simp [fails, hc])⟩
      | some c =>
        by_cases hfail : c.type = .fail
        · exact ⟨acc, if_pos hfail,
            hskip hnotAck (by simp [attempted, fails, hc, hfail]) hnotOk hnotRead⟩
        · exact ⟨_, if_neg hfail, hadded (by simp [fails, hc, hfail])⟩
    | other f =>
      exact ⟨acc, rfl, hskip hnotAck (by simp [attempted, invokesAdd, isAdd, hcall]) hnotOk
        fun c _ hread => by simp [isRead, hcall] at hread⟩
  | ok =>
    have hnotAttempt : attempted history op = false := by simp [attempted, invokesAdd, ht]
    have hnotInvoke : ∀ c, op.type = .invoke → isRead op = true →
        completion history op = some c → c.type ≠ .ok := by
      intro _ hinvoke
      rw [ht] at hinvoke
      cases hinvoke
    cases hcall : op.call with
    | read value =>
      obtain ⟨inv, hinv, htype, hc, hanswers⟩ :=
        hwf.answered op hmem ht (by rw [hcall]; nofun)
      obtain ⟨-, hprocess, hlt, -⟩ := hwf.completion_eq_some hc
      have hinvOps : inv ∈ ops := by
        rw [← htake]
        exact hwf.mem_take_iff.mpr ⟨hinv, hlt⟩
      have hread : isRead inv = true := by
        rw [hcall] at hanswers
        cases hcall' : inv.call with
        | read w => simp [isRead, hcall']
        | add w =>
          rw [hcall'] at hanswers
          exact absurd hanswers id
        | other f =>
          rw [hcall'] at hanswers
          exact absurd hanswers id
      have hlookup := hstreamed.pending inv hinvOps op htype hread hc ht hindex.ge
      rw [← hprocess] at hlookup
      refine ⟨_, rfl, hlowerSame (by simp [acknowledged, isAdd, hcall]), hupperSame hnotAttempt,
        ?_, ?_⟩
      · refine hstreamed.pending_snoc hwf hsplit _ (fun p hp => ?_) fun c hinvoke => ?_
        · exact AList.lookup_erase_ne hp
        · rw [ht] at hinvoke
          cases hinvoke
      · rw [List.filter_append, List.filter_cons_of_pos (by simp [okRead, isRead, ht, hcall]),
          List.filter_nil]
        refine List.rel_append hstreamed.reads (.cons ?_ .nil)
        exact ⟨inv, hinv, htype, hc, by rw [hlookup, hupperAt]⟩
    | add value =>
      refine ⟨_, rfl, ?_, hupperSame hnotAttempt, hpendingSame hnotInvoke,
        hreadsSame (by simp [okRead, isRead, hcall])⟩
      rw [sum_filter_snoc, if_pos (by simp [acknowledged, isAdd, ht, hcall]), ← hstreamed.lower,
        amount, hcall]
    | other f =>
      exact ⟨acc, rfl, hskip (by simp [acknowledged, isAdd, hcall]) hnotAttempt
        (by simp [okRead, isRead, hcall]) hnotInvoke⟩
  | _ =>
    refine ⟨acc, rfl, hskip (by simp [acknowledged, ht])
      (by simp [attempted, invokesAdd, ht]) (by simp [okRead, ht]) fun c hinvoke => ?_⟩
    rw [ht] at hinvoke
    cases hinvoke

/-- The loop streams over the whole history. -/
theorem streamed_foldlM (hwf : CounterHistory history) (ops rest : List CounterOp)
    (hsplit : history = ops ++ rest) :
    ∃ acc, ops.foldlM (Counter.step history) {} = .ok acc ∧ Streamed history ops acc := by
  induction ops using List.reverseRecOn generalizing rest with
  | nil => exact ⟨_, rfl, rfl, rfl, nofun, .nil⟩
  | append_singleton ops op ih =>
    have hsplit' : history = ops ++ op :: rest := by simpa using hsplit
    obtain ⟨acc, hfold, hstreamed⟩ := ih (op :: rest) hsplit'
    obtain ⟨acc', hstep, hstreamed'⟩ := hstreamed.step hwf hsplit'
    refine ⟨acc', ?_, hstreamed'⟩
    rw [List.foldlM_append, hfold]
    change List.foldlM (Counter.step history) acc [op] = _
    rw [List.foldlM_cons, hstep]
    rfl

end Loop

/-! ## Linearizable counters -/

section Linearizable

variable {history : List CounterOp}

theorem sum_filter_eq (hwf : CounterHistory history) (p : CounterOp → Bool) :
    ((history.filter p).map amount).sum = ∑ op ∈ history.toFinset.filter (p ·), amount op := by
  rw [← List.sum_toFinset amount (hwf.nodup.filter p), List.toFinset_filter]

theorem sum_take_filter_eq (hwf : CounterHistory history) (p : CounterOp → Bool) (n : ℕ) :
    (((history.take n).filter p).map amount).sum =
      ∑ op ∈ history.toFinset.filter fun op => op.index < n ∧ p op, amount op := by
  rw [← List.sum_toFinset amount ((hwf.nodup.sublist (List.take_sublist _ _)).filter p)]
  congr 1
  ext op
  simp only [List.mem_toFinset, List.mem_filter, Finset.mem_filter, hwf.mem_take_iff, and_assoc]

theorem amount_nonneg (hwf : CounterHistory history) {op : CounterOp} (hop : op ∈ history)
    (hinvokes : invokesAdd op = true) : 0 ≤ amount op := by
  unfold invokesAdd isAdd at hinvokes
  unfold amount
  cases hcall : op.call with
  | add value =>
    rw [hcall, Bool.and_true, decide_eq_true_iff] at hinvokes
    exact hwf.nonneg op hop value hinvokes hcall
  | _ => exact le_rfl

/-- What was acknowledged before an index has taken effect by any later time. -/
theorem acknowledgedBefore_le (hwf : CounterHistory history) (lin : Linearization history)
    {n : ℕ} {t : ℚ} (hlt : n < t) :
    acknowledgedBefore history n ≤ valueAt history lin.effect t := by
  rw [acknowledgedBefore, valueAt, sum_take_filter_eq hwf, sum_filter_eq hwf]
  -- Each acknowledgement answers an invocation of its own.
  have hanswered : ∀ op ∈ history.toFinset.filter fun op => op.index < n ∧ acknowledged op,
      ∃ inv ∈ history.toFinset.filter fun op => (inEffect lin.effect t op : Prop),
        completion history inv = some op ∧ amount inv = amount op := by
    intro op hop
    rw [Finset.mem_filter, List.mem_toFinset] at hop
    obtain ⟨hmem, hindex, hack⟩ := hop
    rw [acknowledged, Bool.and_eq_true, decide_eq_true_iff, isAdd] at hack
    obtain ⟨htype, hadd⟩ := hack
    cases hcall : op.call with
    | read value =>
      rw [hcall] at hadd
      cases hadd
    | other f =>
      rw [hcall] at hadd
      cases hadd
    | add value =>
      obtain ⟨inv, hinv, hinvoke, hc, hanswers⟩ :=
        hwf.answered op hmem htype (by rw [hcall]; nofun)
      rw [hcall] at hanswers
      cases hcall' : inv.call with
      | read w =>
        rw [hcall'] at hanswers
        exact absurd hanswers id
      | other f =>
        rw [hcall'] at hanswers
        exact absurd hanswers id
      | add w =>
        rw [hcall'] at hanswers
        have hinvokes : invokesAdd inv = true := by simp [invokesAdd, isAdd, hinvoke, hcall']
        obtain ⟨t', heffect, hbefore⟩ := lin.completed inv hinv op hinvokes hc htype
        have hlate : t' ≤ t := by
          have hcast : (op.index : ℚ) < n := Nat.cast_lt.mpr hindex
          linarith
        refine ⟨inv, ?_, hc, ?_⟩
        · rw [Finset.mem_filter, List.mem_toFinset]
          exact ⟨hinv, by simp [inEffect, hinvokes, heffect, hlate]⟩
        · rw [amount, amount, hcall, hcall']
          exact hanswers
  choose! answer hmem hcompletion hamount using hanswered
  have hinjective : Set.InjOn answer
      (history.toFinset.filter fun op => op.index < n ∧ acknowledged op : Finset CounterOp) := by
    intro op hop op' hop' heq
    have hc := hcompletion op hop
    rw [heq, hcompletion op' hop'] at hc
    exact (Option.some.inj hc).symm
  calc ∑ op ∈ history.toFinset.filter fun op => op.index < n ∧ acknowledged op, amount op
      = ∑ op ∈ history.toFinset.filter fun op => op.index < n ∧ acknowledged op,
          amount (answer op) := Finset.sum_congr rfl fun op hop => (hamount op hop).symm
    _ = ∑ inv ∈ (history.toFinset.filter fun op => op.index < n ∧ acknowledged op).image answer,
          amount inv := (Finset.sum_image hinjective).symm
    _ ≤ ∑ inv ∈ history.toFinset.filter fun op => (inEffect lin.effect t op : Prop),
          amount inv := by
        apply Finset.sum_le_sum_of_subset_of_nonneg
        · intro inv hinv
          obtain ⟨op, hop, rfl⟩ := Finset.mem_image.mp hinv
          exact hmem op hop
        · intro inv hinv _
          rw [Finset.mem_filter, List.mem_toFinset, inEffect, Bool.and_eq_true] at hinv
          exact amount_nonneg hwf hinv.1 hinv.2.1

/-- What has taken effect was attempted before. -/
theorem le_attemptedBefore (hwf : CounterHistory history) (lin : Linearization history)
    {n : ℕ} {t : ℚ} (hlt : t < n) :
    valueAt history lin.effect t ≤ attemptedBefore history n := by
  rw [attemptedBefore, valueAt, sum_take_filter_eq hwf, sum_filter_eq hwf]
  apply Finset.sum_le_sum_of_subset_of_nonneg
  · intro inv hinv
    rw [Finset.mem_filter, List.mem_toFinset, inEffect, Bool.and_eq_true] at hinv
    obtain ⟨hmem, hinvokes, heffect⟩ := hinv
    obtain ⟨t', ht', hle⟩ := (Option.any_eq_true _ _).mp heffect
    have hle := of_decide_eq_true hle
    have hbefore := lin.invoked inv hmem t' hinvokes ht'
    rw [Finset.mem_filter, List.mem_toFinset]
    refine ⟨hmem, ?_, ?_⟩
    · have hcast : (inv.index : ℚ) < n := by linarith
      exact Nat.cast_lt.mp hcast
    · rw [attempted, hinvokes, Bool.true_and, Bool.not_eq_true']
      by_contra hfails
      rw [lin.failed inv hmem hinvokes (by simpa using hfails)] at ht'
      cases ht'
  · intro inv hinv _
    rw [Finset.mem_filter, List.mem_toFinset, attempted] at hinv
    exact amount_nonneg hwf hinv.1 (Bool.and_eq_true_iff.mp hinv.2.2).1

/-- A completed read lies within its bounds. -/
theorem inBounds_of_readOf (hwf : CounterHistory history) (lin : Linearization history)
    {op : CounterOp} (hread : okRead op = true) {r : Read} (hr : ReadOf history op r) :
    inBounds r = .ok true := by
  obtain ⟨inv, hinv, -, hc, rfl⟩ := hr
  obtain ⟨t, hafter, hbefore, hvalue⟩ := lin.reads inv hinv op hc hread
  have hlower := acknowledgedBefore_le hwf lin hafter
  have hupper := le_attemptedBefore hwf lin hbefore
  rw [hvalue]
  simp only [inBounds]
  rw [decide_eq_true hlower, decide_eq_true hupper]
  rfl

/-- Reads within their bounds are no errors. -/
theorem errors_eq_nil {reads : List Read} (hall : ∀ r ∈ reads, inBounds r = .ok true) :
    errors reads = .ok [] := by
  induction reads with
  | nil => rfl
  | cons r reads ih =>
    rw [errors, hall r List.mem_cons_self, ih fun r' hr' => hall r' (List.mem_cons_of_mem r hr')]

/-- Two reads around an add that is acknowledged between them, and an add that
crashes. -/
def readAddRead : List CounterOp :=
  [⟨0, .int 0, .invoke, .read none⟩, ⟨1, .int 1, .invoke, .add 1⟩, ⟨2, .int 2, .invoke, .add 5⟩,
    ⟨3, .int 0, .ok, .read (some 0)⟩, ⟨4, .int 1, .ok, .add 1⟩, ⟨5, .int 2, .info, .add 5⟩,
    ⟨6, .int 0, .invoke, .read none⟩, ⟨7, .int 0, .ok, .read (some 6)⟩]

theorem counterHistory_readAddRead : CounterHistory readAddRead where
  index := fun i op hop => by
    have h := congrArg (fun l => l[i]?)
      (show readAddRead.map CounterOp.index = List.range readAddRead.length by decide)
    simp only [List.getElem?_map, hop, Option.map_some] at h
    obtain ⟨hlt, heq⟩ := List.getElem?_eq_some_iff.mp h.symm
    rw [List.getElem_range] at heq
    exact heq.symm
  nonneg := fun op hop value _ hcall => by
    have hall : ∀ op ∈ readAddRead, 0 ≤ amount op := by decide
    have h := hall op hop
    rw [amount, hcall] at h
    exact h
  answered := fun op hop hok _ => by
    have hall : ∀ op ∈ readAddRead, op.type = .ok → ∃ inv ∈ readAddRead,
        inv.type = .invoke ∧ completion readAddRead inv = some op ∧
          isRead inv = isRead op ∧ isAdd inv = isAdd op ∧ amount inv = amount op := by decide
    obtain ⟨inv, hinv, hinvoke, hc, hread, hadd, hamount⟩ := hall op hop hok
    refine ⟨inv, hinv, hinvoke, hc, ?_⟩
    have hnone : ∀ op ∈ readAddRead, isAdd op = true ∨ isRead op = true := by decide
    have hsome := hnone op hop
    revert hread hadd hamount hsome
    unfold isRead isAdd amount
    cases inv.call <;> cases op.call <;> simp [Answers]

/-- The acknowledged add takes effect after the first read, the crashed one after
its crash. -/
def linearizationReadAddRead : Linearization readAddRead where
  effect := fun op => if op.index = 1 then some (7 / 2) else if op.index = 2 then some 6 else none
  invoked := by
    intro inv _ t _ heffect
    split at heffect
    · rename_i hindex
      rw [← Option.some.inj heffect, hindex]
      norm_num
    · split at heffect
      · rename_i hindex
        rw [← Option.some.inj heffect, hindex]
        norm_num
      · cases heffect
  completed := by
    intro inv hinv c hinvokes hc hok
    have hall : ∀ inv ∈ readAddRead, invokesAdd inv = true →
        (completion readAddRead inv).map CounterOp.type = some .ok → inv.index = 1 := by decide
    have hindex := hall inv hinv hinvokes (by rw [hc, Option.map_some, hok])
    have hinv' : ∀ inv ∈ readAddRead, inv.index = 1 →
        (completion readAddRead inv).map CounterOp.index = some 4 := by decide
    have hc' := hinv' inv hinv hindex
    rw [hc] at hc'
    refine ⟨7 / 2, if_pos hindex, ?_⟩
    rw [Option.some.inj hc']
    norm_num
  failed := by decide
  reads := by
    intro inv hinv c hc hread
    have hall : ∀ inv ∈ readAddRead, ∀ c, c ∈ completion readAddRead inv → okRead c = true →
        inv.index = 0 ∧ c = ⟨3, .int 0, .ok, .read (some 0)⟩ ∨
          inv.index = 6 ∧ c = ⟨7, .int 0, .ok, .read (some 6)⟩ := by decide
    rcases hall inv hinv c hc hread with ⟨hindex, rfl⟩ | ⟨hindex, rfl⟩
    · refine ⟨1, ?_, ?_, ?_⟩
      · norm_num [hindex]
      · norm_num
      · norm_num [readValue, valueAt, readAddRead, inEffect, invokesAdd, isAdd, amount]
    · refine ⟨13 / 2, ?_, ?_, ?_⟩
      · norm_num [hindex]
      · norm_num
      · norm_num [readValue, valueAt, readAddRead, inEffect, invokesAdd, isAdd, amount]

end Linearizable

end Jepsen.Checker.Counter
