/-
# Transactions of unique writes

An infinite sequence of transactions over a pool of keys. Every micro-op reads or
writes a random active key; writes to a key count up from 1. A key written too
often makes way for a new one, and the loop goes round again without an op. The
machine takes one round of the loop at a time, through all of the sequence.
-/

import Jepsen.Library.Assoc
import Jepsen.Library.Runs

namespace Jepsen.Tidb.WrTxns

open Jepsen.Library

/-! ## The generator -/

/-- The options. -/
structure Opts where
  keyCount : ℕ
  minTxnLength : ℕ
  maxTxnLength : ℕ
  maxWritesPerKey : ℕ

/-- The `:f` of a micro-op. -/
inductive F
  | r | w
  deriving DecidableEq

/-- A micro-op, with no value for a read. -/
structure MicroOp where
  f : F
  key : ℕ
  value : Option ℕ
  deriving DecidableEq

/-- The state that is threaded through the sequence: `:active-keys`, and the next value of each
key that was written. -/
structure State where
  activeKeys : List ℕ
  counters : Assoc ℕ ℕ

/-- `(get state k 1)` -/
def State.counter (s : State) (k : ℕ) : ℕ := (s.counters.lookup k).getD 1

/-- `(reduce max ks)` -/
def reduceMax : List ℕ → ℕ
  | [] => 0
  | k :: ks => ks.foldl max k

/-- The first state. -/
def State.initial (opts : Opts) : State := ⟨List.range opts.keyCount, ∅⟩

/-- The outcomes of the random choices of one round. -/
structure Choice where
  f : F
  /-- The index of the active key. -/
  key : ℕ

/-- The loop of one transaction, among the transactions before. -/
structure Machine where
  txns : List (List MicroOp)
  length : ℕ
  txn : List MicroOp
  state : State
  /-- The keys that were active and are no longer, as a record for the proofs. -/
  retired : List ℕ

/-- A new key in place of one that was updated too many times. -/
def State.replaceKey (s : State) (k : ℕ) : State :=
  let i := s.activeKeys.idxOf k
  let k' := reduceMax s.activeKeys + 1
  { s with activeKeys := s.activeKeys.set i k' }

/-- Count a write to a key. -/
def State.incCounter (s : State) (k : ℕ) : State :=
  { s with counters := s.counters.insert k (s.counter k + 1) }

/-- One round of the loop with a key: a write to a key that was updated too many times replaces
it, anything else adds an op. -/
def Machine.addOp (opts : Opts) (m : Machine) (f : F) (k : ℕ) : Machine :=
  if f = .w ∧ opts.maxWritesPerKey < m.state.counter k then
    { m with state := m.state.replaceKey k, retired := m.retired ++ [k] }
  else
    let v := if f = .w then some (m.state.counter k) else none
    { m with
      length := m.length - 1
      txn := m.txn ++ [⟨f, k, v⟩]
      state := if f = .w then m.state.incCounter k else m.state }

/-- One round of the loop; none if the transaction is complete or the choice is not an outcome of
`rand-nth`. -/
def Machine.round (opts : Opts) (m : Machine) (choice : Choice) : Option Machine :=
  if m.length = 0 then none
  else (m.state.activeKeys[choice.key]?).map (m.addOp opts choice.f)

/-- What the machine does next. -/
inductive Label
  | round (choice : Choice)
  /-- The transaction is emitted, and the `rand-int` of the next one's length is drawn. -/
  | emit (randInt : ℕ)

/-- One step of the sequence. -/
def Machine.step (opts : Opts) (m : Machine) : Label → Option Machine
  | .round choice => m.round opts choice
  | .emit randInt =>
    if m.length = 0 ∧ randInt < opts.maxTxnLength + 1 - opts.minTxnLength then
      some { m with
        txns := m.txns ++ [m.txn]
        length := opts.minTxnLength + randInt
        txn := [] }
    else none

/-- One step, as a relation. -/
def Step (opts : Opts) (m : Machine) (label : Label) (m' : Machine) : Prop :=
  m.step opts label = some m'

/-- The machine before its first transaction, whose length was drawn. -/
def Machine.initial (opts : Opts) (randInt : ℕ) : Machine :=
  ⟨[], opts.minTxnLength + randInt, [], State.initial opts, []⟩

/-! ## What was generated -/

/-- All micro-ops so far. -/
def Machine.ops (m : Machine) : List MicroOp := m.txns.flatten ++ m.txn

/-- The values written to a key, in order. -/
def writesTo (k : ℕ) (ops : List MicroOp) : List ℕ :=
  ops.filterMap fun op => if op.f = .w ∧ op.key = k then op.value else none

/-- How many active keys were written too often. -/
def exhausted (opts : Opts) (s : State) : ℕ :=
  s.activeKeys.countP fun k => opts.maxWritesPerKey < s.counter k

/-- The measure of the loop: a round adds an op, which may exhaust a key, or replaces an exhausted
key. -/
def Machine.measure (opts : Opts) (m : Machine) : ℕ := 2 * m.length + exhausted opts m.state

/-! ## The largest active key -/

theorem reduceMax_spec {ks : List ℕ} :
    (∀ k ∈ ks, k ≤ reduceMax ks) ∧ (ks ≠ [] → reduceMax ks ∈ ks) := by
  have hfold : ∀ (l : List ℕ) (k : ℕ),
      k ≤ l.foldl max k ∧ (∀ x ∈ l, x ≤ l.foldl max k) ∧
        (l.foldl max k = k ∨ l.foldl max k ∈ l) := by
    intro l
    induction l with
    | nil =>
      intro k
      exact ⟨le_rfl, fun x hx => absurd hx List.not_mem_nil, Or.inl rfl⟩
    | cons x l ih =>
      intro k
      obtain ⟨hle, hall, hmem⟩ := ih (max k x)
      rw [List.foldl_cons]
      refine ⟨(le_max_left k x).trans hle, fun y hy => ?_, ?_⟩
      · rcases List.mem_cons.mp hy with rfl | hy
        · exact (le_max_right k y).trans hle
        · exact hall y hy
      · rcases hmem with heq | hmem
        · rw [heq]
          rcases max_choice k x with hk | hx
          · exact Or.inl hk
          · rw [hx]
            exact Or.inr List.mem_cons_self
        · exact Or.inr (List.mem_cons_of_mem x hmem)
  cases ks with
  | nil => exact ⟨fun k hk => absurd hk List.not_mem_nil, fun hne => absurd rfl hne⟩
  | cons k ks =>
    obtain ⟨hle, hall, hmem⟩ := hfold ks k
    constructor
    · intro x hx
      rcases List.mem_cons.mp hx with rfl | hx
      · exact hle
      · exact hall x hx
    · intro _
      rcases hmem with heq | hmem
      · rw [reduceMax, heq]
        exact List.mem_cons_self
      · exact List.mem_cons_of_mem k hmem

theorem notMem_succ_reduceMax (ks : List ℕ) : reduceMax ks + 1 ∉ ks := by
  intro hmem
  have hle := reduceMax_spec.1 _ hmem
  omega

/-- Replacing a key by a larger one than all leaves the new key the largest. -/
theorem mem_set_succ {ks : List ℕ} {k : ℕ} (hk : k ∈ ks) (hnodup : ks.Nodup) (x : ℕ) :
    x ∈ ks.set (ks.idxOf k) (reduceMax ks + 1) ↔
      x = reduceMax ks + 1 ∨ x ∈ ks ∧ x ≠ k := by
  have hlt : ks.idxOf k < ks.length := List.idxOf_lt_length_iff.mpr hk
  have hget : ks[ks.idxOf k] = k := List.getElem_idxOf hlt
  rw [List.mem_iff_getElem]
  constructor
  · rintro ⟨i, hi, rfl⟩
    rw [List.length_set] at hi
    rw [List.getElem_set]
    split_ifs with heq
    · exact Or.inl rfl
    · refine Or.inr ⟨List.getElem_mem hi, fun hsame => heq ?_⟩
      exact (hnodup.getElem_inj_iff.mp (hget.trans hsame.symm))
  · rintro (rfl | ⟨hx, hne⟩)
    · exact ⟨ks.idxOf k, by rw [List.length_set]; exact hlt, List.getElem_set_self _⟩
    · obtain ⟨i, hi, rfl⟩ := List.mem_iff_getElem.mp hx
      refine ⟨i, by rw [List.length_set]; exact hi, ?_⟩
      rw [List.getElem_set_ne]
      intro heq
      apply hne
      rw [← hget]
      congr 1
      exact heq.symm

theorem reduceMax_set {ks : List ℕ} {k : ℕ} (hk : k ∈ ks) (hnodup : ks.Nodup) :
    reduceMax (ks.set (ks.idxOf k) (reduceMax ks + 1)) = reduceMax ks + 1 := by
  have hmem := mem_set_succ hk hnodup
  apply le_antisymm
  · have hne : ks.set (ks.idxOf k) (reduceMax ks + 1) ≠ [] :=
      List.ne_nil_of_mem ((hmem _).mpr (Or.inl rfl))
    rcases (hmem _).mp (reduceMax_spec.2 hne) with heq | ⟨hold, -⟩
    · exact heq.le
    · exact (reduceMax_spec.1 _ hold).trans (Nat.le_succ _)
  · exact reduceMax_spec.1 _ ((hmem _).mpr (Or.inl rfl))

/-! ## What a round does -/

theorem writesTo_snoc (k : ℕ) (ops : List MicroOp) (op : MicroOp) :
    writesTo k (ops ++ [op]) =
      writesTo k ops ++ if op.f = .w ∧ op.key = k then op.value.toList else [] := by
  unfold writesTo
  rw [List.filterMap_append]
  congr 1
  by_cases h : op.f = .w ∧ op.key = k
  · rw [if_pos h, List.filterMap_cons, if_pos h]
    cases op.value <;> rfl
  · rw [if_neg h, List.filterMap_cons, if_neg h, List.filterMap_nil]

/-- A key makes way for a new one, or an op is added. -/
theorem addOp_cases (opts : Opts) (m : Machine) (f : F) (k : ℕ) :
    (f = .w ∧ opts.maxWritesPerKey < m.state.counter k ∧
      m.addOp opts f k =
        { m with state := m.state.replaceKey k, retired := m.retired ++ [k] }) ∨
    (f = .r ∧ m.addOp opts f k =
      { m with length := m.length - 1, txn := m.txn ++ [⟨.r, k, none⟩] }) ∨
    (f = .w ∧ m.state.counter k ≤ opts.maxWritesPerKey ∧
      m.addOp opts f k =
        { m with
          length := m.length - 1
          txn := m.txn ++ [⟨.w, k, some (m.state.counter k)⟩]
          state := m.state.incCounter k }) := by
  unfold Machine.addOp
  cases f with
  | r =>
    right; left
    exact ⟨rfl, by simp⟩
  | w =>
    by_cases hmany : opts.maxWritesPerKey < m.state.counter k
    · left
      exact ⟨rfl, hmany, by simp [hmany]⟩
    · right; right
      exact ⟨rfl, not_lt.mp hmany, by simp [hmany]⟩

/-- A step emits the transaction or goes one round with an active key. -/
theorem step_cases {opts : Opts} {m m' : Machine} {label : Label}
    (hstep : Step opts m label m') :
    (∃ randInt, label = .emit randInt ∧ m.length = 0 ∧
      randInt < opts.maxTxnLength + 1 - opts.minTxnLength ∧
      m' = { m with
        txns := m.txns ++ [m.txn]
        length := opts.minTxnLength + randInt
        txn := [] }) ∨
    ∃ choice, label = .round choice ∧ m.length ≠ 0 ∧
      ∃ k ∈ m.state.activeKeys, m' = m.addOp opts choice.f k := by
  unfold Step Machine.step at hstep
  cases label with
  | emit randInt =>
    left
    dsimp only at hstep
    split_ifs at hstep with h
    exact ⟨randInt, rfl, h.1, h.2, (Option.some.inj hstep).symm⟩
  | round choice =>
    right
    unfold Machine.round at hstep
    dsimp only at hstep
    split_ifs at hstep with h
    obtain ⟨k, hk, heq⟩ := Option.map_eq_some_iff.mp hstep
    exact ⟨choice, rfl, h, k, List.mem_of_getElem? hk, heq.symm⟩

/-! ## The invariant -/

/-- The keys that were active are the active and the retired ones, all numbered up to the largest
active key, and the counters have counted the writes. -/
structure Machine.Inv (opts : Opts) (m : Machine) : Prop where
  count : m.state.activeKeys.length = opts.keyCount
  nodup : m.state.activeKeys.Nodup
  emitted : ∀ txn ∈ m.txns, opts.minTxnLength ≤ txn.length ∧ txn.length ≤ opts.maxTxnLength
  building : opts.minTxnLength ≤ m.txn.length + m.length ∧
    m.txn.length + m.length ≤ opts.maxTxnLength
  retired : ∀ k ∈ m.retired, k ∉ m.state.activeKeys ∧ k ≤ reduceMax m.state.activeKeys
  known : ∀ k, m.state.counter k ≠ 1 → k ≤ reduceMax m.state.activeKeys
  counter : ∀ k, 1 ≤ m.state.counter k ∧ m.state.counter k ≤ opts.maxWritesPerKey + 1
  written : ∀ k, writesTo k m.ops = List.range' 1 (m.state.counter k - 1)

theorem inv_initial {opts : Opts} (hle : opts.minTxnLength ≤ opts.maxTxnLength) {randInt : ℕ}
    (hrand : randInt < opts.maxTxnLength + 1 - opts.minTxnLength) :
    (Machine.initial opts randInt).Inv opts := by
  have hcounter : ∀ k, (Machine.initial opts randInt).state.counter k = 1 := by
    intro k
    unfold Machine.initial State.initial State.counter
    rw [AList.lookup_empty]
    rfl
  constructor
  · exact List.length_range
  · exact List.nodup_range
  · exact fun txn htxn => absurd htxn List.not_mem_nil
  · unfold Machine.initial
    dsimp only [List.length_nil]
    omega
  · exact fun k hk => absurd hk List.not_mem_nil
  · exact fun k hk => absurd (hcounter k) hk
  · intro k
    rw [hcounter]
    omega
  · intro k
    rw [hcounter]
    rfl

theorem inv_emit {opts : Opts} {m : Machine} (h : m.Inv opts) (hzero : m.length = 0)
    {randInt : ℕ} (hrand : randInt < opts.maxTxnLength + 1 - opts.minTxnLength) :
    Machine.Inv opts { m with
      txns := m.txns ++ [m.txn]
      length := opts.minTxnLength + randInt
      txn := [] } := by
  have hbuilding := h.building
  rw [hzero, Nat.add_zero] at hbuilding
  constructor
  · exact h.count
  · exact h.nodup
  · intro txn htxn
    rcases List.mem_append.mp htxn with hold | hlast
    · exact h.emitted txn hold
    · rw [List.mem_singleton.mp hlast]
      exact hbuilding
  · dsimp only [List.length_nil]
    omega
  · exact h.retired
  · exact h.known
  · exact h.counter
  · intro k
    have hops : (m.txns ++ [m.txn]).flatten ++ [] = m.ops := by
      simp [Machine.ops]
    unfold Machine.ops
    dsimp only
    rw [hops]
    exact h.written k

theorem inv_retire {opts : Opts} {m : Machine} (h : m.Inv opts) {k : ℕ}
    (hk : k ∈ m.state.activeKeys) :
    Machine.Inv opts
      { m with state := m.state.replaceKey k, retired := m.retired ++ [k] } := by
  have hmem : ∀ x, x ∈ (m.state.replaceKey k).activeKeys ↔
      x = reduceMax m.state.activeKeys + 1 ∨ x ∈ m.state.activeKeys ∧ x ≠ k :=
    mem_set_succ hk h.nodup
  have hmax : reduceMax (m.state.replaceKey k).activeKeys = reduceMax m.state.activeKeys + 1 :=
    reduceMax_set hk h.nodup
  constructor
  · exact (List.length_set).trans h.count
  · exact h.nodup.set (notMem_succ_reduceMax _)
  · exact h.emitted
  · exact h.building
  · intro x hx
    dsimp only
    rw [hmem, hmax]
    rcases List.mem_append.mp hx with hold | hlast
    · obtain ⟨hnot, hle⟩ := h.retired x hold
      refine ⟨?_, hle.trans (Nat.le_succ _)⟩
      rintro (heq | ⟨hactive, -⟩)
      · omega
      · exact hnot hactive
    · rw [List.mem_singleton.mp hlast]
      have hle := reduceMax_spec.1 k hk
      refine ⟨?_, hle.trans (Nat.le_succ _)⟩
      rintro (heq | ⟨-, hne⟩)
      · omega
      · exact hne rfl
  · intro x hx
    dsimp only
    rw [hmax]
    exact (h.known x hx).trans (Nat.le_succ _)
  · exact h.counter
  · exact h.written

theorem inv_read {opts : Opts} {m : Machine} (h : m.Inv opts) (hne : m.length ≠ 0) (k : ℕ) :
    Machine.Inv opts { m with length := m.length - 1, txn := m.txn ++ [⟨.r, k, none⟩] } := by
  have hbuilding := h.building
  constructor
  · exact h.count
  · exact h.nodup
  · exact h.emitted
  · dsimp only [List.length_append, List.length_singleton]
    rw [List.length_append, List.length_singleton]
    omega
  · exact h.retired
  · exact h.known
  · exact h.counter
  · intro k'
    unfold Machine.ops
    dsimp only
    rw [← List.append_assoc, writesTo_snoc, if_neg (by simp), List.append_nil]
    exact h.written k'

theorem counter_incCounter (s : State) (k x : ℕ) :
    (s.incCounter k).counter x = if x = k then s.counter k + 1 else s.counter x := by
  unfold State.incCounter State.counter
  dsimp only
  rw [Assoc.lookup_insert_eq_ite]
  split_ifs <;> rfl

theorem inv_write {opts : Opts} {m : Machine} (h : m.Inv opts) (hne : m.length ≠ 0) {k : ℕ}
    (hk : k ∈ m.state.activeKeys) (hfew : m.state.counter k ≤ opts.maxWritesPerKey) :
    Machine.Inv opts { m with
      length := m.length - 1
      txn := m.txn ++ [⟨.w, k, some (m.state.counter k)⟩]
      state := m.state.incCounter k } := by
  have hbuilding := h.building
  have hcounter := counter_incCounter m.state k
  constructor
  · exact h.count
  · exact h.nodup
  · exact h.emitted
  · dsimp only
    rw [List.length_append, List.length_singleton]
    omega
  · exact h.retired
  · intro x hx
    dsimp only at hx ⊢
    rw [hcounter] at hx
    split_ifs at hx with heq
    · rw [heq]
      exact reduceMax_spec.1 k hk
    · exact h.known x hx
  · intro x
    dsimp only
    rw [hcounter]
    have hx := h.counter x
    by_cases heq : x = k
    · subst heq
      rw [if_pos rfl]
      omega
    · rw [if_neg heq]
      exact hx
  · intro x
    unfold Machine.ops
    dsimp only
    rw [← List.append_assoc, writesTo_snoc, hcounter]
    have hwritten := h.written x
    unfold Machine.ops at hwritten
    rw [hwritten]
    by_cases heq : x = k
    · subst heq
      have hpos := (h.counter x).1
      rw [if_pos ⟨rfl, rfl⟩, if_pos rfl]
      have hsucc : m.state.counter x + 1 - 1 = m.state.counter x - 1 + 1 := by omega
      have hlast : 1 + 1 * (m.state.counter x - 1) = m.state.counter x := by omega
      rw [hsucc, List.range'_concat, hlast]
      rfl
    · rw [if_neg fun hsame => heq hsame.2.symm, if_neg heq, List.append_nil]

theorem inv_step {opts : Opts} {m m' : Machine} {label : Label} (h : m.Inv opts)
    (hstep : Step opts m label m') : m'.Inv opts := by
  rcases step_cases hstep with ⟨randInt, -, hzero, hrand, rfl⟩ | ⟨choice, -, hne, k, hk, rfl⟩
  · exact inv_emit h hzero hrand
  · rcases addOp_cases opts m choice.f k with
      ⟨-, -, heq⟩ | ⟨-, heq⟩ | ⟨-, hfew, heq⟩ <;> rw [heq]
    · exact inv_retire h hk
    · exact inv_read h hne k
    · exact inv_write h hne hk hfew

theorem inv_of_run {opts : Opts} {m m' : Machine} {labels : List Label} (h : m.Inv opts)
    (hrun : Run (Step opts) m labels m') : m'.Inv opts :=
  hrun.invariant (Machine.Inv opts) h inv_step

/-! ## Every transaction is completed -/

/-- The loop of a transaction, for at most so many rounds; none if it is not complete by then. -/
def Machine.build (opts : Opts) : (ℕ → Choice) → ℕ → Machine → Option Machine
  | _, 0, m => if m.length = 0 then some m else none
  | choices, rounds + 1, m =>
    if m.length = 0 then some m
    else (m.round opts (choices 0)).bind
      (Machine.build opts (fun i => choices (i + 1)) rounds)

theorem exhausted_replaceKey {opts : Opts} (hwrites : 1 ≤ opts.maxWritesPerKey) {m : Machine}
    (h : m.Inv opts) {k : ℕ} (hk : k ∈ m.state.activeKeys)
    (hmany : opts.maxWritesPerKey < m.state.counter k) :
    exhausted opts (m.state.replaceKey k) < exhausted opts m.state := by
  have hlt : m.state.activeKeys.idxOf k < m.state.activeKeys.length :=
    List.idxOf_lt_length_iff.mpr hk
  have hget : m.state.activeKeys[m.state.activeKeys.idxOf k] = k := List.getElem_idxOf hlt
  have hfresh : m.state.counter (reduceMax m.state.activeKeys + 1) = 1 := by
    by_contra hne
    have hle := h.known _ hne
    omega
  have hpos : 0 < exhausted opts m.state :=
    List.countP_pos_iff.mpr ⟨k, hk, decide_eq_true hmany⟩
  have hset : exhausted opts (m.state.replaceKey k) =
      (m.state.activeKeys.set (m.state.activeKeys.idxOf k)
        (reduceMax m.state.activeKeys + 1)).countP
          fun k => opts.maxWritesPerKey < m.state.counter k := rfl
  have hnot : ¬ decide (opts.maxWritesPerKey < 1) = true := by
    simpa using Nat.one_le_iff_ne_zero.mp hwrites
  rw [hset, List.countP_set hlt, hget, if_pos (decide_eq_true hmany), hfresh, if_neg hnot]
  unfold exhausted at hpos ⊢
  omega

theorem exhausted_incCounter (opts : Opts) {s : State} (hnodup : s.activeKeys.Nodup) (k : ℕ) :
    exhausted opts (s.incCounter k) ≤ exhausted opts s + 1 := by
  have hcount : s.activeKeys.count k ≤ 1 := List.nodup_iff_count_le_one.mp hnodup k
  have hsplit : ∀ l : List ℕ, (l.countP fun x => opts.maxWritesPerKey < (s.incCounter k).counter x)
      ≤ (l.countP fun x => opts.maxWritesPerKey < s.counter x) + l.count k := by
    intro l
    induction l with
    | nil => exact Nat.zero_le _
    | cons x l ih =>
      rw [List.countP_cons, List.countP_cons, List.count_cons, counter_incCounter]
      by_cases heq : x = k
      · subst heq
        simp only [if_pos, beq_self_eq_true]
        split_ifs <;> omega
      · have hnot : ¬ (x == k) = true := by simpa using heq
        rw [if_neg heq, if_neg hnot]
        omega
  exact (hsplit s.activeKeys).trans (Nat.add_le_add_left hcount _)

theorem measure_addOp {opts : Opts} (hwrites : 1 ≤ opts.maxWritesPerKey) {m : Machine}
    (h : m.Inv opts) (hne : m.length ≠ 0) (f : F) {k : ℕ} (hk : k ∈ m.state.activeKeys) :
    (m.addOp opts f k).measure opts < m.measure opts := by
  unfold Machine.measure
  rcases addOp_cases opts m f k with ⟨-, hmany, heq⟩ | ⟨-, heq⟩ | ⟨-, -, heq⟩ <;> rw [heq]
  · have hlt := exhausted_replaceKey hwrites h hk hmany
    dsimp only
    omega
  · dsimp only
    omega
  · have hle := exhausted_incCounter opts h.nodup k
    dsimp only
    omega

/-- Whatever the choices, the loop completes its transaction. -/
theorem build_returns {opts : Opts} (hwrites : 1 ≤ opts.maxWritesPerKey) {rounds : ℕ}
    {choices : ℕ → Choice} (hchoices : ∀ i, (choices i).key < opts.keyCount) {m : Machine}
    (h : m.Inv opts) (hrounds : m.measure opts ≤ rounds) :
    ∃ m', m.build opts choices rounds = some m' ∧ m'.length = 0 := by
  induction rounds generalizing choices m with
  | zero =>
    have hzero : m.length = 0 := by
      unfold Machine.measure at hrounds
      omega
    exact ⟨m, if_pos hzero, hzero⟩
  | succ rounds ih =>
    rw [Machine.build]
    by_cases hzero : m.length = 0
    · exact ⟨m, if_pos hzero, hzero⟩
    · rw [if_neg hzero]
      have hlt : (choices 0).key < m.state.activeKeys.length := by
        rw [h.count]
        exact hchoices 0
      have hround : m.round opts (choices 0) =
          some (m.addOp opts (choices 0).f m.state.activeKeys[(choices 0).key]) := by
        unfold Machine.round
        rw [if_neg hzero, List.getElem?_eq_getElem hlt, Option.map_some]
      have hstep : Step opts m (.round (choices 0))
          (m.addOp opts (choices 0).f m.state.activeKeys[(choices 0).key]) := hround
      have hmeasure := measure_addOp hwrites h hzero (choices 0).f (List.getElem_mem hlt)
      rw [hround, Option.bind_some]
      exact ih (fun i => hchoices (i + 1)) (inv_step h hstep) (by omega)

/-! ## Keys are retired for good -/

theorem retired_step {opts : Opts} {m m' : Machine} {label : Label} (h : m.Inv opts)
    (hstep : Step opts m label m') :
    (∀ k ∈ m.state.activeKeys, k ∈ m'.state.activeKeys ∨ k ∈ m'.retired) ∧
      ∀ k ∈ m.retired, k ∈ m'.retired := by
  rcases step_cases hstep with ⟨-, -, -, -, rfl⟩ | ⟨choice, -, -, k, hk, rfl⟩
  · exact ⟨fun k hk => Or.inl hk, fun k hk => hk⟩
  · rcases addOp_cases opts m choice.f k with
      ⟨-, -, heq⟩ | ⟨-, heq⟩ | ⟨-, -, heq⟩ <;> rw [heq]
    · refine ⟨fun x hx => ?_, fun x hx => List.mem_append_left _ hx⟩
      by_cases hsame : x = k
      · right
        rw [hsame]
        exact List.mem_append_right _ (List.mem_singleton_self k)
      · left
        exact (mem_set_succ hk h.nodup x).mpr (Or.inr ⟨hx, hsame⟩)
    · exact ⟨fun k hk => Or.inl hk, fun k hk => hk⟩
    · exact ⟨fun k hk => Or.inl hk, fun k hk => hk⟩

theorem retired_of_run {opts : Opts} {m m' : Machine} {labels : List Label} (h : m.Inv opts)
    (hrun : Run (Step opts) m labels m') :
    (∀ k ∈ m.state.activeKeys, k ∈ m'.state.activeKeys ∨ k ∈ m'.retired) ∧
      ∀ k ∈ m.retired, k ∈ m'.retired := by
  induction hrun with
  | nil => exact ⟨fun k hk => Or.inl hk, fun k hk => hk⟩
  | snoc prior last ih =>
    obtain ⟨hactive, hretired⟩ := retired_step (inv_of_run h prior) last
    refine ⟨fun k hk => ?_, fun k hk => hretired k (ih.2 k hk)⟩
    rcases ih.1 k hk with hstill | hgone
    · exact hactive k hstill
    · exact Or.inr (hretired k hgone)

/-- A key that is active no longer is never active again. -/
theorem notMem_of_retired {opts : Opts} {m m₁ m₂ : Machine} {labels₁ labels₂ : List Label}
    (h : m.Inv opts) (hrun₁ : Run (Step opts) m labels₁ m₁)
    (hrun₂ : Run (Step opts) m₁ labels₂ m₂) {k : ℕ} (hk : k ∈ m.state.activeKeys)
    (hgone : k ∉ m₁.state.activeKeys) : k ∉ m₂.state.activeKeys := by
  have h₁ := inv_of_run h hrun₁
  have hretired : k ∈ m₁.retired := ((retired_of_run h hrun₁).1 k hk).resolve_left hgone
  have hretired₂ : k ∈ m₂.retired := (retired_of_run h₁ hrun₂).2 k hretired
  exact ((inv_of_run h₁ hrun₂).retired k hretired₂).1

/-- At every point of the sequence: the transaction being built will be completed, those emitted
have admissible lengths, the active keys are as many as they should be and distinct, none that was
retired comes back, and the writes to each key count up from 1. -/
theorem wrTxns_spec {opts : Opts} (hlengths : opts.minTxnLength ≤ opts.maxTxnLength)
    (hwrites : 1 ≤ opts.maxWritesPerKey) {randInt : ℕ}
    (hrand : randInt < opts.maxTxnLength + 1 - opts.minTxnLength) {labels : List Label}
    {m : Machine} (hrun : Run (Step opts) (Machine.initial opts randInt) labels m) :
    (∀ choices : ℕ → Choice, (∀ i, (choices i).key < opts.keyCount) →
      ∃ m', m.build opts choices (2 * m.length + opts.keyCount) = some m' ∧ m'.length = 0) ∧
      (∀ txn ∈ m.txns, opts.minTxnLength ≤ txn.length ∧ txn.length ≤ opts.maxTxnLength) ∧
      (m.state.activeKeys.length = opts.keyCount ∧ m.state.activeKeys.Nodup) ∧
      (∀ labels₁ m₁ labels₂ m₂, Run (Step opts) m labels₁ m₁ → Run (Step opts) m₁ labels₂ m₂ →
        ∀ k ∈ m.state.activeKeys, k ∉ m₁.state.activeKeys → k ∉ m₂.state.activeKeys) ∧
      ∀ k, ∃ n ≤ opts.maxWritesPerKey, writesTo k m.ops = List.range' 1 n := by
  have h := inv_of_run (inv_initial hlengths hrand) hrun
  refine ⟨fun choices hchoices => build_returns hwrites hchoices h ?_, h.emitted,
    ⟨h.count, h.nodup⟩, fun labels₁ m₁ labels₂ m₂ hrun₁ hrun₂ k hk hgone =>
      notMem_of_retired h hrun₁ hrun₂ hk hgone, fun k => ⟨m.state.counter k - 1, ?_, h.written k⟩⟩
  · have hle : exhausted opts m.state ≤ m.state.activeKeys.length := List.countP_le_length
    rw [h.count] at hle
    unfold Machine.measure
    omega
  · have hcounter := (h.counter k).2
    omega

/-- One key and one write to it: the second write waits for a new key. -/
def oneWriteEach : Opts := ⟨1, 1, 1, 1⟩

/-- The machine after a transaction and the round that replaces its key. -/
def replaced : Machine :=
  ([.round ⟨.w, 0⟩, .emit 0, .round ⟨.w, 0⟩].foldlM (Machine.step oneWriteEach)
    (Machine.initial oneWriteEach 0)).getD (Machine.initial oneWriteEach 0)

theorem replaced_spec :
    1 ≤ oneWriteEach.maxWritesPerKey ∧ replaced.state.activeKeys = [1] ∧
      ∀ k, ∃ n ≤ 1, writesTo k replaced.ops = List.range' 1 n := by
  have hrun : Run (Step oneWriteEach) (Machine.initial oneWriteEach 0)
      [.round ⟨.w, 0⟩, .emit 0, .round ⟨.w, 0⟩] replaced := Run.of_foldlM rfl
  exact ⟨le_rfl, rfl, (wrTxns_spec le_rfl le_rfl (by decide) hrun).2.2.2.2⟩

end Jepsen.Tidb.WrTxns
