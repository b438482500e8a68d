/-
# The ledger checker and serial executions

Every transfer is a row of a ledger, and a withdrawal is to commit only if its
account stays non-negative. The checker reads indeterminate deposits as made and
indeterminate withdrawals as not made, and reports accounts whose balance is
then not zero. `Executes` is what a serial execution of the transfers is.
-/

import Mathlib

namespace Jepsen.Stolon.Ledger

universe u

variable {Account : Type u}

/-! ## Histories -/

/-- The `:type` of an op. -/
inductive OpType
  | invoke | ok | fail | info
  deriving DecidableEq

/-- A transfer op, with the account and amount of its `:value`. -/
structure Op (Account : Type u) where
  type : OpType
  account : Account
  amount : ℤ
  deriving DecidableEq

/-! ## The checker -/

/-- The balance of some ops if deposits succeed and indeterminate withdrawals fail. -/
def balance (ops : List (Op Account)) : ℤ :=
  let deposits := ops.filter fun op => 0 < op.amount
  let withdrawals := ops.filter fun op => op.amount < 0
  ((deposits ++ withdrawals.filter fun op => op.type = .ok).map Op.amount).sum

/-- `check-account`: the account with its balance, if it is reported. -/
def checkAccount (account : Account) (ops : List (Op Account)) : Option (Account × ℤ) :=
  if balance ops < 0 ∨ 0 < balance ops then some (account, balance ops) else none

variable [DecidableEq Account]

/-- The ops of an account. -/
def opsOf (account : Account) (ops : List (Op Account)) : List (Op Account) :=
  ops.filter fun op => op.account = account

/-- The errors of the `checker`, account by account. -/
def errs (history : List (Op Account)) : List (Account × ℤ) :=
  let ops := history.filter fun op => op.type = .ok ∨ op.type = .info
  (ops.map Op.account).dedup.filterMap fun account => checkAccount account (opsOf account ops)

/-- `:valid?` -/
def valid (history : List (Op Account)) : Bool := (errs history).isEmpty

/-! ## Serial executions -/

/-- `transfer!` in a serial execution: the balances it leaves, or none if it returns false. -/
def transfer (balances : Account → ℤ) (account : Account) (amount : ℤ) : Option (Account → ℤ) :=
  if 0 < amount then some (Function.update balances account (balances account + amount))
  else if balances account + amount < 0 then none
  else some (Function.update balances account (balances account + amount))

/-- A serial execution of the ops in this order: an ok op has committed, an info op may have. -/
inductive Executes : (Account → ℤ) → List (Op Account) → Prop
  | nil (balances : Account → ℤ) : Executes balances []
  | commit {balances after : Account → ℤ} {op : Op Account} {ops : List (Op Account)}
      (htype : op.type = .ok ∨ op.type = .info)
      (htransfer : transfer balances op.account op.amount = some after)
      (hrest : Executes after ops) : Executes balances (op :: ops)
  | skip {balances : Account → ℤ} {op : Op Account} {ops : List (Op Account)}
      (htype : op.type ≠ .ok) (hrest : Executes balances ops) : Executes balances (op :: ops)

/-- A history of a serial execution, in whatever order, from an empty ledger. -/
def Serial (history : List (Op Account)) : Prop :=
  ∃ order : List (Op Account), order.Perm history ∧ Executes (fun _ => 0) order

/-! ## What the checker should report -/

/-- The ok and info deposits of an account plus its ok withdrawals. -/
def charitable (account : Account) (history : List (Op Account)) : ℤ :=
  ((history.filter fun op => op.account = account ∧ 0 < op.amount ∧
      (op.type = .ok ∨ op.type = .info)).map Op.amount).sum +
    ((history.filter fun op => op.account = account ∧ op.amount < 0 ∧
      op.type = .ok).map Op.amount).sum

/-- Exactly the accounts with negative balances are reported, and nothing in a serial history. -/
def Accurate (history : List (Op Account)) : Prop :=
  (∀ account, (∃ b, (account, b) ∈ errs history) ↔ charitable account history < 0) ∧
    (Serial history → valid history = true)

theorem balance_opsOf (account : Account) (history : List (Op Account)) :
    balance (opsOf account (history.filter fun op => op.type = .ok ∨ op.type = .info)) =
      charitable account history := by
  unfold balance charitable opsOf
  dsimp only
  rw [List.map_append, List.sum_append]
  simp only [List.filter_filter]
  congr 3
  · apply List.filter_congr
    intro op _
    grind
  · apply List.filter_congr
    intro op _
    grind

theorem charitable_eq_zero {account : Account} {history : List (Op Account)}
    (hnone : ∀ op ∈ history, (op.type = .ok ∨ op.type = .info) → op.account ≠ account) :
    charitable account history = 0 := by
  rw [← balance_opsOf]
  have hops : opsOf account
      (history.filter fun op => op.type = .ok ∨ op.type = .info) = [] := by
    unfold opsOf
    rw [List.filter_eq_nil_iff]
    intro op hop
    rw [List.mem_filter] at hop
    simpa using hnone op hop.1 (by simpa using hop.2)
  rw [hops]
  rfl

/-- An account is reported if its balance is not zero. -/
theorem reported_iff (account : Account) (history : List (Op Account)) :
    (∃ b, (account, b) ∈ errs history) ↔ charitable account history ≠ 0 := by
  unfold errs
  simp only [List.mem_filterMap, List.mem_dedup]
  constructor
  · rintro ⟨b, account', -, hcheck⟩
    unfold checkAccount at hcheck
    split_ifs at hcheck with hne
    cases hcheck
    rw [balance_opsOf] at hne
    exact lt_or_lt_iff_ne.mp hne
  · intro hne
    refine ⟨charitable account history, account, ?_, ?_⟩
    · by_contra hnot
      refine hne (charitable_eq_zero fun op hop htype heq => hnot ?_)
      refine List.mem_map.mpr ⟨op, List.mem_filter.mpr ⟨hop, ?_⟩, heq⟩
      simpa using htype
    · unfold checkAccount
      rw [balance_opsOf, if_pos (lt_or_lt_iff_ne.mpr hne)]

/-! ## Serial histories -/

theorem charitable_cons (account : Account) (op : Op Account) (ops : List (Op Account)) :
    charitable account (op :: ops) = charitable account ops +
      if op.account = account ∧ (0 < op.amount ∧ (op.type = .ok ∨ op.type = .info) ∨
        op.amount < 0 ∧ op.type = .ok) then op.amount else 0 := by
  unfold charitable
  simp only [List.filter_cons]
  by_cases hpos : 0 < op.amount
  · have hneg : ¬ op.amount < 0 := by omega
    by_cases hop : op.account = account ∧ (op.type = .ok ∨ op.type = .info)
    · simp [hpos, hneg, hop]
      ring
    · have hop' : ¬ (op.account = account ∧ 0 < op.amount ∧
          (op.type = .ok ∨ op.type = .info)) := fun h => hop ⟨h.1, h.2.2⟩
      have hother : ¬ (op.account = account ∧ (0 < op.amount ∧
          (op.type = .ok ∨ op.type = .info) ∨ op.amount < 0 ∧ op.type = .ok)) := by
        rintro ⟨haccount, ⟨-, htype⟩ | ⟨hlt, -⟩⟩
        · exact hop ⟨haccount, htype⟩
        · exact hneg hlt
      rw [if_neg hother]
      simp [hneg, hop']
  · by_cases hop : op.account = account ∧ op.amount < 0 ∧ op.type = .ok
    · simp [hpos, hop]
      ring
    · simp [hpos, hop]

/-- No balance goes below zero, and the charitable reading is no lower than what was committed. -/
theorem charitable_of_executes {balances : Account → ℤ} {ops : List (Op Account)}
    (hexec : Executes balances ops) (hstart : ∀ account, 0 ≤ balances account)
    (account : Account) : 0 ≤ balances account + charitable account ops := by
  induction hexec with
  | nil balances =>
    have hnil : charitable account ([] : List (Op Account)) = 0 := rfl
    rw [hnil, add_zero]
    exact hstart account
  | @commit balances after op ops htype htransfer hrest ih =>
    have hafter : after = Function.update balances op.account
        (balances op.account + op.amount) := by
      unfold transfer at htransfer
      split_ifs at htransfer <;> exact (Option.some.inj htransfer).symm
    have hnonneg : 0 ≤ balances op.account + op.amount := by
      have hbefore := hstart op.account
      unfold transfer at htransfer
      split_ifs at htransfer <;> omega
    have hrest := ih (by
      intro account'
      rw [hafter, Function.update_apply]
      split_ifs
      · exact hnonneg
      · exact hstart account')
    rw [hafter, Function.update_apply] at hrest
    rw [charitable_cons]
    by_cases haccount : account = op.account
    · subst haccount
      rw [if_pos rfl] at hrest
      rcases lt_trichotomy op.amount 0 with hneg | hzero | hpos
      · split_ifs <;> omega
      · split_ifs <;> omega
      · rw [if_pos ⟨rfl, Or.inl ⟨hpos, htype⟩⟩]
        omega
    · rw [if_neg haccount] at hrest
      rw [if_neg fun h => haccount h.1.symm, add_zero]
      exact hrest
  | @skip balances op ops htype hrest ih =>
    have hrest := ih hstart
    rw [charitable_cons]
    split_ifs with hcounts
    · have hpos : 0 < op.amount := by
        rcases hcounts.2 with h | h
        · exact h.1
        · exact absurd h.2 htype
      omega
    · omega

theorem charitable_perm {history history' : List (Op Account)} (hperm : history.Perm history')
    (account : Account) : charitable account history = charitable account history' := by
  unfold charitable
  rw [((hperm.filter _).map _).sum_eq, ((hperm.filter _).map _).sum_eq]

/-- In a history of a serial execution no account is overdrawn. -/
theorem charitable_nonneg_of_serial {history : List (Op Account)} (hserial : Serial history)
    (account : Account) : 0 ≤ charitable account history := by
  obtain ⟨order, hperm, hexec⟩ := hserial
  have hnonneg := charitable_of_executes hexec (fun _ => le_rfl) account
  rwa [zero_add, charitable_perm hperm] at hnonneg

theorem valid_iff (history : List (Op Account)) :
    valid history = true ↔ ∀ account, charitable account history = 0 := by
  unfold valid
  rw [List.isEmpty_iff]
  constructor
  · intro hempty account
    by_contra hne
    obtain ⟨b, hmem⟩ := (reported_iff account history).mpr hne
    rw [hempty] at hmem
    exact List.not_mem_nil hmem
  · intro hzero
    apply List.eq_nil_iff_forall_not_mem.mpr
    rintro ⟨account, b⟩ hmem
    exact (reported_iff account history).mp ⟨b, hmem⟩ (hzero account)

/-- The checker is accurate exactly where no account is left with money. -/
theorem accurate_iff (history : List (Op Account)) :
    Accurate history ↔ ∀ account, charitable account history ≤ 0 := by
  constructor
  · intro h account
    by_contra hpos
    have hneg := (h.1 account).mp ((reported_iff account history).mpr (by omega))
    omega
  · intro hle
    refine ⟨fun account => ?_, fun hserial => (valid_iff history).mpr fun account => ?_⟩
    · rw [reported_iff]
      have hle' := hle account
      omega
    · exact le_antisymm (hle account) (charitable_nonneg_of_serial hserial account)

/-- An account that is funded and never drawn on is reported. -/
theorem funded_not_accurate : ¬ Accurate [⟨.ok, 0, 10⟩] := by
  intro h
  have hserial : Serial [(⟨.ok, 0, 10⟩ : Op ℕ)] :=
    ⟨_, List.Perm.refl _, .commit (Or.inl rfl) rfl (.nil _)⟩
  exact absurd (h.2 hserial) (by decide)

end Jepsen.Stolon.Ledger
