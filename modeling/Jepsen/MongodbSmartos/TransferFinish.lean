/-
# Transfers that run to completion

The last update of a transfer looks for its transaction by the wrong id in the
wrong collection, so that no transaction is ever done. Transfers between any two
accounts are followed here, equal ones included, with what each has changed the
total by.
-/

import Jepsen.MongodbSmartos.TransferIsolation

namespace Jepsen.MongodbSmartos

open Jepsen.Library

universe u v

variable {A : Type u} {T : Type v} [DecidableEq A] [DecidableEq T]

/-! ## The last update -/

/-- What a client gives as an `:_id`. -/
inductive DocId (A : Type u) (T : Type v)
  | acct (id : A)
  | txnId (id : T)
  /-- A whole transaction. -/
  | txn (txn : Txn A T)

/-- The `:state` of an account's document, which has no such field. -/
def Account.state (_ : Account T) : Option TxnState := none

/-- `p6-finish-txn` as it is called: on the accounts, with the transaction for its id. -/
def p6FinishAccts (id : DocId A T) (accts : Assoc A (Account T)) : Assoc A (Account T) :=
  match id with
  | .acct id => MongodbSmartos.update id (fun doc => decide (doc.state = some .applied)) (·) accts
  | .txnId _ | .txn _ => accts

theorem run_finish (txn : Txn A T) (db : Db A T) :
    Update.finish.run txn db = { db with accts := p6FinishAccts (.txn txn) db.accts } :=
  rfl

/-! ## Transfers between any accounts -/

/-- One step, where a transfer may be from any account to any account. -/
def System.anyStep (s : System A T) : Action A T → Option (System A T)
  | .create txn =>
      if s.transfers txn.id = none then
        some { db := p0CreateTxn txn s.db
               transfers := Function.update s.transfers txn.id (some ⟨txn, transferUpdates⟩) }
      else none
  | action => s.step action

/-- The system, with what the updates of each transaction have changed the total by. -/
structure Tracked (A : Type u) (T : Type v) where
  system : System A T
  changed : T → ℤ

/-- The accounts with their first balances. -/
def Tracked.initial (balances : Assoc A ℤ) : Tracked A T where
  system := System.initial balances
  changed := fun _ => 0

/-- One step, after which an update has changed the total by the difference. -/
def Tracked.step (s : Tracked A T) (action : Action A T) : Option (Tracked A T) :=
  (s.system.anyStep action).map fun after =>
    { system := after
      changed := match action with
        | .update txn _ => Function.update s.changed txn.id (s.changed txn.id +
            (total (balancesOf after.db.accts) - total (balancesOf s.system.db.accts)))
        | _ => s.changed }

/-- One step, as a relation. -/
def Tracked.Step (s : Tracked A T) (action : Action A T) (s' : Tracked A T) : Prop :=
  s.step action = some s'

/-- What a transfer should have come to: it has conserved the total, is pending nowhere, and its
transaction is done. -/
structure Tracked.Settled (s : Tracked A T) (txn : Txn A T) : Prop where
  conserved : s.changed txn.id = 0
  cleared : ∀ acct doc, s.system.db.accts.lookup acct = some doc → txn.id ∉ doc.pendingTxns
  done : ∃ txn', s.system.db.txns.lookup txn.id = some (.done, txn')

/-! ## Transactions stay applied -/

/-- A transfer that has yet to mark its transaction as applied has a pending transaction, and any
later one has an applied one. -/
def System.Marked (s : System A T) : Prop :=
  ∀ id t, s.transfers id = some t → t.txn.id = id ∧ t.rest <:+ transferUpdates ∧
    ∃ txn, s.db.txns.lookup id =
      some (if .markApplied ∈ t.rest then .pending else .applied, txn)

/-- Only one update touches a transaction's document. -/
theorem run_txns_of_ne {next : Update} (hne : next ≠ .markApplied) (txn : Txn A T) (db : Db A T) :
    (next.run txn db).txns = db.txns := by
  cases next with
  | markApplied => exact absurd rfl hne
  | applyFrom => rfl
  | applyTo => rfl
  | clearFrom => rfl
  | clearTo => rfl
  | finish => rfl

theorem lookup_markApplied {txn txn' : Txn A T} {db : Db A T}
    (hpending : db.txns.lookup txn.id = some (.pending, txn')) (id : T) :
    (Update.markApplied.run txn db).txns.lookup id =
      if id = txn.id then some (.applied, txn') else db.txns.lookup id := by
  unfold Update.run MongodbSmartos.update
  dsimp only
  rw [hpending]
  dsimp only
  rw [if_pos (decide_eq_true rfl), Assoc.lookup_insert_eq_ite]

omit [DecidableEq A] in
theorem marked_create {s : System A T} (h : s.Marked) {txn : Txn A T} :
    System.Marked { db := p0CreateTxn txn s.db
                    transfers := Function.update s.transfers txn.id
                      (some ⟨txn, transferUpdates⟩) } := by
  intro id t ht
  unfold p0CreateTxn
  dsimp only at ht ⊢
  rw [Function.update_apply] at ht
  rw [Assoc.lookup_insert_eq_ite]
  by_cases heq : id = txn.id
  · rw [if_pos heq] at ht ⊢
    cases ht
    refine ⟨heq.symm, List.suffix_refl _, txn, ?_⟩
    rw [if_pos (by simp [transferUpdates, p3ApplyTxn, p4AppliedTxn])]
  · rw [if_neg heq] at ht ⊢
    exact h id t ht

theorem marked_update {s : System A T} (h : s.Marked) {txn : Txn A T} {next : Update}
    {rest : List Update} (ht : s.transfers txn.id = some ⟨txn, next :: rest⟩) :
    System.Marked { db := next.run txn s.db
                    transfers := Function.update s.transfers txn.id (some ⟨txn, rest⟩) } := by
  obtain ⟨-, hsuffix, txn', hlookup⟩ := h txn.id _ ht
  have hrest : rest <:+ transferUpdates := (List.suffix_cons next rest).trans hsuffix
  intro id t ht'
  dsimp only at ht' ⊢
  rw [Function.update_apply] at ht'
  by_cases hmark : next = .markApplied
  · subst hmark
    rw [if_pos List.mem_cons_self] at hlookup
    rw [lookup_markApplied hlookup]
    by_cases heq : id = txn.id
    · rw [if_pos heq] at ht' ⊢
      cases ht'
      have hafter : rest = [.clearFrom, .clearTo, .finish] := eq_after_of_suffix hsuffix
      refine ⟨heq.symm, hrest, txn', ?_⟩
      rw [if_neg (by simp [hafter])]
    · rw [if_neg heq] at ht' ⊢
      exact h id t ht'
  · rw [run_txns_of_ne hmark]
    by_cases heq : id = txn.id
    · rw [if_pos heq] at ht'
      cases ht'
      refine ⟨heq.symm, hrest, txn', ?_⟩
      rw [heq, hlookup]
      simp [Ne.symm hmark]
    · rw [if_neg heq] at ht'
      exact h id t ht'

theorem marked_anyStep {s after : System A T} (h : s.Marked) {action : Action A T}
    (hstep : s.anyStep action = some after) : after.Marked := by
  cases action with
  | create txn =>
    unfold System.anyStep at hstep
    dsimp only at hstep
    split_ifs at hstep
    cases hstep
    exact marked_create h
  | update txn next =>
    unfold System.anyStep System.step at hstep
    dsimp only at hstep
    split at hstep
    next txn' next' rest ht =>
      split_ifs at hstep with hsame
      cases hstep
      rw [hsame.1, hsame.2] at ht
      exact marked_update h ht
    next => cases hstep
  | partialRead value =>
    unfold System.anyStep System.step at hstep
    dsimp only at hstep
    split_ifs at hstep
    cases hstep
    exact h

theorem marked_of_run {balances : Assoc A ℤ} {actions : List (Action A T)} {s : Tracked A T}
    (hrun : Run Tracked.Step (Tracked.initial balances) actions s) : s.system.Marked := by
  refine hrun.invariant (fun s => s.system.Marked) ?_ ?_
  · intro id t ht
    cases ht
  · intro s action s' h hstep
    obtain ⟨after, hafter, rfl⟩ := Option.map_eq_some_iff.mp hstep
    exact marked_anyStep h hafter

/-- The transaction of a transfer that has run to completion stays applied, and the transfer is
never settled. -/
theorem completed_not_settled {balances : Assoc A ℤ} {actions : List (Action A T)}
    {s : Tracked A T} (hrun : Run Tracked.Step (Tracked.initial balances) actions s)
    {txn : Txn A T} (hcompleted : s.system.transfers txn.id = some ⟨txn, []⟩) :
    (∃ txn', s.system.db.txns.lookup txn.id = some (.applied, txn')) ∧ ¬ s.Settled txn := by
  obtain ⟨-, -, txn', hlookup⟩ := marked_of_run hrun txn.id _ hcompleted
  refine ⟨⟨txn', hlookup⟩, fun hsettled => ?_⟩
  obtain ⟨txn'', hdone⟩ := hsettled.done
  rw [hlookup] at hdone
  cases hdone

/-! ## One transfer -/

/-- A transfer of 3 between two accounts, from its creation to its last update. -/
def oneTransfer : List (Action ℕ ℕ) :=
  .create ⟨0, 0, 1, 3⟩ :: transferUpdates.map fun next => .update ⟨0, 0, 1, 3⟩ next

/-- The system after it. -/
def transferred : Tracked ℕ ℕ :=
  (oneTransfer.foldlM Tracked.step (Tracked.initial twoAccounts)).getD
    (Tracked.initial twoAccounts)

theorem transferred_not_settled :
    transferred.system.transfers 0 = some ⟨⟨0, 0, 1, 3⟩, []⟩ ∧
      ¬ transferred.Settled ⟨0, 0, 1, 3⟩ := by
  have hrun : Run Tracked.Step (Tracked.initial twoAccounts) oneTransfer transferred :=
    Run.of_foldlM rfl
  have hcompleted : transferred.system.transfers 0 = some ⟨⟨0, 0, 1, 3⟩, []⟩ := rfl
  exact ⟨hcompleted, (completed_not_settled hrun hcompleted).2⟩

/-- It runs to completion, and its transaction is applied. -/
theorem transferred_applied :
    ∃ actions, Run Tracked.Step (Tracked.initial twoAccounts) actions transferred ∧
      transferred.system.transfers 0 = some ⟨⟨0, 0, 1, 3⟩, []⟩ ∧
      ¬ transferred.Settled ⟨0, 0, 1, 3⟩ := by
  refine ⟨oneTransfer, Run.of_foldlM rfl, rfl, fun hsettled => ?_⟩
  obtain ⟨txn', hdone⟩ := hsettled.done
  cases hdone

end Jepsen.MongodbSmartos
