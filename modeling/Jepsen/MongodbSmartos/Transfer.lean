/-
# Two-phase transfers

A client moves money between two documents that it cannot update at once. It inserts a
transaction, applies it to one account and then to the other, leaving its id pending in
both, marks it as applied, and takes its id out of both again. Other clients interleave
with each of these updates, and so do reads of the accounts that have nothing pending.
`Accounts` is what the clients should add up to.
-/

import Jepsen.Library.Assoc
import Jepsen.Library.Runs

namespace Jepsen.MongodbSmartos

open Jepsen.Library

universe u v w

/-! ## Documents -/

/-- An account's document. -/
structure Account (T : Type v) where
  balance : ℤ
  pendingTxns : List T
  deriving DecidableEq

/-- The `:state` of a transaction. -/
inductive TxnState
  | initial | pending | applied | done
  deriving DecidableEq

/-- A transaction, as the client that created it holds it. -/
structure Txn (A : Type u) (T : Type v) where
  id : T
  fromId : A
  toId : A
  amount : ℤ
  deriving DecidableEq

/-- The two collections. -/
structure Db (A : Type u) (T : Type v) where
  accts : Assoc A (Account T)
  txns : Assoc T (TxnState × Txn A T)

/-- `mc/update`, with a query that gives an id: the document with the id is modified if it
matches the rest of the query. -/
def update {K : Type u} {D : Type v} [DecidableEq K] (id : K) (query : D → Bool) (modify : D → D)
    (collection : Assoc K D) : Assoc K D :=
  match collection.lookup id with
  | some doc => if query doc then collection.insert id (modify doc) else collection
  | none => collection

/-! ## Updates of a transfer -/

/-- The updates of a transfer, each of a single document. -/
inductive Update
  /-- The first update of `p3-apply-txn`. -/
  | applyFrom
  /-- The second update of `p3-apply-txn`. -/
  | applyTo
  | markApplied
  /-- The first update of `p5-clear-pending`. -/
  | clearFrom
  /-- The second update of `p5-clear-pending`. -/
  | clearTo
  | finish
  deriving DecidableEq

variable {A : Type u} {T : Type v} [DecidableEq A] [DecidableEq T]

/-- `p0-create-txn` -/
def p0CreateTxn (txn : Txn A T) (db : Db A T) : Db A T :=
  { db with txns := db.txns.insert txn.id (.pending, txn) }

/-- Add to the balance of an account that does not have the transaction pending, and push
the transaction. -/
def applyTxn (acct : A) (amount : ℤ) (id : T) (db : Db A T) : Db A T :=
  { db with
    accts := update acct (fun doc => decide (id ∉ doc.pendingTxns))
      (fun doc => ⟨doc.balance + amount, doc.pendingTxns ++ [id]⟩) db.accts }

/-- Pull the transaction from an account that has it pending. -/
def clearPending (acct : A) (id : T) (db : Db A T) : Db A T :=
  { db with
    accts := update acct (fun doc => decide (id ∈ doc.pendingTxns))
      (fun doc => { doc with pendingTxns := doc.pendingTxns.filter fun id' => decide (id' ≠ id) })
      db.accts }

theorem applyTxn_of_notMem {acct : A} {id : T} {db : Db A T} {doc : Account T}
    (hdoc : db.accts.lookup acct = some doc) (hid : id ∉ doc.pendingTxns) (amount : ℤ) :
    (applyTxn acct amount id db).accts =
      db.accts.insert acct ⟨doc.balance + amount, doc.pendingTxns ++ [id]⟩ := by
  rw [applyTxn, update, hdoc]
  exact if_pos (decide_eq_true hid)

theorem clearPending_of_mem {acct : A} {id : T} {db : Db A T} {doc : Account T}
    (hdoc : db.accts.lookup acct = some doc) (hid : id ∈ doc.pendingTxns) :
    (clearPending acct id db).accts = db.accts.insert acct
      { doc with pendingTxns := doc.pendingTxns.filter fun id' => decide (id' ≠ id) } := by
  rw [clearPending, update, hdoc]
  exact if_pos (decide_eq_true hid)

/-- What an update does to the database. -/
def Update.run (txn : Txn A T) : Update → Db A T → Db A T
  | .applyFrom, db => applyTxn txn.fromId (-txn.amount) txn.id db
  | .applyTo, db => applyTxn txn.toId txn.amount txn.id db
  | .markApplied, db =>
      { db with
        txns := update txn.id (fun doc => decide (doc.1 = .pending))
          (fun doc => (.applied, doc.2)) db.txns }
  | .clearFrom, db => clearPending txn.fromId txn.id db
  | .clearTo, db => clearPending txn.toId txn.id db
  -- `p6-finish-txn` gets the accounts for its transactions and the transaction for its id:
  -- no account has that id, and none has a state
  | .finish, db => db

/-- `p3-apply-txn` -/
def p3ApplyTxn : List Update := [.applyFrom, .applyTo]

/-- `p4-applied-txn` -/
def p4AppliedTxn : List Update := [.markApplied]

/-- `p5-clear-pending` -/
def p5ClearPending : List Update := [.clearFrom, .clearTo]

/-- `p6-finish-txn` -/
def p6FinishTxn : List Update := [.finish]

/-- What a `:transfer` does once it has created its transaction. -/
def transferUpdates : List Update :=
  p3ApplyTxn ++ p4AppliedTxn ++ p5ClearPending ++ p6FinishTxn

/-- A `:partial-read`: the balances of the accounts without pending transactions. -/
def partialRead (accts : Assoc A (Account T)) : Assoc A ℤ :=
  ((accts.entries.filter fun e => e.2.pendingTxns.isEmpty).map fun e =>
    (⟨e.1, e.2.balance⟩ : Σ _ : A, ℤ)).toAList

/-! ## Clients -/

/-- A transfer that a client executes, with the updates it has yet to make. -/
structure Transfer (A : Type u) (T : Type v) where
  txn : Txn A T
  rest : List Update
  deriving DecidableEq

/-- The database, and the transfers that were started. -/
structure System (A : Type u) (T : Type v) where
  db : Db A T
  transfers : T → Option (Transfer A T)

/-- One atomic action of a client. -/
inductive Action (A : Type u) (T : Type v)
  /-- `p0-create-txn` -/
  | create (txn : Txn A T)
  | update (txn : Txn A T) (next : Update)
  | partialRead (value : Assoc A ℤ)

/-- The accounts with their first balances. -/
def System.initial (balances : Assoc A ℤ) : System A T where
  db := { accts := balances.mapVals fun _ balance => ⟨balance, []⟩, txns := ∅ }
  transfers := fun _ => none

/-- One step of the system: the id of a new transaction is fresh, transfers are between
different accounts, and a client makes its updates in order. -/
def System.step (s : System A T) : Action A T → Option (System A T)
  | .create txn =>
      if s.transfers txn.id = none ∧ txn.fromId ≠ txn.toId ∧ txn.fromId ∈ s.db.accts ∧
          txn.toId ∈ s.db.accts then
        some { db := p0CreateTxn txn s.db
               transfers := Function.update s.transfers txn.id (some ⟨txn, transferUpdates⟩) }
      else none
  | .update txn next =>
      match s.transfers txn.id with
      | some ⟨txn', next' :: rest⟩ =>
          if txn' = txn ∧ next' = next then
            some { db := next.run txn s.db
                   transfers := Function.update s.transfers txn.id (some ⟨txn, rest⟩) }
          else none
      | _ => none
  | .partialRead value =>
      if value.entries = (MongodbSmartos.partialRead s.db.accts).entries then some s else none

/-- One step, as a relation. -/
def Step (s : System A T) (action : Action A T) (s' : System A T) : Prop :=
  s.step action = some s'

/-! ## The model of the accounts -/

/-- An operation of the model. -/
inductive AccountsOp (A : Type u)
  | read (value : Assoc A ℤ)
  | partialRead (value : Assoc A ℤ)
  | transfer (fromId toId : A) (amount : ℤ)

/-- What the model does other than step. -/
inductive AccountsError
  | inconsistent
  /-- A transfer names an account that does not exist. -/
  | nullPointer
  deriving DecidableEq

/-- The `step` of `Accounts`. -/
def Accounts.step (accts : Assoc A ℤ) : AccountsOp A → Except AccountsError (Assoc A ℤ)
  | .read value => if accts.entries.Perm value.entries then .ok accts else .error .inconsistent
  | .partialRead value =>
      if value.entries.all fun e => decide (accts.lookup e.1 = some e.2) then .ok accts
      else .error .inconsistent
  | .transfer fromId toId amount =>
      match accts.lookup fromId, accts.lookup toId with
      | some fromBalance, some toBalance =>
          .ok ((accts.insert fromId (fromBalance - amount)).insert toId (toBalance + amount))
      | _, _ => .error .nullPointer

/-- What an action is to the model: a transfer happens at the second update of
`p3-apply-txn`. -/
def Action.modelOp : Action A T → Option (AccountsOp A)
  | .update txn .applyTo => some (.transfer txn.fromId txn.toId txn.amount)
  | .partialRead value => some (.partialRead value)
  | _ => none

/-- The sum of some balances. -/
def total (balances : Assoc A ℤ) : ℤ := (balances.entries.map Sigma.snd).sum

/-- The balances of the accounts. -/
def balancesOf (accts : Assoc A (Account T)) : Assoc A ℤ := accts.mapVals fun _ doc => doc.balance

end Jepsen.MongodbSmartos
