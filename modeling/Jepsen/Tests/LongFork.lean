/-
# The long-fork test

Single writes of distinct keys, and reads of whole groups of keys. Two reads of a
group are compared by the keys they see; if each sees a key that the other misses
they are incomparable, and the history has a long fork. Reads that could not come
from one write a key throw instead.
-/

import Jepsen.History.Op
import Jepsen.Library.Multimap

namespace Jepsen.Tests.LongFork

open Jepsen.History Jepsen.Library
open Jepsen.Generator (Name)

universe u v

/-! ## Operations -/

/-- `mop/f` -/
inductive MopF
  | r | w
  | other (f : String)
  deriving DecidableEq

/-- A micro-operation; a read of nothing has `nil` for its value. -/
structure Mop (K : Type u) (V : Type v) where
  f : MopF
  key : K
  value : Option V
  deriving DecidableEq

/-- An operation whose value is a transaction. -/
structure TxnOp (K : Type u) (V : Type v) where
  index : ℕ
  process : Name
  type : OpType
  value : List (Mop K V)
  deriving DecidableEq

/-- What `:illegal-history` says is wrong. -/
inductive IllegalHistory (K : Type u) (V : Type v)
  /-- These reads did not query for the same keys. -/
  | keySets (reads : Assoc K (Option V) × Assoc K (Option V)) (key : Option K)
  /-- These two read states contain distinct values for the same key. -/
  | distinctValues (key : K) (reads : Assoc K (Option V) × Assoc K (Option V))
  /-- Every read in this history should have observed exactly `n` keys. -/
  | groupSize (op : Option (TxnOp K V)) (n : ℕ) (group : Finset K)

variable {K : Type u} {V : Type v} [DecidableEq K] [DecidableEq V]

/-! ## Comparing reads -/

/-- The reduction of `read-compare` over the keys of `a`, from the result so far. -/
def compareKeys (a b : Assoc K (Option V)) :
    ℤ → List K → Except (IllegalHistory K V) (Option ℤ)
  | res, [] => .ok (some res)
  | res, k :: ks =>
      match (a.lookup k).join, b.lookup k with
      -- Different key sets
      | _, none => .error (.keySets (a, b) (some k))
      | va, some vb =>
          -- Both equal
          if va = vb then compareKeys a b res ks
          else
            match va, vb with
            -- A bigger here
            | _, none => if 0 < res then .ok none else compareKeys a b (-1) ks
            -- B bigger here
            | none, some _ => if res < 0 then .ok none else compareKeys a b 1 ks
            -- Different values, both present; this is illegal
            | some _, some _ => .error (.distinctValues k (a, b))

/-- `read-compare` -/
def readCompare (a b : Assoc K (Option V)) : Except (IllegalHistory K V) (Option ℤ) :=
  if a.keys.length ≠ b.keys.length then .error (.keySets (a, b) none)
  else compareKeys a b 0 a.keys

omit [DecidableEq V] in
/-- `read-op->value-map` -/
def readOpValueMap (op : TxnOp K V) : Assoc K (Option V) :=
  op.value.foldl (fun m mop => m.insert mop.key mop.value) ∅

/-! ## Searching for forks -/

/-- `distinct-pairs`; a pair is walked in the order that `order` gives the set. -/
def distinctPairs {α : Type*} [DecidableEq α] (order : SetOrder α) (coll : List α) :
    List (List α) :=
  (coll.flatMap fun a => (coll.filter fun b => decide (a ≠ b)).map fun b =>
    ({a, b} : Finset α)).eraseDups.map order.walk

/-- What realizing the next element of a lazy sequence of forks gives. -/
abbrev Fork (K : Type u) (V : Type v) : Type (max u v) :=
  Except (IllegalHistory K V) (TxnOp K V × TxnOp K V)

/-- `find-forks` -/
def findForks (order : SetOrder (TxnOp K V)) (ops : List (TxnOp K V)) : List (Fork K V) :=
  (distinctPairs order ops).filterMap fun pair =>
    match pair with
    | [a, b] =>
        match readCompare (readOpValueMap a) (readOpValueMap b) with
        | .error e => some (.error e)
        | .ok none => some (.ok (a, b))
        | .ok (some _) => none
    | _ => none

/-- `read-txn?` -/
def isReadTxn (txn : List (Mop K V)) : Bool := txn.all fun mop => decide (mop.f = .r)

/-- `write-txn?` -/
def isWriteTxn (txn : List (Mop K V)) : Bool :=
  match txn with
  | [mop] => decide (mop.f = .w)
  | _ => false

omit [DecidableEq V] in
/-- `op-read-keys` -/
def opReadKeys (op : TxnOp K V) : Finset K := (op.value.map Mop.key).toFinset

omit [DecidableEq V] in
/-- `groups` -/
def groups (n : ℕ) (readOps : List (TxnOp K V)) :
    Except (IllegalHistory K V) (List (List (TxnOp K V))) :=
  (Assoc.groupBy opReadKeys readOps).entries.mapM fun e =>
    if e.1.card ≠ n then .error (.groupSize e.2.head? n e.1) else .ok e.2

/-- `ensure-no-long-forks`: only the first fork is realized. -/
def ensureNoLongForks (order : SetOrder (TxnOp K V)) (n : ℕ) (reads : List (TxnOp K V)) :
    Except (IllegalHistory K V) (Option (List (Fork K V))) :=
  match groups n reads with
  | .error e => .error e
  | .ok groups =>
      match groups.flatMap (findForks order) with
      | [] => .ok none
      | .error e :: _ => .error e
      | .ok fork :: forks => .ok (some (.ok fork :: forks))

/-! ## The checker -/

omit [DecidableEq V] in
/-- The keys that the writes of a history write, in order. -/
def writtenKeys (history : List (TxnOp K V)) : List K :=
  ((history.filter fun op => decide (op.type = .invoke)).filter fun op =>
    isWriteTxn op.value).filterMap fun op => op.value.head?.map Mop.key

omit [DecidableEq V] in
/-- The reduction of `ensure-no-multiple-writes-to-one-key` over the keys written. -/
def multipleWrites (ks : Finset K) : List K → Option K
  | [] => none
  | k :: rest => if k ∈ ks then some k else multipleWrites (insert k ks) rest

omit [DecidableEq V] in
/-- `ensure-no-multiple-writes-to-one-key`, or the key of its error. -/
def ensureNoMultipleWritesToOneKey (history : List (TxnOp K V)) : Option K :=
  multipleWrites ∅ (writtenKeys history)

/-- `reads` -/
def reads (history : List (TxnOp K V)) : List (TxnOp K V) :=
  (history.filter fun op => decide (op.type = .ok)).filter fun op => isReadTxn op.value

/-- `early-reads` -/
def earlyReads (reads : List (TxnOp K V)) : List (List (Mop K V)) :=
  (reads.map TxnOp.value).filter fun txn => !txn.any fun mop => mop.value.isSome

/-- `late-reads` -/
def lateReads (reads : List (TxnOp K V)) : List (List (Mop K V)) :=
  (reads.map TxnOp.value).filter fun txn => txn.all fun mop => mop.value.isSome

/-- `:valid?` with what is reported beside it. -/
inductive Verdict (K : Type u) (V : Type v)
  | valid
  /-- `:unknown`, with the error `[:multiple-writes k]`. -/
  | multipleWrites (key : K)
  /-- `false` -/
  | forks (forks : List (Fork K V))

/-- The map the checker returns. -/
structure Result (K : Type u) (V : Type v) where
  readsCount : ℕ
  earlyReadCount : ℕ
  lateReadCount : ℕ
  verdict : Verdict K V

/-- `(:valid? result)` is false. -/
def Result.isInvalid (result : Result K V) : Prop :=
  ∃ forks, result.verdict = .forks forks

/-- `checker` -/
def checker (order : SetOrder (TxnOp K V)) (n : ℕ) (history : List (TxnOp K V)) :
    Except (IllegalHistory K V) (Result K V) :=
  let rs := reads history
  let result := fun verdict : Verdict K V =>
    { readsCount := rs.length
      earlyReadCount := (earlyReads rs).length
      lateReadCount := (lateReads rs).length
      verdict := verdict : Result K V }
  match ensureNoMultipleWritesToOneKey history with
  | some k => .ok (result (.multipleWrites k))
  | none =>
      match ensureNoLongForks order n rs with
      | .error e => .error e
      | .ok (some forks) => .ok (result (.forks forks))
      | .ok none => .ok (result .valid)

end Jepsen.Tests.LongFork
