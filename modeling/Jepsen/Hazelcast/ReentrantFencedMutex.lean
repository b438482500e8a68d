/-
# Reentrant fenced mutexes

The model of a lock that its owner may acquire more than once, and that hands out fences. Not every
acquisition observes a fence, but the fences that are observed must grow from one owner to the next.
-/

import Jepsen.Library.Runs

namespace Jepsen.Hazelcast

open Jepsen.Library

universe u v

/-- `reentrant-lock-acquire-count` -/
def reentrantLockAcquireCount : ℤ := 2

/-- `invalid-fence` -/
def invalidFence : ℤ := 0

/-- What an op on a lock does. -/
inductive LockOp
  | acquire | release

/-- The value of an op: a map that names the client and a fence, or the client's uid. -/
inductive Value (Client : Type u) (Uid : Type v)
  | map (client : Option Client) (fence : Option ℤ)
  | uid (uid : Uid)

/-- An op, without its type and process. -/
structure Op (Client : Type u) (Uid : Type v) where
  f : LockOp
  value : Value Client Uid

/-- `ReentrantFencedMutex`, without the map of client names. -/
structure ReentrantFencedMutex (Client : Type u) where
  owner : Option Client
  lockCount : ℤ
  currentFence : ℤ
  highestObservedFence : ℤ
  highestObservedFenceOwner : Option Client

/-- Why there is no next model. -/
inductive Rejection (Client : Type u) (Uid : Type v)
  /-- `"no owner!"` -/
  | noOwner
  /-- `"client: " client " cannot " op " on " this` -/
  | cannot (client : Client) (op : Op Client Uid) (this : ReentrantFencedMutex Client)
  /-- There is no fence to compare. -/
  | nullPointer

section

variable {Client : Type u} {Uid : Type v}

/-- `get-client` -/
def getClient (names : Uid → Option Client) : Value Client Uid → Option Client
  | .map client _ => client
  | .uid uid => names uid

/-- `get-fence` -/
def getFence : Value Client Uid → Option ℤ
  | .map _ fence => fence
  | .uid _ => some invalidFence

namespace ReentrantFencedMutex

/-- The client acquires the lock, and may observe a fence that is higher than all before. -/
def observe (this : ReentrantFencedMutex Client) (client : Client) (lockCount : ℤ)
    (op : Op Client Uid) : Except (Rejection Client Uid) (ReentrantFencedMutex Client) :=
  match getFence op.value with
  | none => .error .nullPointer
  | some fence =>
      -- I can have an invalid fence or a fence larger than highestObservedFence
      if fence = invalidFence ∨ this.highestObservedFence < fence then .ok
        { owner := some client
          lockCount := lockCount
          currentFence := fence
          highestObservedFence := max fence this.highestObservedFence
          highestObservedFenceOwner := this.highestObservedFenceOwner }
      else .error (.cannot client op this)

variable [DecidableEq Client]

/-- `step` -/
def step (names : Uid → Option Client) (this : ReentrantFencedMutex Client)
    (op : Op Client Uid) : Except (Rejection Client Uid) (ReentrantFencedMutex Client) :=
  match getClient names op.value with
  | none => .error .noOwner
  | some client =>
      match op.f with
      | .acquire =>
          -- if the lock is not held
          if this.owner = none then this.observe client 1 op
          -- if the new acquire does not match to the current lock owner, or the lock is already
          -- acquired twice, we cannot acquire anymore
          else if this.owner ≠ some client ∨ this.lockCount = reentrantLockAcquireCount then
            .error (.cannot client op this)
          -- if the lock is acquired without a fence
          else if this.currentFence = invalidFence then
            this.observe client (this.lockCount + 1) op
          -- if the lock is acquired with a fence, and the new acquire has no fence or the same fence
          else if getFence op.value = some invalidFence ∨
              getFence op.value = some this.currentFence then
            .ok { this with owner := some client, lockCount := this.lockCount + 1 }
          else .error (.cannot client op this)
      | .release =>
          if this.owner = none ∨ this.owner ≠ some client then .error (.cannot client op this)
          else if this.lockCount = 1 then .ok
            { owner := none
              lockCount := 0
              currentFence := invalidFence
              highestObservedFence := this.highestObservedFence
              highestObservedFenceOwner :=
                if this.currentFence = invalidFence then this.highestObservedFenceOwner
                else this.owner }
          else .ok { this with lockCount := this.lockCount - 1 }

/-- `create-reentrant-fenced-mutex` -/
def create : ReentrantFencedMutex Client := ⟨none, 0, invalidFence, invalidFence, none⟩

/-- The ops that are accepted one after another, and the mutex they lead to. -/
def Accepts (names : Uid → Option Client) (this : ReentrantFencedMutex Client) :
    List (Op Client Uid) → ReentrantFencedMutex Client → Prop :=
  Run (fun this op next => step names this op = .ok next) this

end ReentrantFencedMutex

/-! ## What should hold -/

/-- The valid fence that an acquisition has. Releases have none. -/
def Op.validFence (op : Op Client Uid) : Option ℤ :=
  match op.f with
  | .acquire => (getFence op.value).filter fun fence => fence ≠ invalidFence
  | .release => none

namespace ReentrantFencedMutex

variable [DecidableEq Client]

/-- A mutex that has accepted some ops. -/
structure Sound (ops : List (Op Client Uid)) (this : ReentrantFencedMutex Client) : Prop where
  owner : this.owner = none ↔ this.lockCount = 0
  lockCount : this.lockCount ≤ reentrantLockAcquireCount
  currentFence : this.owner = none → this.currentFence = invalidFence
  highest : this.highestObservedFence = (ops.filterMap Op.validFence).foldl max invalidFence

/-- From this mutex on, over some ops, the lock is held all the time. -/
def Held (names : Uid → Option Client) (this : ReentrantFencedMutex Client)
    (ops : List (Op Client Uid)) : Prop :=
  Run.Throughout (fun this op next => step names this op = .ok next) this ops (·.owner ≠ none)

/-- Two acquisitions with valid fences have the same fence if the lock is held all the time between
them, and else the second one has a higher fence. -/
def FencesGrow (names : Uid → Option Client) : Prop :=
  ∀ before (op : Op Client Uid) this between (op' : Op Client Uid) that next fence fence',
    Accepts names create (before ++ [op]) this → Accepts names this between that →
      step names that op' = .ok next → op.validFence = some fence →
        op'.validFence = some fence' →
          (Held names this between → fence = fence') ∧ (¬ Held names this between → fence < fence')

/-- Everything a mutex promises about the ops it accepts. -/
structure Lawful (names : Uid → Option Client) : Prop where
  sound : ∀ ops this, Accepts names create ops this → Sound ops this
  monotone : ∀ ops this op next, Accepts names create ops this → step names this op = .ok next →
    this.highestObservedFence ≤ next.highestObservedFence
  fences : FencesGrow names

end ReentrantFencedMutex

end

end Jepsen.Hazelcast
