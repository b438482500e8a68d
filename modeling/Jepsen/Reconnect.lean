/-
# Reconnecting wrappers

A wrapper keeps one connection behind a read-write lock. `open!`, `close!` and
`reopen!` run under the write lock; a `with-conn` body runs under the read lock
with the connection it found, and when it throws, the read lock is released, the
wrapper reopened under the write lock unless another thread already did, and the
body's exception thrown on.

The wrapper's `:open` and `:close` functions are outside this module: an action
carries what the calls it makes do. Sections under the write lock are atomic, so
the threads interleave between them; logging is left out.
-/

import Jepsen.Library.Runs

namespace Jepsen.Reconnect

open Library

universe u v

/-- What a body or a wrapper's function throws, as far as the catch clauses tell
it apart. -/
inductive Throwable
  | interruptedException
  | interruptedIOException
  | illegalStateException (message : String)
  /-- Any other `Exception`. -/
  | exception
  /-- A `Throwable` that no `catch Exception` catches. -/
  | error
  deriving DecidableEq, Repr

/-- What a call to `:open` does: it returns a connection, returns nil or throws. -/
abbrev Opened (C : Type u) := Except Throwable (Option C)

/-- What a call to `:close` does. -/
abbrev Closed := Except Throwable Unit

/-- A wrapper, the calls made to its functions, and the threads inside `with-conn`. -/
structure Wrapper (T : Type u) (C : Type v) where
  name : String
  conn : Option C := none
  /-- The connections `:open` returned, in order. -/
  opens : List C := []
  /-- The calls to `:close`, in order. -/
  closes : List (C × Closed) := []
  /-- Threads that evaluate a body under the read lock, with the connection bound
  in it. -/
  readers : List (T × Option C) := []
  /-- Threads whose body threw and that wait for the write lock. -/
  failed : List (T × Option C × Throwable) := []

variable {T : Type u} {C : Type v}

namespace Wrapper

/-- The exception for an `:open` function that returns nil. -/
def nilConnection (w : Wrapper T C) : Throwable :=
  .illegalStateException ("Reconnect wrapper " ++ w.name ++
    "'s :open function returned nil instead of a connection!")

/-- Calls `:open` and installs what it returns. -/
def install (w : Wrapper T C) : Opened C → Except Throwable Unit × Wrapper T C
  | .ok (some c) => (.ok (), { w with conn := some c, opens := w.opens ++ [c] })
  | .ok none => (.error w.nilConnection, w)
  | .error e => (.error e, w)

/-- Calls `:close` on a connection. -/
def callClose (w : Wrapper T C) (c : C) (closed : Closed) : Wrapper T C :=
  { w with closes := w.closes ++ [(c, closed)] }

/-- Opens a connection. Noop if one is already open. -/
def open! (w : Wrapper T C) (opened : Opened C) : Except Throwable Unit × Wrapper T C :=
  match w.conn with
  | some _ => (.ok (), w)
  | none => w.install opened

/-- Closes a wrapper. -/
def close! (w : Wrapper T C) (closed : Closed) : Except Throwable Unit × Wrapper T C :=
  match w.conn with
  | none => (.ok (), w)
  | some c =>
    match closed with
    | .ok () => (.ok (), { w.callClose c closed with conn := none })
    | .error e => (.error e, w.callClose c closed)

/-- Reopens a wrapper's connection. The connection closed here stays in place until
`:open` has returned another. -/
def reopen! (w : Wrapper T C) (closed : Closed) (opened : Opened C) :
    Except Throwable Unit × Wrapper T C :=
  match w.conn with
  | none => w.install opened
  | some c =>
    match closed with
    | .ok () => (w.callClose c closed).install opened
    | .error e => (.error e, w.callClose c closed)

/-- The recovery of `with-conn` from an exception of its body, under the write lock:
what the caller gets thrown, and the wrapper left behind. -/
def recover [DecidableEq C] (w : Wrapper T C) (c : Option C) (thrown : Throwable)
    (closed : Closed) (opened : Opened C) : Throwable × Wrapper T C :=
  if c = w.conn then
    match w.reopen! closed opened with
    | (.error .interruptedException, w') => (.interruptedException, w')
    | (.error .error, w') => (.error, w')
    | (_, w') => (thrown, w')
  else (thrown, w)

end Wrapper

/-! ## The threads at a wrapper -/

/-- One step of a thread at the wrapper. -/
inductive Action (T : Type u) (C : Type v)
  | open (opened : Opened C)
  | close (closed : Closed)
  | reopen (closed : Closed) (opened : Opened C)
  /-- The thread takes the read lock and binds the connection. -/
  | enter (thread : T)
  /-- The body returns or throws. -/
  | leave (thread : T) (conn : Option C) (outcome : Except Throwable Unit)
  /-- The thread takes the write lock after its body threw. -/
  | recover (thread : T) (conn : Option C) (thrown : Throwable) (closed : Closed)
      (opened : Opened C)

/-- The exceptions of a body that `with-conn` throws on without reopening. -/
def Throwable.passes : Throwable → Bool
  | .interruptedException | .interruptedIOException | .error => true
  | .illegalStateException _ | .exception => false

variable [DecidableEq T] [DecidableEq C]

/-- The wrapper after an action, or none while a lock keeps the thread from it. The
write lock waits for every reader. -/
def step (w : Wrapper T C) : Action T C → Option (Wrapper T C)
  | .open opened => if w.readers = [] then some (w.open! opened).2 else none
  | .close closed => if w.readers = [] then some (w.close! closed).2 else none
  | .reopen closed opened => if w.readers = [] then some (w.reopen! closed opened).2 else none
  | .enter thread => some { w with readers := (thread, w.conn) :: w.readers }
  | .leave thread conn outcome =>
    if (thread, conn) ∈ w.readers then
      let w' := { w with readers := w.readers.erase (thread, conn) }
      match outcome with
      | .ok () => some w'
      | .error e =>
        if e.passes then some w' else some { w' with failed := (thread, conn, e) :: w'.failed }
    else none
  | .recover thread conn thrown closed opened =>
    if w.readers = [] ∧ (thread, conn, thrown) ∈ w.failed then
      some { (w.recover conn thrown closed opened).2 with
        failed := w.failed.erase (thread, conn, thrown) }
    else none

/-- The steps of the threads at a wrapper. -/
def Steps (w : Wrapper T C) (action : Action T C) (w' : Wrapper T C) : Prop :=
  step w action = some w'

/-- Runs of any number of threads at a new wrapper. -/
abbrev Runs (name : String) : List (Action T C) → Wrapper T C → Prop :=
  Run Steps { name := name }

end Jepsen.Reconnect
