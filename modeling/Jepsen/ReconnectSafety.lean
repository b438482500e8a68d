/-
# When a wrapper leaves dead connections alone

A wrapper is safe while no connection has gone to `:close` twice and the connection
in place is none that `:close` succeeded on. `step_effect` says what one step can do
to a wrapper; the runs that stay safe are those in which nothing is closed after a
`:close` threw and no reopening closes a connection without opening another.
-/

import Jepsen.Reconnect

namespace Jepsen.Reconnect

open Library

universe u v

variable {T : Type u} {C : Type v}

/-- No connection was passed to `:close` twice, and the wrapper's connection is none
that a `:close` succeeded on. -/
structure Safe (w : Wrapper T C) : Prop where
  once : (w.closes.map Prod.fst).Nodup
  live : ∀ c, (c, .ok ()) ∈ w.closes → w.conn ≠ some c

/-- No call to `:close` has thrown so far. -/
def AllReturned (w : Wrapper T C) : Prop :=
  ∀ call ∈ w.closes, call.2 = .ok ()

/-- A reopening that calls `:close` does so before any `:close` has thrown, and gets a
connection from `:open` if that `:close` returns. -/
def SoundReopen (w : Wrapper T C) (closed : Closed) (opened : Opened C) : Prop :=
  w.conn.isSome → AllReturned w ∧ (closed = .ok () → ∃ c, opened = .ok (some c))

/-- The action calls `:close` only before any `:close` has thrown, and its reopening, if
it closes a connection, opens another. -/
def Action.Sound (w : Wrapper T C) : Action T C → Prop
  | .close _ => w.conn.isSome → AllReturned w
  | .reopen closed opened => SoundReopen w closed opened
  | .recover _ conn _ closed opened => conn = w.conn → SoundReopen w closed opened
  | .open _ | .enter _ | .leave _ _ _ => True

/-! ## What a step can do -/

/-- What an action does to the connection in place and to the calls made, with what
makes it sound. -/
inductive Effect (w w' : Wrapper T C) (sound : Prop) : Prop
  | same (hconn : w'.conn = w.conn) (hopens : w'.opens = w.opens)
      (hcloses : w'.closes = w.closes) (hsound : sound)
  | installed (c : C) (hnone : w.conn = none) (hconn : w'.conn = some c)
      (hopens : w'.opens = w.opens ++ [c]) (hcloses : w'.closes = w.closes) (hsound : sound)
  | removed (c : C) (hold : w.conn = some c) (hconn : w'.conn = none)
      (hopens : w'.opens = w.opens) (hcloses : w'.closes = w.closes ++ [(c, .ok ())])
      (hsound : sound ↔ AllReturned w)
  | threw (c : C) (e : Throwable) (hold : w.conn = some c) (hconn : w'.conn = w.conn)
      (hopens : w'.opens = w.opens) (hcloses : w'.closes = w.closes ++ [(c, .error e)])
      (hsound : sound ↔ AllReturned w)
  | replaced (c c' : C) (hold : w.conn = some c) (hconn : w'.conn = some c')
      (hopens : w'.opens = w.opens ++ [c']) (hcloses : w'.closes = w.closes ++ [(c, .ok ())])
      (hsound : sound ↔ AllReturned w)
  -- `reopen!` closed the connection, and `:open` failed
  | retained (c : C) (hold : w.conn = some c) (hconn : w'.conn = w.conn)
      (hopens : w'.opens = w.opens) (hcloses : w'.closes = w.closes ++ [(c, .ok ())])
      (hsound : ¬ sound)

theorem open!_effect (w : Wrapper T C) (opened : Opened C) :
    Effect w (w.open! opened).2 True := by
  cases hconn : w.conn with
  | some c =>
    have hopen : (w.open! opened).2 = w := by rw [Wrapper.open!, hconn]
    rw [hopen]
    exact .same rfl rfl rfl trivial
  | none =>
    have hopen : w.open! opened = w.install opened := by rw [Wrapper.open!, hconn]
    rw [hopen]
    match opened with
    | .ok (some c) => exact .installed c hconn rfl rfl rfl trivial
    | .ok none => exact .same rfl rfl rfl trivial
    | .error e => exact .same rfl rfl rfl trivial

theorem close!_effect (w : Wrapper T C) (closed : Closed) :
    Effect w (w.close! closed).2 (w.conn.isSome → AllReturned w) := by
  cases hconn : w.conn with
  | none =>
    have hclose : (w.close! closed).2 = w := by rw [Wrapper.close!, hconn]
    rw [hclose]
    exact .same rfl rfl rfl fun h => nomatch h
  | some c =>
    have hsound : ((some c).isSome = true → AllReturned w) ↔ AllReturned w :=
      ⟨fun h => h rfl, fun h _ => h⟩
    match closed with
    | .ok () =>
      have hclose : (w.close! (.ok ())).2 = { w.callClose c (.ok ()) with conn := none } := by
        rw [Wrapper.close!, hconn]
      rw [hclose]
      exact .removed c hconn rfl rfl rfl hsound
    | .error e =>
      have hclose : (w.close! (.error e)).2 = w.callClose c (.error e) := by
        rw [Wrapper.close!, hconn]
      rw [hclose]
      exact .threw c e hconn rfl rfl rfl hsound

theorem reopen!_effect (w : Wrapper T C) (closed : Closed) (opened : Opened C) :
    Effect w (w.reopen! closed opened).2 (SoundReopen w closed opened) := by
  cases hconn : w.conn with
  | none =>
    have hreopen : w.reopen! closed opened = w.install opened := by rw [Wrapper.reopen!, hconn]
    have hsound : SoundReopen w closed opened := fun h => by rw [hconn] at h; cases h
    rw [hreopen]
    match opened with
    | .ok (some c) => exact .installed c hconn rfl rfl rfl hsound
    | .ok none => exact .same rfl rfl rfl hsound
    | .error e => exact .same rfl rfl rfl hsound
  | some c =>
    have hsome : w.conn.isSome := by rw [hconn]; rfl
    match closed with
    | .error e =>
      have hreopen : (w.reopen! (.error e) opened).2 = w.callClose c (.error e) := by
        rw [Wrapper.reopen!, hconn]
      rw [hreopen]
      exact .threw c e hconn rfl rfl rfl ⟨fun h => (h hsome).1, fun h _ => ⟨h, nofun⟩⟩
    | .ok () =>
      have hreopen : w.reopen! (.ok ()) opened = (w.callClose c (.ok ())).install opened := by
        rw [Wrapper.reopen!, hconn]
      rw [hreopen]
      match opened with
      | .ok (some c') =>
        exact .replaced c c' hconn rfl rfl rfl
          ⟨fun h => (h hsome).1, fun h _ => ⟨h, fun _ => ⟨c', rfl⟩⟩⟩
      | .ok none =>
        refine .retained c hconn rfl rfl rfl fun h => ?_
        obtain ⟨c', hc'⟩ := (h hsome).2 rfl
        cases hc'
      | .error e =>
        refine .retained c hconn rfl rfl rfl fun h => ?_
        obtain ⟨c', hc'⟩ := (h hsome).2 rfl
        cases hc'

/-- Only what an effect names shows in it. -/
theorem Effect.congr {w w' w'' : Wrapper T C} {sound sound' : Prop} (h : Effect w w' sound)
    (hconn : w''.conn = w'.conn) (hopens : w''.opens = w'.opens)
    (hcloses : w''.closes = w'.closes) (hiff : sound' ↔ sound) : Effect w w'' sound' := by
  rw [propext hiff]
  cases h with
  | same h1 h2 h3 h4 => exact .same (hconn.trans h1) (hopens.trans h2) (hcloses.trans h3) h4
  | installed c h h1 h2 h3 h4 =>
    exact .installed c h (hconn.trans h1) (hopens.trans h2) (hcloses.trans h3) h4
  | removed c h h1 h2 h3 h4 =>
    exact .removed c h (hconn.trans h1) (hopens.trans h2) (hcloses.trans h3) h4
  | threw c e h h1 h2 h3 h4 =>
    exact .threw c e h (hconn.trans h1) (hopens.trans h2) (hcloses.trans h3) h4
  | replaced c c' h h1 h2 h3 h4 =>
    exact .replaced c c' h (hconn.trans h1) (hopens.trans h2) (hcloses.trans h3) h4
  | retained c h h1 h2 h3 h4 =>
    exact .retained c h (hconn.trans h1) (hopens.trans h2) (hcloses.trans h3) h4

variable [DecidableEq C]

theorem recover_of_eq {w : Wrapper T C} {conn : Option C} (hconn : conn = w.conn)
    {thrown : Throwable} {closed : Closed} {opened : Opened C} :
    (w.recover conn thrown closed opened).2 = (w.reopen! closed opened).2 := by
  rw [Wrapper.recover, if_pos hconn]
  split <;> simp_all

theorem recover_of_ne {w : Wrapper T C} {conn : Option C} (hconn : conn ≠ w.conn)
    {thrown : Throwable} {closed : Closed} {opened : Opened C} :
    (w.recover conn thrown closed opened).2 = w := by
  rw [Wrapper.recover, if_neg hconn]

theorem recover_effect (w : Wrapper T C) (conn : Option C) (thrown : Throwable)
    (closed : Closed) (opened : Opened C) :
    Effect w (w.recover conn thrown closed opened).2
      (conn = w.conn → SoundReopen w closed opened) := by
  by_cases hconn : conn = w.conn
  · rw [recover_of_eq hconn]
    exact (reopen!_effect w closed opened).congr rfl rfl rfl ⟨fun h => h hconn, fun h _ => h⟩
  · rw [recover_of_ne hconn]
    exact .same rfl rfl rfl fun h => absurd h hconn

variable [DecidableEq T]

/-- What one step can do. -/
theorem step_effect {w w' : Wrapper T C} {action : Action T C} (hstep : step w action = some w') :
    Effect w w' (action.Sound w) := by
  cases action with
  | «open» opened =>
    rw [step, Option.ite_none_right_eq_some] at hstep
    obtain ⟨-, hw'⟩ := hstep
    rw [← Option.some.inj hw']
    exact open!_effect w opened
  | close closed =>
    rw [step, Option.ite_none_right_eq_some] at hstep
    obtain ⟨-, hw'⟩ := hstep
    rw [← Option.some.inj hw']
    exact close!_effect w closed
  | reopen closed opened =>
    rw [step, Option.ite_none_right_eq_some] at hstep
    obtain ⟨-, hw'⟩ := hstep
    rw [← Option.some.inj hw']
    exact reopen!_effect w closed opened
  | enter thread =>
    rw [step] at hstep
    rw [← Option.some.inj hstep]
    exact .same rfl rfl rfl trivial
  | leave thread conn outcome =>
    rw [step, Option.ite_none_right_eq_some] at hstep
    obtain ⟨-, hw'⟩ := hstep
    match outcome with
    | .ok () =>
      rw [← Option.some.inj hw']
      exact .same rfl rfl rfl trivial
    | .error e =>
      dsimp only at hw'
      split at hw' <;> rw [← Option.some.inj hw'] <;> exact .same rfl rfl rfl trivial
  | recover thread conn thrown closed opened =>
    rw [step, Option.ite_none_right_eq_some] at hstep
    obtain ⟨-, hw'⟩ := hstep
    rw [← Option.some.inj hw']
    exact (recover_effect w conn thrown closed opened).congr rfl rfl rfl Iff.rfl

/-! ## Safe runs -/

/-- What holds after a run of sound steps: the wrapper is safe, its connections come
from `:open`, and a connection whose `:close` threw is still in place. -/
structure Kept (w : Wrapper T C) : Prop extends Safe w where
  opened : ∀ c, w.conn = some c → c ∈ w.opens
  closed : ∀ call ∈ w.closes, call.1 ∈ w.opens
  thrown : ∀ c e, (c, .error e) ∈ w.closes → w.conn = some c

omit [DecidableEq C] [DecidableEq T] in
theorem kept_new (name : String) : Kept ({ name := name } : Wrapper T C) where
  once := List.nodup_nil
  live _ h := nomatch h
  opened _ h := nomatch h
  closed _ h := nomatch h
  thrown _ _ h := nomatch h

omit [DecidableEq C] [DecidableEq T] in
/-- A kept wrapper may close its connection if no `:close` has thrown. -/
theorem Kept.not_closed {w : Wrapper T C} (hkept : Kept w) (hreturned : AllReturned w) {c : C}
    (hconn : w.conn = some c) : c ∉ w.closes.map Prod.fst := by
  intro hmem
  obtain ⟨⟨c', closed⟩, hcall, rfl⟩ := List.mem_map.mp hmem
  obtain rfl : closed = .ok () := hreturned _ hcall
  exact hkept.live _ hcall hconn

omit [DecidableEq C] [DecidableEq T] in
/-- A sound step keeps the wrapper's connections apart, as `:open` returns new ones. -/
theorem Kept.step {w w' : Wrapper T C} {sound : Prop} (hkept : Kept w)
    (heffect : Effect w w' sound) (hfresh : w'.opens.Nodup) (hsound : sound) : Kept w' := by
  have hclosed : ∀ c, w.conn = some c → AllReturned w → ∀ closed,
      ((w.closes ++ [(c, closed)]).map Prod.fst).Nodup := by
    intro c hconn hreturned closed
    rw [List.map_append]
    exact List.nodup_append'.mpr ⟨hkept.once, List.nodup_singleton _, List.disjoint_singleton.mpr
      (hkept.not_closed hreturned hconn)⟩
  have hcalls : ∀ c, w.conn = some c → ∀ closed, ∀ call ∈ w.closes ++ [(c, closed)],
      call.1 ∈ w.opens := by
    intro c hconn closed call hcall
    rcases List.mem_append.mp hcall with hcall | hcall
    · exact hkept.closed call hcall
    · rw [List.mem_singleton.mp hcall]
      exact hkept.opened c hconn
  cases heffect with
  | same hconn hopens hcloses _ =>
    constructor
    · constructor <;> rw [hcloses]
      · exact hkept.once
      · rw [hconn]
        exact hkept.live
    · rw [hconn, hopens]
      exact hkept.opened
    · rw [hcloses, hopens]
      exact hkept.closed
    · rw [hcloses, hconn]
      exact hkept.thrown
  | installed c hnone hconn hopens hcloses _ =>
    rw [hopens] at hfresh
    have hnew : c ∉ w.opens := fun h =>
      (List.nodup_append'.mp hfresh).2.2 h (List.mem_singleton_self c)
    constructor
    · constructor <;> rw [hcloses]
      · exact hkept.once
      · intro c' hcall
        rw [hconn]
        rintro ⟨⟩
        exact hnew (hkept.closed _ hcall)
    · rw [hconn, hopens]
      rintro c' ⟨⟩
      exact List.mem_append_right _ (List.mem_singleton_self _)
    · rw [hcloses, hopens]
      exact fun call hcall => List.mem_append_left _ (hkept.closed call hcall)
    · rw [hcloses]
      intro c' e hcall
      have hold := hkept.thrown c' e hcall
      rw [hnone] at hold
      cases hold
  | removed c hold hconn hopens hcloses hiff =>
    have hreturned := hiff.mp hsound
    constructor
    · constructor
      · rw [hcloses]
        exact hclosed c hold hreturned _
      · rw [hconn]
        exact fun _ _ => nofun
    · rw [hconn]
      exact fun _ => nofun
    · rw [hcloses, hopens]
      exact hcalls c hold _
    · rw [hcloses]
      intro c' e hcall
      rcases List.mem_append.mp hcall with hcall | hcall
      · cases hreturned _ hcall
      · cases List.mem_singleton.mp hcall
  | threw c e hold hconn hopens hcloses hiff =>
    have hreturned := hiff.mp hsound
    constructor
    · constructor
      · rw [hcloses]
        exact hclosed c hold hreturned _
      · rw [hcloses, hconn]
        intro c' hcall
        rcases List.mem_append.mp hcall with hcall | hcall
        · exact hkept.live c' hcall
        · cases List.mem_singleton.mp hcall
    · rw [hconn, hopens]
      exact hkept.opened
    · rw [hcloses, hopens]
      exact hcalls c hold _
    · rw [hcloses, hconn]
      intro c' e' hcall
      rcases List.mem_append.mp hcall with hcall | hcall
      · exact hkept.thrown c' e' hcall
      · cases List.mem_singleton.mp hcall
        exact hold
  | replaced c c' hold hconn hopens hcloses hiff =>
    have hreturned := hiff.mp hsound
    rw [hopens] at hfresh
    have hnew : c' ∉ w.opens := fun h =>
      (List.nodup_append'.mp hfresh).2.2 h (List.mem_singleton_self c')
    constructor
    · constructor
      · rw [hcloses]
        exact hclosed c hold hreturned _
      · rw [hcloses, hconn]
        rintro _ hcall ⟨⟩
        exact hnew (hcalls c hold _ _ hcall)
    · rw [hconn, hopens]
      rintro _ ⟨⟩
      exact List.mem_append_right _ (List.mem_singleton_self _)
    · rw [hcloses, hopens]
      exact fun call hcall => List.mem_append_left _ (hcalls c hold _ call hcall)
    · rw [hcloses]
      intro c'' e hcall
      rcases List.mem_append.mp hcall with hcall | hcall
      · cases hreturned _ hcall
      · cases List.mem_singleton.mp hcall
  | retained c hold hconn hopens hcloses hnot => exact absurd hsound hnot

omit [DecidableEq C] [DecidableEq T] in
/-- A step from a kept wrapper to a safe one is sound. -/
theorem Kept.sound {w w' : Wrapper T C} {sound : Prop} (hkept : Kept w)
    (heffect : Effect w w' sound) (hsafe : Safe w') : sound := by
  have hreturned : ∀ c closed, w.conn = some c → w'.closes = w.closes ++ [(c, closed)] →
      AllReturned w := by
    intro c closed hold hcloses call hcall
    have honce := hsafe.once
    rw [hcloses, List.map_append] at honce
    obtain ⟨c', outcome⟩ := call
    cases outcome with
    | ok => rfl
    | error e =>
      -- its connection is still in place, so it has now been closed twice
      have hc' := hkept.thrown c' e hcall
      rw [hold] at hc'
      cases hc'
      exact absurd (List.mem_singleton_self c)
        ((List.nodup_append'.mp honce).2.2 (List.mem_map_of_mem hcall))
  cases heffect with
  | same _ _ _ hsound => exact hsound
  | installed _ _ _ _ _ hsound => exact hsound
  | removed c hold _ _ hcloses hiff => exact hiff.mpr (hreturned c _ hold hcloses)
  | threw c e hold _ _ hcloses hiff => exact hiff.mpr (hreturned c _ hold hcloses)
  | replaced c c' hold _ _ hcloses hiff => exact hiff.mpr (hreturned c _ hold hcloses)
  | retained c hold hconn _ hcloses _ =>
    have hcall : (c, Except.ok ()) ∈ w'.closes := by
      rw [hcloses]
      exact List.mem_append_right _ (List.mem_singleton_self _)
    exact absurd (hconn.trans hold) (hsafe.live c hcall)

omit [DecidableEq C] [DecidableEq T] in
/-- `:open` is only ever called for more connections. -/
theorem Effect.fresh {w w' : Wrapper T C} {sound : Prop} (heffect : Effect w w' sound)
    (hfresh : w'.opens.Nodup) : w.opens.Nodup := by
  cases heffect with
  | same _ hopens _ _ => exact hopens ▸ hfresh
  | installed _ _ _ hopens _ _ => exact (List.nodup_append'.mp (hopens ▸ hfresh)).1
  | removed _ _ _ hopens _ _ => exact hopens ▸ hfresh
  | threw _ _ _ _ hopens _ _ => exact hopens ▸ hfresh
  | replaced _ _ _ _ hopens _ _ => exact (List.nodup_append'.mp (hopens ▸ hfresh)).1
  | retained _ _ _ hopens _ _ => exact hopens ▸ hfresh

/-- A run whose connections are new is safe throughout exactly if each of its steps is
sound. -/
theorem safe_throughout_iff {name : String} {actions : List (Action T C)} {w : Wrapper T C}
    (hrun : Runs name actions w) (hfresh : w.opens.Nodup) :
    Run.Throughout Steps { name := name } actions (Safe (T := T) (C := C)) ↔
      Run.EachStep Steps { name := name } actions fun w (action : Action T C) => action.Sound w := by
  refine @Run.throughout_iff_eachStep _ _ Steps _ Kept Safe (fun w => w.opens.Nodup)
    (fun w action => action.Sound w) ?_ ?_ (kept_new name) Kept.toSafe ?_ ?_ actions w hrun hfresh
  · intro w action w' w'' h h'
    exact Option.some.inj (h.symm.trans h')
  · intro w action w' hstep
    exact (step_effect hstep).fresh
  · intro w action w' hkept hstep
    exact hkept.step (step_effect hstep)
  · intro w action w' hkept hstep _
    exact hkept.sound (step_effect hstep)

/-- A run that reopens its connection, opens nothing for it and closes the wrapper. -/
def failedReopening : List (Action ℕ ℕ) :=
  [.open (.ok (some 0)), .reopen (.ok ()) (.error .exception), .close (.ok ())]

/-- A wrapper whose reopening failed keeps the closed connection and closes it again. -/
theorem reopen_keeps_closed_connection :
    ¬ ∀ (actions : List (Action ℕ ℕ)) (w : Wrapper ℕ ℕ), Runs "" actions w →
      w.opens.Nodup → Run.Throughout Steps { name := "" } actions (Safe (T := ℕ) (C := ℕ)) := by
  intro hsafe
  have hrun : Runs "" failedReopening
      { name := "", opens := [0], closes := [(0, .ok ()), (0, .ok ())] } :=
    Run.of_foldlM rfl
  have honce := (hsafe failedReopening _ hrun (List.nodup_singleton 0) failedReopening [] _
    (List.append_nil _).symm hrun).once
  exact absurd honce (by decide)

/-- A run that replaces a connection and closes the other is safe exactly if its steps
are sound. -/
theorem safe_throughout_iff_replaced :
    Run.Throughout Steps { name := "" }
        [.open (.ok (some 0)), .reopen (.ok ()) (.ok (some 1)), .close (.ok ())]
        (Safe (T := ℕ) (C := ℕ)) ↔
      Run.EachStep Steps { name := "" }
        [.open (.ok (some 0)), .reopen (.ok ()) (.ok (some 1)), .close (.ok ())]
        fun (w : Wrapper ℕ ℕ) (action : Action ℕ ℕ) => action.Sound w :=
  safe_throughout_iff
    (w := { name := "", opens := [0, 1], closes := [(0, .ok ()), (1, .ok ())] })
    (Run.of_foldlM rfl) (by decide)

/-! ## Connections in use -/

omit [DecidableEq C] [DecidableEq T] in
theorem install_readers (w : Wrapper T C) (opened : Opened C) :
    (w.install opened).2.readers = w.readers := by
  match opened with
  | .ok (some _) => rfl
  | .ok none => rfl
  | .error _ => rfl

omit [DecidableEq C] [DecidableEq T] in
theorem reopen!_readers (w : Wrapper T C) (closed : Closed) (opened : Opened C) :
    (w.reopen! closed opened).2.readers = w.readers := by
  unfold Wrapper.reopen!
  split
  · exact install_readers w opened
  · split
    · exact install_readers _ opened
    · rfl

/-- Every body runs with the connection in place: no writer gets in while it runs. -/
theorem readers_conn {name : String} {actions : List (Action T C)} {w : Wrapper T C}
    (hrun : Runs name actions w) : ∀ reader ∈ w.readers, reader.2 = w.conn := by
  refine hrun.invariant (fun w => ∀ reader ∈ w.readers, reader.2 = w.conn) nofun ?_
  intro w action w' hinv hstep
  have hidle : w.readers = [] → w'.readers = w.readers → ∀ reader ∈ w'.readers,
      reader.2 = w'.conn := by
    intro hreaders hkeep
    rw [hkeep, hreaders]
    exact nofun
  cases action with
  | «open» opened =>
    rw [Steps, step, Option.ite_none_right_eq_some] at hstep
    obtain ⟨hreaders, hw'⟩ := hstep
    apply hidle hreaders
    rw [← Option.some.inj hw', Wrapper.open!]
    split
    · rfl
    · exact install_readers w opened
  | close closed =>
    rw [Steps, step, Option.ite_none_right_eq_some] at hstep
    obtain ⟨hreaders, hw'⟩ := hstep
    apply hidle hreaders
    rw [← Option.some.inj hw', Wrapper.close!]
    split
    · rfl
    · split <;> rfl
  | reopen closed opened =>
    rw [Steps, step, Option.ite_none_right_eq_some] at hstep
    obtain ⟨hreaders, hw'⟩ := hstep
    apply hidle hreaders
    rw [← Option.some.inj hw']
    exact reopen!_readers w closed opened
  | enter thread =>
    rw [Steps, step] at hstep
    rw [← Option.some.inj hstep]
    intro reader hreader
    rcases List.mem_cons.mp hreader with rfl | hreader
    · rfl
    · exact hinv reader hreader
  | leave thread conn outcome =>
    rw [Steps, step, Option.ite_none_right_eq_some] at hstep
    obtain ⟨-, hw'⟩ := hstep
    have hleft : ∀ reader ∈ w.readers.erase (thread, conn), reader.2 = w.conn :=
      fun reader hreader => hinv reader (List.mem_of_mem_erase hreader)
    match outcome with
    | .ok () =>
      rw [← Option.some.inj hw']
      exact hleft
    | .error e =>
      dsimp only at hw'
      split at hw' <;> rw [← Option.some.inj hw'] <;> exact hleft
  | recover thread conn thrown closed opened =>
    rw [Steps, step, Option.ite_none_right_eq_some] at hstep
    obtain ⟨⟨hreaders, -⟩, hw'⟩ := hstep
    apply hidle hreaders
    rw [← Option.some.inj hw']
    change (w.recover conn thrown closed opened).2.readers = w.readers
    by_cases hconn : conn = w.conn
    · rw [recover_of_eq hconn]
      exact reopen!_readers w closed opened
    · rw [recover_of_ne hconn]

/-- In a safe wrapper no body runs with a connection that was closed. -/
theorem readers_live {name : String} {actions : List (Action T C)} {w : Wrapper T C}
    (hrun : Runs name actions w) (hsafe : Safe w) {thread : T} {c : C}
    (hreader : (thread, some c) ∈ w.readers) : (c, .ok ()) ∉ w.closes :=
  fun hclosed => hsafe.live c hclosed (readers_conn hrun _ hreader).symm

end Jepsen.Reconnect
