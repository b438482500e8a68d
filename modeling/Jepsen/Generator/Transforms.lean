/-
# Transforming and alternating generators

`f-map` renames the functions of another generator's operations, `filter` passes on those that
satisfy a predicate, and `flip-flop` takes operations of two generators in turn. What a run of the
interpreter dispatches for each of them is told by drives of the generators under it.
-/

import Jepsen.Generator.Combinators
import Jepsen.Generator.Scheduling

namespace Jepsen.Generator

open Jepsen.History Jepsen.Library Jepsen.Generator.Interpreter

universe u v

variable {γ : Type v} {V : Type u}

/-! ## The generators -/

/-- `(update op :f f-map)` -/
def renamed (fMap : Option String → Option String) (o : Op V) : Op V := { o with f := fMap o.f }

/-- `(f-map f-map g)` -/
def fMap (f : Option String → Option String) (gen : Option γ) : Option (Map γ V) :=
  map (fun o _ => renamed f o) gen

/-- `(defrecord Filter [f gen])` -/
structure Filter (γ : Type v) (V : Type u) where
  f : Op V → Bool
  gen : Option γ

/-- `(filter f gen)` -/
def filter (f : Op V → Bool) (gen : Option γ) : Option (Filter γ V) :=
  gen.map fun g => ⟨f, some g⟩

/-- `(defrecord FlipFlop [gens i])` -/
structure FlipFlop (γ : Type v) where
  gens : List (Option γ)
  i : ℕ

/-- `(flip-flop a b)` -/
def flipFlop (a b : Option γ) : Option (FlipFlop γ) := some ⟨[a, b], 0⟩

section Protocols

variable [Protocol γ V]

/-- The loop of `Filter.op`. -/
def Filter.ask (f : Op V → Bool) (oracle : Oracle) (ctx : Context) :
    ℕ → Option γ → Except Thrown (Option (Answer V × Option (Filter γ V)))
  | 0, _ => .error .diverged
  | fuel + 1, gen =>
      match Generator.op (oracle.sub fuel) gen ctx with
      | .error t => .error t
      | .ok none => .ok none
      | .ok (some (.pending, gen')) => .ok (some (.pending, some ⟨f, gen'⟩))
      | .ok (some (.op o, gen')) =>
          -- We can let this through
          if f o then .ok (some (.op o, some ⟨f, gen'⟩))
          -- Next op!
          else Filter.ask f oracle ctx fuel gen'

/-- `Filter.op`. -/
def Filter.op (oracle : Oracle) (this : Filter γ V) (ctx : Context) :
    Except Thrown (Option (Answer V × Option (Filter γ V))) :=
  Filter.ask this.f oracle ctx oracle.fuel this.gen

/-- `Filter.update`. -/
def Filter.update (this : Filter γ V) (ctx : Context) (event : Op V) :
    Except Thrown (Option (Filter γ V)) :=
  passUpdate this.gen ctx event fun gen' => { this with gen := gen' }

instance : Protocol (Filter γ V) V where
  op := Filter.op
  update := Filter.update

/-- `FlipFlop.op`. -/
def FlipFlop.op (oracle : Oracle) (this : FlipFlop γ) (ctx : Context) :
    Except Thrown (Option (Answer V × Option (FlipFlop γ))) :=
  match this.gens[this.i]? with
  | none => .error .indexOutOfBounds
  | some gen =>
      match Generator.op oracle gen ctx with
      | .error t => .error t
      | .ok none => .ok none
      | .ok (some (answer, gen')) =>
          .ok (some (answer, some ⟨this.gens.set this.i gen', (this.i + 1) % this.gens.length⟩))

/-- `FlipFlop.update`: updates are ignored. -/
def FlipFlop.update (this : FlipFlop γ) (_ctx : Context) (_event : Op V) :
    Except Thrown (Option (FlipFlop γ)) := .ok (some this)

instance : Protocol (FlipFlop γ) V where
  op := FlipFlop.op
  update := FlipFlop.update

/-! ## What each of them does -/

theorem Map.update_eq_ok {this : Map γ V} {ctx : Context} {event : Op V}
    {next : Option (Map γ V)} (hupdate : Generator.update (some this) ctx event = .ok next) :
    ∃ gen', Generator.update this.gen ctx event = .ok gen' ∧ next = some ⟨this.f, gen'⟩ := by
  change Map.update this ctx event = _ at hupdate
  unfold Map.update at hupdate
  split at hupdate
  · cases hupdate
  · rename_i gen' hgen
    cases hupdate
    exact ⟨gen', hgen, rfl⟩

/-- What a filter lets through comes after operations that it does not. -/
theorem Filter.ask_eq_op {f : Op V → Bool} {oracle : Oracle} {ctx : Context} {fuel : ℕ}
    {gen : Option γ} {o : Op V} {next : Option (Filter γ V)}
    (hask : Filter.ask f oracle ctx fuel gen = .ok (some (.op o, next))) :
    ∃ own gen', Run Driven gen own gen' ∧ (Drive.emitted own).filter f = [o] ∧
      next = some ⟨f, gen'⟩ := by
  induction fuel generalizing gen with
  | zero => cases hask
  | succ fuel ih =>
    unfold Filter.ask at hask
    split at hask
    · cases hask
    · cases hask
    · cases hask
    · rename_i o' gen' hgen
      split_ifs at hask with hf
      · cases hask
        exact ⟨_, gen', Run.single (.emit _ hgen), List.filter_cons_of_pos hf, rfl⟩
      · obtain ⟨own, gen'', hown, hfilter, hnext⟩ := ih hask
        refine ⟨_, gen'', (Run.single (.emit _ hgen)).trans hown, ?_, hnext⟩
        rw [Drive.emitted_append, List.filter_append, hfilter]
        exact congrArg (· ++ [o]) (List.filter_cons_of_neg hf)

theorem FlipFlop.op_eq_op {oracle : Oracle} {this : FlipFlop γ} {ctx : Context} {o : Op V}
    {next : Option (FlipFlop γ)}
    (hop : Generator.op oracle (some this) ctx = .ok (some (.op o, next))) :
    ∃ gen gen', this.gens[this.i]? = some gen ∧
      Generator.op oracle gen ctx = .ok (some (.op o, gen')) ∧
      next = some ⟨this.gens.set this.i gen', (this.i + 1) % this.gens.length⟩ := by
  change FlipFlop.op oracle this ctx = _ at hop
  unfold FlipFlop.op at hop
  split at hop
  · cases hop
  · rename_i gen hgen
    split at hop
    · cases hop
    · cases hop
    · rename_i answer gen' hgen'
      cases hop
      exact ⟨gen, gen', hgen, hgen', rfl⟩

end Protocols

/-! ## Whole runs -/

section Runs

variable [Protocol γ V] {gen : Option γ} {env : Env V} {n : ℕ} {labels : List (Label V)}

/-- What a run of the interpreter dispatches for `f-map` is what a drive of the generator under it
emits, renamed. -/
theorem fMap_renames {f : Option String → Option String} {s : State (Map γ V) V}
    (hrun : Run (Step env) (State.init n (fMap f gen)) labels s) :
    ∃ own t, Run Driven gen own t ∧
      labels.filterMap Label.dispatch = (Drive.emitted own).map (renamed f) := by
  obtain ⟨drives, hdriven, hdispatched⟩ := run_driven hrun
  rw [← hdispatched]
  cases gen with
  | none => exact ⟨[], none, .nil, (run_driven_none hdriven).2⟩
  | some gen =>
    obtain ⟨own, t, hown, -, hemitted⟩ := run_passes
      (fun (ops : List (Op V)) s own t =>
        s = some (⟨fun o _ => renamed f o, t⟩ : Map γ V) ∧ ops = own.map (renamed f))
      ⟨rfl, rfl⟩
      (fun {ops s own t oracle ctx o s'} hsame hoffered => by
        obtain ⟨rfl, rfl⟩ := hsame
        obtain ⟨o₀, gen₀, hgen, rfl, rfl⟩ := Map.op_eq_ok hoffered
        refine ⟨oracle, o₀, gen₀, hgen, rfl, ?_⟩
        rw [List.map_append]
        rfl)
      (fun {ops s own t ctx event s'} hsame hupdated => by
        obtain ⟨rfl, rfl⟩ := hsame
        obtain ⟨gen', hgen, rfl⟩ := Map.update_eq_ok hupdated
        exact ⟨gen', hgen, rfl, rfl⟩) hdriven
    exact ⟨own, t, hown, hemitted⟩

theorem readMap_renamed :
    ∃ own t, Run Driven (some readMap) own t ∧
      [Label.dispatched (.int 0) 0 (renamed (fun _ => some "look") readOp)].filterMap
        Label.dispatch = (Drive.emitted own).map (renamed fun _ => some "look") := by
  have hstep : Step Env.returns
      (State.init 1 (fMap (fun _ => some "look") (some readMap)) : State (Map (OpMap ℕ) ℕ) ℕ)
      (.dispatched (.int 0) 0 (renamed (fun _ => some "look") readOp)) _ :=
    .dispatch Oracle.zero 0 rfl rfl
  exact fMap_renames (Run.single hstep)

/-- What a run of the interpreter dispatches for `filter` is what a drive of the generator under it
emits, without the operations that do not satisfy the predicate. -/
theorem filter_filters {f : Op V → Bool} {s : State (Filter γ V) V}
    (hrun : Run (Step env) (State.init n (filter f gen)) labels s) :
    ∃ own t, Run Driven gen own t ∧
      labels.filterMap Label.dispatch = (Drive.emitted own).filter f := by
  obtain ⟨drives, hdriven, hdispatched⟩ := run_driven hrun
  rw [← hdispatched]
  cases gen with
  | none => exact ⟨[], none, .nil, (run_driven_none hdriven).2⟩
  | some gen =>
    obtain ⟨own, t, hown, -, hemitted⟩ := hdriven.simulates
      (fun drives s own t => s = some (⟨f, t⟩ : Filter γ V) ∧
        Drive.emitted drives = (Drive.emitted own).filter f)
      ⟨rfl, rfl⟩ fun {drives s own t d s'} hsame hstep => by
        obtain ⟨rfl, hemitted⟩ := hsame
        cases hstep with
        | emit oracle hoffered =>
          obtain ⟨more, gen', hmore, hfilter, rfl⟩ := Filter.ask_eq_op hoffered
          refine ⟨more, gen', hmore, rfl, ?_⟩
          rw [Drive.emitted_emit, Drive.emitted_append, List.filter_append, hfilter, hemitted]
        | discard oracle hasked =>
          refine ⟨[], t, .nil, rfl, ?_⟩
          rw [Drive.emitted_discard, List.append_nil, hemitted]
        | event hupdated =>
          obtain ⟨gen', hgen, rfl⟩ := passUpdate_eq_ok hupdated
          refine ⟨_, gen', Run.single (.event hgen), rfl, ?_⟩
          rw [Drive.emitted_event, Drive.emitted_event, hemitted]
    exact ⟨own, t, hown, hemitted⟩

theorem readMap_filtered :
    ∃ own t, Run Driven (some readMap) own t ∧
      [Label.dispatched (.int 0) 0 readOp].filterMap Label.dispatch =
        (Drive.emitted own).filter fun o => decide (o.value = 0) := by
  have hstep : Step Env.returns
      (State.init 1 (filter (fun o => decide (o.value = 0)) (some readMap)))
      (.dispatched (.int 0) 0 readOp) _ := .dispatch ⟨1, fun _ => 0⟩ 0 rfl rfl
  exact filter_filters (Run.single hstep)

/-- Every other element of a list, from the first and from the second one on. -/
structure InTurn (as bs l : List (Op V)) : Prop where
  first : ∀ k, l[2 * k]? = as[k]?
  second : ∀ k, l[2 * k + 1]? = bs[k]?
  length_first : as.length = (l.length + 1) / 2
  length_second : bs.length = l.length / 2

theorem inTurn_nil : InTurn ([] : List (Op V)) [] [] where
  first := fun _ => rfl
  second := fun _ => rfl
  length_first := (Nat.div_eq_of_lt Nat.one_lt_two).symm
  length_second := (Nat.zero_div 2).symm

theorem InTurn.snoc_first {as bs l : List (Op V)} (h : InTurn as bs l)
    (heven : l.length % 2 = 0) (o : Op V) : InTurn (as ++ [o]) bs (l ++ [o]) := by
  obtain ⟨hfirst, hsecond, hlength, hlength'⟩ := h
  have hhalf : l.length = 2 * as.length := by omega
  refine ⟨fun k => ?_, fun k => ?_, ?_, ?_⟩
  · rcases lt_trichotomy k as.length with hlt | rfl | hgt
    · rw [List.getElem?_append_left (by omega), List.getElem?_append_left hlt, hfirst]
    · rw [← hhalf, List.getElem?_concat_length, List.getElem?_concat_length]
    · rw [List.getElem?_eq_none, List.getElem?_eq_none] <;>
        rw [List.length_append, List.length_singleton] <;> omega
  · rcases Nat.lt_or_ge k bs.length with hlt | hge
    · rw [List.getElem?_append_left (by omega), hsecond]
    · rw [List.getElem?_eq_none, List.getElem?_eq_none hge]
      rw [List.length_append, List.length_singleton]
      omega
  · rw [List.length_append, List.length_append, List.length_singleton]
    omega
  · rw [List.length_append, List.length_singleton]
    omega

theorem InTurn.snoc_second {as bs l : List (Op V)} (h : InTurn as bs l)
    (hodd : l.length % 2 = 1) (o : Op V) : InTurn as (bs ++ [o]) (l ++ [o]) := by
  obtain ⟨hfirst, hsecond, hlength, hlength'⟩ := h
  have hhalf : l.length = 2 * bs.length + 1 := by omega
  refine ⟨fun k => ?_, fun k => ?_, ?_, ?_⟩
  · rcases Nat.lt_or_ge k as.length with hlt | hge
    · rw [List.getElem?_append_left (by omega), hfirst]
    · rw [List.getElem?_eq_none, List.getElem?_eq_none hge]
      rw [List.length_append, List.length_singleton]
      omega
  · rcases lt_trichotomy k bs.length with hlt | rfl | hgt
    · rw [List.getElem?_append_left (by omega), List.getElem?_append_left hlt, hsecond]
    · rw [← hhalf, List.getElem?_concat_length, List.getElem?_concat_length]
    · rw [List.getElem?_eq_none, List.getElem?_eq_none] <;>
        rw [List.length_append, List.length_singleton] <;> omega
  · rw [List.length_append, List.length_singleton]
    omega
  · rw [List.length_append, List.length_append, List.length_singleton]
    omega

/-- Two generators after operations were adopted from them in turn. -/
def TakesTurns (a b : Option γ) (ops : List (Op V)) (s : Option (FlipFlop γ)) : Prop :=
  ∃ owna ownb ta tb, Run Driven a owna ta ∧ Run Driven b ownb tb ∧
    InTurn (Drive.emitted owna) (Drive.emitted ownb) ops ∧
    s = some ⟨[ta, tb], ops.length % 2⟩

theorem TakesTurns.emit {a b : Option γ} {ops : List (Op V)} {s s' : Option (FlipFlop γ)}
    (h : TakesTurns a b ops s) {oracle : Oracle} {ctx : Context} {o : Op V}
    (hop : Generator.op oracle s ctx = .ok (some (.op o, s'))) :
    TakesTurns a b (ops ++ [o]) s' := by
  obtain ⟨owna, ownb, ta, tb, ha, hb, hturn, rfl⟩ := h
  obtain ⟨gen, gen', hgen, hgen', rfl⟩ := FlipFlop.op_eq_op hop
  dsimp only at hgen ⊢
  rcases Nat.mod_two_eq_zero_or_one ops.length with heven | hodd
  · rw [heven] at hgen ⊢
    cases hgen
    refine ⟨_, ownb, gen', tb, .snoc ha (.emit oracle hgen'), hb, ?_, ?_⟩
    · rw [Drive.emitted_emit]
      exact hturn.snoc_first heven o
    · have hnext : (ops.length + 1) % 2 = 1 := by omega
      rw [List.length_append, List.length_singleton, hnext]
      rfl
  · rw [hodd] at hgen ⊢
    cases hgen
    refine ⟨owna, _, ta, gen', ha, .snoc hb (.emit oracle hgen'), ?_, ?_⟩
    · rw [Drive.emitted_emit]
      exact hturn.snoc_second hodd o
    · have hnext : (ops.length + 1) % 2 = 0 := by omega
      rw [List.length_append, List.length_singleton, hnext]
      exact congrArg (fun i => some (⟨[ta, gen'], i⟩ : FlipFlop γ)) (Nat.mod_self 2)

theorem takesTurns_run {a b : Option γ} {drives : List (Drive V)} {s : Option (FlipFlop γ)}
    (hrun : Run Driven (flipFlop a b) drives s) : TakesTurns a b (Drive.emitted drives) s := by
  induction hrun with
  | nil => exact ⟨[], [], a, b, .nil, .nil, inTurn_nil, rfl⟩
  | snoc _ hlast ih =>
    cases hlast with
    | emit oracle hoffered =>
      rw [Drive.emitted_emit]
      exact ih.emit hoffered
    | discard oracle hasked =>
      rw [Drive.emitted_discard]
      exact ih
    | event hupdated =>
      rw [Drive.emitted_event]
      obtain ⟨owna, ownb, ta, tb, ha, hb, hturn, rfl⟩ := ih
      cases hupdated
      exact ⟨owna, ownb, ta, tb, ha, hb, hturn, rfl⟩

/-- What a run of the interpreter dispatches for `flip-flop` is in turn what drives of its two
generators emit. -/
theorem flipFlop_alternates {a b : Option γ} {s : State (FlipFlop γ) V}
    (hrun : Run (Step env) (State.init n (flipFlop a b)) labels s) :
    ∃ owna ownb ta tb, Run Driven a owna ta ∧ Run Driven b ownb tb ∧
      InTurn (Drive.emitted owna) (Drive.emitted ownb) (labels.filterMap Label.dispatch) := by
  obtain ⟨drives, hdriven, hdispatched⟩ := run_driven hrun
  obtain ⟨owna, ownb, ta, tb, ha, hb, hturn, -⟩ := takesTurns_run hdriven
  rw [← hdispatched]
  exact ⟨owna, ownb, ta, tb, ha, hb, hturn⟩

theorem readMap_inTurn :
    ∃ owna ownb ta tb, Run Driven (some readMap) owna ta ∧ Run Driven (some readMap) ownb tb ∧
      InTurn (Drive.emitted owna) (Drive.emitted ownb)
        ([Label.dispatched (.int 0) 0 readOp].filterMap Label.dispatch) := by
  have hstep : Step Env.returns (State.init 1 (flipFlop (some readMap) (some readMap)))
      (.dispatched (.int 0) 0 readOp) _ := .dispatch Oracle.zero 0 rfl rfl
  exact flipFlop_alternates (Run.single hstep)

end Runs

end Jepsen.Generator
