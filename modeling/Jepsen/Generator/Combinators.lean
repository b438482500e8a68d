/-
# Generators built from generators

`Map` transforms the operations of a generator, and `OnThreads` restricts the
threads a generator sees. `soonest-op-map` is how a generator with several
alternatives chooses between the operations they offer.
-/

import Jepsen.Generator.OpMap

namespace Jepsen.Generator

open Jepsen.History

universe u v w x

/-! ## Map -/

/-- `(defrecord Map [f arity gen])`; a function of one argument ignores the
context. -/
structure Map (γ : Type v) (V : Type u) where
  f : Op V → Context → Op V
  gen : Option γ

/-- `(map f gen)` -/
def map {γ : Type v} {V : Type u} (f : Op V → Context → Op V) (gen : Option γ) :
    Option (Map γ V) :=
  gen.map fun g => ⟨f, some g⟩

namespace Map

variable {γ : Type v} {V : Type u} [Protocol γ V]

/-- `Map.op`. -/
def op (oracle : Oracle) (this : Map γ V) (ctx : Context) :
    Except Thrown (Option (Answer V × Option (Map γ V))) :=
  match Generator.op oracle this.gen ctx with
  | .error t => .error t
  | .ok none => .ok none
  | .ok (some (.pending, gen')) => .ok (some (.pending, some ⟨this.f, gen'⟩))
  | .ok (some (.op o, gen')) => .ok (some (.op (this.f o ctx), some ⟨this.f, gen'⟩))

/-- `Map.update`. -/
def update (this : Map γ V) (ctx : Context) (event : Op V) :
    Except Thrown (Option (Map γ V)) :=
  match Generator.update this.gen ctx event with
  | .error t => .error t
  | .ok gen' => .ok (some ⟨this.f, gen'⟩)

instance : Protocol (Map γ V) V where
  op := op
  update := update

/-- An operation that a mapped generator offers is the image of one that the
generator under it offers. -/
theorem op_eq_ok {oracle : Oracle} {this : Map γ V} {ctx : Context} {o : Op V}
    {gen' : Option (Map γ V)}
    (hop : Generator.op oracle (some this) ctx = .ok (some (.op o, gen'))) :
    ∃ o₀ gen₀, Generator.op oracle this.gen ctx = .ok (some (.op o₀, gen₀)) ∧
      o = this.f o₀ ctx ∧ gen' = some ⟨this.f, gen₀⟩ := by
  change Map.op oracle this ctx = _ at hop
  unfold Map.op at hop
  split at hop
  · cases hop
  · cases hop
  · cases hop
  · rename_i o₀ gen₀ hgen
    cases hop
    exact ⟨o₀, gen₀, hgen, rfl, rfl⟩

end Map

/-! ## OnThreads -/

/-- `(defrecord OnThreads [f context-filter gen])`; the filter is the lazy one
for `f`. -/
structure OnThreads (γ : Type v) where
  f : Name → Bool
  gen : Option γ

namespace OnThreads

variable {γ : Type v} {V : Type u} [Protocol γ V]

/-- `OnThreads.op`. -/
def op (oracle : Oracle) (this : OnThreads γ) (ctx : Context) :
    Except Thrown (Option (Answer V × Option (OnThreads γ))) :=
  match Generator.op oracle this.gen (ctx.lazyThreadFilter this.f) with
  | .error t => .error t
  | .ok none => .ok none
  | .ok (some (answer, gen')) => .ok (some (answer, some ⟨this.f, gen'⟩))

/-- `OnThreads.update`. A process that no thread executes has the thread `nil`,
which is in no thread set and which `all-but` sends to `nil`. -/
def update (this : OnThreads γ) (ctx : Context) (event : Op V) :
    Except Thrown (Option (OnThreads γ)) :=
  match ctx.processToThread event.process with
  | none => .ok (some this)
  | some thread =>
      if this.f thread then
        match Generator.update this.gen (ctx.lazyThreadFilter this.f) event with
        | .error t => .error t
        | .ok gen' => .ok (some ⟨this.f, gen'⟩)
      else .ok (some this)

instance : Protocol (OnThreads γ) V where
  op := op
  update := update

variable {oracle : Oracle} {this : OnThreads γ} {ctx : Context}

theorem op_eq_some {answer : Answer V} {next : Option (OnThreads γ)}
    (hop : Generator.op oracle (some this) ctx = .ok (some (answer, next))) :
    ∃ gen', Generator.op oracle this.gen (ctx.lazyThreadFilter this.f) =
      .ok (some (answer, gen')) ∧ next = some ⟨this.f, gen'⟩ := by
  change OnThreads.op oracle this ctx = _ at hop
  unfold OnThreads.op at hop
  split at hop
  · cases hop
  · cases hop
  · rename_i answer gen' hgen
    cases hop
    exact ⟨gen', hgen, rfl⟩

theorem op_eq_none (hop : Generator.op oracle (some this) ctx = .ok none) :
    Generator.op oracle this.gen (ctx.lazyThreadFilter this.f) = .ok none := by
  change OnThreads.op oracle this ctx = _ at hop
  unfold OnThreads.op at hop
  split at hop
  · cases hop
  · assumption
  · cases hop

/-- An event is passed on if its thread satisfies `f`. -/
theorem update_eq_ok {event : Op V} {next : Option (OnThreads γ)} {thread : Name}
    (hthread : ctx.processToThread event.process = some thread)
    (hupdate : Generator.update (some this) ctx event = .ok next) :
    (this.f thread = false ∧ next = some this) ∨
      this.f thread = true ∧ ∃ gen',
        Generator.update this.gen (ctx.lazyThreadFilter this.f) event = .ok gen' ∧
          next = some ⟨this.f, gen'⟩ := by
  change OnThreads.update this ctx event = _ at hupdate
  unfold OnThreads.update at hupdate
  rw [hthread] at hupdate
  simp only at hupdate
  split at hupdate
  · rename_i hf
    split at hupdate
    · cases hupdate
    · rename_i gen' hgen
      cases hupdate
      exact Or.inr ⟨hf, gen', hgen, rfl⟩
  · rename_i hf
    cases hupdate
    exact Or.inl ⟨Bool.eq_false_iff.mpr hf, rfl⟩

end OnThreads

/-- `(on-threads f gen)` -/
def onThreads {γ : Type v} (f : Name → Bool) (gen : Option γ) : Option (OnThreads γ) :=
  gen.map fun g => ⟨f, some g⟩

/-- `(clients client-gen)` -/
def clients {γ : Type v} (clientGen : Option γ) : Option (OnThreads γ) :=
  onThreads (Context.allBut .nemesis) clientGen

/-! ## Choosing the soonest operation -/

/-- A map wrapping an operation, as `soonest-op-map` compares them; `payload` is
whatever else the map holds. -/
structure Candidate (V : Type u) (α : Type w) where
  op : Answer V
  weight : Option ℕ
  payload : α

/-- `soonest-op-map` on two maps; `draw` decides a tie. -/
def soonestOpMap {V : Type u} {α : Type w} (draw : ℕ) :
    Option (Candidate V α) → Option (Candidate V α) → Option (Candidate V α)
  | none, m2 => m2
  | m1, none => m1
  | some m1, some m2 =>
      match m1.op, m2.op with
      | .pending, _ => some m2
      | _, .pending => some m1
      | .op op1, .op op2 =>
          if op1.time = op2.time then
            let w1 := m1.weight.getD 1
            let w2 := m2.weight.getD 1
            let w := w1 + w2
            some { (if draw % w < w1 then m1 else m2) with weight := some w }
          else if op1.time < op2.time then some m1
          else some m2

/-- A candidate with another payload. -/
def Candidate.withPayload {V : Type u} {α : Type w} {β : Type x} (f : α → β)
    (m : Candidate V α) : Candidate V β :=
  { op := m.op, weight := m.weight, payload := f m.payload }

/-- The choice does not look at payloads. -/
theorem soonestOpMap_withPayload {V : Type u} {α : Type w} {β : Type x} (f : α → β) (draw : ℕ)
    (m1 m2 : Option (Candidate V α)) :
    soonestOpMap draw (m1.map (·.withPayload f)) (m2.map (·.withPayload f)) =
      (soonestOpMap draw m1 m2).map (·.withPayload f) := by
  cases m1 with
  | none => cases m2 <;> rfl
  | some c1 =>
    cases m2 with
    | none => rfl
    | some c2 =>
      obtain ⟨op1, weight1, payload1⟩ := c1
      obtain ⟨op2, weight2, payload2⟩ := c2
      cases op1 with
      | pending => rfl
      | op o1 =>
        cases op2 with
        | pending => rfl
        | op o2 =>
          simp only [soonestOpMap, Option.map_some, Candidate.withPayload]
          split_ifs <;> rfl

/-- Whatever is chosen was offered, up to its weight. -/
theorem soonestOpMap_eq_some {V : Type u} {α : Type w} {draw : ℕ}
    {m1 m2 : Option (Candidate V α)} {m : Candidate V α}
    (hsoonest : soonestOpMap draw m1 m2 = some m) :
    ∃ m', (m1 = some m' ∨ m2 = some m') ∧ m.op = m'.op ∧ m.payload = m'.payload := by
  cases m1 with
  | none => exact ⟨m, Or.inr hsoonest, rfl, rfl⟩
  | some c1 =>
    cases m2 with
    | none => exact ⟨m, Or.inl hsoonest, rfl, rfl⟩
    | some c2 =>
      simp only [soonestOpMap] at hsoonest
      split at hsoonest
      · exact ⟨m, Or.inr hsoonest, rfl, rfl⟩
      · exact ⟨m, Or.inl hsoonest, rfl, rfl⟩
      · split at hsoonest
        · obtain rfl := Option.some.inj hsoonest
          split
          · exact ⟨c1, Or.inl rfl, rfl, rfl⟩
          · exact ⟨c2, Or.inr rfl, rfl, rfl⟩
        · split at hsoonest
          · exact ⟨m, Or.inl hsoonest, rfl, rfl⟩
          · exact ⟨m, Or.inr hsoonest, rfl, rfl⟩

/-- Something is chosen as soon as something is offered. -/
theorem soonestOpMap_eq_none {V : Type u} {α : Type w} {draw : ℕ}
    {m1 m2 : Option (Candidate V α)} (hsoonest : soonestOpMap draw m1 m2 = none) :
    m1 = none ∧ m2 = none := by
  cases m1 with
  | none => exact ⟨rfl, hsoonest⟩
  | some c1 =>
    cases m2 with
    | none => cases hsoonest
    | some c2 =>
      simp only [soonestOpMap] at hsoonest
      split at hsoonest
      · cases hsoonest
      · cases hsoonest
      · split at hsoonest
        · cases hsoonest
        · split at hsoonest <;> cases hsoonest

end Jepsen.Generator
