/-
# Choosing between generators

`any` takes the soonest of the operations that its generators offer, and `mix` the one that a
generator offers that was drawn. Generators are left out once they are exhausted, so the others
change their places. Still a run of the interpreter interleaves operations of all of them, those
of each generator in the order in which a drive of it emits them.
-/

import Jepsen.Generator.Combinators
import Jepsen.Generator.Scheduling

namespace Jepsen.Generator

open Jepsen.History Jepsen.Library Jepsen.Generator.Interpreter

universe u v

variable {γ : Type v} {V : Type u}

/-! ## The generators -/

/-- `(defrecord Any [gens])` -/
structure Any (γ : Type v) where
  gens : List (Option γ)

/-- `(any & gens)`. An `Any` of one generator acts as that one. -/
def any (gens : List (Option γ)) : Option (Any γ) :=
  if gens.reduceOption = [] then none else some ⟨gens.reduceOption.map some⟩

/-- `(defrecord Mix [i gens])` -/
structure Mix (γ : Type v) where
  /-- The next generator index we intend to work with. -/
  i : ℕ
  gens : List (Option γ)

/-- `(mix gens)` -/
def mix (draw : ℕ) (gens : List (Option γ)) : Option (Mix γ) :=
  if gens.reduceOption = [] then none
  else some ⟨draw % gens.reduceOption.length, gens.reduceOption.map some⟩

section Protocols

variable [Protocol γ V]

/-- Ask each generator for an op, and keep the soonest. -/
def Any.ask (oracle : Oracle) (ctx : Context) : List (Option γ × ℕ) →
    Option (Candidate V (ℕ × Option γ)) → Except Thrown (Option (Candidate V (ℕ × Option γ)))
  | [], soonest => .ok soonest
  | (gen, i) :: rest, soonest =>
      match Generator.op (oracle.sub (2 * i)) gen ctx with
      | .error t => .error t
      | .ok none => Any.ask oracle ctx rest soonest
      | .ok (some (answer, gen')) =>
          Any.ask oracle ctx rest
            (soonestOpMap ((oracle.sub (2 * i + 1)).draw 0) soonest
              (some ⟨answer, none, (i, gen')⟩))

/-- `Any.op`. -/
def Any.op (oracle : Oracle) (this : Any γ) (ctx : Context) :
    Except Thrown (Option (Answer V × Option (Any γ))) :=
  match Any.ask oracle ctx this.gens.zipIdx none with
  | .error t => .error t
  | .ok none => .ok none
  | .ok (some m) => .ok (some (m.op, some ⟨this.gens.set m.payload.1 m.payload.2⟩))

/-- `update-all-`, with an empty vector where it returns `nil`. -/
def updateAll (ctx : Context) (event : Op V) :
    List (Option γ) → Except Thrown (List (Option γ))
  | [] => .ok []
  | gen :: gens =>
      match Generator.update gen ctx event with
      | .error t => .error t
      | .ok gen' =>
          match updateAll ctx event gens with
          | .error t => .error t
          | .ok gens' => .ok (if gen'.isSome then gen' :: gens' else gens')

/-- `Any.update`. -/
def Any.update (this : Any γ) (ctx : Context) (event : Op V) : Except Thrown (Option (Any γ)) :=
  match updateAll ctx event this.gens with
  | .error t => .error t
  | .ok gens => .ok (if gens = [] then none else some ⟨gens⟩)

instance : Protocol (Any γ) V where
  op := Any.op
  update := Any.update

/-- Ask the generator at an index, and others without it if it is exhausted. -/
def Mix.ask (oracle : Oracle) (ctx : Context) : ℕ → ℕ → List (Option γ) →
    Except Thrown (Option (Answer V × Option (Mix γ)))
  | 0, _, _ => .ok none
  | count + 1, i, gens =>
      match gens[i]? with
      | none => .error .indexOutOfBounds
      | some gen =>
          match Generator.op (oracle.sub (2 * count)) gen ctx with
          | .error t => .error t
          -- Oh, we're out of ops on this generator. Compact and recur.
          | .ok none =>
              Mix.ask oracle ctx count ((oracle.sub (2 * count + 1)).draw 0 % count)
                (gens.eraseIdx i)
          | .ok (some (answer, gen')) =>
              .ok (some (answer,
                some ⟨(oracle.sub (2 * count + 1)).draw 0 % (count + 1), gens.set i gen'⟩))

/-- `Mix.op`. -/
def Mix.op (oracle : Oracle) (this : Mix γ) (ctx : Context) :
    Except Thrown (Option (Answer V × Option (Mix γ))) :=
  Mix.ask oracle ctx this.gens.length this.i this.gens

/-- `Mix.update`: updates are ignored. -/
def Mix.update (this : Mix γ) (_ctx : Context) (_event : Op V) :
    Except Thrown (Option (Mix γ)) := .ok (some this)

instance : Protocol (Mix γ) V where
  op := Mix.op
  update := Mix.update

end Protocols

/-! ## Interleavings -/

/-- A list has the elements of the lists of a family, those of each list in its order. -/
inductive Interleaves {α : Type*} : (ℕ → List α) → List α → Prop
  | nil : Interleaves (fun _ => []) []
  | snoc {parts : ℕ → List α} {l : List α} (prior : Interleaves parts l) (i : ℕ) (a : α) :
      Interleaves (Function.update parts i (parts i ++ [a])) (l ++ [a])

section Drives

variable [Protocol γ V]

/-- Each part is what a drive of the generator at its place emits. -/
def Yielded (gens : List γ) (parts : ℕ → List (Op V)) : Prop :=
  ∀ i, (∀ gen ∈ gens[i]?, ∃ own t, Run Driven (some gen) own t ∧ Drive.emitted own = parts i) ∧
    (gens[i]? = none → parts i = [])

/-- A generator that is still there, with the place it had at first. -/
def Reached (gens : List γ) (parts : ℕ → List (Op V)) (place : ℕ × Option γ) : Prop :=
  ∃ gen own, gens[place.1]? = some gen ∧ Run Driven (some gen) own place.2 ∧
    Drive.emitted own = parts place.1

/-- The generators that are left, and what was emitted by all of them. -/
structure Pooled (first : List γ) (ops : List (Op V)) (gens : List (Option γ))
    (parts : ℕ → List (Op V)) (places : List (ℕ × Option γ)) : Prop where
  interleaves : Interleaves parts ops
  yielded : Yielded first parts
  left : places.map Prod.snd = gens
  nodup : (places.map Prod.fst).Nodup
  reached : ∀ place ∈ places, Reached first parts place

theorem pooled_init (first : List γ) :
    Pooled first ([] : List (Op V)) (first.map some) (fun _ => [])
      (first.zipIdx.map fun p => (p.2, some p.1)) where
  interleaves := .nil
  yielded := fun i => ⟨fun gen _ => ⟨[], some gen, .nil, rfl⟩, fun _ => rfl⟩
  left := by
    rw [List.map_map]
    calc first.zipIdx.map (some ∘ Prod.fst) = (first.zipIdx.map Prod.fst).map some :=
          List.map_map.symm
      _ = first.map some := by rw [List.zipIdx_map_fst]
  nodup := by
    rw [List.map_map]
    change (first.zipIdx.map Prod.snd).Nodup
    rw [List.zipIdx_map_snd]
    exact List.nodup_range'
  reached := by
    intro place hplace
    obtain ⟨⟨gen, i⟩, hgen, rfl⟩ := List.mem_map.mp hplace
    exact ⟨gen, [], List.mem_zipIdx_iff_getElem?.mp hgen, .nil, rfl⟩

variable {first : List γ} {ops : List (Op V)} {gens gens' : List (Option γ)}
  {parts : ℕ → List (Op V)} {places : List (ℕ × Option γ)}

/-- Generators may be left out. -/
theorem Pooled.sublist (h : Pooled first ops gens parts places) (hsublist : gens'.Sublist gens) :
    ∃ places, Pooled first ops gens' parts places := by
  rw [← h.left, List.sublist_map_iff] at hsublist
  obtain ⟨fewer, hfewer, rfl⟩ := hsublist
  exact ⟨fewer, h.interleaves, h.yielded, rfl, h.nodup.sublist (hfewer.map _),
    fun place hplace => h.reached place (hfewer.subset hplace)⟩

/-- One of the generators emits an operation. -/
theorem Pooled.emit {before after : List (Option γ)} {gen gen' : Option γ}
    (h : Pooled first ops (before ++ gen :: after) parts places) {oracle : Oracle} {ctx : Context}
    {o : Op V} (hop : Generator.op oracle gen ctx = .ok (some (.op o, gen'))) :
    ∃ parts places, Pooled first (ops ++ [o]) (before ++ gen' :: after) parts places := by
  obtain ⟨hinterleaves, hyielded, hleft, hnodup, hreached⟩ := h
  obtain ⟨front, back, rfl, rfl, hback⟩ := List.map_eq_append_iff.mp hleft
  obtain ⟨⟨i, gen⟩, back, rfl, rfl, rfl⟩ := List.map_eq_cons_iff.mp hback
  rw [List.map_append, List.map_cons, List.nodup_middle, List.nodup_cons, ← List.map_append]
    at hnodup
  obtain ⟨start, own, hstart, hown, hemitted⟩ :=
    hreached (i, gen) (List.mem_append_right _ List.mem_cons_self)
  have hmore : Run Driven (some start) (own ++ [.emit ctx o]) gen' := .snoc hown (.emit oracle hop)
  have hmine : Drive.emitted (own ++ [.emit ctx o]) = parts i ++ [o] := by
    rw [Drive.emitted_emit, hemitted]
  refine ⟨_, front ++ (i, gen') :: back, hinterleaves.snoc i o, fun j => ?_, ?_, ?_, ?_⟩
  · by_cases hj : j = i
    · subst hj
      rw [Function.update_self]
      refine ⟨fun gen hgen => ?_, fun hnone => ?_⟩
      · rw [hstart] at hgen
        cases hgen
        exact ⟨_, gen', hmore, hmine⟩
      · rw [hstart] at hnone
        cases hnone
    · rw [Function.update_of_ne hj]
      exact hyielded j
  · rw [List.map_append, List.map_cons]
  · rw [List.map_append, List.map_cons, List.nodup_middle, List.nodup_cons, ← List.map_append]
    exact hnodup
  · intro place hplace
    rw [List.mem_append, List.mem_cons, or_left_comm] at hplace
    rcases hplace with rfl | hothers
    · exact ⟨start, _, hstart, hmore, hmine.trans (Function.update_self i _ parts).symm⟩
    · -- Another generator keeps its part.
      have hmem : place ∈ front ++ back := List.mem_append.mpr hothers
      have hne : place.1 ≠ i := by
        intro heq
        have hin : place.1 ∈ (front ++ back).map Prod.fst := List.mem_map_of_mem hmem
        rw [heq] at hin
        exact hnodup.1 hin
      obtain ⟨start', own', hstart', hown', hemitted'⟩ := hreached place (by
        rw [List.mem_append, List.mem_cons]
        exact hothers.imp id Or.inr)
      exact ⟨start', own', hstart', hown',
        hemitted'.trans (Function.update_of_ne hne _ parts).symm⟩

theorem updateAll_places {ctx : Context} {event : Op V}
    (hupdate : updateAll ctx event (places.map Prod.snd) = .ok gens') :
    ∃ places' : List (ℕ × Option γ), places'.map Prod.snd = gens' ∧
      (places'.map Prod.fst).Sublist (places.map Prod.fst) ∧
      ∀ place' ∈ places', ∃ place ∈ places, place.1 = place'.1 ∧
        Generator.update place.2 ctx event = .ok place'.2 := by
  induction places generalizing gens' with
  | nil =>
    cases hupdate
    exact ⟨[], rfl, List.Sublist.refl _, fun _ hplace => absurd hplace List.not_mem_nil⟩
  | cons place places ih =>
    rw [List.map_cons, updateAll] at hupdate
    split at hupdate
    · cases hupdate
    · rename_i gen' hgen
      split at hupdate
      · cases hupdate
      · rename_i gens'' hgens
        obtain ⟨places', rfl, hsublist, hplaces⟩ := ih hgens
        have hthere : ∀ place' ∈ places', ∃ old ∈ place :: places, old.1 = place'.1 ∧
            Generator.update old.2 ctx event = .ok place'.2 := fun place' hplace' => by
          obtain ⟨old, hold, hsame⟩ := hplaces place' hplace'
          exact ⟨old, List.mem_cons_of_mem _ hold, hsame⟩
        split_ifs at hupdate with hsome
        · cases hupdate
          refine ⟨(place.1, gen') :: places', rfl, hsublist.cons_cons _, fun place' hplace' => ?_⟩
          rcases List.mem_cons.mp hplace' with rfl | hrest
          · exact ⟨place, List.mem_cons_self, rfl, hgen⟩
          · exact hthere place' hrest
        · cases hupdate
          exact ⟨places', rfl, hsublist.cons _, hthere⟩

/-- All of the generators are told about an event, and those that it exhausts are left out. -/
theorem Pooled.updateAll (h : Pooled first ops gens parts places) {ctx : Context} {event : Op V}
    (hupdate : Generator.updateAll ctx event gens = .ok gens') :
    ∃ places, Pooled first ops gens' parts places := by
  rw [← h.left] at hupdate
  obtain ⟨places', hleft, hsublist, hplaces⟩ := updateAll_places hupdate
  refine ⟨places', h.interleaves, h.yielded, hleft, h.nodup.sublist hsublist,
    fun place' hplace' => ?_⟩
  obtain ⟨place, hplace, hsame, hgen⟩ := hplaces place' hplace'
  obtain ⟨start, own, hstart, hown, hemitted⟩ := h.reached place hplace
  refine ⟨start, own ++ [.event ctx event], hsame ▸ hstart, .snoc hown (.event hgen), ?_⟩
  rw [Drive.emitted_event, hemitted, hsame]

/-! ## What each of them does -/

theorem Any.ask_eq_some {oracle : Oracle} {ctx : Context} {l : List (Option γ × ℕ)}
    {soonest : Option (Candidate V (ℕ × Option γ))} {m : Candidate V (ℕ × Option γ)}
    (hask : Any.ask oracle ctx l soonest = .ok (some m)) :
    (∃ m', soonest = some m' ∧ m.op = m'.op ∧ m.payload = m'.payload) ∨
      ∃ oracle' gen, (gen, m.payload.1) ∈ l ∧
        Generator.op oracle' gen ctx = .ok (some (m.op, m.payload.2)) := by
  induction l generalizing soonest with
  | nil =>
    cases hask
    exact Or.inl ⟨m, rfl, rfl, rfl⟩
  | cons p rest ih =>
    obtain ⟨gen, i⟩ := p
    unfold Any.ask at hask
    split at hask
    · cases hask
    · rcases ih hask with hsoonest | ⟨oracle', gen', hmem, hop⟩
      · exact Or.inl hsoonest
      · exact Or.inr ⟨oracle', gen', List.mem_cons_of_mem _ hmem, hop⟩
    · rename_i answer gen' hgen
      rcases ih hask with ⟨m', hsoonest, hanswer, hpayload⟩ | ⟨oracle', gen'', hmem, hop⟩
      · obtain ⟨m'', hm | hm, hanswer', hpayload'⟩ := soonestOpMap_eq_some hsoonest
        · exact Or.inl ⟨m'', hm, hanswer.trans hanswer', hpayload.trans hpayload'⟩
        · cases hm
          rw [hanswer.trans hanswer', hpayload.trans hpayload']
          exact Or.inr ⟨_, gen, List.mem_cons_self, hgen⟩
      · exact Or.inr ⟨oracle', gen'', List.mem_cons_of_mem _ hmem, hop⟩

/-- An element of a list stands between others, and so does what it is replaced with. -/
theorem exists_split {α : Type*} {l : List α} {i : ℕ} {a : α} (ha : l[i]? = some a) :
    ∃ before after, l = before ++ a :: after ∧ ∀ b, l.set i b = before ++ b :: after := by
  obtain ⟨hi, rfl⟩ := List.getElem?_eq_some_iff.mp ha
  refine ⟨l.take i, l.drop (i + 1), ?_,
    fun b => List.set_eq_take_append_cons_drop.trans (if_pos hi)⟩
  rw [List.cons_getElem_drop_succ, List.take_append_drop]

theorem Any.op_eq_op {oracle : Oracle} {this : Any γ} {ctx : Context} {o : Op V}
    {next : Option (Any γ)}
    (hop : Generator.op oracle (some this) ctx = .ok (some (.op o, next))) :
    ∃ oracle' before gen after gen', this.gens = before ++ gen :: after ∧
      Generator.op oracle' gen ctx = .ok (some (.op o, gen')) ∧
      next = some ⟨before ++ gen' :: after⟩ := by
  change Any.op oracle this ctx = _ at hop
  unfold Any.op at hop
  split at hop
  · cases hop
  · cases hop
  · rename_i m hm
    obtain ⟨m', hm', -⟩ | ⟨oracle', gen, hmem, hgen⟩ := Any.ask_eq_some hm
    · cases hm'
    · obtain ⟨before, after, hgens, hset⟩ :=
        exists_split (List.mem_zipIdx_iff_getElem?.mp hmem)
      rw [hset] at hop
      obtain ⟨hanswer, hnext⟩ := Prod.mk.inj (Option.some.inj (Except.ok.inj hop))
      rw [hanswer] at hgen
      exact ⟨oracle', before, gen, after, _, hgens, hgen, hnext.symm⟩

theorem Mix.ask_eq_op {oracle : Oracle} {ctx : Context} {count i : ℕ} {gens : List (Option γ)}
    {o : Op V} {next : Option (Mix γ)}
    (hask : Mix.ask oracle ctx count i gens = .ok (some (.op o, next))) :
    ∃ oracle' before gen after gen' j, (before ++ gen :: after).Sublist gens ∧
      Generator.op oracle' gen ctx = .ok (some (.op o, gen')) ∧
      next = some ⟨j, before ++ gen' :: after⟩ := by
  induction count generalizing i gens with
  | zero => cases hask
  | succ count ih =>
    unfold Mix.ask at hask
    split at hask
    · cases hask
    · rename_i gen hgen
      split at hask
      · cases hask
      · obtain ⟨oracle', before, gen', after, gen'', j, hsublist, hop, hnext⟩ := ih hask
        exact ⟨oracle', before, gen', after, gen'', j,
          hsublist.trans (List.eraseIdx_sublist gens i), hop, hnext⟩
      · rename_i answer gen' hop
        obtain ⟨before, after, rfl, hset⟩ := exists_split hgen
        rw [hset] at hask
        cases hask
        exact ⟨_, before, gen, after, gen', _, List.Sublist.refl _, hop, rfl⟩

/-! ## Whole runs -/

/-- The operations interleave those that drives of the generators emit. -/
def Interleaved (gens : List γ) (ops : List (Op V)) : Prop :=
  ∃ parts, Interleaves parts ops ∧ Yielded gens parts

theorem interleaved_nil (gens : List γ) : Interleaved gens ([] : List (Op V)) :=
  ⟨_, (pooled_init gens).interleaves, (pooled_init gens).yielded⟩

/-- Generators that leave a pool of generators with each step have interleaved runs. -/
theorem run_interleaves {ω : Type*} [Protocol ω V] (gensOf : Option ω → List (Option γ))
    {start : Option ω} (hstart : gensOf start = first.map some)
    (hop : ∀ {oracle s ctx o s'}, op oracle s ctx = .ok (some (.op o, s')) →
      ∃ oracle' before gen after gen', (before ++ gen :: after).Sublist (gensOf s) ∧
        op oracle' gen ctx = .ok (some (.op o, gen')) ∧ gensOf s' = before ++ gen' :: after)
    (hupdate : ∀ {s ctx event s'}, update s ctx event = .ok s' →
      gensOf s' = gensOf s ∨ Generator.updateAll ctx event (gensOf s) = .ok (gensOf s'))
    {drives : List (Drive V)} {s : Option ω} (hrun : Run Driven start drives s) :
    Interleaved first (Drive.emitted drives) := by
  have hpooled : ∃ parts places, Pooled first (Drive.emitted drives) (gensOf s) parts places := by
    induction hrun with
    | nil => exact ⟨_, _, hstart ▸ pooled_init first⟩
    | snoc _ hlast ih =>
      obtain ⟨parts, places, h⟩ := ih
      cases hlast with
      | emit oracle hoffered =>
        obtain ⟨oracle', before, gen, after, gen', hsublist, hgen, hnext⟩ := hop hoffered
        obtain ⟨places', h'⟩ := h.sublist hsublist
        rw [Drive.emitted_emit, hnext]
        exact h'.emit hgen
      | discard oracle hasked =>
        rw [Drive.emitted_discard]
        exact ⟨parts, places, h⟩
      | event hupdated =>
        rw [Drive.emitted_event]
        rcases hupdate hupdated with hsame | hall
        · rw [hsame]
          exact ⟨parts, places, h⟩
        · exact ⟨parts, h.updateAll hall⟩
  obtain ⟨parts, places, h⟩ := hpooled
  exact ⟨parts, h.interleaves, h.yielded⟩

variable {env : Env V} {n : ℕ} {labels : List (Label V)} {specs : List (Option γ)}

/-- What a run of the interpreter dispatches for `any` is an interleaving of what drives of its
generators emit. -/
theorem any_interleaves {s : State (Any γ) V}
    (hrun : Run (Step env) (State.init n (any specs)) labels s) :
    Interleaved specs.reduceOption (labels.filterMap Label.dispatch) := by
  obtain ⟨drives, hdriven, hdispatched⟩ := run_driven hrun
  rw [← hdispatched]
  refine run_interleaves (fun s : Option (Any γ) => s.elim [] Any.gens) ?_ ?_ ?_ hdriven
  · unfold any
    split_ifs with hnil
    · rw [hnil]
      rfl
    · rfl
  · intro oracle s ctx o s' hop
    cases s with
    | none => cases hop
    | some this =>
      obtain ⟨oracle', before, gen, after, gen', hgens, hgen, rfl⟩ := Any.op_eq_op hop
      exact ⟨oracle', before, gen, after, gen', hgens ▸ List.Sublist.refl _, hgen, rfl⟩
  · intro s ctx event s' hupdate
    cases s with
    | none =>
      cases hupdate
      exact Or.inl rfl
    | some this =>
      right
      change Any.update this ctx event = _ at hupdate
      unfold Any.update at hupdate
      split at hupdate
      · cases hupdate
      · rename_i gens hgens
        split_ifs at hupdate with hnil
        · cases hupdate
          exact hnil ▸ hgens
        · cases hupdate
          exact hgens

theorem readMap_any :
    Interleaved [readMap, readMap]
      ([Label.dispatched (.int 0) 0 readOp].filterMap Label.dispatch) := by
  have hstep : Step Env.returns (State.init 1 (any [some readMap, none, some readMap]))
      (.dispatched (.int 0) 0 readOp) _ := .dispatch Oracle.zero 0 rfl rfl
  exact any_interleaves (Run.single hstep)

/-- What a run of the interpreter dispatches for `mix` is an interleaving of what drives of its
generators emit. -/
theorem mix_interleaves {draw : ℕ} {s : State (Mix γ) V}
    (hrun : Run (Step env) (State.init n (mix draw specs)) labels s) :
    Interleaved specs.reduceOption (labels.filterMap Label.dispatch) := by
  obtain ⟨drives, hdriven, hdispatched⟩ := run_driven hrun
  rw [← hdispatched]
  refine run_interleaves (fun s : Option (Mix γ) => s.elim [] Mix.gens) ?_ ?_ ?_ hdriven
  · unfold mix
    split_ifs with hnil
    · rw [hnil]
      rfl
    · rfl
  · intro oracle s ctx o s' hop
    cases s with
    | none => cases hop
    | some this =>
      obtain ⟨oracle', before, gen, after, gen', j, hsublist, hgen, rfl⟩ := Mix.ask_eq_op hop
      exact ⟨oracle', before, gen, after, gen', hsublist, hgen, rfl⟩
  · intro s ctx event s' hupdate
    cases s with
    | none =>
      cases hupdate
      exact Or.inl rfl
    | some this =>
      cases hupdate
      exact Or.inl rfl

theorem readMap_mixed :
    Interleaved [readMap, readMap]
      ([Label.dispatched (.int 0) 0 readOp].filterMap Label.dispatch) := by
  have hstep : Step Env.returns (State.init 1 (mix 1 [some readMap, some readMap]))
      (.dispatched (.int 0) 0 readOp) _ := .dispatch Oracle.zero 0 rfl rfl
  exact mix_interleaves (Run.single hstep)

end Drives

end Jepsen.Generator
