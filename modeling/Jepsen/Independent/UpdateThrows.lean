/-
# When an update throws

The generator's own `update` assumes that it was initialised, which only an
adopted operation does, and that the event's value is a tuple, which is so
neither for the operations of other generators nor for the `:sleep` and `:log`
operations that `tuple-gen` leaves as they are. Here the generator may be driven
by any environment, such as another generator it is a part of.
-/

import Jepsen.Independent.KeyPartition

namespace Jepsen.Independent

open Jepsen.Generator Jepsen.Generator.Context Jepsen.Generator.Interpreter
open Jepsen.History Jepsen.Library
open Stream' (Seq)

universe u v w

/-! ## Contexts of client threads -/

/-- A context with the threads `bits`, in a test of concurrency `c`. -/
structure View (c : ℕ) (bits : Bits) (ctx : Context) : Prop where
  wf : WellFormed c ctx
  all : ctx.allThreadsBits = bits

section View

variable {c : ℕ} {bits : Bits}

/-- Client threads are named by their indices. -/
theorem indicesToNames_clients (hclients : ∀ i ∈ bits, i < c) :
    (testTable c).indicesToNames bits =
      ((List.range (bits.sup id + 1)).filter (· ∈ bits)).map .int := by
  rw [TranslationTable.indicesToNames, ← List.filterMap_eq_map]
  apply List.filterMap_congr
  intro i hi
  have hmem : i ∈ bits := by simpa using (List.mem_filter.mp hi).2
  exact TranslationTable.indexToName_of_lt (hclients i hmem)

theorem length_filter_bits : ((List.range (bits.sup id + 1)).filter (· ∈ bits)).length =
    bits.card := by
  have hnodup : ((List.range (bits.sup id + 1)).filter (· ∈ bits)).Nodup :=
    List.nodup_range.filter _
  rw [← List.toFinset_card_of_nodup hnodup]
  congr 1
  ext i
  simp only [List.mem_toFinset, List.mem_filter, List.mem_range, decide_eq_true_eq]
  constructor
  · exact fun h => h.2
  · intro hi
    exact ⟨Nat.lt_succ_of_le (Finset.le_sup (f := id) hi), hi⟩

/-- The sorted threads of a client context. -/
theorem View.sortThreads_eq {ctx : Context} (hview : View c bits ctx)
    (hclients : ∀ i ∈ bits, i < c) :
    ∃ threads, sortThreads ctx.allThreads = .ok threads ∧
      ctx.allThreadCount = threads.length ∧ ∀ thread, thread ∈ threads ↔
        ∃ i ∈ bits, thread = .int i := by
  have hnames : ctx.allThreads =
      ((List.range (bits.sup id + 1)).filter (· ∈ bits)).map .int := by
    rw [allThreads, hview.wf.table, hview.all, indicesToNames_clients hclients]
  have hall : ctx.allThreads.all Name.isInteger = true := by
    rw [hnames, List.all_map, List.all_eq_true]
    exact fun _ _ => rfl
  have hperm := List.perm_insertionSort (fun a b => threadLe a b) ctx.allThreads
  refine ⟨_, by rw [sortThreads, if_pos hall], ?_, ?_⟩
  · rw [hperm.length_eq, hnames, List.length_map, length_filter_bits, allThreadCount, hview.all]
  · intro thread
    rw [hperm.mem_iff, hnames, List.mem_map]
    constructor
    · rintro ⟨i, hi, rfl⟩
      exact ⟨i, by simpa using (List.mem_filter.mp hi).2, rfl⟩
    · rintro ⟨i, hi, rfl⟩
      refine ⟨i, List.mem_filter.mpr ⟨?_, by simpa using hi⟩, rfl⟩
      exact List.mem_range.mpr (Nat.lt_succ_of_le (Finset.le_sup (f := id) hi))

end View

/-- A thread of the context has a group, and the group a place for a generator. -/
theorem Grouped.exists_group {K : Type u} {A : Type v} {γ : Type w} {n : ℕ}
    {threads : List Name} {groups : Groups K A γ} (hgrouped : Grouped n threads groups)
    (hn : 0 < n) {thread : Name} (hthread : thread ∈ threads) :
    ∃ group gen, groups.threadToGroup.lookup thread = some group ∧
      groups.gens[group]? = some gen := by
  obtain ⟨i, hi, hget⟩ := List.getElem_of_mem hthread
  obtain ⟨part, hpart⟩ := exists_part hgrouped.dvd hi
  have hmem : (thread, i / n) ∈ makeThreadToGroup (partition n threads) :=
    mem_makeThreadToGroup.mpr ⟨part, hpart,
      (mem_of_getElem?_partition hn hpart).mpr ⟨i, by rw [List.getElem?_eq_getElem hi, hget], rfl⟩⟩
  rw [hgrouped.threadToGroup]
  cases hlookup : (makeThreadToGroup (partition n threads)).lookup thread with
  | none => exact absurd (List.lookup_eq_none_iff.mp hlookup _ hmem) (by simp)
  | some group =>
    obtain ⟨l₁, l₂, hl, -⟩ := List.lookup_eq_some_iff.mp hlookup
    have hgroup : (thread, group) ∈ makeThreadToGroup (partition n threads) := by
      rw [hl]
      simp
    obtain ⟨part', hpart', -⟩ := mem_makeThreadToGroup.mp hgroup
    have hlt : group < groups.gens.length := by
      rw [hgrouped.length_gens]
      exact (getElem?_partition hpart').1
    exact ⟨group, _, rfl, List.getElem?_eq_getElem hlt⟩

/-! ## Any environment -/

variable {K : Type u} {A : Type v} {γ : Type w}

/-- The generator that an event of a thread is meant for. -/
def ConcurrentGenerator.subgenerator (this : ConcurrentGenerator K A γ) (thread : Name) :
    Option (Map γ (Value K A)) :=
  this.groups.bind fun groups =>
    (groups.threadToGroup.lookup thread).bind fun group => (groups.gens[group]?).join

variable [Protocol γ (Value K A)]

section Drives

variable {c n : ℕ} {n_pos : 0 < n} {bits : Bits} {keys : Seq K} {fgen : K → Option γ}

/-- Whether an operation was adopted decides whether the record is initialised. -/
def Initialised (n : ℕ) (bits : Bits) (drives : List (Drive (Value K A)))
    (gen : ConcurrentGenerator K A γ) : Prop :=
  gen.n = n ∧
    ((gen.groups = none ∧ ∀ ctx o, Drive.emit ctx o ∉ drives) ∨
      ∃ groups threads, gen.groups = some groups ∧ Grouped n threads groups ∧
        (∀ i ∈ bits, Name.int i ∈ threads) ∧ ∃ ctx o, Drive.emit ctx o ∈ drives)

theorem Initialised.emit {drives : List (Drive (Value K A))}
    {gen gen' : ConcurrentGenerator K A γ} {ctx : Context} {o : Op (Value K A)}
    {oracle : Oracle} (hclients : ∀ i ∈ bits, i < c) (hview : View c bits ctx)
    (hgen : Initialised n bits drives gen)
    (hop : gen.op oracle ctx = .ok (some (.op o, some gen'))) :
    Initialised n bits (drives ++ [.emit ctx o]) gen' := by
  obtain ⟨groups, taken, keys', gens', offers, offer, hasked, -, hnext⟩ :=
    ConcurrentGenerator.op_eq_op hop
  obtain rfl := Option.some.inj hnext
  obtain ⟨rest, free, order, hstart, -, -, hwalk⟩ := hasked.walked
  have hlength : (gens'.set offer.group offer.gen').length = groups.gens.length := by
    rw [List.length_set, hwalk.length_gens]
  have hnow : Drive.emit ctx o ∈ drives ++ [.emit ctx o] := by simp
  refine ⟨hgen.1, Or.inr ?_⟩
  rcases hgen.2 with ⟨hnone, -⟩ | ⟨groups', threads, hgroups, hgrouped, hthreads, -⟩
  · obtain ⟨threads, hsort, hcount, hmem⟩ := hview.sortThreads_eq hclients
    obtain ⟨hgrouped, -, -⟩ := ConcurrentGenerator.start_of_none hnone hsort hcount hstart
    rw [hgen.1] at hgrouped
    exact ⟨_, threads, rfl, hgrouped.setGens hlength, fun i hi => (hmem _).mpr ⟨i, hi, rfl⟩,
      ctx, o, hnow⟩
  · simp only [ConcurrentGenerator.start, hgroups] at hstart
    obtain ⟨rfl, -⟩ := Prod.mk.inj (Except.ok.inj hstart)
    exact ⟨_, threads, rfl, hgrouped.setGens hlength, hthreads, ctx, o, hnow⟩

theorem Initialised.event {drives : List (Drive (Value K A))}
    {gen gen' : ConcurrentGenerator K A γ} {ctx : Context} {o : Op (Value K A)}
    (hgen : Initialised n bits drives gen) (hupdate : gen.update ctx o = .ok (some gen')) :
    Initialised n bits (drives ++ [.event ctx o]) gen' := by
  obtain ⟨groups, thread, group, v, sub, sub', hgroups, -, -, -, -, -, hnext⟩ :=
    ConcurrentGenerator.update_eq_ok hupdate
  obtain rfl := Option.some.inj hnext
  refine ⟨hgen.1, Or.inr ?_⟩
  rcases hgen.2 with ⟨hnone, -⟩ | ⟨groups', threads, hgroups', hgrouped, hthreads, ctx', o', hmem⟩
  · rw [hnone] at hgroups
    cases hgroups
  · obtain rfl := Option.some.inj (hgroups.symm.trans hgroups')
    exact ⟨_, threads, rfl, hgrouped.setGens (List.length_set ..), hthreads, ctx', o',
      List.mem_append_left _ hmem⟩

theorem initialised_of_run (hclients : ∀ i ∈ bits, i < c)
    {drives : List (Drive (Value K A))} {g : Option (ConcurrentGenerator K A γ)}
    (hrun : Run (fun g drive g' => Driven g drive g' ∧ View c bits drive.ctx)
      (some (.init n n_pos keys fgen)) drives g) :
    ∃ gen, g = some gen ∧ Initialised n bits drives gen := by
  induction hrun with
  | nil => exact ⟨_, rfl, rfl, Or.inl ⟨rfl, fun _ _ h => by cases h⟩⟩
  | snoc _ hlast ih =>
    obtain ⟨gen, rfl, hgen⟩ := ih
    obtain ⟨hdriven, hview⟩ := hlast
    cases hdriven with
    | emit oracle hoffered =>
      obtain ⟨_, _, _, _, _, _, -, -, rfl⟩ := ConcurrentGenerator.op_eq_op hoffered
      exact ⟨_, rfl, hgen.emit hclients hview hoffered⟩
    | discard oracle hasked =>
      refine ⟨gen, rfl, hgen.1, ?_⟩
      rcases hgen.2 with ⟨hnone, hnot⟩ | ⟨groups, threads, hgroups, hgrouped, hthreads, ctx', o', h⟩
      · refine Or.inl ⟨hnone, fun ctx' o' hmem => ?_⟩
        rcases List.mem_append.mp hmem with hold | hnew
        · exact hnot ctx' o' hold
        · simp at hnew
      · exact Or.inr ⟨groups, threads, hgroups, hgrouped, hthreads, ctx', o',
          List.mem_append_left _ h⟩
    | event hupdated =>
      obtain ⟨_, _, _, _, _, _, -, -, -, -, -, -, rfl⟩ :=
        ConcurrentGenerator.update_eq_ok hupdated
      exact ⟨_, rfl, hgen.event hupdated⟩

/-- In every reachable state, telling the generator of a client's event returns if
and only if one of its operations was adopted before, the event's value is a
tuple, and the generator of the client's group accepts the event. -/
theorem update_returns_iff (hclients : ∀ i ∈ bits, i < c)
    {drives : List (Drive (Value K A))} {gen : ConcurrentGenerator K A γ}
    (hrun : Run (fun g drive g' => Driven g drive g' ∧ View c bits drive.ctx)
      (some (.init n n_pos keys fgen)) drives (some gen))
    {ctx : Context} {event : Op (Value K A)} {i : ℕ} (hi : i ∈ bits)
    (hexecutes : ctx.processToThread event.process = some (.int i)) :
    (∃ gen', gen.update ctx event = .ok gen') ↔
      (∃ ctx o, Drive.emit ctx o ∈ drives) ∧ ∃ k v, event.value = .tuple k v ∧
        ∃ sub, update (gen.subgenerator (.int i)) ctx { event with value := v } = .ok sub := by
  obtain ⟨_, heq, hn, hgen⟩ := initialised_of_run hclients hrun
  obtain rfl := Option.some.inj heq
  rcases hgen with ⟨hnone, hnot⟩ | ⟨groups, threads, hgroups, hgrouped, hthreads, ctx', o', hmem⟩
  · constructor
    · rintro ⟨gen', hupdate⟩
      simp [ConcurrentGenerator.update, hnone] at hupdate
    · rintro ⟨⟨ctx, o, hadopted⟩, -⟩
      exact absurd hadopted (hnot ctx o)
  · obtain ⟨group, sub, hlookup, hsub⟩ := hgrouped.exists_group n_pos (hthreads i hi)
    have hthis : gen.subgenerator (.int i) = sub := by
      simp [ConcurrentGenerator.subgenerator, hgroups, hlookup, hsub]
    rw [hthis]
    constructor
    · rintro ⟨gen', hupdate⟩
      obtain ⟨groups', thread, group', v, sub₀, sub', hgroups', hthread, hlookup', hv, hsub₀,
        hinner, -⟩ := ConcurrentGenerator.update_eq_ok hupdate
      obtain rfl := Option.some.inj (hgroups.symm.trans hgroups')
      obtain rfl := Option.some.inj (hexecutes.symm.trans hthread)
      obtain rfl := Option.some.inj (hlookup.symm.trans hlookup')
      obtain rfl := Option.some.inj (hsub.symm.trans hsub₀)
      obtain ⟨k, hvalue⟩ := Value.val_eq_ok.mp hv
      exact ⟨⟨ctx', o', hmem⟩, k, v, hvalue, sub', hinner⟩
    · rintro ⟨-, k, v, hvalue, sub', hinner⟩
      simp only [ConcurrentGenerator.update, hgroups, hexecutes, Option.bind_some, hlookup, hsub,
        hvalue, Value.val, hinner]
      exact ⟨_, rfl⟩

end Drives

theorem view_clients (c : ℕ) : View c (Finset.range c) (clientView (context c)) :=
  ⟨wellFormed_clientView (whole_context c), clientView_all (whole_context c)⟩

/-- After its first operation was adopted, the generator accepts the invocation. -/
theorem update_returns_iff_reads :
    ∃ (gen : ConcurrentGenerator ℕ ℕ (OpMap (Value ℕ ℕ))) (o : Op (Value ℕ ℕ)),
      Run (fun g drive g' => Driven g drive g' ∧ View 1 (Finset.range 1) drive.ctx)
        (some (.init 1 Nat.one_pos (Seq.ofList [7]) fun _ => some (reads none)))
        [.emit (clientView (context 1)) o] (some gen) ∧
      ((∃ gen', gen.update (clientView (context 1)) o = .ok gen') ↔
        (∃ ctx o', Drive.emit ctx o' ∈ [Drive.emit (clientView (context 1)) o]) ∧
          ∃ k v, o.value = .tuple k v ∧ ∃ sub, update (gen.subgenerator (.int 0))
            (clientView (context 1)) { o with value := v } = .ok sub) := by
  have hrun : ∃ (gen : ConcurrentGenerator ℕ ℕ (OpMap (Value ℕ ℕ))) (o : Op (Value ℕ ℕ)),
      Run (fun g drive g' => Driven g drive g' ∧ View 1 (Finset.range 1) drive.ctx)
        (some (.init 1 Nat.one_pos (Seq.ofList [7]) fun _ => some (reads none)))
        [.emit (clientView (context 1)) o] (some gen) ∧
      (clientView (context 1)).processToThread o.process = some (.int 0) :=
    ⟨_, _, .snoc .nil ⟨.emit ⟨1, fun _ => 0⟩ rfl, view_clients 1⟩, rfl⟩
  obtain ⟨gen, o, hrun, hexecutes⟩ := hrun
  exact ⟨gen, o, hrun, update_returns_iff (fun i hi => Finset.mem_range.mp hi) hrun
    (Finset.mem_range.mpr Nat.one_pos) hexecutes⟩

/-- `(sleep 1)`, as a key's generator. -/
def sleeps : OpMap (Value ℕ ℕ) := { type := some .sleep, value := .plain 1 }

/-- Before its first operation is adopted, the generator throws on any event;
after that, it throws on the `:sleep` it emitted itself. -/
theorem update_throws :
    (ConcurrentGenerator.init 1 Nat.one_pos (Seq.ofList [7]) fun _ => some sleeps :
        ConcurrentGenerator ℕ ℕ (OpMap (Value ℕ ℕ))).update (clientView (context 1))
      ⟨0, 0, .invoke, .int 0, some "read", .tuple 7 .nil, false, none⟩ = .error .nullPointer ∧
    ∃ (gen : ConcurrentGenerator ℕ ℕ (OpMap (Value ℕ ℕ))) (o : Op (Value ℕ ℕ)),
      Run (fun g drive g' => Driven g drive g' ∧ View 1 (Finset.range 1) drive.ctx)
        (some (.init 1 Nat.one_pos (Seq.ofList [7]) fun _ => some sleeps))
        [.emit (clientView (context 1)) o] (some gen) ∧
      o.type = .sleep ∧ gen.update (clientView (context 1)) o = .error .classCast := by
  refine ⟨rfl, _, _, .snoc .nil ⟨.emit ⟨1, fun _ => 0⟩ rfl, view_clients 1⟩, ?_, ?_⟩
  · rfl
  · rfl

end Jepsen.Independent
