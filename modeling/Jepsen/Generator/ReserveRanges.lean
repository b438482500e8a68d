/-
# Who sees what in a reserve

A generator is confined to some threads if it fails in every context of other threads. A
reserve gives each of its generators only contexts of its own threads if confining the
generators to them makes no call fail. Asking for operations does that, as long as the
threads of the ranges exist; events are passed on in the context the reserve itself is
given.
-/

import Jepsen.Generator.Reserve
import Jepsen.Generator.OpMap

namespace Jepsen.Generator

open Jepsen.History Jepsen.Library

universe u v

variable {γ : Type v} {V : Type u}

/-! ## Confined generators -/

/-- A generator that fails in every context of other threads. -/
structure Confined (γ : Type v) where
  threads : Finset Name
  gen : γ

namespace Confined

variable [Protocol γ V]

def op (oracle : Oracle) (this : Confined γ) (ctx : Context) :
    Except Thrown (Option (Answer V × Option (Confined γ))) :=
  if ctx.allThreads.toFinset = this.threads then
    match Protocol.op oracle this.gen ctx with
    | .error t => .error t
    | .ok none => .ok none
    | .ok (some (answer, gen')) => .ok (some (answer, gen'.map (⟨this.threads, ·⟩)))
  else .error (.threw "asked in a context of other threads")

def update (this : Confined γ) (ctx : Context) (event : Op V) :
    Except Thrown (Option (Confined γ)) :=
  if ctx.allThreads.toFinset = this.threads then
    match Protocol.update this.gen ctx event with
    | .error t => .error t
    | .ok gen' => .ok (gen'.map (⟨this.threads, ·⟩))
  else .error (.threw "updated in a context of other threads")

instance : Protocol (Confined γ) V where
  op := op
  update := update

variable {gen : Option γ} {ctx : Context} {threads : Finset Name}

/-- In its own context, a confined generator offers what the generator does. -/
theorem op_eq_ok {oracle : Oracle} {answer : Option (Answer V × Option γ)}
    (hthreads : gen ≠ none → ctx.allThreads.toFinset = threads)
    (hop : Generator.op oracle gen ctx = .ok answer) :
    Generator.op oracle (gen.map (⟨threads, ·⟩ : γ → Confined γ)) ctx =
      .ok (answer.map fun p => (p.1, p.2.map (⟨threads, ·⟩))) := by
  cases gen with
  | none =>
    cases hop
    rfl
  | some gen =>
    change Confined.op oracle ⟨threads, gen⟩ ctx = _
    rw [Confined.op, if_pos (hthreads (Option.some_ne_none gen))]
    change Protocol.op oracle gen ctx = _ at hop
    rw [hop]
    cases answer <;> rfl

/-- One that does not fail is in its own context. -/
theorem threads_of_op {oracle : Oracle} {answer : Option (Answer V × Option (Confined γ))}
    (hop : Generator.op oracle (gen.map (⟨threads, ·⟩ : γ → Confined γ)) ctx = .ok answer)
    (hgen : gen ≠ none) : ctx.allThreads.toFinset = threads := by
  obtain ⟨gen, rfl⟩ := Option.ne_none_iff_exists'.mp hgen
  change Confined.op oracle ⟨threads, gen⟩ ctx = _ at hop
  unfold Confined.op at hop
  split at hop
  · assumption
  · cases hop

theorem update_iff {event : Op V} {gen' : Option γ}
    (hupdate : Generator.update gen ctx event = .ok gen') :
    (∃ c, Generator.update (gen.map (⟨threads, ·⟩ : γ → Confined γ)) ctx event = .ok c) ↔
      (gen ≠ none → ctx.allThreads.toFinset = threads) := by
  cases gen with
  | none => exact iff_of_true ⟨none, rfl⟩ fun h => absurd rfl h
  | some gen =>
    change (∃ c, Confined.update ⟨threads, gen⟩ ctx event = .ok c) ↔ _
    change Protocol.update gen ctx event = _ at hupdate
    unfold Confined.update
    by_cases hthreads : ctx.allThreads.toFinset = threads
    · rw [if_pos hthreads, hupdate]
      exact iff_of_true ⟨_, rfl⟩ fun _ => hthreads
    · rw [if_neg hthreads]
      refine iff_of_false (fun h => ?_) fun h => hthreads (h (Option.some_ne_none gen))
      obtain ⟨c, hc⟩ := h
      cases hc

end Confined

/-! ## Threads of a context -/

theorem mem_allThreads_lazyThreadFilter {pred : Name → Bool} {ctx : Context} {thread : Name} :
    thread ∈ (ctx.lazyThreadFilter pred).allThreads ↔
      thread ∈ ctx.allThreads ∧ pred thread = true := by
  rw [Context.allThreads, Context.allThreads, TranslationTable.mem_indicesToNames,
    TranslationTable.mem_indicesToNames]
  simp only [Context.lazyThreadFilter, Context.makeThreadFilter, Finset.mem_inter,
    Finset.mem_filter]
  constructor
  · intro h
    obtain ⟨i, ⟨⟨hi, hpred⟩, -⟩, hname⟩ := h
    rw [hname] at hpred
    exact ⟨⟨i, hi, hname⟩, hpred⟩
  · intro h
    obtain ⟨⟨i, hi, hname⟩, hpred⟩ := h
    refine ⟨i, ⟨⟨hi, ?_⟩, hi⟩, hname⟩
    rw [hname]
    exact hpred

/-- The contexts of a set of threads. -/
def ContextOf (threads : Finset Name) : Type :=
  { ctx : Context // ctx.allThreads.toFinset = threads }

variable {threads : Finset Name}

theorem ContextOf.mem_allThreads (ctx : ContextOf threads) {thread : Name} :
    thread ∈ ctx.1.allThreads ↔ thread ∈ threads :=
  List.mem_toFinset.symm.trans (Finset.ext_iff.mp ctx.2 thread)

namespace Reserve

/-- The threads of a generator: its range, or what the ranges leave. -/
def own (this : Reserve γ) (threads : Finset Name) (i : ℕ) : Finset Name :=
  match this.ranges[i]? with
  | some range => range
  | none => threads \ this.allRanges

theorem mem_allRanges (this : Reserve γ) {thread : Name} :
    thread ∈ this.allRanges ↔ ∃ range ∈ this.ranges, thread ∈ range := by
  have hfold : ∀ (ranges : List (Finset Name)) (before : Finset Name),
      thread ∈ ranges.foldl (· ∪ ·) before ↔
        thread ∈ before ∨ ∃ range ∈ ranges, thread ∈ range := by
    intro ranges
    induction ranges with
    | nil => simp
    | cons range ranges ih =>
      intro before
      rw [List.foldl_cons, ih, Finset.mem_union, List.exists_mem_cons_iff, or_assoc]
  rw [allRanges, hfold]
  simp

/-- A generator is asked in a context of its own threads if they exist. -/
theorem contextFilter_threads_iff (this : Reserve γ) (ctx : ContextOf threads) (i : ℕ) :
    (this.contextFilter i ctx.1).allThreads.toFinset = this.own threads i ↔
      ∀ range, this.ranges[i]? = some range → range ⊆ threads := by
  rw [contextFilter, own]
  cases hrange : this.ranges[i]? with
  | none =>
    refine iff_of_true ?_ fun range h => by cases h
    ext thread
    rw [List.mem_toFinset, mem_allThreads_lazyThreadFilter, ctx.mem_allThreads, Finset.mem_sdiff,
      decide_eq_true_iff]
  | some range =>
    have hmem : ∀ thread, thread ∈ (ctx.1.lazyThreadFilter
        fun thread => decide (thread ∈ range)).allThreads.toFinset ↔
          thread ∈ threads ∧ thread ∈ range := by
      intro thread
      rw [List.mem_toFinset, mem_allThreads_lazyThreadFilter, ctx.mem_allThreads,
        decide_eq_true_iff]
    constructor
    · intro h range' hrange' thread hthread
      rw [← Option.some.inj hrange'] at hthread
      exact ((hmem thread).mp (h ▸ hthread)).1
    · intro h
      ext thread
      rw [hmem]
      exact and_iff_right_of_imp fun hthread => h range rfl hthread

/-! ## Owners -/

theorem indexOf_of_mem {ranges : List (Finset Name)} (hdisjoint : ranges.Pairwise Disjoint)
    {thread : Name} {j : ℕ} {range : Finset Name} (hj : ranges[j]? = some range)
    (hthread : thread ∈ range) (i : ℕ) : indexOf (some thread) ranges i = i + j := by
  induction ranges generalizing i j with
  | nil => cases hj
  | cons first ranges ih =>
    obtain ⟨hfirst, hrest⟩ := List.pairwise_cons.mp hdisjoint
    cases j with
    | zero =>
      obtain rfl := Option.some.inj hj
      exact if_pos hthread
    | succ j =>
      have hmem : range ∈ ranges := List.mem_of_getElem? hj
      have hnot : thread ∉ first := fun h =>
        Finset.disjoint_left.mp (hfirst range hmem) h hthread
      rw [indexOf, if_neg hnot, ih hrest hj, Nat.add_right_comm, Nat.add_assoc]

theorem indexOf_of_not_mem {ranges : List (Finset Name)} {thread : Name}
    (hthread : ∀ range ∈ ranges, thread ∉ range) (i : ℕ) :
    indexOf (some thread) ranges i = i + ranges.length := by
  induction ranges generalizing i with
  | nil => rfl
  | cons first ranges ih =>
    rw [List.forall_mem_cons] at hthread
    rw [indexOf, if_neg hthread.1, ih hthread.2, List.length_cons, Nat.add_right_comm,
      Nat.add_assoc]

/-- A thread of a generator's own threads has the generator's index. -/
theorem indexOf_of_mem_own (this : Reserve γ) {thread : Name} {i : ℕ}
    (hi : i ≤ this.ranges.length) (hthread : thread ∈ this.own threads i) :
    indexOf (some thread) this.ranges 0 = i := by
  rw [own] at hthread
  cases hrange : this.ranges[i]? with
  | some range =>
    rw [hrange] at hthread
    rw [indexOf_of_mem this.disjoint hrange hthread, Nat.zero_add]
  | none =>
    rw [hrange] at hthread
    have hlength : i = this.ranges.length := le_antisymm hi (List.getElem?_eq_none_iff.mp hrange)
    have hnot := (Finset.mem_sdiff.mp hthread).2
    rw [mem_allRanges] at hnot
    rw [indexOf_of_not_mem (fun range hmem h => hnot ⟨range, hmem, h⟩), Nat.zero_add, hlength]

/-! ## Confined reserves -/

/-- The reserve with every generator confined to its own threads. -/
def confine (this : Reserve γ) (threads : Finset Name) : Reserve (Confined γ) where
  ranges := this.ranges
  gens := this.gens.mapIdx fun i gen => gen.map (⟨this.own threads i, ·⟩)
  disjoint := this.disjoint
  length_gens := List.length_mapIdx.trans this.length_gens

@[simp]
theorem confine_ranges (this : Reserve γ) : (this.confine threads).ranges = this.ranges := rfl

theorem gen_confine (this : Reserve γ) (i : ℕ) :
    (this.confine threads).gen i = (this.gen i).map (⟨this.own threads i, ·⟩) := by
  rw [gen, gen, confine, List.getElem?_mapIdx]
  cases this.gens[i]? <;> rfl

/-- An offer of a confined generator. -/
def Offer.confine (this : Reserve γ) (threads : Finset Name) (offer : Offer γ) :
    Offer (Confined γ) :=
  ⟨offer.i, offer.gen'.map (⟨this.own threads offer.i, ·⟩)⟩

/-- The generator is exhausted, or asked in a context of its own threads. -/
def Fits (this : Reserve γ) (ctx : ContextOf threads) (i : ℕ) : Prop :=
  this.gen i ≠ none → (this.contextFilter i ctx.1).allThreads.toFinset = this.own threads i

variable [Protocol γ V] {oracle : Oracle} {this : Reserve γ} {ctx : ContextOf threads}

theorem op_gen_confine {oracle : Oracle} {i : ℕ} {answer : Option (Answer V × Option γ)}
    (hfits : this.Fits ctx i)
    (hop : Generator.op oracle (this.gen i) (this.contextFilter i ctx.1) = .ok answer) :
    Generator.op oracle ((this.confine threads).gen i)
        ((this.confine threads).contextFilter i ctx.1) =
      .ok (answer.map fun p => (p.1, p.2.map (⟨this.own threads i, ·⟩))) := by
  rw [gen_confine]
  exact Confined.op_eq_ok hfits hop

theorem askRanges_confine {asked : List (Finset Name × ℕ)}
    {soonest result : Option (Candidate V (Offer γ))}
    (hfits : ∀ p ∈ asked, this.Fits ctx p.2)
    (hask : askRanges oracle this ctx.1 asked soonest = .ok result) :
    askRanges oracle (this.confine threads) ctx.1 asked
        (soonest.map (·.withPayload (Offer.confine this threads))) =
      .ok (result.map (·.withPayload (Offer.confine this threads))) := by
  induction asked generalizing soonest with
  | nil =>
    cases hask
    rfl
  | cons p asked ih =>
    obtain ⟨range, i⟩ := p
    rw [List.forall_mem_cons] at hfits
    rw [askRanges] at hask
    split at hask
    · cases hask
    · rename_i hop
      rw [askRanges, op_gen_confine hfits.1 hop]
      exact ih hfits.2 hask
    · rename_i answer gen' hop
      rw [askRanges, op_gen_confine hfits.1 hop]
      have hrest := ih hfits.2 hask
      rw [← soonestOpMap_withPayload] at hrest
      exact hrest

theorem fits_of_askRanges_confine {asked : List (Finset Name × ℕ)}
    {soonest result : Option (Candidate V (Offer (Confined γ)))}
    (hask : askRanges oracle (this.confine threads) ctx.1 asked soonest = .ok result) :
    ∀ p ∈ asked, this.Fits ctx p.2 := by
  induction asked generalizing soonest with
  | nil => exact fun p hp => absurd hp List.not_mem_nil
  | cons p asked ih =>
    obtain ⟨range, i⟩ := p
    rw [List.forall_mem_cons]
    rw [askRanges, gen_confine] at hask
    split at hask
    · cases hask
    · rename_i hop
      exact ⟨Confined.threads_of_op hop, ih hask⟩
    · rename_i hop
      exact ⟨Confined.threads_of_op hop, ih hask⟩

/-- Asked in a context, the confined reserve answers if and only if every generator that is not
exhausted is asked in a context of its own threads. -/
theorem soonest_confine_iff {result : Option (Candidate V (Offer γ))}
    (hsoonest : this.soonest oracle ctx.1 = .ok result) :
    (∃ c, (this.confine threads).soonest oracle ctx.1 = .ok c) ↔
      ∀ i ≤ this.ranges.length, this.Fits ctx i := by
  have hasked : (∀ i ≤ this.ranges.length, this.Fits ctx i) ↔
      this.Fits ctx this.ranges.length ∧ ∀ p ∈ this.ranges.zipIdx, this.Fits ctx p.2 := by
    constructor
    · intro h
      refine ⟨h _ le_rfl, fun p hp => h _ ?_⟩
      exact (List.snd_lt_of_mem_zipIdx hp).le.trans_eq (Nat.add_zero _)
    · intro h i hi
      cases hi.eq_or_lt with
      | inl heq => exact heq ▸ h.1
      | inr hlt =>
        refine h.2 (this.ranges[i], i) ?_
        rw [List.mem_zipIdx_iff_getElem?]
        exact List.getElem?_eq_getElem hlt
  rw [hasked]
  constructor
  · intro h
    obtain ⟨c, hc⟩ := h
    unfold soonest at hc
    dsimp only at hc
    split at hc
    · cases hc
    · rename_i hop
      rw [gen_confine] at hop
      exact ⟨Confined.threads_of_op hop, fits_of_askRanges_confine hc⟩
    · rename_i hop
      rw [gen_confine] at hop
      exact ⟨Confined.threads_of_op hop, fits_of_askRanges_confine hc⟩
  · intro h
    unfold soonest at hsoonest ⊢
    dsimp only at hsoonest ⊢
    split at hsoonest
    · cases hsoonest
    · rename_i hop
      have hdefault := op_gen_confine h.1 hop
      rw [confine_ranges, hdefault]
      exact ⟨_, askRanges_confine h.2 hsoonest⟩
    · rename_i answer gen' hop
      have hdefault := op_gen_confine h.1 hop
      rw [confine_ranges, hdefault]
      exact ⟨_, askRanges_confine h.2 hsoonest⟩

/-! ## Calls -/

/-- A call to a reserve, in a context of some threads. An operation that is offered is adopted
or not. -/
inductive Call (V : Type u) (threads : Finset Name)
  | op (oracle : Oracle) (ctx : ContextOf threads) (adopted : Bool)
  | update (ctx : ContextOf threads) (event : Op V)

/-- The reserve after a call. Neither `op` nor `update` leaves `nil` behind. -/
def call (this : Reserve γ) : Call V threads → Except Thrown (Reserve γ)
  | .op oracle ctx adopted =>
      match this.op oracle ctx.1 with
      | .error t => .error t
      | .ok none => .ok this
      | .ok (some (_, next)) => .ok (if adopted then next.getD this else this)
  | .update ctx event =>
      match this.update ctx.1 event with
      | .error t => .error t
      | .ok next => .ok (next.getD this)

/-- The calls made to a reserve, one after another. -/
def Step (this : Reserve γ) (l : Call V threads) (next : Reserve γ) : Prop := this.call l = .ok next

/-- The operation that an adopted answer has, and the index of the generator that offered it. -/
def Emits (this : Reserve γ) (l : Call V threads) (i : ℕ) (ctx : ContextOf threads) (o : Op V) :
    Prop :=
  ∃ oracle m, l = .op oracle ctx true ∧ this.soonest oracle ctx.1 = .ok (some m) ∧
    m.op = .op o ∧ m.payload.i = i

/-- In this call, every generator is given contexts of its own threads only, an operation is
performed by a thread of the generator that emits it, and an event goes to the generator of
its thread, and to no other. -/
structure Respected (this : Reserve γ) (l : Call V threads) : Prop where
  contexts : ∃ next, (this.confine threads).call l = .ok next
  emitted : ∀ i ctx o, this.Emits l i ctx o →
    ∃ thread ∈ this.own threads i, ctx.1.processToThread o.process = some thread
  delivered : ∀ ctx event, l = .update ctx event →
    ∀ thread i, ctx.1.processToThread event.process = some thread → i ≤ this.ranges.length →
      thread ∈ this.own threads i → ∀ next, this.call l = .ok next →
        ∃ gen', Generator.update (this.gen i) ctx.1 event = .ok gen' ∧ next = this.assoc i gen'

/-- Asked for an operation, a reserve has no generator whose range has a thread that does not
exist, and the one whose operation is adopted picked a process of the context it was asked in;
told of an event, it has no threads but those of the event's generator. An exhausted
generator's threads do not matter. -/
structure InRange (this : Reserve γ) (l : Call V threads) : Prop where
  asked : ∀ oracle ctx adopted, l = .op oracle ctx adopted →
    ∀ i range, this.ranges[i]? = some range → this.gen i ≠ none → range ⊆ threads
  picked : ∀ i ctx o, this.Emits l i ctx o →
    ∃ thread ∈ (this.contextFilter i ctx.1).allThreads,
      ctx.1.processToThread o.process = some thread
  told : ∀ ctx event, l = .update ctx event →
    let i := indexOf (ctx.1.processToThread event.process) this.ranges 0
    this.gen i ≠ none → this.own threads i = threads

theorem call_op_eq (this : Reserve γ) (oracle : Oracle) (ctx : ContextOf threads)
    (adopted : Bool) :
    this.call (V := V) (.op oracle ctx adopted) =
      match this.soonest (V := V) oracle ctx.1 with
      | .error t => .error t
      | .ok none => .ok this
      | .ok (some m) => .ok (if adopted then this.assoc m.payload.i m.payload.gen' else this) := by
  cases hsoonest : this.soonest (V := V) oracle ctx.1 with
  | error t => simp only [call, op, hsoonest]
  | ok m => cases m <;> simp only [call, op, hsoonest, Option.getD_some]

/-- A call to `op` succeeds if the generators answer. -/
theorem exists_call_op_iff {adopted : Bool} :
    (∃ c, this.call (V := V) (.op oracle ctx adopted) = .ok c) ↔
      ∃ c, this.soonest (V := V) oracle ctx.1 = .ok c := by
  rw [call_op_eq]
  cases this.soonest (V := V) oracle ctx.1 with
  | error t => simp
  | ok m => cases m <;> simp

/-- A call to `op` that succeeds does so with confined generators if and only if the threads
of their ranges exist. -/
theorem call_op_confine_iff {adopted : Bool} {next : Reserve γ}
    (hcall : this.call (V := V) (.op oracle ctx adopted) = .ok next) :
    (∃ c, (this.confine threads).call (V := V) (.op oracle ctx adopted) = .ok c) ↔
      ∀ i range, this.ranges[i]? = some range → this.gen i ≠ none → range ⊆ threads := by
  obtain ⟨m, hm⟩ := exists_call_op_iff.mp ⟨next, hcall⟩
  rw [exists_call_op_iff, soonest_confine_iff hm]
  constructor
  · intro h i range hrange hgen
    have hlt : i < this.ranges.length := (List.getElem?_eq_some_iff.mp hrange).1
    exact (this.contextFilter_threads_iff ctx i).mp (h i hlt.le hgen) range hrange
  · intro h i _ hgen
    rw [contextFilter_threads_iff]
    exact fun range hrange => h i range hrange hgen

/-- An event is passed on to the generator of its thread. -/
theorem call_update_eq_ok {event : Op V} {next : Reserve γ}
    (hcall : this.call (.update ctx event) = .ok next) :
    ∃ gen', Generator.update
        (this.gen (indexOf (ctx.1.processToThread event.process) this.ranges 0)) ctx.1 event =
          .ok gen' ∧
      next = this.assoc (indexOf (ctx.1.processToThread event.process) this.ranges 0) gen' := by
  rw [call] at hcall
  unfold update at hcall
  dsimp only at hcall
  split at hcall
  · cases hcall
  · rename_i gen' hnext
    split at hnext
    · cases hnext
    · rename_i gen'' hgen
      cases hnext
      exact ⟨gen'', hgen, (Except.ok.inj hcall).symm⟩

/-- With confined generators it is if and only if that generator has all the threads. -/
theorem call_update_confine_iff {event : Op V} {next : Reserve γ}
    (hcall : this.call (.update ctx event) = .ok next) :
    (∃ c, (this.confine threads).call (.update ctx event) = .ok c) ↔
      (this.gen (indexOf (ctx.1.processToThread event.process) this.ranges 0) ≠ none →
        this.own threads (indexOf (ctx.1.processToThread event.process) this.ranges 0) =
          threads) := by
  obtain ⟨gen', hgen, -⟩ := call_update_eq_ok hcall
  have hconfined : (∃ c, Generator.update (Option.map (⟨this.own threads
      (indexOf (ctx.1.processToThread event.process) this.ranges 0), ·⟩ : γ → Confined γ)
        (this.gen (indexOf (ctx.1.processToThread event.process) this.ranges 0)))
          ctx.1 event = .ok c) ↔ _ := Confined.update_iff hgen
  rw [ctx.2] at hconfined
  rw [eq_comm (a := this.own threads _), ← hconfined]
  constructor
  · intro h
    obtain ⟨c, hc⟩ := h
    obtain ⟨c', hc', -⟩ := call_update_eq_ok hc
    rw [gen_confine] at hc'
    exact ⟨c', hc'⟩
  · intro h
    obtain ⟨c, hc⟩ := h
    rw [← gen_confine] at hc
    refine ⟨(this.confine threads).assoc
      (indexOf (ctx.1.processToThread event.process) this.ranges 0) c, ?_⟩
    rw [call, update, confine_ranges, hc]
    rfl

/-- Whoever offers the soonest operation is not exhausted. -/
theorem gen_of_askRanges {asked : List (Finset Name × ℕ)}
    {soonest : Option (Candidate V (Offer γ))} {m : Candidate V (Offer γ)}
    (hsoonest : ∀ m', soonest = some m' → this.gen m'.payload.i ≠ none)
    (hask : askRanges oracle this ctx.1 asked soonest = .ok (some m)) :
    this.gen m.payload.i ≠ none := by
  induction asked generalizing soonest with
  | nil => exact hsoonest m (Except.ok.inj hask)
  | cons p asked ih =>
    obtain ⟨range, i⟩ := p
    rw [askRanges] at hask
    split at hask
    · cases hask
    · exact ih hsoonest hask
    · rename_i answer gen' hop
      refine ih (fun m' hm' => ?_) hask
      obtain ⟨m'', hm'', -, hpayload⟩ := soonestOpMap_eq_some hm'
      rw [hpayload]
      cases hm'' with
      | inl hfirst => exact hsoonest m'' hfirst
      | inr hsecond =>
        obtain rfl := Option.some.inj hsecond
        intro hgen
        rw [hgen] at hop
        cases hop

theorem gen_of_soonest {m : Candidate V (Offer γ)}
    (hsoonest : this.soonest oracle ctx.1 = .ok (some m)) : this.gen m.payload.i ≠ none := by
  unfold soonest at hsoonest
  dsimp only at hsoonest
  split at hsoonest
  · cases hsoonest
  · exact gen_of_askRanges (fun m' hm' => (by cases hm')) hsoonest
  · rename_i answer gen' hop
    refine gen_of_askRanges (fun m' hm' => ?_) hsoonest
    obtain rfl := Option.some.inj hm'
    intro hgen
    rw [hgen] at hop
    cases hop

/-! ## Runs -/

/-- A call that succeeds respects the generators' threads if and only if it is in range. -/
theorem respected_iff {l : Call V threads} {next : Reserve γ} (hcall : this.call l = .ok next) :
    this.Respected l ↔ this.InRange l := by
  cases l with
  | op oracle ctx adopted =>
    have hcontexts := call_op_confine_iff hcall
    -- in its own context, a generator picks its own threads
    have hthreads : (∀ i range, this.ranges[i]? = some range → this.gen i ≠ none →
        range ⊆ threads) → ∀ i ctx' o, this.Emits (.op oracle ctx adopted) i ctx' o →
          ∀ thread, thread ∈ (this.contextFilter i ctx'.1).allThreads ↔
            thread ∈ this.own threads i := by
      intro hranges i ctx' o hemits thread
      obtain ⟨oracle', m, hl, hsoonest, -, rfl⟩ := hemits
      have hgen := gen_of_soonest hsoonest
      rw [← (this.contextFilter_threads_iff ctx' _).mpr fun range hrange =>
        hranges _ range hrange hgen, List.mem_toFinset]
    constructor
    · intro h
      have hranges := hcontexts.mp h.contexts
      refine ⟨fun _ _ _ _ => hranges, fun i ctx' o hemits => ?_, fun _ _ hl => (by cases hl)⟩
      obtain ⟨thread, hthread, hexecutes⟩ := h.emitted i ctx' o hemits
      exact ⟨thread, (hthreads hranges i ctx' o hemits thread).mpr hthread, hexecutes⟩
    · intro h
      have hranges := h.asked oracle ctx adopted rfl
      refine ⟨hcontexts.mpr hranges, fun i ctx' o hemits => ?_, fun _ _ hl => (by cases hl)⟩
      obtain ⟨thread, hthread, hexecutes⟩ := h.picked i ctx' o hemits
      exact ⟨thread, (hthreads hranges i ctx' o hemits thread).mp hthread, hexecutes⟩
  | update ctx event =>
    have hcontexts := call_update_confine_iff hcall
    have hnot : ∀ i ctx' o, ¬ this.Emits (.update ctx event) i ctx' o := by
      intro i ctx' o hemits
      obtain ⟨oracle, m, hl, -⟩ := hemits
      cases hl
    constructor
    · intro h
      refine ⟨fun _ _ _ hl => (by cases hl), fun i ctx' o hemits => absurd hemits (hnot i ctx' o),
        fun ctx' event' hl => ?_⟩
      cases hl
      exact hcontexts.mp h.contexts
    · intro h
      refine ⟨hcontexts.mpr (h.told ctx event rfl),
        fun i ctx' o hemits => absurd hemits (hnot i ctx' o), fun ctx' event' hl => ?_⟩
      cases hl
      intro thread i hexecutes hi hthread next' hnext
      obtain ⟨gen', hgen, rfl⟩ := call_update_eq_ok hnext
      rw [hexecutes, this.indexOf_of_mem_own hi hthread] at hgen
      rw [hexecutes, this.indexOf_of_mem_own hi hthread]
      exact ⟨gen', hgen, rfl⟩

section Example

/-- A reserve of one thread for writes. -/
def writes : Reserve (OpMap ℕ) := reserve [(1, some { f := some "write", value := 1 })]
  { f := some "read", value := 0 }

/-- The threads of a test of concurrency 2. -/
def twoClients : Finset Name := (Context.context 2).allThreads.toFinset

/-- Thread 0 invokes a write. -/
def writeInvoked : Call ℕ twoClients :=
  .update ⟨Context.context 2, rfl⟩ ⟨0, 0, .invoke, .int 0, some "write", 1, false, none⟩

theorem run_writeInvoked : Run Step writes [writeInvoked] writes :=
  .snoc .nil rfl

end Example

end Reserve

end Jepsen.Generator
