/-
# What causal-reverse reports

A value precedes another if its write was acknowledged before the other's was
invoked. A read should be reported with the predecessors of its items that it
lacks. This is what happens as long as the difference of the two collections is
the set difference.
-/

import Jepsen.Tests.CausalReverse

namespace Jepsen.Tests.CausalReverse

open Jepsen.History Jepsen.Library Jepsen.Library.ClojureSet
open Jepsen.Generator (Name)

/-! ## Precedence -/

/-- The write of `w` was acknowledged before the write of `v` was invoked. -/
def Precedes (history : List CausalOp) (w v : ℤ) : Prop :=
  ∃ pre inv post, history = pre ++ inv :: post ∧ inv.type = .invoke ∧ inv.call = .write v ∧
    ∃ ack ∈ pre, ack.type = .ok ∧ ack.call = .write w

/-- The read has some value and lacks one that precedes it. -/
def Lacks (history : List CausalOp) (seen : Option Coll) (w : ℤ) : Prop :=
  (∃ v ∈ seenItems seen, Precedes history w v) ∧ w ∉ seenItems seen

/-- A completed read is reported exactly if it lacks a value that precedes one of
its own, and with exactly those values. -/
def Exact (history : List CausalOp) (result : Result) : Prop :=
  (∀ read ∈ okReads history,
    (∃ e ∈ result.errors, e.index = read.1.index) ↔ ∃ w, Lacks history read.2 w) ∧
  ∀ e ∈ result.errors, ∃ read ∈ okReads history, e.index = read.1.index ∧
    ∀ w, w ∈ e.missing ↔ Lacks history read.2 w

/-- An invocation has the values acknowledged before it. -/
theorem precedes_snoc {ops : List CausalOp} {op : CausalOp} {w v : ℤ} :
    Precedes (ops ++ [op]) w v ↔ Precedes ops w v ∨
      op.type = .invoke ∧ op.call = .write v ∧
        ∃ ack ∈ ops, ack.type = .ok ∧ ack.call = .write w := by
  constructor
  · rintro ⟨pre, inv, post, hsplit, htype, hcall, hack⟩
    rcases List.eq_nil_or_concat post with rfl | ⟨post, last, rfl⟩
    · obtain ⟨rfl, hlast⟩ := List.append_inj' hsplit rfl
      obtain rfl := List.head_eq_of_cons_eq hlast
      exact Or.inr ⟨htype, hcall, hack⟩
    · rw [List.concat_eq_append, ← List.cons_append, ← List.append_assoc] at hsplit
      obtain ⟨hops, -⟩ := List.append_inj' hsplit rfl
      exact Or.inl ⟨pre, inv, post, hops, htype, hcall, hack⟩
  · rintro (⟨pre, inv, post, hops, htype, hcall, hack⟩ | ⟨htype, hcall, hack⟩)
    · exact ⟨pre, inv, post ++ [op], by rw [hops, List.append_assoc, List.cons_append], htype,
        hcall, hack⟩
    · exact ⟨ops, op, [], rfl, htype, hcall, hack⟩

/-! ## The graph -/

/-- The accumulators of the loop after the operations of a prefix. -/
structure Graphed (ops : List CausalOp) (acc : Finset ℤ × Assoc ℤ (Finset ℤ)) : Prop where
  completed : ∀ w, w ∈ acc.1 ↔ ∃ ack ∈ ops, ack.type = .ok ∧ ack.call = .write w
  expected : ∀ w v, w ∈ elements (acc.2.lookup v) ↔ Precedes ops w v

theorem exists_mem_snoc {ops : List CausalOp} {op : CausalOp} {p : CausalOp → Prop} :
    (∃ ack ∈ ops ++ [op], p ack) ↔ (∃ ack ∈ ops, p ack) ∨ p op := by
  simp only [List.mem_append, List.mem_singleton, or_and_right, exists_or, exists_eq_left]

/-- One step of the loop. The last invocation of a write has all the predecessors of
the earlier ones. -/
theorem Graphed.step {ops : List CausalOp} {acc : Finset ℤ × Assoc ℤ (Finset ℤ)}
    (hgraphed : Graphed ops acc) (op : CausalOp) :
    Graphed (ops ++ [op]) (graphStep acc op) := by
  have hskip : (∀ w, ¬ (op.type = .ok ∧ op.call = .write w)) →
      (∀ v, ¬ (op.type = .invoke ∧ op.call = .write v)) → Graphed (ops ++ [op]) acc := by
    intro hack hinv
    constructor
    · intro w
      rw [hgraphed.completed, exists_mem_snoc, or_iff_left (hack w)]
    · intro w v
      rw [hgraphed.expected, precedes_snoc, or_iff_left fun h => hinv v ⟨h.1, h.2.1⟩]
  unfold graphStep
  cases hcall : op.call with
  | write value =>
    cases htype : op.type with
    | invoke =>
      constructor
      · intro w
        rw [hgraphed.completed, exists_mem_snoc]
        simp [htype]
      · intro w v
        change w ∈ elements ((acc.2.insert value acc.1).lookup v) ↔ _
        rw [Assoc.lookup_insert_eq_ite, precedes_snoc, ← hgraphed.completed]
        by_cases heq : v = value
        · subst heq
          rw [if_pos rfl, elements_some]
          constructor
          · exact fun hw => Or.inr ⟨htype, hcall, hw⟩
          · rintro (⟨pre, inv, post, hops, -, -, ack, hack, hok⟩ | ⟨-, -, hw⟩)
            · exact (hgraphed.completed w).mpr ⟨ack, by simp [hops, hack], hok⟩
            · exact hw
        · rw [if_neg heq, hgraphed.expected, or_iff_left]
          rintro ⟨-, hcall', -⟩
          rw [hcall] at hcall'
          injection hcall' with hvalue
          exact heq hvalue.symm
    | ok =>
      constructor
      · intro w
        change w ∈ insert value acc.1 ↔ _
        rw [Finset.mem_insert, hgraphed.completed, exists_mem_snoc, or_comm]
        simp [htype, hcall, eq_comm]
      · intro w v
        rw [precedes_snoc, or_iff_left (by simp [htype])]
        exact hgraphed.expected w v
    | _ => exact hskip (by simp [htype]) (by simp [htype])
  | _ => exact hskip (by simp [hcall]) (by simp [hcall])

theorem mem_graph (history : List CausalOp) (w v : ℤ) :
    w ∈ elements ((graph history).lookup v) ↔ Precedes history w v := by
  have hgraphed : Graphed history (history.foldl graphStep (∅, ∅)) := by
    induction history using List.reverseRecOn with
    | nil =>
      constructor
      · simp
      · intro w v
        simp [Precedes]
    | append_singleton ops op ih =>
      rw [List.foldl_append]
      exact ih.step op
  exact hgraphed.expected w v

/-- What a read should have are the predecessors of what it has. -/
theorem mem_ourExpected (history : List CausalOp) (seen : Option Coll) (w : ℤ) :
    w ∈ elements (ourExpected (graph history) seen) ↔
      ∃ v ∈ seenItems seen, Precedes history w v := by
  rw [ourExpected, mem_reduceUnion]
  constructor
  · rintro ⟨s, hs, hw⟩
    obtain ⟨v, hv, rfl⟩ := List.mem_map.mp hs
    exact ⟨v, hv, (mem_graph history w v).mp hw⟩
  · rintro ⟨v, hv, hprecedes⟩
    exact ⟨_, List.mem_map_of_mem hv, (mem_graph history w v).mpr hprecedes⟩

/-! ## What is missing -/

/-- The values that precede some item of a read. -/
def IsPredecessors (history : List CausalOp) (seen : Option Coll) (s : Finset ℤ) : Prop :=
  ∀ w, w ∈ s ↔ ∃ v ∈ seenItems seen, Precedes history w v

/-- A read whose collection can be compared with the predecessors of its items. -/
def ComparableRead (history : List CausalOp) : Option Coll → Prop
  | none => True
  | some coll => ∀ s, IsPredecessors history (some coll) s → Comparable s coll

theorem missingFrom_exact_iff (history : List CausalOp) (seen : Option Coll) :
    (∃ missing, missingFrom (graph history) seen = .ok missing ∧
      ∀ w, w ∈ elements missing ↔ Lacks history seen w) ↔ ComparableRead history seen := by
  have hexpected := mem_ourExpected history seen
  cases seen with
  | none =>
    refine ⟨fun _ => trivial, fun _ => ⟨_, rfl, fun w => ?_⟩⟩
    rw [hexpected w]
    simp [Lacks, seenItems]
  | some coll =>
    have hiff : ComparableRead history (some coll) ↔
        Comparable (elements (ourExpected (graph history) (some coll))) coll := by
      constructor
      · exact fun hcomparable => hcomparable _ hexpected
      · intro hcomparable s hs
        rw [show s = elements (ourExpected (graph history) (some coll)) from
          Finset.ext fun w => (hs w).trans (hexpected w).symm]
        exact hcomparable
    rw [hiff, ← difference_eq_iff]
    apply exists_congr
    intro missing
    apply and_congr_right
    intro _
    rw [Finset.ext_iff]
    apply forall_congr'
    intro w
    rw [Finset.mem_filter, hexpected w]
    rfl

/-! ## What is reported -/

theorem mem_okReads {history : List CausalOp} {read : CausalOp × Option Coll} :
    read ∈ okReads history ↔
      read.1 ∈ history ∧ read.1.type = .ok ∧ read.1.call = .read read.2 := by
  unfold okReads
  rw [List.mem_filterMap]
  constructor
  · rintro ⟨op, hop, hread⟩
    split at hread
    · rename_i value hcall htype
      rw [← Option.some.inj hread]
      exact ⟨hop, htype, hcall⟩
    · cases hread
  · rintro ⟨hmem, htype, hcall⟩
    refine ⟨read.1, hmem, ?_⟩
    simp only [hcall, htype]

/-- Reads are reported in their order, each with what is missing from it. -/
theorem mem_errors {expected : Assoc ℤ (Finset ℤ)} {reads : List (CausalOp × Option Coll)}
    {reported : List Violation} (herrors : errors expected reads = .ok reported) :
    (∀ read ∈ reads, ∃ missing, missingFrom expected read.2 = .ok missing) ∧
    ∀ e, e ∈ reported ↔ ∃ read ∈ reads, ∃ missing, missingFrom expected read.2 = .ok missing ∧
      elements missing ≠ ∅ ∧ e = ⟨read.1.index, read.1.process, elements missing,
        (elements (ourExpected expected read.2)).card⟩ := by
  induction reads generalizing reported with
  | nil =>
    cases herrors
    simp
  | cons read reads ih =>
    obtain ⟨op, seen⟩ := read
    rw [errors] at herrors
    cases hmissing : missingFrom expected seen with
    | error t =>
      rw [hmissing] at herrors
      cases herrors
    | ok missing =>
      cases hrest : errors expected reads with
      | error t =>
        rw [hmissing, hrest] at herrors
        cases herrors
      | ok rest =>
        simp only [hmissing, hrest] at herrors
        obtain ⟨hall, hmem⟩ := ih hrest
        constructor
        · intro read hread
          rcases List.mem_cons.mp hread with rfl | htail
          · exact ⟨missing, hmissing⟩
          · exact hall read htail
        · intro e
          simp only [List.mem_cons, exists_eq_or_imp, hmissing, Except.ok.injEq,
            exists_eq_left']
          by_cases hempty : elements missing = ∅
          · rw [if_pos hempty] at herrors
            rw [← Except.ok.inj herrors, hmem]
            simp [hempty]
          · rw [if_neg hempty] at herrors
            rw [← Except.ok.inj herrors, List.mem_cons, hmem]
            simp [hempty]

theorem errors_eq_ok {expected : Assoc ℤ (Finset ℤ)} {reads : List (CausalOp × Option Coll)}
    (hall : ∀ read ∈ reads, ∃ missing, missingFrom expected read.2 = .ok missing) :
    ∃ reported, errors expected reads = .ok reported := by
  induction reads with
  | nil => exact ⟨[], rfl⟩
  | cons read reads ih =>
    obtain ⟨op, seen⟩ := read
    obtain ⟨missing, hmissing⟩ := hall _ List.mem_cons_self
    obtain ⟨rest, hrest⟩ := ih fun read hread => hall read (List.mem_cons_of_mem _ hread)
    rw [errors, hmissing, hrest]
    dsimp only
    split
    · exact ⟨_, rfl⟩
    · exact ⟨_, rfl⟩

/-- The checker returns an exact report exactly if every completed read can be
compared with the predecessors of its items. -/
theorem checker_exact_iff {history : List CausalOp}
    (hindex : ∀ (i : ℕ) (op : CausalOp), history[i]? = some op → op.index = i) :
    (∃ result, checker history = .ok result ∧ Exact history result) ↔
      ∀ read ∈ okReads history, ComparableRead history read.2 := by
  -- An index has one read.
  have hunique : ∀ read ∈ okReads history, ∀ read' ∈ okReads history,
      read.1.index = read'.1.index → read = read' := by
    rintro ⟨op, seen⟩ hread ⟨op', seen'⟩ hread' heq
    obtain ⟨hmem, -, hcall⟩ := mem_okReads.mp hread
    obtain ⟨hmem', -, hcall'⟩ := mem_okReads.mp hread'
    obtain ⟨i, hi⟩ := List.mem_iff_getElem?.mp hmem
    obtain ⟨j, hj⟩ := List.mem_iff_getElem?.mp hmem'
    dsimp only at heq hcall hcall'
    rw [hindex i op hi, hindex j op' hj] at heq
    rw [heq, hj] at hi
    obtain rfl := Option.some.inj hi
    rw [hcall] at hcall'
    injection hcall' with hseen
    rw [hseen]
  constructor
  · rintro ⟨result, hresult, hreported, hmissing⟩ read hread
    unfold checker at hresult
    cases herrors : errors (graph history) (okReads history) with
    | error t =>
      rw [herrors] at hresult
      cases hresult
    | ok reported =>
      rw [herrors] at hresult
      obtain rfl := Except.ok.inj hresult
      obtain ⟨hall, hmem⟩ := mem_errors herrors
      obtain ⟨missing, hok⟩ := hall read hread
      refine (missingFrom_exact_iff history read.2).mp ⟨missing, hok, ?_⟩
      by_cases hempty : elements missing = ∅
      · -- A read that is not reported lacks nothing.
        have hnone : ¬ ∃ w, Lacks history read.2 w := by
          rw [← hreported read hread]
          rintro ⟨e, he, heq⟩
          obtain ⟨read', hread', missing', hok', hne, rfl⟩ := (hmem e).mp he
          obtain rfl := hunique read' hread' read hread heq
          rw [hok] at hok'
          exact hne (Except.ok.inj hok' ▸ hempty)
        intro w
        rw [hempty]
        exact ⟨fun hw => absurd hw (Finset.notMem_empty w), fun hw => absurd ⟨w, hw⟩ hnone⟩
      · have he := (hmem _).mpr ⟨read, hread, missing, hok, hempty, rfl⟩
        obtain ⟨read', hread', heq, hiff⟩ := hmissing _ he
        obtain rfl := hunique read hread read' hread' heq
        exact hiff
  · intro hcomparable
    have hexact := fun read hread =>
      (missingFrom_exact_iff history read.2).mpr (hcomparable read hread)
    have hall : ∀ read ∈ okReads history,
        ∃ missing, missingFrom (graph history) read.2 = .ok missing := fun read hread => by
      obtain ⟨missing, hok, -⟩ := hexact read hread
      exact ⟨missing, hok⟩
    obtain ⟨reported, herrors⟩ := errors_eq_ok hall
    obtain ⟨-, hmem⟩ := mem_errors herrors
    refine ⟨⟨reported.isEmpty, reported⟩, by rw [checker, herrors], ?_, ?_⟩
    · intro read hread
      obtain ⟨missing, hok, hiff⟩ := hexact read hread
      constructor
      · rintro ⟨e, he, heq⟩
        obtain ⟨read', hread', missing', hok', hne, rfl⟩ := (hmem e).mp he
        obtain rfl := hunique read' hread' read hread heq
        rw [hok] at hok'
        obtain rfl := Except.ok.inj hok'
        obtain ⟨w, hw⟩ := Finset.nonempty_iff_ne_empty.mpr hne
        exact ⟨w, (hiff w).mp hw⟩
      · rintro ⟨w, hw⟩
        have hne : elements missing ≠ ∅ := Finset.ne_empty_of_mem ((hiff w).mpr hw)
        exact ⟨_, (hmem _).mpr ⟨read, hread, missing, hok, hne, rfl⟩, rfl⟩
    · intro e he
      obtain ⟨read, hread, missing, hok, -, rfl⟩ := (hmem e).mp he
      obtain ⟨missing', hok', hiff⟩ := hexact read hread
      rw [hok] at hok'
      obtain rfl := Except.ok.inj hok'
      exact ⟨read, hread, rfl, hiff⟩

/-! ## Values and indices -/

/-- Value 20 is written after value 10, and a read has both. -/
def tenTwenty : List CausalOp :=
  [⟨0, .int 0, .invoke, .write 10⟩, ⟨1, .int 0, .ok, .write 10⟩,
    ⟨2, .int 0, .invoke, .write 20⟩, ⟨3, .int 0, .ok, .write 20⟩,
    ⟨4, .int 0, .invoke, .read none⟩, ⟨5, .int 0, .ok, .read (some (.vector [10, 20]))⟩]

/-- Value 2 is written after value 1, and a read has only value 2. -/
def twoWithoutOne : List CausalOp :=
  [⟨0, .int 0, .invoke, .write 1⟩, ⟨1, .int 0, .ok, .write 1⟩,
    ⟨2, .int 0, .invoke, .write 2⟩, ⟨3, .int 0, .ok, .write 2⟩,
    ⟨4, .int 0, .invoke, .read none⟩, ⟨5, .int 0, .ok, .read (some (.vector [2]))⟩]

theorem index_of_map_eq_range {history : List CausalOp}
    (hrange : history.map CausalOp.index = List.range history.length) (i : ℕ) (op : CausalOp)
    (hop : history[i]? = some op) : op.index = i := by
  have h := congrArg (fun l => l[i]?) hrange
  simp only [List.getElem?_map, hop, Option.map_some] at h
  obtain ⟨hlt, heq⟩ := List.getElem?_eq_some_iff.mp h.symm
  rw [List.getElem_range] at heq
  exact heq.symm

/-- The read has one item, and one value precedes it. -/
theorem checker_exact_twoWithoutOne :
    ∃ result, checker twoWithoutOne = .ok result ∧ Exact twoWithoutOne result := by
  apply (checker_exact_iff (index_of_map_eq_range (by decide))).mpr
  intro read hread
  have hreads : okReads twoWithoutOne =
    [(⟨5, .int 0, .ok, .read (some (.vector [2]))⟩, some (.vector [2]))] := rfl
  rw [hreads, List.mem_singleton] at hread
  rw [hread]
  intro s hs
  left
  have hmem : 1 ∈ s := by
    refine (hs 1).mpr ⟨2, List.mem_singleton_self 2, ?_⟩
    exact ⟨[⟨0, .int 0, .invoke, .write 1⟩, ⟨1, .int 0, .ok, .write 1⟩],
      ⟨2, .int 0, .invoke, .write 2⟩, _, rfl, rfl, rfl, ⟨1, .int 0, .ok, .write 1⟩, by decide, rfl,
      rfl⟩
  exact Finset.card_pos.mpr ⟨1, hmem⟩

/-- The read has both values, and is reported to lack the first. -/
theorem tenTwenty_not_exact :
    (∀ (i : ℕ) (op : CausalOp), tenTwenty[i]? = some op → op.index = i) ∧
      ¬ ∃ result, checker tenTwenty = .ok result ∧ Exact tenTwenty result := by
  refine ⟨index_of_map_eq_range (by decide), ?_⟩
  rintro ⟨result, hresult, -, hmissing⟩
  have hchecker : checker tenTwenty = .ok ⟨false, [⟨5, .int 0, {10}, 1⟩]⟩ := by decide
  rw [hchecker] at hresult
  obtain rfl := Except.ok.inj hresult
  obtain ⟨read, hread, -, hiff⟩ := hmissing _ (List.mem_singleton_self _)
  have hreads : okReads tenTwenty =
    [(⟨5, .int 0, .ok, .read (some (.vector [10, 20]))⟩, some (.vector [10, 20]))] := rfl
  rw [hreads, List.mem_singleton] at hread
  rw [hread] at hiff
  exact ((hiff 10).mp (Finset.mem_singleton_self 10)).2 List.mem_cons_self

end Jepsen.Tests.CausalReverse
