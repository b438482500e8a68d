/-
# Write-write dependencies

Two writers of a key depend on each other in the order of the values they wrote.
The graph only has an edge between the writers of two values that follow each
other, and none if one operation wrote both; the order of all values of a key is
its transitive closure. The writer of a value is the one the writer index has,
which is the completion that sent the value last.
-/

import Jepsen.Tests.Kafka.LostWrite

namespace Jepsen.Tests.Kafka

open Jepsen.Library

universe u v

variable {K : Type u} {V : Type v} [DecidableEq K]

/-! ## The graph -/

/-- `previous-value`; an index that is known is within the vector. -/
def previousValue [DecidableEq V] (versionOrder : Option (VersionOrder V)) (v₂ : V) : Option V :=
  versionOrder.bind fun versionOrder =>
    (versionOrder.byValue.lookup v₂).bind fun i₂ =>
      if 0 < i₂ then versionOrder.byIndex[i₂ - 1]? else none

/-- The edges of a graph of operations. -/
abbrev OpDigraph (K : Type u) (V : Type v) := List (KafkaOp K V × KafkaOp K V)

section Graph

variable [DecidableEq V]

/-- The innermost loop of `ww-graph`. -/
def linkWriter (k : K) (versionOrder : Option (VersionOrder V)) (writers : Assoc V (KafkaOp K V))
    (g : OpDigraph K V) (e : Σ _ : V, KafkaOp K V) : Except (Thrown K V) (OpDigraph K V) :=
  match previousValue versionOrder e.1 with
  -- This is the first value in the version order.
  | none => .ok g
  | some v₁ =>
      match writers.lookup v₁ with
      | none => .error (.noWriterOfValue k v₁)
      | some op₁ =>
          if op₁ = e.2 then
            -- No self-edges
            .ok g
          else .ok ((op₁, e.2) :: g)

/-- The loop of `ww-graph` over the values of one key. -/
def linkKey (versionOrders : Assoc K (VersionOrder V)) (g : OpDigraph K V)
    (e : Σ _ : K, Assoc V (KafkaOp K V)) : Except (Thrown K V) (OpDigraph K V) :=
  e.2.entries.foldlM (linkWriter e.1 (versionOrders.lookup e.1) e.2) g

/-- The graph of `ww-graph`. -/
def wwGraph (wwDeps : Bool) (writerOf : Assoc K (Assoc V (KafkaOp K V)))
    (versionOrders : Assoc K (VersionOrder V)) : Except (Thrown K V) (OpDigraph K V) :=
  if wwDeps then writerOf.entries.foldlM (linkKey versionOrders) [] else .ok []

/-! ## What the loops link -/

/-- A loop that may throw, but whose every turn returns and adds some edges. -/
theorem foldlM_links {A E : Type*} {ε : Type*} {step : List E → A → Except ε (List E)}
    {l : List A} {links : A → E → Prop}
    (hstep : ∀ g, ∀ a ∈ l, ∃ g', step g a = .ok g' ∧ ∀ x, x ∈ g' ↔ x ∈ g ∨ links a x)
    (g : List E) :
    ∃ g', l.foldlM step g = .ok g' ∧ ∀ x, x ∈ g' ↔ x ∈ g ∨ ∃ a ∈ l, links a x := by
  induction l generalizing g with
  | nil => exact ⟨g, rfl, by simp⟩
  | cons a l ih =>
    obtain ⟨g₁, hg₁, hspec₁⟩ := hstep g a List.mem_cons_self
    obtain ⟨g₂, hg₂, hspec₂⟩ := ih (fun g a' ha' => hstep g a' (List.mem_cons_of_mem a ha')) g₁
    refine ⟨g₂, ?_, ?_⟩
    · rw [List.foldlM_cons, hg₁]
      exact hg₂
    · intro x
      rw [hspec₂, hspec₁, or_assoc]
      simp only [List.mem_cons, exists_eq_or_imp]

/-- Operation `b` wrote the value of key `k` after the one operation `a` wrote. -/
def Adjacent (writerOf : Assoc K (Assoc V (KafkaOp K V))) (versionOrders : Assoc K (VersionOrder V))
    (k : K) (a b : KafkaOp K V) : Prop :=
  ∃ v₁ v₂, previousValue (versionOrders.lookup k) v₂ = some v₁ ∧
    Assoc.lookup₂ writerOf k v₁ = some a ∧ Assoc.lookup₂ writerOf k v₂ = some b

/-- If previous values have writers, the graph has the edges between the writers of
adjacent values, except those from an operation to itself. -/
theorem wwGraph_eq_ok {writerOf : Assoc K (Assoc V (KafkaOp K V))}
    {versionOrders : Assoc K (VersionOrder V)}
    (hwriter : ∀ k v₁ v₂, previousValue (versionOrders.lookup k) v₂ = some v₁ →
      ∃ op, Assoc.lookup₂ writerOf k v₁ = some op) :
    ∃ g, wwGraph true writerOf versionOrders = .ok g ∧
      ∀ a b, (a, b) ∈ g ↔ a ≠ b ∧ ∃ k, Adjacent writerOf versionOrders k a b := by
  have hlink : ∀ k (writers : Assoc V (KafkaOp K V)), writerOf.lookup k = some writers →
      ∀ (g : OpDigraph K V), ∀ e ∈ writers.entries,
        ∃ g', linkWriter k (versionOrders.lookup k) writers g e = .ok g' ∧
          ∀ x, x ∈ g' ↔ x ∈ g ∨ (x.1 ≠ x.2 ∧ x.2 = e.2 ∧
            ∃ v₁, previousValue (versionOrders.lookup k) e.1 = some v₁ ∧
              writers.lookup v₁ = some x.1) := by
    intro k writers hwriters g e he
    unfold linkWriter
    cases hprevious : previousValue (versionOrders.lookup k) e.1 with
    | none => exact ⟨g, rfl, by simp⟩
    | some v₁ =>
      obtain ⟨op₁, hop₁⟩ := hwriter k v₁ e.1 hprevious
      rw [Assoc.lookup₂, hwriters, Option.bind_some] at hop₁
      simp only [hop₁]
      split
      · rename_i heq
        refine ⟨g, rfl, ?_⟩
        intro x
        constructor
        · exact Or.inl
        · intro h
          cases h with
          | inl hmem => exact hmem
          | inr hnew =>
            obtain ⟨hne, hsnd, v, hv, hfst⟩ := hnew
            cases hv
            rw [hop₁] at hfst
            cases hfst
            exact absurd (heq.trans hsnd.symm) hne
      · rename_i hne
        refine ⟨_, rfl, ?_⟩
        intro x
        rw [List.mem_cons, or_comm]
        apply or_congr_right
        constructor
        · intro hx
          subst hx
          exact ⟨hne, rfl, v₁, rfl, hop₁⟩
        · rintro ⟨-, hsnd, v, hv, hfst⟩
          cases hv
          rw [hop₁] at hfst
          cases hfst
          exact Prod.ext rfl hsnd
  have hkey : ∀ (g : OpDigraph K V), ∀ e ∈ writerOf.entries,
      ∃ g', linkKey versionOrders g e = .ok g' ∧
        ∀ x, x ∈ g' ↔ x ∈ g ∨ ∃ e' ∈ e.2.entries, x.1 ≠ x.2 ∧ x.2 = e'.2 ∧
          ∃ v₁, previousValue (versionOrders.lookup e.1) e'.1 = some v₁ ∧
            e.2.lookup v₁ = some x.1 := by
    intro g e he
    exact foldlM_links (hlink e.1 e.2 (Assoc.mem_entries_iff.mp he)) g
  obtain ⟨g, hg, hspec⟩ := foldlM_links hkey []
  refine ⟨g, hg, ?_⟩
  intro a b
  rw [hspec]
  simp only [List.not_mem_nil, false_or]
  constructor
  · rintro ⟨e, he, e', he', hne, hsnd, v₁, hprevious, hfst⟩
    have hwriters := Assoc.mem_entries_iff.mp he
    refine ⟨hne, e.1, v₁, e'.1, hprevious, ?_, ?_⟩
    · rw [Assoc.lookup₂, hwriters]
      exact hfst
    · rw [Assoc.lookup₂, hwriters, hsnd]
      exact Assoc.mem_entries_iff.mp he'
  · rintro ⟨hne, k, v₁, v₂, hprevious, ha, hb⟩
    cases hwriters : writerOf.lookup k with
    | none =>
      rw [Assoc.lookup₂, hwriters] at ha
      cases ha
    | some writers =>
      rw [Assoc.lookup₂, hwriters, Option.bind_some] at ha hb
      exact ⟨⟨k, writers⟩, Assoc.mem_entries_iff.mpr hwriters, ⟨v₂, b⟩,
        Assoc.mem_entries_iff.mpr hb, hne, rfl, v₁, hprevious, ha⟩

end Graph

/-! ## Orders without duplicates -/

section Order

variable [LinearOrder V] (order : SetOrder V)

/-- The orders of some logs. -/
def ordersOf (logs : Assoc K (Log V)) : Assoc K (VersionOrder V) :=
  Assoc.mapVals (fun _ log => keyOrder order log) logs

/-- No value occupies two offsets. -/
def OneOffset (log : Log V) : Prop := ∀ v o o', Holds log o v → Holds log o' v → o = o'

theorem nodup_of_forall₂ {A B : Type*} {R : A → B → Prop} {as : List A} {bs : List B}
    (hrel : List.Forall₂ R as bs) (hnodup : as.Nodup)
    (hinj : ∀ a a' b, R a b → R a' b → a = a') : bs.Nodup := by
  induction hrel with
  | nil => exact List.nodup_nil
  | cons hab htail ih =>
    obtain ⟨hnot, hnodup'⟩ := List.nodup_cons.mp hnodup
    refine List.nodup_cons.mpr ⟨?_, ih hnodup'⟩
    intro hmem
    obtain ⟨n, hget⟩ := List.mem_iff_getElem.mp hmem
    obtain ⟨hn, heq⟩ := hget
    have hlength := htail.length_eq
    have hrel' := htail.get (by omega) hn
    rw [List.get_eq_getElem, List.get_eq_getElem, heq] at hrel'
    exact hnot (hinj _ _ _ hrel' hab ▸ List.getElem_mem _)

/-- Without duplicates no value is listed twice. -/
theorem nodup_byIndex {log : Log V} (hone : OneOffset log) : (keyOrder order log).byIndex.Nodup := by
  have hrel : List.Forall₂ (fun o v => Holds log o v)
      (positions (fun values : Option (NonemptySet V) => values.isSome) log 0)
      (keyOrder order log).byIndex := by
    apply (forall₂_byIndex order log 0).imp
    rintro o v ⟨s, -, hget, hv⟩
    exact ⟨s, hget, hv⟩
  apply nodup_of_forall₂ hrel ((positions_pairwise _ _ _).imp fun h => h.ne)
  exact fun o o' v ho ho' => hone v o o' ho ho'

theorem previousValue_iff {logs : Assoc K (Log V)} {k : K} {log : Log V} {v₁ v₂ : V}
    (hlookup : logs.lookup k = some log) (hone : OneOffset log) :
    previousValue ((ordersOf order logs).lookup k) v₂ = some v₁ ↔
      ∃ i, (keyOrder order log).byIndex[i]? = some v₁ ∧
        (keyOrder order log).byIndex[i + 1]? = some v₂ := by
  have hindex : ∀ {v i}, (keyOrder order log).byValue.lookup v = some i ↔
      (keyOrder order log).byIndex[i]? = some v :=
    fun {v i} => lookup_indexMap_iff (nodup_byIndex order hone)
  rw [previousValue, ordersOf, Assoc.lookup_mapVals, hlookup, Option.map_some, Option.bind_some,
    Option.bind_eq_some_iff]
  constructor
  · rintro ⟨i₂, hi₂, hprevious⟩
    split at hprevious
    · rename_i hpos
      refine ⟨i₂ - 1, hprevious, ?_⟩
      rw [Nat.sub_add_cancel hpos]
      exact hindex.mp hi₂
    · cases hprevious
  · rintro ⟨i, hv₁, hv₂⟩
    refine ⟨i + 1, hindex.mpr hv₂, ?_⟩
    rw [if_pos (Nat.succ_pos i), Nat.add_sub_cancel]
    exact hv₁

variable {history : List (KafkaOp K V)} {logs : Assoc K (Log V)}

theorem sends_of_lastSender {k : K} {v : V} {op : KafkaOp K V}
    (hlast : lastSender history k v = some op) :
    op ∈ history ∧ op.type ≠ .invoke ∧ op.Sends k v := by
  rw [lastSender] at hlast
  have hsends := List.find?_some hlast
  have hmem := List.mem_of_find?_eq_some hlast
  rw [List.mem_reverse, List.mem_filter, decide_eq_true_iff] at hmem
  exact ⟨hmem.1, hmem.2, of_decide_eq_true hsends⟩

/-- A value that one completion alone sent has it as its writer. -/
theorem lastSender_eq_of_sole {k : K} {v : V} {op : KafkaOp K V} (hmem : op ∈ history)
    (htype : op.type ≠ .invoke) (hsends : op.Sends k v)
    (hsole : ∀ op' ∈ history, op'.type ≠ .invoke → op'.Sends k v → op' = op) :
    lastSender history k v = some op := by
  cases hlast : lastSender history k v with
  | none =>
    rw [lastSender, List.find?_eq_none] at hlast
    have hnot := hlast op (by
      rw [List.mem_reverse, List.mem_filter, decide_eq_true_iff]
      exact ⟨hmem, htype⟩)
    exact absurd (decide_eq_true hsends) hnot
  | some op' =>
    obtain ⟨hmem', htype', hsends'⟩ := sends_of_lastSender hlast
    rw [hsole op' hmem' htype' hsends']

/-- From the writer of a value there is a path to the writer of every later one, over
the writers of the values in between. -/
theorem path_of_le {g : OpDigraph K V} {k : K} {log : Log V}
    (hlookup : logs.lookup k = some log) (hone : OneOffset log)
    (hwriter : ∀ v ∈ (keyOrder order log).byIndex, ∃ op, lastSender history k v = some op)
    (hg : ∀ a b, (a, b) ∈ g ↔ a ≠ b ∧ ∃ k, Adjacent (writerOf history) (ordersOf order logs) k a b)
    {i d : ℕ} {v₁ v₂ : V} {op₁ op₂ : KafkaOp K V}
    (hv₁ : (keyOrder order log).byIndex[i]? = some v₁)
    (hv₂ : (keyOrder order log).byIndex[i + d]? = some v₂)
    (hop₁ : lastSender history k v₁ = some op₁) (hop₂ : lastSender history k v₂ = some op₂) :
    Relation.ReflTransGen
      (fun a b => (a, b) ∈ g ∧ Adjacent (writerOf history) (ordersOf order logs) k a b)
      op₁ op₂ := by
  induction d generalizing v₂ op₂ with
  | zero =>
    rw [Nat.add_zero, hv₁] at hv₂
    cases hv₂
    rw [hop₁] at hop₂
    cases hop₂
    exact .refl
  | succ d ih =>
    obtain ⟨hlt, -⟩ := List.getElem?_eq_some_iff.mp hv₂
    have hlt' : i + d < (keyOrder order log).byIndex.length := by omega
    have hget := List.getElem?_eq_getElem hlt'
    obtain ⟨op, hop⟩ := hwriter _ (List.getElem_mem hlt')
    have hpath := ih hget hop
    by_cases heq : op = op₂
    · exact heq ▸ hpath
    · have hadjacent : Adjacent (writerOf history) (ordersOf order logs) k op op₂ := by
        refine ⟨_, v₂, (previousValue_iff order hlookup hone).mpr ⟨i + d, hget, hv₂⟩, ?_, ?_⟩
        · rw [lookup₂_writerOf, hop]
        · rw [lookup₂_writerOf, hop₂]
      exact hpath.tail ⟨(hg op op₂).mpr ⟨heq, k, hadjacent⟩, hadjacent⟩

/-- For logs without duplicates whose ordered values have writers, the graph is built.
Between the writers of two values in the order of a key there is a path over edges
of that key; every edge is between the writers of two such values; and a value that
only one completion sent has it as its writer. -/
theorem wwGraph_closure (history : List (KafkaOp K V))
    (hone : ∀ k log, logs.lookup k = some log → OneOffset log)
    (hwriter : ∀ k log, logs.lookup k = some log → ∀ v ∈ (keyOrder order log).byIndex,
      ∃ op, lastSender history k v = some op) :
    ∃ g, wwGraph true (writerOf history) (ordersOf order logs) = .ok g ∧
      (∀ k log, logs.lookup k = some log → ∀ (i j : ℕ) v₁ v₂ op₁ op₂, i < j →
        (keyOrder order log).byIndex[i]? = some v₁ → (keyOrder order log).byIndex[j]? = some v₂ →
        lastSender history k v₁ = some op₁ → lastSender history k v₂ = some op₂ → op₁ ≠ op₂ →
        Relation.TransGen
          (fun a b => (a, b) ∈ g ∧ Adjacent (writerOf history) (ordersOf order logs) k a b)
          op₁ op₂) ∧
      (∀ a b, (a, b) ∈ g → a ≠ b ∧
        ∃ k log, ∃ (i j : ℕ), ∃ v₁ v₂, logs.lookup k = some log ∧ i < j ∧
        (keyOrder order log).byIndex[i]? = some v₁ ∧ (keyOrder order log).byIndex[j]? = some v₂ ∧
        lastSender history k v₁ = some a ∧ lastSender history k v₂ = some b ∧
        a.Sends k v₁ ∧ b.Sends k v₂) ∧
      ∀ k v, ∀ op ∈ history, op.type ≠ .invoke → op.Sends k v →
        (∀ op' ∈ history, op'.type ≠ .invoke → op'.Sends k v → op' = op) →
        lastSender history k v = some op := by
  have hprevious : ∀ k v₁ v₂, previousValue ((ordersOf order logs).lookup k) v₂ = some v₁ →
      ∃ log i, logs.lookup k = some log ∧ (keyOrder order log).byIndex[i]? = some v₁ ∧
        (keyOrder order log).byIndex[i + 1]? = some v₂ := by
    intro k v₁ v₂ hprev
    cases hlookup : logs.lookup k with
    | none =>
      rw [previousValue, ordersOf, Assoc.lookup_mapVals, hlookup] at hprev
      cases hprev
    | some log =>
      obtain ⟨i, hv₁, hv₂⟩ := (previousValue_iff order hlookup (hone k log hlookup)).mp hprev
      exact ⟨log, i, rfl, hv₁, hv₂⟩
  have hwriterOf : ∀ k v₁ v₂, previousValue ((ordersOf order logs).lookup k) v₂ = some v₁ →
      ∃ op, Assoc.lookup₂ (writerOf history) k v₁ = some op := by
    intro k v₁ v₂ hprev
    obtain ⟨log, i, hlookup, hv₁, -⟩ := hprevious k v₁ v₂ hprev
    rw [lookup₂_writerOf]
    exact hwriter k log hlookup v₁ (List.mem_of_getElem? hv₁)
  obtain ⟨g, hg, hspec⟩ := wwGraph_eq_ok hwriterOf
  refine ⟨g, hg, ?_, ?_, ?_⟩
  · intro k log hlookup i j v₁ v₂ op₁ op₂ hlt hv₁ hv₂ hop₁ hop₂ hne
    have hj : j = i + (j - i) := by omega
    rw [hj] at hv₂
    have hpath := path_of_le order hlookup (hone k log hlookup) (hwriter k log hlookup) hspec
      hv₁ hv₂ hop₁ hop₂
    cases Relation.reflTransGen_iff_eq_or_transGen.mp hpath with
    | inl heq => exact absurd heq.symm hne
    | inr htrans => exact htrans
  · intro a b hmem
    obtain ⟨hne, k, v₁, v₂, hprev, ha, hb⟩ := (hspec a b).mp hmem
    obtain ⟨log, i, hlookup, hv₁, hv₂⟩ := hprevious k v₁ v₂ hprev
    rw [lookup₂_writerOf] at ha hb
    exact ⟨hne, k, log, i, i + 1, v₁, v₂, hlookup, Nat.lt_succ_self i, hv₁, hv₂, ha, hb,
      (sends_of_lastSender ha).2.2, (sends_of_lastSender hb).2.2⟩
  · intro k v op hmem htype hsends hsole
    exact lastSender_eq_of_sole hmem htype hsends hsole

end Order

/-! ## A value with two senders -/

/-- The log of key 0 holds 10 and 11. -/
def twoOrdered : Assoc ℕ (Log ℕ) :=
  AList.singleton 0 [some (.single 10), some (.single 11)]

def sendOp (index : ℕ) (type : ClientType) (sent : Sent ℕ) : KafkaOp ℕ ℕ :=
  ⟨index, index, .int 0, type, .mops .send [.send 0 sent]⟩

/-- Values 10 and 11 are sent. -/
def twoSends : List (KafkaOp ℕ ℕ) :=
  [sendOp 0 .ok (.pair (some 0) 10), sendOp 1 .ok (.pair (some 1) 11)]

/-- A third operation sends 10 again and fails. -/
def resend : List (KafkaOp ℕ ℕ) := twoSends ++ [sendOp 2 .fail (.literal 10)]

theorem twoOrdered_lookup {k : ℕ} {log : Log ℕ} (hlookup : twoOrdered.lookup k = some log) :
    k = 0 ∧ log = [some (.single 10), some (.single 11)] := by
  have hentry := Assoc.mem_entries_iff.mpr hlookup
  cases List.mem_singleton.mp hentry
  exact ⟨rfl, rfl⟩

theorem twoOrdered_oneOffset {k : ℕ} {log : Log ℕ} (hlookup : twoOrdered.lookup k = some log) :
    OneOffset log := by
  obtain ⟨-, rfl⟩ := twoOrdered_lookup hlookup
  have hvalue : ∀ {o v}, Holds [some (.single 10), some (.single 11)] o v → v = o + 10 := by
    rintro o v ⟨s, hget, hv⟩
    match o with
    | 0 =>
      cases hget
      exact Finset.mem_singleton.mp hv
    | 1 =>
      cases hget
      exact Finset.mem_singleton.mp hv
    | n + 2 => cases hget
  intro v o o' ho ho'
  have hsame := (hvalue ho).symm.trans (hvalue ho')
  omega

theorem twoOrdered_written {history : List (KafkaOp ℕ ℕ)}
    (h10 : ∃ op, lastSender history 0 10 = some op)
    (h11 : ∃ op, lastSender history 0 11 = some op) {k : ℕ} {log : Log ℕ}
    (hlookup : twoOrdered.lookup k = some log) :
    ∀ v ∈ (keyOrder (.ascending ℕ) log).byIndex, ∃ op, lastSender history k v = some op := by
  obtain ⟨rfl, rfl⟩ := twoOrdered_lookup hlookup
  intro v hv
  have hv' : v ∈ [10, 11] := hv
  cases List.mem_cons.mp hv' with
  | inl heq => exact heq ▸ h10
  | inr hlast => exact List.mem_singleton.mp hlast ▸ h11

/-- Operation 0 wrote 10 and operation 1 wrote 11, and there is an edge between them. -/
theorem wwGraph_closure_twoSends :
    ∃ g, wwGraph true (writerOf twoSends) (ordersOf (.ascending ℕ) twoOrdered) = .ok g ∧
      Relation.TransGen
        (fun a b => (a, b) ∈ g ∧
          Adjacent (writerOf twoSends) (ordersOf (.ascending ℕ) twoOrdered) 0 a b)
        (sendOp 0 .ok (.pair (some 0) 10)) (sendOp 1 .ok (.pair (some 1) 11)) := by
  obtain ⟨g, hg, hpath, -⟩ := wwGraph_closure (.ascending ℕ) twoSends
    (fun k log => twoOrdered_oneOffset)
    (fun k log => twoOrdered_written ⟨_, rfl⟩ ⟨_, rfl⟩)
  exact ⟨g, hg, hpath 0 _ rfl 0 1 10 11 _ _ Nat.zero_lt_one rfl rfl rfl rfl (by decide)⟩

/-- Operation 0 sends 10 and operation 1 sends 11, which comes later; but the writer of
10 is taken to be the operation that sent it again, and nothing leads from
operation 0 to operation 1. -/
theorem resend_no_path :
    (∀ k log, twoOrdered.lookup k = some log → OneOffset log) ∧
      (∀ k log, twoOrdered.lookup k = some log →
        ∀ v ∈ (keyOrder (.ascending ℕ) log).byIndex, ∃ op, lastSender resend k v = some op) ∧
      (sendOp 0 .ok (.pair (some 0) 10)).Sends 0 10 ∧
      (sendOp 1 .ok (.pair (some 1) 11)).Sends 0 11 ∧
      ∃ g, wwGraph true (writerOf resend) (ordersOf (.ascending ℕ) twoOrdered) = .ok g ∧
        ¬ Relation.TransGen (fun a b => (a, b) ∈ g)
          (sendOp 0 .ok (.pair (some 0) 10)) (sendOp 1 .ok (.pair (some 1) 11)) := by
  refine ⟨fun k log => twoOrdered_oneOffset,
    fun k log => twoOrdered_written ⟨_, rfl⟩ ⟨_, rfl⟩, by decide, by decide,
    [(sendOp 2 .fail (.literal 10), sendOp 1 .ok (.pair (some 1) 11))], rfl, ?_⟩
  intro hpath
  obtain ⟨next, hedge, -⟩ := Relation.TransGen.head'_iff.mp hpath
  have hsame : sendOp 0 .ok (.pair (some 0) 10) = sendOp 2 .fail (.literal 10) :=
    congrArg Prod.fst (List.mem_singleton.mp hedge)
  exact absurd hsame (by decide)

end Jepsen.Tests.Kafka
