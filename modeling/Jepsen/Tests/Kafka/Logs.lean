/-
# Logs

The version orders of a Kafka history start from its logs: for each key, which
values were reported at which offset. Every poll is a report, whatever became of
its operation; a send is one if its operation must have committed. The logs are
built by a chunked fold, and hold exactly the reports of the history however the
fold is chunked.
-/

import Jepsen.Library.ChunkedFold
import Jepsen.Tests.Kafka.ByType

namespace Jepsen.Tests.Kafka

open Jepsen.Library

universe u v

variable {K : Type u} {V : Type v} [DecidableEq K] [DecidableEq V]

/-- The values at each offset of a key. -/
abbrev OffsetMap (V : Type v) := Assoc ℕ (NonemptySet V)

/-- The logs of all keys while the fold is running. -/
abbrev Logs (K : Type u) (V : Type v) := Assoc K (OffsetMap V)

/-! ## The fold -/

/-- `version-orders-update-log` -/
def versionOrdersUpdateLog (log : Option (OffsetMap V)) (offset : ℕ) (value : V) : OffsetMap V :=
  Assoc.alter offset (fun values => NonemptySet.add values value) (log.getD ∅)

/-- `(bm/update logs k version-orders-update-log offset value)` -/
def Logs.update (logs : Logs K V) (k : K) (offset : ℕ) (value : V) : Logs K V :=
  Assoc.alter k (fun log => versionOrdersUpdateLog log offset value) logs

/-- The loop over the pairs polled for one key. -/
def reducePairs (k : K) (logs : Logs K V) (pair : Option ℕ × V) : Logs K V :=
  match pair with
  | (some offset, value) => logs.update k offset value
  | (none, _) => logs

/-- `version-orders-reduce-mop` -/
def versionOrdersReduceMop (logs : Logs K V) : Mop K V → Logs K V
  | .send k (.pair (some offset) value) => logs.update k offset value
  -- Not sure what the offset was
  | .send _ (.pair none _) => logs
  -- Not even offset structure: maybe an :info txn
  | .send _ (.literal _) => logs
  | .poll (some reads) => reads.entries.foldl (fun logs e => e.2.foldl (reducePairs e.1) logs) logs
  | .poll none => logs

def Mop.isPoll : Mop K V → Bool
  | .send _ _ => false
  | .poll _ => true

/-- The `reducer` of the fold in `version-orders`. -/
def reduceOp (readsByType : Assoc ClientType (Assoc K (Finset V))) (logs : Logs K V)
    (op : KafkaOp K V) : Logs K V :=
  match op.call with
  | .mops _ value =>
      if mustHaveCommitted readsByType op then
        -- OK or info, and we can prove effects were visible
        value.foldl versionOrdersReduceMop logs
      else
        (value.filter Mop.isPoll).foldl versionOrdersReduceMop logs
  | _ => logs

/-- The `combiner` of the fold in `version-orders`. -/
def mergeLogs (logs₁ logs₂ : Logs K V) : Logs K V :=
  Assoc.mergeWith (fun log₁ log₂ => Assoc.mergeWith NonemptySet.union log₁ log₂) logs₁ logs₂

/-- The fold of `version-orders`, before its logs are turned into vectors. -/
def logsFolder (readsByType : Assoc ClientType (Assoc K (Finset V))) :
    Folder (KafkaOp K V) (Logs K V) where
  init := ∅
  reduce := reduceOp readsByType
  combine := mergeLogs

/-! ## Reports -/

/-- Operation `op` reports value `v` at offset `o` of key `k`. -/
def Reports (readsByType : Assoc ClientType (Assoc K (Finset V))) (op : KafkaOp K V) (k : K)
    (o : ℕ) (v : V) : Prop :=
  ∃ f value, op.call = .mops f value ∧
    ((∃ reads pairs, Mop.poll (some reads) ∈ value ∧ reads.lookup k = some pairs ∧
        (some o, v) ∈ pairs) ∨
      (MustHaveCommitted readsByType op ∧ Mop.send k (.pair (some o) v) ∈ value))

/-- What is reported at an offset of a key by some operation of a history. -/
def Reported (history : List (KafkaOp K V)) (readsByType : Assoc ClientType (Assoc K (Finset V)))
    (k : K) (o : ℕ) (v : V) : Prop :=
  ∃ op ∈ history, Reports readsByType op k o v

namespace Logs

/-- The values stored at an offset of a key. -/
def at? (logs : Logs K V) (k : K) (o : ℕ) : Option (NonemptySet V) :=
  Assoc.lookup₂ logs k o

/-- The keys, offsets and values that are stored. -/
def recorded (logs : Logs K V) : Set (K × ℕ × V) :=
  { x | ∃ s, logs.at? x.1 x.2.1 = some s ∧ x.2.2 ∈ s.1 }

/-- No key has a log without offsets. -/
def Inhabited (logs : Logs K V) : Prop :=
  ∀ k log, logs.lookup k = some log → ∃ o, o ∈ log

omit [DecidableEq V] in
theorem recorded_empty : (∅ : Logs K V).recorded = ∅ := by
  ext x
  simp [recorded, at?, Assoc.lookup₂]

theorem at?_update (logs : Logs K V) (k k' : K) (o o' : ℕ) (v : V) :
    (logs.update k o v).at? k' o' =
      if k' = k ∧ o' = o then some (NonemptySet.add (logs.at? k o) v) else logs.at? k' o' :=
  Assoc.lookup₂_alter₂ k k' o o' (fun values => NonemptySet.add values v) logs

theorem recorded_update (logs : Logs K V) (k : K) (o : ℕ) (v : V) :
    (logs.update k o v).recorded = logs.recorded ∪ {(k, o, v)} := by
  ext ⟨k', o', v'⟩
  simp only [recorded, Set.mem_ofPred_eq, Set.mem_union, Set.mem_singleton_iff, at?_update,
    Prod.mk.injEq]
  by_cases hat : k' = k ∧ o' = o
  · obtain ⟨rfl, rfl⟩ := hat
    simp [NonemptySet.mem_add]
  · have hnot : ¬ (k' = k ∧ o' = o ∧ v' = v) := fun h => hat ⟨h.1, h.2.1⟩
    simp only [if_neg hat, hnot, or_false]

theorem at?_mergeLogs (logs₁ logs₂ : Logs K V) (k : K) (o : ℕ) :
    (mergeLogs logs₁ logs₂).at? k o =
      Assoc.merged NonemptySet.union (logs₁.at? k o) (logs₂.at? k o) := by
  unfold at? Assoc.lookup₂ mergeLogs
  rw [Assoc.lookup_mergeWith]
  cases logs₁.lookup k with
  | none => simp
  | some log₁ =>
    cases logs₂.lookup k with
    | none => simp
    | some log₂ => simp

theorem recorded_mergeLogs (logs₁ logs₂ : Logs K V) :
    (mergeLogs logs₁ logs₂).recorded = logs₁.recorded ∪ logs₂.recorded := by
  ext ⟨k, o, v⟩
  simp only [recorded, Set.mem_ofPred_eq, Set.mem_union, at?_mergeLogs]
  cases logs₁.at? k o with
  | none => simp
  | some s =>
    cases logs₂.at? k o with
    | none => simp
    | some t => simp [NonemptySet.union]

theorem inhabited_update {logs : Logs K V} (hinhabited : logs.Inhabited) (k : K) (o : ℕ) (v : V) :
    (logs.update k o v).Inhabited := by
  intro k' log hlookup
  rw [Logs.update, Assoc.lookup_alter] at hlookup
  split at hlookup
  · cases hlookup
    exact ⟨o, (AList.mem_insert _).mpr (Or.inl rfl)⟩
  · exact hinhabited k' log hlookup

end Logs

/-! ## What the fold records -/

/-- The reports of one micro-operation. -/
def Mop.reports : Mop K V → Set (K × ℕ × V)
  | .send k (.pair (some o) v) => {(k, o, v)}
  | .poll (some reads) =>
      { x | ∃ pairs, reads.lookup x.1 = some pairs ∧ (some x.2.1, x.2.2) ∈ pairs }
  | _ => ∅

theorem recorded_reducePairs (k : K) (logs : Logs K V) (pair : Option ℕ × V) :
    (reducePairs k logs pair).recorded =
      logs.recorded ∪ { x | x.1 = k ∧ (some x.2.1, x.2.2) = pair } := by
  obtain ⟨offset, value⟩ := pair
  cases offset with
  | none =>
    ext x
    simp [reducePairs]
  | some o =>
    rw [reducePairs, Logs.recorded_update]
    ext ⟨k', o', v'⟩
    simp [or_comm]

theorem recorded_reduceMop (logs : Logs K V) (mop : Mop K V) :
    (versionOrdersReduceMop logs mop).recorded = logs.recorded ∪ mop.reports := by
  have hsame : ∀ logs' : Logs K V, logs'.recorded = logs'.recorded ∪ (∅ : Set (K × ℕ × V)) :=
    fun logs' => (Set.union_empty _).symm
  cases mop with
  | send k sent =>
    cases sent with
    | literal value => exact hsame logs
    | pair offset value =>
      cases offset with
      | none => exact hsame logs
      | some o => exact Logs.recorded_update logs k o value
  | poll reads =>
    cases reads with
    | none => exact hsame logs
    | some reads =>
      have hentry : ∀ (logs : Logs K V) (e : Σ _ : K, List (Option ℕ × V)),
          (e.2.foldl (reducePairs e.1) logs).recorded =
            logs.recorded ∪ { x | x.1 = e.1 ∧ (some x.2.1, x.2.2) ∈ e.2 } := by
        intro logs e
        ext x
        rw [mem_observe_foldl (recorded_reducePairs e.1), Set.mem_union]
        simp only [Set.mem_ofPred_eq]
        constructor
        · intro hx
          cases hx with
          | inl hold => exact Or.inl hold
          | inr hnew =>
            obtain ⟨pair, hpair, hk, heq⟩ := hnew
            exact Or.inr ⟨hk, heq ▸ hpair⟩
        · intro hx
          cases hx with
          | inl hold => exact Or.inl hold
          | inr hnew => exact Or.inr ⟨_, hnew.2, hnew.1, rfl⟩
      ext x
      rw [versionOrdersReduceMop, mem_observe_foldl hentry, Set.mem_union, Mop.reports]
      simp only [Set.mem_ofPred_eq]
      constructor
      · intro hx
        cases hx with
        | inl hold => exact Or.inl hold
        | inr hnew =>
          obtain ⟨e, he, hk, hpair⟩ := hnew
          exact Or.inr ⟨e.2, hk ▸ Assoc.mem_entries_iff.mp he, hpair⟩
      · intro hx
        cases hx with
        | inl hold => exact Or.inl hold
        | inr hnew =>
          obtain ⟨pairs, hlookup, hpair⟩ := hnew
          exact Or.inr ⟨⟨x.1, pairs⟩, Assoc.mem_entries_iff.mpr hlookup, rfl, hpair⟩

theorem recorded_reduceOp (readsByType : Assoc ClientType (Assoc K (Finset V))) (logs : Logs K V)
    (op : KafkaOp K V) :
    (reduceOp readsByType logs op).recorded =
      logs.recorded ∪ { x | Reports readsByType op x.1 x.2.1 x.2.2 } := by
  ext ⟨k, o, v⟩
  rw [Set.mem_union, Set.mem_ofPred_eq]
  unfold reduceOp Reports
  cases hcall : op.call with
  | assign ks => simp
  | subscribe ks => simp
  | other f => simp
  | mops f value =>
    by_cases hcommitted : MustHaveCommitted readsByType op
    · simp only [mustHaveCommitted_iff.mpr hcommitted, if_true]
      rw [mem_observe_foldl recorded_reduceMop]
      apply or_congr_right
      constructor
      · rintro ⟨mop, hmop, hx⟩
        refine ⟨f, value, rfl, ?_⟩
        unfold Mop.reports at hx
        split at hx
        · obtain ⟨rfl⟩ := hx
          exact Or.inr ⟨hcommitted, hmop⟩
        · rename_i reads
          obtain ⟨pairs, hlookup, hpair⟩ := hx
          exact Or.inl ⟨reads, pairs, hmop, hlookup, hpair⟩
        · cases hx
      · rintro ⟨f', value', heq, hreports⟩
        cases heq
        cases hreports with
        | inl hpoll =>
          obtain ⟨reads, pairs, hmop, hlookup, hpair⟩ := hpoll
          exact ⟨_, hmop, pairs, hlookup, hpair⟩
        | inr hsend => exact ⟨_, hsend.2, rfl⟩
    · have hfalse : mustHaveCommitted readsByType op = false :=
        Bool.eq_false_iff.mpr (mt mustHaveCommitted_iff.mp hcommitted)
      simp only [hfalse, Bool.false_eq_true, if_false]
      rw [mem_observe_foldl recorded_reduceMop]
      apply or_congr_right
      constructor
      · rintro ⟨mop, hmop, hx⟩
        obtain ⟨hmem, hpoll⟩ := List.mem_filter.mp hmop
        refine ⟨f, value, rfl, Or.inl ?_⟩
        unfold Mop.reports at hx
        split at hx
        · cases hpoll
        · rename_i reads
          obtain ⟨pairs, hlookup, hpair⟩ := hx
          exact ⟨reads, pairs, hmem, hlookup, hpair⟩
        · cases hx
      · rintro ⟨f', value', heq, hreports⟩
        cases heq
        cases hreports with
        | inl hpoll =>
          obtain ⟨reads, pairs, hmop, hlookup, hpair⟩ := hpoll
          exact ⟨_, List.mem_filter.mpr ⟨hmop, rfl⟩, pairs, hlookup, hpair⟩
        | inr hsend => exact absurd hsend.1 hcommitted

theorem logsFolder_collects (readsByType : Assoc ClientType (Assoc K (Finset V))) :
    (logsFolder readsByType).Collects Logs.recorded
      fun op => { x | Reports readsByType op x.1 x.2.1 x.2.2 } where
  init := Logs.recorded_empty
  reduce := recorded_reduceOp readsByType
  combine := Logs.recorded_mergeLogs

/-- However the fold is chunked, its logs are what the history reports. -/
theorem mem_recorded_logs {history : List (KafkaOp K V)} {plan : FoldPlan (KafkaOp K V)}
    (hplan : plan.elements.Perm history) (readsByType : Assoc ClientType (Assoc K (Finset V))) (k : K)
    (o : ℕ) (v : V) :
    (k, o, v) ∈ ((logsFolder readsByType).run plan).recorded ↔
      Reported history readsByType k o v := by
  rw [(logsFolder_collects readsByType).mem_run]
  constructor
  · rintro ⟨op, hop, hreports⟩
    exact ⟨op, hplan.mem_iff.mp hop, hreports⟩
  · rintro ⟨op, hop, hreports⟩
    exact ⟨op, hplan.mem_iff.mpr hop, hreports⟩

theorem inhabited_reduceMop {logs : Logs K V} (hinhabited : logs.Inhabited) (mop : Mop K V) :
    (versionOrdersReduceMop logs mop).Inhabited := by
  unfold versionOrdersReduceMop
  split
  · exact Logs.inhabited_update hinhabited _ _ _
  · exact hinhabited
  · exact hinhabited
  · apply List.foldlRecOn _ _ hinhabited
    intro logs hlogs e _
    apply List.foldlRecOn _ _ hlogs
    intro logs hlogs pair _
    unfold reducePairs
    split
    · exact Logs.inhabited_update hlogs _ _ _
    · exact hlogs
  · exact hinhabited

theorem logsFolder_keeps_inhabited (readsByType : Assoc ClientType (Assoc K (Finset V))) :
    (logsFolder readsByType).Keeps Logs.Inhabited where
  init := by
    intro k log hlookup
    cases hlookup
  reduce := by
    intro logs op hlogs
    change (reduceOp readsByType logs op).Inhabited
    unfold reduceOp
    split
    · split
      · exact List.foldlRecOn _ _ hlogs fun logs hlogs mop _ => inhabited_reduceMop hlogs mop
      · exact List.foldlRecOn _ _ hlogs fun logs hlogs mop _ => inhabited_reduceMop hlogs mop
    · exact hlogs
  combine := by
    intro logs₁ logs₂ h₁ h₂ k log hlookup
    change (mergeLogs logs₁ logs₂).lookup k = some log at hlookup
    rw [mergeLogs, Assoc.lookup_mergeWith] at hlookup
    cases hlog₁ : logs₁.lookup k with
    | none =>
      rw [hlog₁] at hlookup
      exact h₂ k log hlookup
    | some log₁ =>
      cases hlog₂ : logs₂.lookup k with
      | none =>
        rw [hlog₁, hlog₂] at hlookup
        cases hlookup
        exact h₁ k log hlog₁
      | some log₂ =>
        rw [hlog₁, hlog₂] at hlookup
        cases hlookup
        obtain ⟨o, ho⟩ := h₁ k log₁ hlog₁
        exact ⟨o, Assoc.mem_mergeWith.mpr (Or.inl ho)⟩

end Jepsen.Tests.Kafka
