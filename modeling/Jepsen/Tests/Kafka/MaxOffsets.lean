/-
# The highest offsets of an operation

Generators and the lag checker follow the highest offset of each key that an
operation sent or polled. The reduction over the sends starts over at a send whose
offset is unknown, so an operation counts the sends behind the last such send only.
`TrackKeyOffsets` merges the offsets of ok operations into an atom.
-/

import Jepsen.Tests.Kafka.Op

namespace Jepsen.Tests.Kafka

open Jepsen.Library

universe u v w

variable {K : Type u} {V : Type v} [DecidableEq K]

/-! ## Highest offsets -/

/-- One step of `op->max-poll-offsets`. -/
def pollOffsetsOfMop (offsets : Assoc K ℤ) : Mop K V → Assoc K ℤ
  | .poll reads => Assoc.mergeWith max offsets ((reads.getD ∅).mapVals fun _ pairs =>
      (pairs.filterMap Prod.fst).foldl (fun (highest : ℤ) (offset : ℕ) => max highest offset) (-1))
  | .send _ _ => offsets

/-- `op->max-poll-offsets`; its `nil` is the empty map here. -/
def opMaxPollOffsets (op : KafkaOp K V) : Assoc K ℤ :=
  match op.type with
  | .info | .ok => op.pollingMops.foldl pollOffsetsOfMop ∅
  | _ => ∅

/-- One step of `op->max-send-offsets`; the `when` gives `nil` for a send without an
offset, and `nil` is the empty map. -/
def sendOffsetsOfMop (offsets : Assoc K ℤ) : Mop K V → Assoc K ℤ
  | .poll _ => offsets
  | .send k (.pair (some offset) _) =>
      AList.insert k (max ((offsets.lookup k).getD 0) offset) offsets
  | .send _ _ => ∅

/-- `op->max-send-offsets`; its `nil` is the empty map here. -/
def opMaxSendOffsets (op : KafkaOp K V) : Assoc K ℤ :=
  match op.type with
  | .info | .ok => op.sendingMops.foldl sendOffsetsOfMop ∅
  | _ => ∅

/-- `op->max-offsets` -/
def opMaxOffsets (op : KafkaOp K V) : Assoc K ℤ :=
  Assoc.mergeWith max (opMaxPollOffsets op) (opMaxSendOffsets op)

/-! ## A generator that tracks them -/

/-- A generator wrapped to track offsets, with the contents of its atom. -/
structure TrackKeyOffsets (K : Type u) (γ : Type w) where
  gen : γ
  offsets : Assoc K ℤ

/-- The update of `TrackKeyOffsets`, from that of the generator it wraps. -/
def TrackKeyOffsets.update {γ : Type w} (genUpdate : γ → KafkaOp K V → γ)
    (this : TrackKeyOffsets K γ) (event : KafkaOp K V) : TrackKeyOffsets K γ where
  gen := genUpdate this.gen event
  offsets :=
    if event.type = .ok then
      let opOffsets := opMaxOffsets event
      if opOffsets.entries.isEmpty then this.offsets
      else Assoc.mergeWith max this.offsets opOffsets
    else this.offsets

/-- The offset a map has for a key, or -1. -/
def offsetAt (offsets : Assoc K ℤ) (k : K) : ℤ := (offsets.lookup k).getD (-1)

/-! ## Maxima of offsets -/

/-- The highest of some offsets, -1 if there is none. -/
def highest (offsets : List ℕ) : ℤ :=
  offsets.foldl (fun (highest : ℤ) (offset : ℕ) => max highest offset) (-1)

theorem highest_le_iff {offsets : List ℕ} {m : ℤ} :
    highest offsets ≤ m ↔ -1 ≤ m ∧ ∀ o ∈ offsets, (o : ℤ) ≤ m := by
  have hfold : ∀ (l : List ℕ) (b : ℤ),
      l.foldl (fun (highest : ℤ) (offset : ℕ) => max highest offset) b ≤ m ↔
        b ≤ m ∧ ∀ o ∈ l, (o : ℤ) ≤ m := by
    intro l
    induction l with
    | nil => intro b; simp
    | cons o l ih =>
      intro b
      rw [List.foldl_cons, ih, List.forall_mem_cons, max_le_iff, and_assoc]
  exact hfold offsets (-1)

theorem neg_one_le_highest (offsets : List ℕ) : -1 ≤ highest offsets :=
  (highest_le_iff.mp le_rfl).1

theorem le_highest {offsets : List ℕ} {o : ℕ} (ho : o ∈ offsets) : (o : ℤ) ≤ highest offsets :=
  (highest_le_iff.mp le_rfl).2 o ho

theorem highest_append (offsets offsets' : List ℕ) :
    highest (offsets ++ offsets') = max (highest offsets) (highest offsets') := by
  apply eq_of_forall_ge_iff
  intro m
  simp only [max_le_iff, highest_le_iff, List.mem_append, or_imp, forall_and]
  tauto

/-- Fewer offsets have the same maximum if and only if they have one as high as any. -/
theorem highest_eq_iff_of_subset {offsets offsets' : List ℕ} (hsub : offsets ⊆ offsets') :
    highest offsets = highest offsets' ↔ ∀ o ∈ offsets', ∃ o' ∈ offsets, o ≤ o' := by
  constructor
  · intro heq o ho
    by_contra hnone
    have hlt : highest offsets ≤ (o : ℤ) - 1 := by
      refine highest_le_iff.mpr ⟨by omega, fun o' ho' => ?_⟩
      have hnot : ¬ o ≤ o' := fun hle => hnone ⟨o', ho', hle⟩
      omega
    have hle := le_highest ho
    omega
  · intro hcovered
    apply le_antisymm
    · exact highest_le_iff.mpr ⟨neg_one_le_highest _, fun o ho => le_highest (hsub ho)⟩
    · refine highest_le_iff.mpr ⟨neg_one_le_highest _, fun o ho => ?_⟩
      obtain ⟨o', ho', hle⟩ := hcovered o ho
      exact (Int.ofNat_le.mpr hle).trans (le_highest ho')

theorem offsetAt_mergeWith {m m' : Assoc K ℤ} {k : K} (hm : -1 ≤ offsetAt m k)
    (hm' : -1 ≤ offsetAt m' k) :
    offsetAt (Assoc.mergeWith max m m') k = max (offsetAt m k) (offsetAt m' k) := by
  unfold offsetAt at hm hm' ⊢
  rw [Assoc.lookup_mergeWith]
  cases hlookup : m.lookup k with
  | none =>
    rw [Assoc.merged_none_left]
    exact (max_eq_right hm').symm
  | some o =>
    cases m'.lookup k with
    | none =>
      rw [hlookup] at hm
      rw [Assoc.merged_none_right]
      exact (max_eq_left hm).symm
    | some o' => rfl

/-! ## What an operation reports -/

/-- The offsets a micro-operation reports for a key it polled. -/
def Mop.polledOffsets (k : K) : Mop K V → List ℕ
  | .poll (some reads) => ((reads.lookup k).getD []).filterMap Prod.fst
  | _ => []

/-- The offset a micro-operation reports for a key it sent to. -/
def Mop.sentOffsets (k : K) : Mop K V → List ℕ
  | .send k' (.pair (some offset) _) => if k' = k then [offset] else []
  | _ => []

/-- A send whose offset is unknown. -/
def Mop.lacksOffset : Mop K V → Bool
  | .send _ (.pair (some _) _) => false
  | .send _ _ => true
  | .poll _ => false

/-- The micro-operations behind the last send whose offset is unknown. -/
def behindUnknown (mops : List (Mop K V)) : List (Mop K V) :=
  (mops.reverse.takeWhile fun mop => !mop.lacksOffset).reverse

namespace KafkaOp

/-- The micro-operations of an operation. -/
def mops (op : KafkaOp K V) : List (Mop K V) :=
  match op.call with
  | .mops _ value => value
  | _ => []

/-- The offsets of a key that the operation's polls report. -/
def polledOffsets (op : KafkaOp K V) (k : K) : List ℕ := op.mops.flatMap (Mop.polledOffsets k)

/-- The offsets of a key that the operation's sends report. -/
def sentOffsets (op : KafkaOp K V) (k : K) : List ℕ := op.mops.flatMap (Mop.sentOffsets k)

/-- The offsets of a key that the operation reports. -/
def reportedOffsets (op : KafkaOp K V) (k : K) : List ℕ := op.polledOffsets k ++ op.sentOffsets k

/-- The polled offsets that are counted: those of `:poll` and `:txn` operations. -/
def countedPolls (op : KafkaOp K V) (k : K) : List ℕ :=
  op.pollingMops.flatMap (Mop.polledOffsets k)

/-- The sent offsets that are counted: in `:send` and `:txn` operations, those behind the
last send without an offset. -/
def countedSends (op : KafkaOp K V) (k : K) : List ℕ :=
  (behindUnknown op.sendingMops).flatMap (Mop.sentOffsets k)

/-- The offsets of a key that are counted. -/
def countedOffsets (op : KafkaOp K V) (k : K) : List ℕ := op.countedPolls k ++ op.countedSends k

/-- The operation completed ok or crashed. -/
def Reports (op : KafkaOp K V) : Prop := op.type = .ok ∨ op.type = .info

end KafkaOp

omit [DecidableEq K] in
theorem pollingMops_subset (op : KafkaOp K V) : op.pollingMops ⊆ op.mops := by
  intro mop hmop
  unfold KafkaOp.pollingMops at hmop
  unfold KafkaOp.mops
  cases hcall : op.call with
  | mops f value =>
    rw [hcall] at hmop
    cases f with
    | txn => exact hmop
    | poll => exact hmop
    | send => cases hmop
  | _ =>
    rw [hcall] at hmop
    cases hmop

omit [DecidableEq K] in
theorem sendingMops_subset (op : KafkaOp K V) : op.sendingMops ⊆ op.mops := by
  intro mop hmop
  unfold KafkaOp.sendingMops at hmop
  unfold KafkaOp.mops
  cases hcall : op.call with
  | mops f value =>
    rw [hcall] at hmop
    cases f with
    | txn => exact hmop
    | send => exact hmop
    | poll => cases hmop
  | _ =>
    rw [hcall] at hmop
    cases hmop

theorem countedPolls_subset (op : KafkaOp K V) (k : K) :
    op.countedPolls k ⊆ op.polledOffsets k := by
  intro o ho
  obtain ⟨mop, hmop, hoffset⟩ := List.mem_flatMap.mp ho
  exact List.mem_flatMap.mpr ⟨mop, pollingMops_subset op hmop, hoffset⟩

theorem countedSends_subset (op : KafkaOp K V) (k : K) :
    op.countedSends k ⊆ op.sentOffsets k := by
  intro o ho
  obtain ⟨mop, hmop, hoffset⟩ := List.mem_flatMap.mp ho
  have hbehind := List.mem_reverse.mp (List.takeWhile_subset _ (List.mem_reverse.mp hmop))
  exact List.mem_flatMap.mpr ⟨mop, sendingMops_subset op hbehind, hoffset⟩

theorem offsetAt_pollOffsetsOfMop {m : Assoc K ℤ} {k : K} (hm : -1 ≤ offsetAt m k)
    (mop : Mop K V) :
    offsetAt (pollOffsetsOfMop m mop) k = max (offsetAt m k) (highest (mop.polledOffsets k)) := by
  cases mop with
  | send k' v => exact (max_eq_left hm).symm
  | poll reads =>
    have hreads : offsetAt ((reads.getD ∅).mapVals fun _ pairs =>
        (pairs.filterMap Prod.fst).foldl (fun (highest : ℤ) (offset : ℕ) => max highest offset)
          (-1)) k = highest ((Mop.poll reads : Mop K V).polledOffsets k) := by
      unfold offsetAt
      rw [Assoc.lookup_mapVals]
      cases reads with
      | none => rfl
      | some reads =>
        rw [Option.getD_some, Mop.polledOffsets]
        cases reads.lookup k <;> rfl
    rw [pollOffsetsOfMop, offsetAt_mergeWith hm (hreads ▸ neg_one_le_highest _), hreads]

theorem offsetAt_foldl_pollOffsets (mops : List (Mop K V)) (k : K) :
    offsetAt (mops.foldl pollOffsetsOfMop ∅) k =
      highest (mops.flatMap (Mop.polledOffsets k)) := by
  induction mops using List.reverseRecOn with
  | nil => rfl
  | append_singleton mops mop ih =>
    rw [List.foldl_append, List.flatMap_append, highest_append, ← ih, List.flatMap_singleton]
    exact offsetAt_pollOffsetsOfMop (ih ▸ neg_one_le_highest _) mop

omit [DecidableEq K] in
theorem behindUnknown_snoc (mops : List (Mop K V)) (mop : Mop K V) :
    behindUnknown (mops ++ [mop]) =
      if mop.lacksOffset then [] else behindUnknown mops ++ [mop] := by
  rw [behindUnknown, List.reverse_append, List.reverse_singleton, List.singleton_append,
    List.takeWhile_cons]
  cases mop.lacksOffset with
  | true => rfl
  | false => exact List.reverse_cons

/-- One step of `op->max-send-offsets`: an offset is merged, or everything forgotten. -/
theorem offsetAt_sendOffsetsOfMop {m : Assoc K ℤ} {k : K} (hm : -1 ≤ offsetAt m k)
    (mop : Mop K V) :
    offsetAt (sendOffsetsOfMop m mop) k =
      if mop.lacksOffset then -1 else max (offsetAt m k) (highest (mop.sentOffsets k)) := by
  cases mop with
  | poll reads => exact (max_eq_left hm).symm
  | send k' sent =>
    match sent with
    | .literal v => rfl
    | .pair none v => rfl
    | .pair (some offset) v =>
      rw [sendOffsetsOfMop, Mop.lacksOffset, if_neg Bool.false_ne_true, Mop.sentOffsets]
      unfold offsetAt at hm ⊢
      rw [Assoc.lookup_insert_eq_ite]
      by_cases hk : k = k'
      · subst hk
        rw [if_pos rfl, if_pos rfl, highest, List.foldl_cons, List.foldl_nil]
        cases m.lookup k <;> simp
      · rw [if_neg hk, if_neg (Ne.symm hk)]
        exact (max_eq_left hm).symm

theorem offsetAt_foldl_sendOffsets (mops : List (Mop K V)) (k : K) :
    offsetAt (mops.foldl sendOffsetsOfMop ∅) k =
      highest ((behindUnknown mops).flatMap (Mop.sentOffsets k)) := by
  induction mops using List.reverseRecOn with
  | nil => rfl
  | append_singleton mops mop ih =>
    have hfloor : -1 ≤ offsetAt (mops.foldl sendOffsetsOfMop ∅) k := by
      rw [ih]
      exact neg_one_le_highest _
    rw [List.foldl_append, List.foldl_cons, List.foldl_nil, offsetAt_sendOffsetsOfMop hfloor,
      behindUnknown_snoc]
    cases mop.lacksOffset with
    | true => rfl
    | false =>
      rw [if_neg Bool.false_ne_true, if_neg Bool.false_ne_true, List.flatMap_append, highest_append,
        List.flatMap_singleton, ih]

theorem offsetAt_opMaxPollOffsets {op : KafkaOp K V} (hop : op.Reports) (k : K) :
    offsetAt (opMaxPollOffsets op) k = highest (op.countedPolls k) := by
  unfold opMaxPollOffsets
  cases hop with
  | inl hok => rw [hok]; exact offsetAt_foldl_pollOffsets _ k
  | inr hinfo => rw [hinfo]; exact offsetAt_foldl_pollOffsets _ k

theorem offsetAt_opMaxSendOffsets {op : KafkaOp K V} (hop : op.Reports) (k : K) :
    offsetAt (opMaxSendOffsets op) k = highest (op.countedSends k) := by
  unfold opMaxSendOffsets
  cases hop with
  | inl hok => rw [hok]; exact offsetAt_foldl_sendOffsets _ k
  | inr hinfo => rw [hinfo]; exact offsetAt_foldl_sendOffsets _ k

/-- `op->max-offsets` has the highest of the offsets that are counted. -/
theorem offsetAt_opMaxOffsets {op : KafkaOp K V} (hop : op.Reports) (k : K) :
    offsetAt (opMaxOffsets op) k = highest (op.countedOffsets k) := by
  have hpoll := offsetAt_opMaxPollOffsets hop k
  have hsend := offsetAt_opMaxSendOffsets hop k
  rw [opMaxOffsets, offsetAt_mergeWith (hpoll ▸ neg_one_le_highest _)
    (hsend ▸ neg_one_le_highest _), hpoll, hsend, KafkaOp.countedOffsets, highest_append]

/-! ## Operations that lose no offset -/

/-- For every key, the highest offset found is the highest reported. -/
def MaxOffsetsExact (op : KafkaOp K V) : Prop :=
  ∀ k, offsetAt (opMaxOffsets op) k = highest (op.reportedOffsets k)

/-- Every offset the operation reports is at most one of the key that is counted. -/
def KafkaOp.Lossless (op : KafkaOp K V) : Prop :=
  ∀ k, ∀ o ∈ op.reportedOffsets k, ∃ o' ∈ op.countedOffsets k, o ≤ o'

theorem maxOffsetsExact_iff {op : KafkaOp K V} (hop : op.Reports) :
    MaxOffsetsExact op ↔ op.Lossless := by
  refine forall_congr' fun k => ?_
  have hsub : op.countedOffsets k ⊆ op.reportedOffsets k := by
    intro o ho
    cases List.mem_append.mp ho with
    | inl hpolled => exact List.mem_append_left _ (countedPolls_subset op k hpolled)
    | inr hsent => exact List.mem_append_right _ (countedSends_subset op k hsent)
  rw [offsetAt_opMaxOffsets hop, highest_eq_iff_of_subset hsub]

/-! ## The atom of `TrackKeyOffsets` -/

/-- The offsets of a key that the ok operations of a sequence of events report. -/
def okOffsets (events : List (KafkaOp K V)) (k : K) : List ℕ :=
  events.flatMap fun op => if op.type = .ok then op.reportedOffsets k else []

theorem offsetAt_update {γ : Type w} {genUpdate : γ → KafkaOp K V → γ}
    {this : TrackKeyOffsets K γ} {event : KafkaOp K V} (hevent : event.type = .ok) {k : K}
    (hfloor : -1 ≤ offsetAt this.offsets k) :
    offsetAt (this.update genUpdate event).offsets k =
      max (offsetAt this.offsets k) (offsetAt (opMaxOffsets event) k) := by
  have hop : -1 ≤ offsetAt (opMaxOffsets event) k := by
    rw [offsetAt_opMaxOffsets (Or.inl hevent)]
    exact neg_one_le_highest _
  unfold TrackKeyOffsets.update
  rw [if_pos hevent]
  by_cases hempty : (opMaxOffsets event).entries.isEmpty = true
  · have hnone : opMaxOffsets event = ∅ := AList.ext (List.isEmpty_iff.mp hempty)
    rw [if_pos hempty, hnone]
    exact (max_eq_left hfloor).symm
  · rw [if_neg hempty]
    exact offsetAt_mergeWith hfloor hop

/-- If no event loses an offset, the atom has the highest offset that ok events reported. -/
theorem offsetAt_foldl_update {γ : Type w} (genUpdate : γ → KafkaOp K V → γ) (gen : γ)
    {events : List (KafkaOp K V)} (hlossless : ∀ op ∈ events, op.Reports → op.Lossless) (k : K) :
    offsetAt (events.foldl (TrackKeyOffsets.update genUpdate) ⟨gen, ∅⟩).offsets k =
      highest (okOffsets events k) := by
  induction events using List.reverseRecOn with
  | nil => rfl
  | append_singleton events event ih =>
    have hprior := ih fun op hop => hlossless op (List.mem_append_left _ hop)
    rw [List.foldl_append, List.foldl_cons, List.foldl_nil, okOffsets, List.flatMap_append,
      highest_append, List.flatMap_singleton]
    by_cases hok : event.type = .ok
    · have hexact := (maxOffsetsExact_iff (Or.inl hok)).mpr
        (hlossless event (List.mem_append_right _ (List.mem_singleton_self _)) (Or.inl hok))
      rw [offsetAt_update hok (hprior ▸ neg_one_le_highest _), hprior, hexact k, if_pos hok]
      rfl
    · have hsame : (TrackKeyOffsets.update genUpdate
          (events.foldl (TrackKeyOffsets.update genUpdate) ⟨gen, ∅⟩) event).offsets =
          (events.foldl (TrackKeyOffsets.update genUpdate) ⟨gen, ∅⟩).offsets := if_neg hok
      rw [hsame, hprior, if_neg hok]
      exact (max_eq_left (neg_one_le_highest _)).symm

/-- Over a sequence of events, every ok or info operation has its highest offsets found
and the atom has the highest of all, if and only if no operation loses an offset. -/
theorem maxOffsets_exact_iff {γ : Type w} (genUpdate : γ → KafkaOp K V → γ) (gen : γ)
    (events : List (KafkaOp K V)) :
    ((∀ op ∈ events, op.Reports → MaxOffsetsExact op) ∧
      ∀ k, offsetAt (events.foldl (TrackKeyOffsets.update genUpdate) ⟨gen, ∅⟩).offsets k =
        highest (okOffsets events k)) ↔
    ∀ op ∈ events, op.Reports → op.Lossless := by
  constructor
  · intro hexact op hop hreports
    exact (maxOffsetsExact_iff hreports).mp (hexact.1 op hop hreports)
  · intro hlossless
    refine ⟨fun op hop hreports => ?_, offsetAt_foldl_update genUpdate gen hlossless⟩
    exact (maxOffsetsExact_iff hreports).mpr (hlossless op hop hreports)

/-- A transaction sends to key 0 at offset 5, and then to key 1 at an unknown offset. -/
def unknownSend : KafkaOp ℕ ℕ :=
  ⟨0, 0, .int 0, .ok, .mops .txn [.send 0 (.pair (some 5) 10), .send 1 (.pair none 11)]⟩

/-- The offset is lost, by the operation and by the atom. -/
theorem unknownSend_not_exact :
    unknownSend.reportedOffsets 0 = [5] ∧ opMaxOffsets unknownSend = ∅ ∧
      ¬ MaxOffsetsExact unknownSend ∧
      offsetAt ([unknownSend].foldl (TrackKeyOffsets.update fun gen _ => gen)
        (⟨(), ∅⟩ : TrackKeyOffsets ℕ Unit)).offsets 0 ≠ highest (okOffsets [unknownSend] 0) :=
  ⟨rfl, rfl, fun hexact => absurd (hexact 0) (by decide), by decide⟩

end Jepsen.Tests.Kafka
