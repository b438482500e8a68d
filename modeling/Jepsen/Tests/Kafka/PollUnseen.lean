/-
# Polling what was not seen

`PollUnseen` keeps the highest offset of each key that was sent and the highest that
was polled, and trims both once the polls have caught up. What it forgets matters
only if a send is acknowledged after a poll went past its offset.
-/

import Jepsen.Library.Runs
import Jepsen.Tests.Kafka.MaxOffsets

namespace Jepsen.Tests.Kafka

open Jepsen.Library

universe u v w

variable {K : Type u} {V : Type v} [DecidableEq K]

/-- A generator wrapped to poll what was sent and not yet polled. -/
structure PollUnseen (K : Type u) (γ : Type w) where
  gen : γ
  /-- Keys to the highest offsets sent. -/
  sent : Assoc K ℤ
  /-- Keys to the highest offsets polled. -/
  polled : Assoc K ℤ

/-- Trim a key we're caught up on. -/
def trimKey (maps : Assoc K ℤ × Assoc K ℤ) (k : K) : Assoc K ℤ × Assoc K ℤ :=
  if offsetAt maps.2 k < offsetAt maps.1 k then maps
  else (AList.erase k maps.1, AList.erase k maps.2)

/-- The update of `PollUnseen`, from that of the generator it wraps. -/
def PollUnseen.update {γ : Type w} (genUpdate : γ → KafkaOp K V → γ)
    (this : PollUnseen K γ) (event : KafkaOp K V) : PollUnseen K γ :=
  if event.type = .ok then
    let sent' := Assoc.mergeWith max this.sent (opMaxSendOffsets event)
    let polled' := Assoc.mergeWith max this.polled (opMaxPollOffsets event)
    let trimmed := (sent'.keys ++ polled'.keys).dedup.foldl trimKey (sent', polled')
    { gen := genUpdate this.gen event, sent := trimmed.1, polled := trimmed.2 }
  else this

/-! ## What a key has after an update -/

/-- The key has offsets that were sent and not polled. -/
def Unseen (maps : Assoc K ℤ × Assoc K ℤ) (k : K) : Prop :=
  offsetAt maps.2 k < offsetAt maps.1 k

instance (maps : Assoc K ℤ × Assoc K ℤ) (k : K) : Decidable (Unseen maps k) :=
  inferInstanceAs (Decidable (offsetAt maps.2 k < offsetAt maps.1 k))

theorem lookup_trimKey (maps : Assoc K ℤ × Assoc K ℤ) (k k' : K) :
    ((trimKey maps k').1.lookup k = if k = k' ∧ ¬ Unseen maps k then none else maps.1.lookup k) ∧
      (trimKey maps k').2.lookup k =
        if k = k' ∧ ¬ Unseen maps k then none else maps.2.lookup k := by
  by_cases hunseen : Unseen maps k'
  · have hkept : trimKey maps k' = maps := if_pos hunseen
    have hnot : ¬ (k = k' ∧ ¬ Unseen maps k) := fun h => h.2 (h.1 ▸ hunseen)
    rw [hkept, if_neg hnot, if_neg hnot]
    exact ⟨rfl, rfl⟩
  · have herased : trimKey maps k' = (AList.erase k' maps.1, AList.erase k' maps.2) :=
      if_neg hunseen
    rw [herased]
    by_cases hk : k = k'
    · subst hk
      rw [if_pos ⟨rfl, hunseen⟩, if_pos ⟨rfl, hunseen⟩]
      exact ⟨AList.lookup_erase _ _, AList.lookup_erase _ _⟩
    · have hnot : ¬ (k = k' ∧ ¬ Unseen maps k) := fun h => hk h.1
      rw [if_neg hnot, if_neg hnot]
      exact ⟨AList.lookup_erase_ne hk, AList.lookup_erase_ne hk⟩

/-- Trimming keeps what a key has if it has unseen offsets, and nothing otherwise. -/
theorem lookup_foldl_trimKey (ks : List K) (maps : Assoc K ℤ × Assoc K ℤ) (k : K) :
    ((ks.foldl trimKey maps).1.lookup k =
        if k ∈ ks ∧ ¬ Unseen maps k then none else maps.1.lookup k) ∧
      (ks.foldl trimKey maps).2.lookup k =
        if k ∈ ks ∧ ¬ Unseen maps k then none else maps.2.lookup k := by
  induction ks generalizing maps with
  | nil => exact ⟨rfl, rfl⟩
  | cons k' ks ih =>
    obtain ⟨hsent, hpolled⟩ := lookup_trimKey maps k k'
    obtain ⟨ihsent, ihpolled⟩ := ih (trimKey maps k')
    rw [List.foldl_cons, ihsent, ihpolled, hsent, hpolled]
    by_cases htrimmed : k = k' ∧ ¬ Unseen maps k
    · have hmem : k ∈ k' :: ks := htrimmed.1 ▸ List.mem_cons_self
      simp only [if_pos htrimmed, if_pos (And.intro hmem htrimmed.2), ite_self, and_self]
    · rw [if_neg htrimmed, if_neg htrimmed] at *
      have hunseen : Unseen (trimKey maps k') k ↔ Unseen maps k := by
        rw [Unseen, Unseen, offsetAt, offsetAt, hsent, hpolled]
        rfl
      have hiff : (k ∈ ks ∧ ¬ Unseen (trimKey maps k') k) ↔ k ∈ k' :: ks ∧ ¬ Unseen maps k := by
        rw [hunseen, List.mem_cons]
        exact ⟨fun h => ⟨Or.inr h.1, h.2⟩, fun h => ⟨h.1.resolve_left fun hk => htrimmed ⟨hk, h.2⟩, h.2⟩⟩
      simp only [hiff, and_self]

/-- Trimming every key leaves the keys that have unseen offsets. -/
theorem lookup_trimAll (maps : Assoc K ℤ × Assoc K ℤ) (k : K) :
    let trimmed := (maps.1.keys ++ maps.2.keys).dedup.foldl trimKey maps
    (trimmed.1.lookup k = if Unseen maps k then maps.1.lookup k else none) ∧
      trimmed.2.lookup k = if Unseen maps k then maps.2.lookup k else none := by
  obtain ⟨hsent, hpolled⟩ := lookup_foldl_trimKey (maps.1.keys ++ maps.2.keys).dedup maps k
  intro trimmed
  rw [hsent, hpolled]
  by_cases hunseen : Unseen maps k
  · simp only [hunseen, not_true_eq_false, and_false, if_false, if_true, and_self]
  · by_cases hmem : k ∈ (maps.1.keys ++ maps.2.keys).dedup
    · simp only [hmem, hunseen, not_false_eq_true, and_self, if_true, if_false]
    · simp only [hmem, hunseen, false_and, if_false]
      rw [List.mem_dedup, List.mem_append, not_or] at hmem
      exact ⟨AList.lookup_eq_none.mpr hmem.1, AList.lookup_eq_none.mpr hmem.2⟩

/-- What trimming leaves of the highest sent and polled offsets `S` and `P` of a key. -/
structure Updated (S P S' P' : ℤ) (isSent : Prop) : Prop where
  kept : P < S → isSent ∧ S' = S ∧ P' = P
  trimmed : ¬ P < S → ¬ isSent ∧ S' = -1 ∧ P' = -1

theorem updated {γ : Type w} (genUpdate : γ → KafkaOp K V → γ) {this : PollUnseen K γ}
    {event : KafkaOp K V} (hok : event.type = .ok) {k : K} (hsent : -1 ≤ offsetAt this.sent k)
    (hpolled : -1 ≤ offsetAt this.polled k) :
    Updated (max (offsetAt this.sent k) (highest (event.countedSends k)))
      (max (offsetAt this.polled k) (highest (event.countedPolls k)))
      (offsetAt (this.update genUpdate event).sent k)
      (offsetAt (this.update genUpdate event).polled k)
      (k ∈ (this.update genUpdate event).sent) := by
  have hsends := offsetAt_opMaxSendOffsets (Or.inl hok) k
  have hpolls := offsetAt_opMaxPollOffsets (Or.inl hok) k
  obtain ⟨maps, hmaps⟩ : ∃ maps, maps = (Assoc.mergeWith max this.sent (opMaxSendOffsets event),
    Assoc.mergeWith max this.polled (opMaxPollOffsets event)) := ⟨_, rfl⟩
  have hS : offsetAt maps.1 k = max (offsetAt this.sent k) (highest (event.countedSends k)) := by
    rw [hmaps, offsetAt_mergeWith hsent (hsends ▸ neg_one_le_highest _), hsends]
  have hP : offsetAt maps.2 k = max (offsetAt this.polled k) (highest (event.countedPolls k)) := by
    rw [hmaps, offsetAt_mergeWith hpolled (hpolls ▸ neg_one_le_highest _), hpolls]
  have hupdate : this.update genUpdate event =
      { gen := genUpdate this.gen event
        sent := ((maps.1.keys ++ maps.2.keys).dedup.foldl trimKey maps).1
        polled := ((maps.1.keys ++ maps.2.keys).dedup.foldl trimKey maps).2 } := by
    rw [PollUnseen.update, if_pos hok, hmaps]
  obtain ⟨htrimSent, htrimPolled⟩ := lookup_trimAll maps k
  rw [hupdate, ← AList.lookup_isSome, ← hS, ← hP]
  unfold offsetAt
  dsimp only
  rw [htrimSent, htrimPolled]
  constructor
  · intro hlt
    have hunseen : Unseen maps k := hlt
    have hsome : (maps.1.lookup k).isSome := by
      cases hlookup : maps.1.lookup k with
      | some o => rfl
      | none =>
        have hfloor : offsetAt maps.1 k = -1 := by rw [offsetAt, hlookup]; rfl
        have hfloor' : -1 ≤ offsetAt maps.2 k := hP ▸ le_max_of_le_left hpolled
        unfold Unseen at hunseen
        omega
    rw [if_pos hunseen, if_pos hunseen]
    exact ⟨hsome, rfl, rfl⟩
  · intro hnot
    have hseen : ¬ Unseen maps k := hnot
    rw [if_neg hseen, if_neg hseen]
    exact ⟨Bool.false_ne_true, rfl, rfl⟩

/-! ## Verdicts over a sequence of events -/

/-- The offsets of a key that ok events report as sent. -/
def okSends (events : List (KafkaOp K V)) (k : K) : List ℕ :=
  events.flatMap fun op => if op.type = .ok then op.sentOffsets k else []

/-- The offsets of a key that ok events report as polled. -/
def okPolls (events : List (KafkaOp K V)) (k : K) : List ℕ :=
  events.flatMap fun op => if op.type = .ok then op.polledOffsets k else []

/-- The sends and the polls of an operation each count their highest offsets. -/
def KafkaOp.Counted (op : KafkaOp K V) : Prop :=
  ∀ k, (∀ o ∈ op.sentOffsets k, ∃ o' ∈ op.countedSends k, o ≤ o') ∧
    ∀ o ∈ op.polledOffsets k, ∃ o' ∈ op.countedPolls k, o ≤ o'

/-- A key that is caught up has a send acknowledged whose offset was polled before, and
is above all that the event itself polls. -/
def Overtaken (before : List (KafkaOp K V)) (event : KafkaOp K V) (k : K) : Prop :=
  highest (okSends before k) ≤ highest (okPolls before k) ∧
    highest (event.polledOffsets k) < highest (event.sentOffsets k) ∧
    highest (event.sentOffsets k) ≤ highest (okPolls before k)

theorem highest_okSends_snoc (events : List (KafkaOp K V)) {event : KafkaOp K V}
    (hok : event.type = .ok) (k : K) :
    highest (okSends (events ++ [event]) k) =
      max (highest (okSends events k)) (highest (event.sentOffsets k)) := by
  rw [okSends, List.flatMap_append, highest_append, List.flatMap_singleton, if_pos hok]
  rfl

theorem highest_okPolls_snoc (events : List (KafkaOp K V)) {event : KafkaOp K V}
    (hok : event.type = .ok) (k : K) :
    highest (okPolls (events ++ [event]) k) =
      max (highest (okPolls events k)) (highest (event.polledOffsets k)) := by
  rw [okPolls, List.flatMap_append, highest_append, List.flatMap_singleton, if_pos hok]
  rfl

/-- The key is taken for unseen exactly if it is. -/
def VerdictRight {γ : Type w} (this : PollUnseen K γ) (events : List (KafkaOp K V)) (k : K) :
    Prop :=
  k ∈ this.sent ↔ highest (okPolls events k) < highest (okSends events k)

/-- What a generator with the right verdict on a key has kept of the events: the highest
send of an unseen key, and nothing of another. -/
structure Follows {γ : Type w} (this : PollUnseen K γ) (events : List (KafkaOp K V)) (k : K) :
    Prop where
  verdict : VerdictRight this events k
  unseen : k ∈ this.sent → offsetAt this.sent k = highest (okSends events k) ∧
    -1 ≤ offsetAt this.polled k ∧ offsetAt this.polled k ≤ highest (okPolls events k)
  caughtUp : k ∉ this.sent → offsetAt this.sent k = -1 ∧ offsetAt this.polled k = -1

theorem Follows.floor {γ : Type w} {this : PollUnseen K γ} {events : List (KafkaOp K V)} {k : K}
    (hfollows : Follows this events k) :
    -1 ≤ offsetAt this.sent k ∧ -1 ≤ offsetAt this.polled k := by
  by_cases hmem : k ∈ this.sent
  · obtain ⟨hsent, hpolled, -⟩ := hfollows.unseen hmem
    exact ⟨hsent ▸ neg_one_le_highest _, hpolled⟩
  · obtain ⟨hsent, hpolled⟩ := hfollows.caughtUp hmem
    exact ⟨hsent.ge, hpolled.ge⟩

/-- One event: the generator goes on following a key unless the key is overtaken, and then
the verdict on it is wrong. -/
theorem follows_update {γ : Type w} (genUpdate : γ → KafkaOp K V → γ) {this : PollUnseen K γ}
    {events : List (KafkaOp K V)} {event : KafkaOp K V} {k : K}
    (hfollows : Follows this events k) (hok : event.type = .ok) (hcounted : event.Counted) :
    (¬ Overtaken events event k →
      Follows (this.update genUpdate event) (events ++ [event]) k) ∧
    (Overtaken events event k →
      ¬ VerdictRight (this.update genUpdate event) (events ++ [event]) k) := by
  obtain ⟨hsent, hpolled⟩ := hfollows.floor
  have hupdated := updated genUpdate hok hsent hpolled
  rw [(highest_eq_iff_of_subset (countedSends_subset event k)).mpr (hcounted k).1,
    (highest_eq_iff_of_subset (countedPolls_subset event k)).mpr (hcounted k).2] at hupdated
  have hsends := highest_okSends_snoc events hok k
  have hpolls := highest_okPolls_snoc events hok k
  have hverdict := hfollows.verdict
  have hs := neg_one_le_highest (event.sentOffsets k)
  have hp := neg_one_le_highest (event.polledOffsets k)
  have hpast := neg_one_le_highest (okPolls events k)
  unfold VerdictRight at hverdict ⊢
  unfold Overtaken
  by_cases hmem : k ∈ this.sent
  · -- the highest send is kept, and no poll went past it
    obtain ⟨hS, -, hP⟩ := hfollows.unseen hmem
    have hlt := hverdict.mp hmem
    refine ⟨fun _ => ?_, fun h => absurd h.1 (by omega)⟩
    by_cases hunseen : max (offsetAt this.polled k) (highest (event.polledOffsets k)) <
        max (offsetAt this.sent k) (highest (event.sentOffsets k))
    · obtain ⟨hin, hS', hP'⟩ := hupdated.kept hunseen
      refine ⟨iff_of_true hin (by omega), fun _ => ⟨by omega, by omega, by omega⟩,
        fun hnot => absurd hin hnot⟩
    · obtain ⟨hout, hS', hP'⟩ := hupdated.trimmed hunseen
      exact ⟨iff_of_false hout (by omega), fun hin => absurd hin hout, fun _ => ⟨hS', hP'⟩⟩
  · -- nothing is kept, so only the event counts
    obtain ⟨hS, hP⟩ := hfollows.caughtUp hmem
    have hle := not_lt.mp (mt hverdict.mpr hmem)
    constructor
    · intro hnot
      by_cases hunseen : max (offsetAt this.polled k) (highest (event.polledOffsets k)) <
          max (offsetAt this.sent k) (highest (event.sentOffsets k))
      · obtain ⟨hin, hS', hP'⟩ := hupdated.kept hunseen
        have hbeyond : highest (okPolls events k) < highest (event.sentOffsets k) := by
          by_contra hpolled
          exact hnot ⟨hle, by omega, by omega⟩
        exact ⟨iff_of_true hin (by omega), fun _ => ⟨by omega, by omega, by omega⟩,
          fun hnot => absurd hin hnot⟩
      · obtain ⟨hout, hS', hP'⟩ := hupdated.trimmed hunseen
        exact ⟨iff_of_false hout (by omega), fun hin => absurd hin hout, fun _ => ⟨hS', hP'⟩⟩
    · rintro ⟨-, habove, hpast⟩ hright
      obtain ⟨hin, -⟩ := hupdated.kept (by omega)
      have hlt := hright.mp hin
      omega

/-- An event that is not ok changes nothing. -/
theorem Follows.of_not_ok {γ : Type w} {genUpdate : γ → KafkaOp K V → γ} {this : PollUnseen K γ}
    {events : List (KafkaOp K V)} {event : KafkaOp K V} {k : K} (hfollows : Follows this events k)
    (hnot : event.type ≠ .ok) : Follows (this.update genUpdate event) (events ++ [event]) k := by
  have hsame : this.update genUpdate event = this := if_neg hnot
  have hsends : okSends (events ++ [event]) k = okSends events k := by
    rw [okSends, List.flatMap_append, List.flatMap_singleton, if_neg hnot, List.append_nil]
    rfl
  have hpolls : okPolls (events ++ [event]) k = okPolls events k := by
    rw [okPolls, List.flatMap_append, List.flatMap_singleton, if_neg hnot, List.append_nil]
    rfl
  rw [hsame]
  constructor
  · rw [VerdictRight, hsends, hpolls]
    exact hfollows.verdict
  · rw [hsends, hpolls]
    exact hfollows.unseen
  · exact hfollows.caughtUp

/-- A generator observes an event, which joins the events so far. -/
def Observes {γ : Type w} (genUpdate : γ → KafkaOp K V → γ)
    (s : PollUnseen K γ × List (KafkaOp K V)) (event : KafkaOp K V)
    (s' : PollUnseen K γ × List (KafkaOp K V)) : Prop :=
  s' = (s.1.update genUpdate event, s.2 ++ [event])

theorem run_observes {γ : Type w} (genUpdate : γ → KafkaOp K V → γ) (this : PollUnseen K γ)
    (events : List (KafkaOp K V)) (s : PollUnseen K γ × List (KafkaOp K V)) :
    Run (Observes genUpdate) (this, []) events s ↔
      s = (events.foldl (PollUnseen.update genUpdate) this, events) := by
  have hrun : Run (Observes genUpdate) (this, []) events
      (events.foldl (PollUnseen.update genUpdate) this, events) := by
    induction events using List.reverseRecOn with
    | nil => exact .nil
    | append_singleton events event ih =>
      rw [List.foldl_append]
      exact .snoc ih rfl
  constructor
  · intro hrun'
    exact Run.unique (fun _ _ _ _ h h' => h.trans h'.symm) hrun' hrun
  · rintro rfl
    exact hrun

/-- Where every ok event counts its offsets, the verdicts after every prefix of a
sequence of events are right if and only if no event overtakes a key. -/
theorem pollUnseen_exact_iff {γ : Type w} (genUpdate : γ → KafkaOp K V → γ) (gen : γ)
    {events : List (KafkaOp K V)} (hcounted : ∀ op ∈ events, op.type = .ok → op.Counted) :
    (∀ before after, events = before ++ after → ∀ k,
        VerdictRight (before.foldl (PollUnseen.update genUpdate) ⟨gen, ∅, ∅⟩) before k) ↔
      ∀ before event after, events = before ++ event :: after →
        event.type = .ok → ∀ k, ¬ Overtaken before event k := by
  have hiff := @Run.throughout_iff_eachStep _ _ (Observes genUpdate)
    ((⟨gen, ∅, ∅⟩ : PollUnseen K γ), []) (fun s => ∀ k, Follows s.1 s.2 k)
    (fun s => ∀ k, VerdictRight s.1 s.2 k) (fun s => ∀ op ∈ s.2, op.type = .ok → op.Counted)
    (fun s event => event.type = .ok → ∀ k, ¬ Overtaken s.2 event k) ?_ ?_ ?_ ?_ ?_ ?_ events _
    ((run_observes genUpdate _ events _).mpr rfl) hcounted
  · simp only [Run.Throughout, Run.EachStep, run_observes] at hiff
    constructor
    · intro hright before event after happ
      refine hiff.mp (fun before after t happ ht => ?_) before event after _ happ rfl
      rw [ht]
      exact hright before after happ
    · intro hnot before after happ
      refine hiff.mpr (fun before event after t happ ht => ?_) before after _ happ rfl
      rw [ht]
      exact hnot before event after happ
  · exact fun _ _ _ _ h h' => h.trans h'.symm
  · rintro s event _ rfl hpromised op hop
    exact hpromised op (List.mem_append_left _ hop)
  · intro k
    have hnot : k ∉ (∅ : Assoc K ℤ) := AList.notMem_empty k
    exact {
      verdict := iff_of_false hnot (lt_irrefl _)
      unseen := fun hmem => absurd hmem hnot
      caughtUp := fun _ => ⟨rfl, rfl⟩ }
  · exact fun hfollows k => (hfollows k).verdict
  · rintro s event _ hfollows rfl hpromised hok k
    by_cases htype : event.type = .ok
    · have hcounted := hpromised event (List.mem_append_right _ (List.mem_singleton_self _)) htype
      exact (follows_update genUpdate (hfollows k) htype hcounted).1 (hok htype k)
    · exact (hfollows k).of_not_ok htype
  · rintro s event _ hfollows rfl hpromised hright htype k hovertaken
    have hcounted := hpromised event (List.mem_append_right _ (List.mem_singleton_self _)) htype
    exact (follows_update genUpdate (hfollows k) htype hcounted).2 hovertaken (hright k)

/-- Offset 5 of key 0 is polled, and then the send of offset 3 acknowledged. -/
def lateAcknowledgement : List (KafkaOp ℕ ℕ) :=
  [⟨0, 0, .int 1, .ok, .mops .poll [.poll (some (AList.singleton 0 [(some 5, 12)]))]⟩,
    ⟨1, 1, .int 0, .ok, .mops .send [.send 0 (.pair (some 3) 11)]⟩]

/-- A key stays unseen although a poll went past its highest offset. -/
theorem lateAcknowledgement_unseen :
    highest (okSends lateAcknowledgement 0) = 3 ∧ highest (okPolls lateAcknowledgement 0) = 5 ∧
      ¬ VerdictRight (lateAcknowledgement.foldl (PollUnseen.update fun gen _ => gen)
        (⟨(), ∅, ∅⟩ : PollUnseen ℕ Unit)) lateAcknowledgement 0 := by
  refine ⟨by decide, by decide, fun hright => ?_⟩
  exact absurd (hright.mp (by decide)) (by decide)

/-- The verdicts on a send that is polled. -/
theorem pollUnseen_exact_iff_polled :
    (∀ before after, [lateAcknowledgement[0]] = before ++ after → ∀ k,
        VerdictRight (before.foldl (PollUnseen.update fun gen _ => gen)
          (⟨(), ∅, ∅⟩ : PollUnseen ℕ Unit)) before k) ↔
      ∀ before event after, [lateAcknowledgement[0]] = before ++ event :: after →
        event.type = .ok → ∀ k, ¬ Overtaken before event k :=
  pollUnseen_exact_iff (fun gen _ => gen) () (by
    intro op hop _ k
    rw [List.mem_singleton.mp hop]
    exact ⟨nofun, fun o ho => ⟨o, ho, le_rfl⟩⟩)

end Jepsen.Tests.Kafka
