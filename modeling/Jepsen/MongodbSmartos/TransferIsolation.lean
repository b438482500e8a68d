/-
# Transfers are isolated for partial reads

Between the two updates that apply it, a transfer has taken money from one account that
is in no other. That account has the transaction pending, so the model's balance of an
account is its own plus what its pending transactions have in flight, and partial reads
see only accounts with nothing pending.
-/

import Jepsen.MongodbSmartos.Transfer

namespace Jepsen.MongodbSmartos

open Jepsen.Library

universe u v

variable {A : Type u} {T : Type v} [DecidableEq A] [DecidableEq T]

/-! ## Transfers in progress -/

/-- The account has the transaction pending: it was applied to it and not cleared. -/
def Transfer.Holds (t : Transfer A T) (acct : A) : Prop :=
  (acct = t.txn.fromId ∧ .applyFrom ∉ t.rest ∧ .clearFrom ∈ t.rest) ∨
    (acct = t.txn.toId ∧ .applyTo ∉ t.rest ∧ .clearTo ∈ t.rest)

/-- What the transfer took from the account and has not yet given to the other. -/
def Transfer.inFlight (t : Transfer A T) (acct : A) : ℤ :=
  if acct = t.txn.fromId ∧ .applyFrom ∉ t.rest ∧ .applyTo ∈ t.rest then t.txn.amount else 0

/-- The account has the transaction pending, if it was started. -/
def Holds (t : Option (Transfer A T)) (acct : A) : Prop := ∃ t' ∈ t, t'.Holds acct

/-- What the transaction has in flight, if it was started. -/
def inFlight (t : Option (Transfer A T)) (acct : A) : ℤ := t.elim 0 fun t => t.inFlight acct

/-- A transfer is at one of its updates, or through with them. -/
def Transfer.Underway (t : Transfer A T) (accts : Assoc A (Account T)) (id : T) : Prop :=
  t.txn.id = id ∧ t.txn.fromId ≠ t.txn.toId ∧ t.txn.fromId ∈ accts ∧ t.txn.toId ∈ accts ∧
    t.rest <:+ transferUpdates

/-! ## One account -/

/-- An account has pending exactly the transactions it holds, each once, and the model has
its balance and what is in flight from it. -/
structure AccountInv (transfers : T → Option (Transfer A T)) (acct : A) (doc : Account T)
    (modelBalance : ℤ) : Prop where
  nodup : doc.pendingTxns.Nodup
  pending : ∀ id, id ∈ doc.pendingTxns ↔ Holds (transfers id) acct
  balance : modelBalance =
    doc.balance + (doc.pendingTxns.map fun id => inFlight (transfers id) acct).sum

section Account

variable {transfers : T → Option (Transfer A T)} {acct : A} {doc : Account T} {b : ℤ}

omit [DecidableEq T] in
/-- Elements without weight may be filtered out of a sum. -/
theorem sum_map_filter {l : List T} {p : T → Bool} {f : T → ℤ}
    (hzero : ∀ id ∈ l, p id = false → f id = 0) : ((l.filter p).map f).sum = (l.map f).sum := by
  induction l with
  | nil => rfl
  | cons id l ih =>
    have htail := ih fun id' hid' => hzero id' (List.mem_cons_of_mem id hid')
    rw [List.filter_cons, List.map_cons, List.sum_cons, ← htail]
    cases hp : p id with
    | true => rw [if_pos rfl, List.map_cons, List.sum_cons]
    | false => rw [if_neg Bool.false_ne_true, hzero id List.mem_cons_self hp, zero_add]

/-- Of a list of different transactions, one changes what it has in flight. -/
theorem sum_inFlight_update {l : List T} (hl : l.Nodup) {id : T} (t : Option (Transfer A T)) :
    (l.map fun id' => inFlight (Function.update transfers id t id') acct).sum =
      (l.map fun id' => inFlight (transfers id') acct).sum +
        if id ∈ l then inFlight t acct - inFlight (transfers id) acct else 0 := by
  induction l with
  | nil => rfl
  | cons id' l ih =>
    obtain ⟨hnot, htail⟩ := List.nodup_cons.mp hl
    rw [List.map_cons, List.map_cons, List.sum_cons, List.sum_cons, ih htail]
    by_cases heq : id' = id
    · subst heq
      rw [Function.update_self, if_neg hnot, if_pos List.mem_cons_self]
      ring
    · have hmem : id ∈ id' :: l ↔ id ∈ l := by simp [Ne.symm heq]
      rw [Function.update_of_ne heq, add_assoc]
      simp only [hmem]

omit [DecidableEq A] in
theorem holds_update {id id' : T} {t : Option (Transfer A T)} :
    Holds (Function.update transfers id t id') acct ↔
      if id' = id then Holds t acct else Holds (transfers id') acct := by
  by_cases heq : id' = id
  · subst heq
    rw [Function.update_self, if_pos rfl]
  · rw [Function.update_of_ne heq, if_neg heq]

/-- A transfer stays pending in an account, or not pending. -/
theorem AccountInv.keep (h : AccountInv transfers acct doc b) {id : T}
    {t : Option (Transfer A T)} (hholds : Holds t acct ↔ Holds (transfers id) acct)
    (hother : ¬ Holds t acct → inFlight t acct = inFlight (transfers id) acct) :
    AccountInv (Function.update transfers id t) acct doc
      (b + (inFlight t acct - inFlight (transfers id) acct)) := by
  refine ⟨h.nodup, fun id' => ?_, ?_⟩
  · rw [h.pending, holds_update]
    split_ifs with heq
    · rw [heq, hholds]
    · rfl
  · rw [sum_inFlight_update h.nodup, ← add_assoc, ← h.balance]
    split_ifs with hmem
    · rfl
    · rw [hother fun hafter => hmem ((h.pending id).mpr (hholds.mp hafter)), sub_self]

/-- A transfer becomes pending in an account. -/
theorem AccountInv.push (h : AccountInv transfers acct doc b) {id : T}
    {t : Option (Transfer A T)} (hbefore : ¬ Holds (transfers id) acct) (hafter : Holds t acct)
    (amount : ℤ) :
    AccountInv (Function.update transfers id t) acct
      ⟨doc.balance + amount, doc.pendingTxns ++ [id]⟩ (b + amount + inFlight t acct) := by
  have hnot : id ∉ doc.pendingTxns := fun hid => hbefore ((h.pending id).mp hid)
  refine ⟨?_, fun id' => ?_, ?_⟩
  · exact List.Nodup.append h.nodup (List.nodup_singleton id) (by simpa using hnot)
  · rw [holds_update, List.mem_append, List.mem_singleton, h.pending]
    split_ifs with heq
    · exact iff_of_true (Or.inr heq) hafter
    · exact or_iff_left heq
  · rw [List.map_append, List.sum_append, sum_inFlight_update h.nodup, if_neg hnot, h.balance,
      List.map_singleton, List.sum_singleton, Function.update_self]
    ring

/-- A transfer that has nothing in flight is cleared from an account. -/
theorem AccountInv.pull (h : AccountInv transfers acct doc b) {id : T}
    {t : Option (Transfer A T)} (hflight : inFlight (transfers id) acct = 0)
    (hafter : ¬ Holds t acct) :
    AccountInv (Function.update transfers id t) acct
      { doc with pendingTxns := doc.pendingTxns.filter fun id' => decide (id' ≠ id) } b := by
  refine ⟨h.nodup.filter _, fun id' => ?_, ?_⟩
  · rw [holds_update, List.mem_filter, h.pending, decide_eq_true_iff]
    split_ifs with heq
    · exact iff_of_false (fun hboth => hboth.2 heq) hafter
    · exact and_iff_left heq
  · have hnot : id ∉ doc.pendingTxns.filter fun id' => decide (id' ≠ id) := by simp
    rw [sum_inFlight_update (h.nodup.filter _), if_neg hnot, add_zero, h.balance,
      sum_map_filter fun id' _ heq => ?_]
    rw [of_not_not (of_decide_eq_false heq), hflight]

end Account

/-! ## All accounts -/

/-- Every account agrees with the model. -/
def Accounted (transfers : T → Option (Transfer A T)) (accts : Assoc A (Account T))
    (m : Assoc A ℤ) : Prop :=
  ∀ acct doc b, accts.lookup acct = some doc → m.lookup acct = some b →
    AccountInv transfers acct doc b

section Accounts

variable {transfers : T → Option (Transfer A T)} {accts : Assoc A (Account T)} {m : Assoc A ℤ}
  {id : T} {t : Option (Transfer A T)}

theorem Accounted.keep (h : Accounted transfers accts m)
    (hholds : ∀ acct, Holds t acct ↔ Holds (transfers id) acct)
    (hflight : ∀ acct, inFlight t acct = inFlight (transfers id) acct) :
    Accounted (Function.update transfers id t) accts m := by
  intro acct doc b hdoc hb
  have hkeep := (h acct doc b hdoc hb).keep (hholds acct) fun _ => hflight acct
  rwa [hflight, sub_self, add_zero] at hkeep

/-- A transaction is applied to one account: the model's balances move by what that and
the money in flight account for. -/
theorem Accounted.push (h : Accounted transfers accts m) {acct : A} {doc : Account T}
    (hdoc : accts.lookup acct = some doc) (hbefore : ¬ Holds (transfers id) acct)
    (hafter : Holds t acct) (hflight : inFlight (transfers id) acct = 0)
    (hholds : ∀ acct' ≠ acct, (Holds t acct' ↔ Holds (transfers id) acct') ∧
      (¬ Holds t acct' → inFlight t acct' = inFlight (transfers id) acct'))
    {amount : ℤ} {m' : Assoc A ℤ}
    (hm : ∀ acct' b', m'.lookup acct' = some b' → ∃ b, m.lookup acct' = some b ∧
      b' = b + (if acct' = acct then amount else 0) +
        (inFlight t acct' - inFlight (transfers id) acct')) :
    Accounted (Function.update transfers id t)
      (accts.insert acct ⟨doc.balance + amount, doc.pendingTxns ++ [id]⟩) m' := by
  intro acct' doc' b' hdoc' hb'
  obtain ⟨b, hb, rfl⟩ := hm acct' b' hb'
  rw [Assoc.lookup_insert_eq_ite] at hdoc'
  by_cases heq : acct' = acct
  · subst heq
    rw [if_pos rfl] at hdoc' ⊢
    obtain rfl := Option.some.inj hdoc'
    rw [hflight, sub_zero]
    exact (h acct' doc b hdoc hb).push hbefore hafter amount
  · rw [if_neg heq] at hdoc' ⊢
    obtain ⟨hsame, hother⟩ := hholds acct' heq
    rw [add_zero]
    exact (h acct' doc' b hdoc' hb).keep hsame hother

/-- A transaction with nothing in flight is cleared from one account. -/
theorem Accounted.pull (h : Accounted transfers accts m) {acct : A} {doc : Account T}
    (hdoc : accts.lookup acct = some doc) (hafter : ¬ Holds t acct)
    (hholds : ∀ acct' ≠ acct, Holds t acct' ↔ Holds (transfers id) acct')
    (hflight : ∀ acct', inFlight t acct' = 0 ∧ inFlight (transfers id) acct' = 0) :
    Accounted (Function.update transfers id t) (accts.insert acct
      { doc with pendingTxns := doc.pendingTxns.filter fun id' => decide (id' ≠ id) }) m := by
  intro acct' doc' b hdoc' hb
  rw [Assoc.lookup_insert_eq_ite] at hdoc'
  by_cases heq : acct' = acct
  · subst heq
    rw [if_pos rfl] at hdoc'
    obtain rfl := Option.some.inj hdoc'
    exact (h acct' doc b hdoc hb).pull (hflight acct').2 hafter
  · rw [if_neg heq] at hdoc'
    have hkeep := (h acct' doc' b hdoc' hb).keep (hholds acct' heq) fun _ =>
      (hflight acct').1.trans (hflight acct').2.symm
    rwa [(hflight acct').1, (hflight acct').2, sub_zero, add_zero] at hkeep

end Accounts

theorem mem_insert_of_lookup {B : Type*} {m : Assoc A B} {acct : A} {doc : B}
    (hdoc : m.lookup acct = some doc) (doc' : B) (acct' : A) :
    acct' ∈ m.insert acct doc' ↔ acct' ∈ m := by
  rw [AList.mem_insert]
  refine or_iff_right_of_imp fun heq => ?_
  rw [heq, ← AList.lookup_isSome, hdoc]
  rfl

/-! ## Totals -/

theorem total_insert {m : Assoc A ℤ} {acct : A} {b : ℤ} (hb : m.lookup acct = some b) (b' : ℤ) :
    total (m.insert acct b') = total m - b + b' := by
  have hmem : acct ∈ m.entries.keys := AList.mem_keys.mp (AList.lookup_isSome.mp (by rw [hb]; rfl))
  obtain ⟨b₀, l₁, l₂, hnot, hentries, herase⟩ := List.exists_of_kerase hmem
  have hb₀ : m.lookup acct = some b₀ := by
    apply Assoc.mem_entries_iff.mp
    rw [hentries]
    exact List.mem_append_right _ List.mem_cons_self
  obtain rfl := Option.some.inj (hb.symm.trans hb₀)
  rw [total, total, AList.entries_insert, herase, hentries]
  simp only [List.map_cons, List.map_append, List.sum_cons, List.sum_append]
  ring

/-- The total depends on the balances only. -/
theorem total_congr {m m' : Assoc A ℤ} (hlookup : ∀ acct, m.lookup acct = m'.lookup acct) :
    total m = total m' := by
  have hperm : m.entries.Perm m'.entries :=
    List.lookup_ext m.nodupKeys m'.nodupKeys fun acct b => by
      rw [← AList.lookup, ← AList.lookup, hlookup]
  exact (hperm.map Sigma.snd).sum_eq

/-- A transfer between different accounts keeps the total of the model. -/
theorem total_transfer {m : Assoc A ℤ} {fromId toId : A} (hne : fromId ≠ toId) {b b' : ℤ}
    (hb : m.lookup fromId = some b) (hb' : m.lookup toId = some b') (amount : ℤ) :
    total ((m.insert fromId (b - amount)).insert toId (b' + amount)) = total m := by
  have hto : (m.insert fromId (b - amount)).lookup toId = some b' := by
    rw [AList.lookup_insert_ne (Ne.symm hne), hb']
  rw [total_insert hto, total_insert hb]
  ring

/-! ## The updates of one transfer -/

/-- The updates behind an update. -/
def Update.after : Update → List Update
  | .applyFrom => [.applyTo, .markApplied, .clearFrom, .clearTo, .finish]
  | .applyTo => [.markApplied, .clearFrom, .clearTo, .finish]
  | .markApplied => [.clearFrom, .clearTo, .finish]
  | .clearFrom => [.clearTo, .finish]
  | .clearTo => [.finish]
  | .finish => []

theorem eq_after_of_suffix {next : Update} {rest : List Update}
    (hsuffix : next :: rest <:+ transferUpdates) : rest = next.after := by
  have hmem : next :: rest ∈ transferUpdates.tails := (List.mem_tails _ _).mpr hsuffix
  simp only [transferUpdates, p3ApplyTxn, p4AppliedTxn, p5ClearPending, p6FinishTxn,
    List.cons_append, List.nil_append, List.tails, List.mem_cons, List.cons.injEq,
    List.not_mem_nil, or_false, reduceCtorEq] at hmem
  rcases hmem with ⟨rfl, rfl⟩ | ⟨rfl, rfl⟩ | ⟨rfl, rfl⟩ | ⟨rfl, rfl⟩ | ⟨rfl, rfl⟩ | ⟨rfl, rfl⟩ <;> rfl

/-- The accounts that have the transaction pending when an update is next. -/
def Update.holders (txn : Txn A T) : Update → List A
  | .applyFrom => []
  | .applyTo => [txn.fromId]
  | .markApplied | .clearFrom => [txn.fromId, txn.toId]
  | .clearTo => [txn.toId]
  | .finish => []

/-- What the transaction has in flight from an account when an update is next. -/
def Update.flight (txn : Txn A T) (next : Update) (acct : A) : ℤ :=
  if next = .applyTo ∧ acct = txn.fromId then txn.amount else 0

omit [DecidableEq A] [DecidableEq T] in
theorem holds_cons_after (txn : Txn A T) (next : Update) (acct : A) :
    Holds (some ⟨txn, next :: next.after⟩) acct ↔ acct ∈ next.holders txn := by
  cases next <;> simp [Holds, Transfer.Holds, Update.after, Update.holders]

omit [DecidableEq T] in
theorem inFlight_cons_after (txn : Txn A T) (next : Update) (acct : A) :
    inFlight (some ⟨txn, next :: next.after⟩) acct = next.flight txn acct := by
  cases next <;> simp [inFlight, Transfer.inFlight, Update.after, Update.flight]

omit [DecidableEq A] [DecidableEq T] in
theorem holds_nil (txn : Txn A T) (acct : A) : ¬ Holds (some ⟨txn, []⟩) acct := by
  simp [Holds, Transfer.Holds]

omit [DecidableEq T] in
theorem inFlight_nil (txn : Txn A T) (acct : A) : inFlight (some ⟨txn, []⟩) acct = 0 := by
  simp [inFlight, Transfer.inFlight]

/-- The model's step for an action, if it has one. -/
def modelStep (m : Assoc A ℤ) (action : Action A T) : Except AccountsError (Assoc A ℤ) :=
  match action.modelOp with
  | some op => Accounts.step m op
  | none => .ok m

/-- The transaction is applied to the first account. -/
theorem Accounted.applyFrom {transfers : T → Option (Transfer A T)}
    {accts : Assoc A (Account T)} {m : Assoc A ℤ} {txn : Txn A T}
    (h : Accounted transfers accts m)
    (ht : transfers txn.id = some ⟨txn, .applyFrom :: Update.after .applyFrom⟩) {doc : Account T}
    (hdoc : accts.lookup txn.fromId = some doc) :
    Accounted (Function.update transfers txn.id (some ⟨txn, Update.after .applyFrom⟩))
      (accts.insert txn.fromId ⟨doc.balance + -txn.amount, doc.pendingTxns ++ [txn.id]⟩) m := by
  have hbefore : ∀ acct, ¬ Holds (transfers txn.id) acct := by
    intro acct
    rw [ht, holds_cons_after]
    exact List.not_mem_nil
  have hafter : ∀ acct, Holds (some ⟨txn, Update.after .applyFrom⟩) acct ↔ acct = txn.fromId :=
    fun acct => (holds_cons_after txn .applyTo acct).trans List.mem_singleton
  have hflight : ∀ acct, inFlight (transfers txn.id) acct = 0 := by
    intro acct
    rw [ht, inFlight_cons_after]
    rfl
  have hflight' : ∀ acct, inFlight (some ⟨txn, Update.after .applyFrom⟩) acct =
      if acct = txn.fromId then txn.amount else 0 := by
    intro acct
    refine (inFlight_cons_after txn .applyTo acct).trans ?_
    rw [Update.flight]
    simp only [true_and]
  refine h.push hdoc (hbefore _) ((hafter _).mpr rfl) (hflight _) (fun acct hne => ?_) ?_
  · rw [hflight, hflight', if_neg hne]
    exact ⟨iff_of_false (fun hheld => hne ((hafter acct).mp hheld)) (hbefore acct), fun _ => rfl⟩
  · intro acct b hb
    refine ⟨b, hb, ?_⟩
    rw [hflight, hflight']
    split_ifs <;> ring

/-- The transaction is applied to the second account, and happens in the model. -/
theorem Accounted.applyTo {transfers : T → Option (Transfer A T)}
    {accts : Assoc A (Account T)} {m : Assoc A ℤ} {txn : Txn A T}
    (h : Accounted transfers accts m)
    (ht : transfers txn.id = some ⟨txn, .applyTo :: Update.after .applyTo⟩)
    (hne : txn.fromId ≠ txn.toId) {doc : Account T} (hdoc : accts.lookup txn.toId = some doc)
    {b b' : ℤ} (hb : m.lookup txn.fromId = some b) (hb' : m.lookup txn.toId = some b') :
    Accounted (Function.update transfers txn.id (some ⟨txn, Update.after .applyTo⟩))
      (accts.insert txn.toId ⟨doc.balance + txn.amount, doc.pendingTxns ++ [txn.id]⟩)
      ((m.insert txn.fromId (b - txn.amount)).insert txn.toId (b' + txn.amount)) := by
  have hbefore : ∀ acct, Holds (transfers txn.id) acct ↔ acct = txn.fromId := by
    intro acct
    rw [ht, holds_cons_after]
    exact List.mem_singleton
  have hafter : ∀ acct, Holds (some ⟨txn, Update.after .applyTo⟩) acct ↔
      acct = txn.fromId ∨ acct = txn.toId :=
    fun acct => (holds_cons_after txn .markApplied acct).trans (by simp [Update.holders])
  have hflight : ∀ acct, inFlight (transfers txn.id) acct =
      if acct = txn.fromId then txn.amount else 0 := by
    intro acct
    rw [ht, inFlight_cons_after, Update.flight]
    simp only [true_and]
  have hflight' : ∀ acct, inFlight (some ⟨txn, Update.after .applyTo⟩) acct = 0 :=
    fun acct => inFlight_cons_after txn .markApplied acct
  refine h.push hdoc (fun hheld => hne ((hbefore _).mp hheld).symm)
    ((hafter _).mpr (Or.inr rfl)) ?_ (fun acct hacct => ⟨?_, fun hnot => ?_⟩)
    fun acct x hx => ?_
  · rw [hflight, if_neg (Ne.symm hne)]
  · rw [hbefore, hafter]
    exact or_iff_left hacct
  · have hother : acct ≠ txn.fromId := fun heq => hnot ((hafter acct).mpr (Or.inl heq))
    rw [hflight, hflight', if_neg hother]
  · rw [Assoc.lookup_insert_eq_ite, Assoc.lookup_insert_eq_ite] at hx
    rw [hflight, hflight']
    by_cases hto : acct = txn.toId
    · have hfrom : acct ≠ txn.fromId := fun heq => hne (heq.symm.trans hto)
      rw [if_pos hto] at hx
      refine ⟨b', hto ▸ hb', ?_⟩
      rw [if_pos hto, if_neg hfrom, ← Option.some.inj hx]
      ring
    · rw [if_neg hto] at hx
      by_cases hfrom : acct = txn.fromId
      · rw [if_pos hfrom] at hx
        refine ⟨b, hfrom ▸ hb, ?_⟩
        rw [if_neg hto, if_pos hfrom, ← Option.some.inj hx]
        ring
      · rw [if_neg hfrom] at hx
        refine ⟨x, hx, ?_⟩
        rw [if_neg hto, if_neg hfrom]
        ring

/-- The transaction is cleared from one of its accounts. -/
theorem Accounted.clear {transfers : T → Option (Transfer A T)}
    {accts : Assoc A (Account T)} {m : Assoc A ℤ} {txn : Txn A T}
    (h : Accounted transfers accts m) {next : Update} {acct : A}
    (hnext : next = .clearFrom ∧ acct = txn.fromId ∨ next = .clearTo ∧ acct = txn.toId)
    (hne : txn.fromId ≠ txn.toId) (ht : transfers txn.id = some ⟨txn, next :: next.after⟩)
    {doc : Account T} (hdoc : accts.lookup acct = some doc) :
    Accounted (Function.update transfers txn.id (some ⟨txn, next.after⟩)) (accts.insert acct
      { doc with pendingTxns := doc.pendingTxns.filter fun id => decide (id ≠ txn.id) }) m := by
  have hbefore : ∀ acct', Holds (transfers txn.id) acct' ↔ acct' ∈ next.holders txn := by
    intro acct'
    rw [ht, holds_cons_after]
  have hflight : ∀ acct', inFlight (transfers txn.id) acct' = next.flight txn acct' := by
    intro acct'
    rw [ht, inFlight_cons_after]
  cases hnext with
  | inl hfrom =>
    obtain ⟨rfl, rfl⟩ := hfrom
    have hafter : ∀ acct, Holds (some ⟨txn, Update.after .clearFrom⟩) acct ↔ acct = txn.toId :=
      fun acct => (holds_cons_after txn .clearTo acct).trans List.mem_singleton
    refine h.pull hdoc (fun hheld => hne ((hafter _).mp hheld)) (fun acct hacct => ?_)
      fun acct => ⟨inFlight_cons_after txn .clearTo acct, hflight acct⟩
    rw [hafter, hbefore]
    simp [Update.holders, hacct]
  | inr hto =>
    obtain ⟨rfl, rfl⟩ := hto
    have hafter : ∀ acct, ¬ Holds (some ⟨txn, Update.after .clearTo⟩) acct :=
      fun acct hheld => List.not_mem_nil ((holds_cons_after txn .finish acct).mp hheld)
    refine h.pull hdoc (hafter _) (fun acct hacct => ?_)
      fun acct => ⟨inFlight_cons_after txn .finish acct, hflight acct⟩
    rw [hbefore]
    exact iff_of_false (hafter acct) fun hmem => hacct (List.mem_singleton.mp hmem)

/-! ## All transfers -/

/-- What holds between the steps: every transfer is underway between two different accounts,
and every account agrees with the model, whose total is the first one. -/
structure Inv (first : Assoc A ℤ) (s : System A T) (m : Assoc A ℤ) : Prop where
  underway : ∀ id t, s.transfers id = some t → t.Underway s.db.accts id
  keys : ∀ acct, acct ∈ m ↔ acct ∈ s.db.accts
  accounted : Accounted s.transfers s.db.accts m
  sum : total m = total first

omit [DecidableEq T] in
theorem Inv.initial (first : Assoc A ℤ) : Inv first (System.initial first : System A T) first where
  underway := fun _ _ ht => nomatch ht
  keys := fun _ => Assoc.mem_mapVals.symm
  accounted := by
    intro acct doc b hdoc hb
    change (Assoc.mapVals _ first).lookup acct = some doc at hdoc
    rw [Assoc.lookup_mapVals, hb] at hdoc
    obtain rfl := Option.some.inj hdoc
    refine ⟨List.nodup_nil, fun id => ?_, (add_zero b).symm⟩
    exact iff_of_false List.not_mem_nil fun ⟨_, ht, _⟩ => nomatch ht
  sum := rfl

section Steps

variable {first : Assoc A ℤ} {s s' : System A T} {m : Assoc A ℤ}

omit [DecidableEq A] [DecidableEq T] in
/-- A transfer is underway in the same accounts after steps that keep the accounts. -/
theorem Transfer.Underway.mono {t : Transfer A T} {accts accts' : Assoc A (Account T)} {id : T}
    (h : t.Underway accts id) (hkeys : ∀ acct, acct ∈ accts → acct ∈ accts') :
    t.Underway accts' id :=
  ⟨h.1, h.2.1, hkeys _ h.2.2.1, hkeys _ h.2.2.2.1, h.2.2.2.2⟩

/-- A transaction is created. -/
theorem Inv.create (h : Inv first s m) {txn : Txn A T} (hstep : Step s (.create txn) s') :
    Inv first s' m := by
  rw [Step, System.step] at hstep
  by_cases hcreate : s.transfers txn.id = none ∧ txn.fromId ≠ txn.toId ∧
      txn.fromId ∈ s.db.accts ∧ txn.toId ∈ s.db.accts
  · rw [if_pos hcreate] at hstep
    obtain rfl := Option.some.inj hstep
    obtain ⟨hfresh, hne, hfrom, hto⟩ := hcreate
    refine ⟨fun id t ht => ?_, h.keys, ?_, h.sum⟩
    · change Function.update s.transfers txn.id (some ⟨txn, transferUpdates⟩) id = some t at ht
      by_cases heq : id = txn.id
      · rw [heq, Function.update_self] at ht
        obtain rfl := Option.some.inj ht
        exact ⟨heq.symm, hne, hfrom, hto, List.suffix_refl _⟩
      · rw [Function.update_of_ne heq] at ht
        exact h.underway id t ht
    · refine h.accounted.keep (fun acct => ?_) fun acct => ?_
      · rw [hfresh]
        have hnot : ¬ Holds (some ⟨txn, transferUpdates⟩) acct := fun hheld =>
          List.not_mem_nil ((holds_cons_after txn .applyFrom acct).mp hheld)
        exact iff_of_false hnot fun ⟨_, ht, _⟩ => nomatch ht
      · rw [hfresh]
        exact inFlight_cons_after txn .applyFrom acct
  · rw [if_neg hcreate] at hstep
    cases hstep

theorem step_update {txn : Txn A T} {next : Update} (hstep : Step s (.update txn next) s') :
    ∃ rest, s.transfers txn.id = some ⟨txn, next :: rest⟩ ∧
      s' = ⟨next.run txn s.db, Function.update s.transfers txn.id (some ⟨txn, rest⟩)⟩ := by
  rw [Step, System.step] at hstep
  split at hstep
  case h_1 txn' next' rest ht =>
    by_cases hsame : txn' = txn ∧ next' = next
    · rw [if_pos hsame] at hstep
      obtain ⟨rfl, rfl⟩ := hsame
      exact ⟨rest, ht, (Option.some.inj hstep).symm⟩
    · rw [if_neg hsame] at hstep
      cases hstep
  case h_2 => cases hstep

/-- The model and the accounts after an update, where the accounts agree. -/
theorem Inv.afterUpdate (h : Inv first s m) {txn : Txn A T} {next : Update} {rest : List Update}
    (ht : s.transfers txn.id = some ⟨txn, next :: rest⟩) {m' : Assoc A ℤ}
    (hmodel : ∀ acct, acct ∈ m' ↔ acct ∈ m)
    (hkeys : ∀ acct, acct ∈ (next.run txn s.db).accts ↔ acct ∈ s.db.accts)
    (haccounted : Accounted (Function.update s.transfers txn.id (some ⟨txn, rest⟩))
      (next.run txn s.db).accts m') (htotal : total m' = total m) :
    Inv first ⟨next.run txn s.db, Function.update s.transfers txn.id (some ⟨txn, rest⟩)⟩ m' where
  underway := by
    intro id t ht'
    change Function.update s.transfers txn.id (some ⟨txn, rest⟩) id = some t at ht'
    apply Transfer.Underway.mono _ fun acct => (hkeys acct).mpr
    by_cases heq : id = txn.id
    · rw [heq, Function.update_self] at ht'
      obtain rfl := Option.some.inj ht'
      obtain ⟨hid, hne, hfrom, hto, hrest⟩ := h.underway _ _ ht
      exact ⟨heq.symm, hne, hfrom, hto, (List.suffix_cons _ _).trans hrest⟩
    · rw [Function.update_of_ne heq] at ht'
      exact h.underway id t ht'
  keys := fun acct => (hmodel acct).trans ((h.keys acct).trans (hkeys acct).symm)
  accounted := haccounted
  sum := htotal.trans h.sum

/-- A transfer makes its next update. -/
theorem Inv.update (h : Inv first s m) {txn : Txn A T} {next : Update}
    (hstep : Step s (.update txn next) s') :
    ∃ m', modelStep m (.update txn next : Action A T) = .ok m' ∧ Inv first s' m' := by
  obtain ⟨rest, ht, rfl⟩ := step_update hstep
  obtain ⟨-, hne, hfrom, hto, hrest⟩ := h.underway _ _ ht
  obtain rfl := eq_after_of_suffix hrest
  obtain ⟨docFrom, hdocFrom⟩ : ∃ doc, s.db.accts.lookup txn.fromId = some doc :=
    Option.isSome_iff_exists.mp (AList.lookup_isSome.mpr hfrom)
  obtain ⟨docTo, hdocTo⟩ : ∃ doc, s.db.accts.lookup txn.toId = some doc :=
    Option.isSome_iff_exists.mp (AList.lookup_isSome.mpr hto)
  obtain ⟨b, hb⟩ : ∃ b, m.lookup txn.fromId = some b :=
    Option.isSome_iff_exists.mp (AList.lookup_isSome.mpr ((h.keys _).mpr hfrom))
  obtain ⟨b', hb'⟩ : ∃ b', m.lookup txn.toId = some b' :=
    Option.isSome_iff_exists.mp (AList.lookup_isSome.mpr ((h.keys _).mpr hto))
  have hpendingFrom : txn.id ∈ docFrom.pendingTxns ↔ txn.fromId ∈ next.holders txn := by
    rw [(h.accounted _ _ _ hdocFrom hb).pending, ht, holds_cons_after]
  have hpendingTo : txn.id ∈ docTo.pendingTxns ↔ txn.toId ∈ next.holders txn := by
    rw [(h.accounted _ _ _ hdocTo hb').pending, ht, holds_cons_after]
  cases next with
  | applyFrom =>
    have hrun := applyTxn_of_notMem hdocFrom (hpendingFrom.not.mpr List.not_mem_nil) (-txn.amount)
    refine ⟨m, rfl, h.afterUpdate ht (fun _ => Iff.rfl) ?_ ?_ rfl⟩
    · rw [Update.run, hrun]
      exact mem_insert_of_lookup hdocFrom _
    · rw [Update.run, hrun]
      exact h.accounted.applyFrom ht hdocFrom
  | applyTo =>
    have hnot : txn.toId ∉ Update.holders txn .applyTo :=
      fun hmem => hne (List.mem_singleton.mp hmem).symm
    have hrun := applyTxn_of_notMem hdocTo (hpendingTo.not.mpr hnot) txn.amount
    have hmodel : modelStep m (.update txn .applyTo : Action A T) =
        .ok ((m.insert txn.fromId (b - txn.amount)).insert txn.toId (b' + txn.amount)) := by
      change Accounts.step m (.transfer txn.fromId txn.toId txn.amount) = _
      rw [Accounts.step, hb, hb']
    have hto' : (m.insert txn.fromId (b - txn.amount)).lookup txn.toId = some b' := by
      rw [AList.lookup_insert_ne (Ne.symm hne), hb']
    refine ⟨_, hmodel, h.afterUpdate ht (fun acct => ?_) ?_ ?_ (total_transfer hne hb hb' _)⟩
    · rw [mem_insert_of_lookup hto', mem_insert_of_lookup hb]
    · rw [Update.run, hrun]
      exact mem_insert_of_lookup hdocTo _
    · rw [Update.run, hrun]
      exact h.accounted.applyTo ht hne hdocTo hb hb'
  | markApplied =>
    refine ⟨m, rfl, h.afterUpdate ht (fun _ => Iff.rfl) (fun _ => Iff.rfl) ?_ rfl⟩
    refine h.accounted.keep (fun acct => ?_) fun acct => ?_
    · rw [ht, holds_cons_after]
      exact holds_cons_after txn .clearFrom acct
    · rw [ht, inFlight_cons_after]
      exact inFlight_cons_after txn .clearFrom acct
  | clearFrom =>
    have hrun := clearPending_of_mem hdocFrom (hpendingFrom.mpr List.mem_cons_self)
    refine ⟨m, rfl, h.afterUpdate ht (fun _ => Iff.rfl) ?_ ?_ rfl⟩
    · rw [Update.run, hrun]
      exact mem_insert_of_lookup hdocFrom _
    · rw [Update.run, hrun]
      exact h.accounted.clear (Or.inl ⟨rfl, rfl⟩) hne ht hdocFrom
  | clearTo =>
    have hrun := clearPending_of_mem hdocTo (hpendingTo.mpr List.mem_cons_self)
    refine ⟨m, rfl, h.afterUpdate ht (fun _ => Iff.rfl) ?_ ?_ rfl⟩
    · rw [Update.run, hrun]
      exact mem_insert_of_lookup hdocTo _
    · rw [Update.run, hrun]
      exact h.accounted.clear (Or.inr ⟨rfl, rfl⟩) hne ht hdocTo
  | finish =>
    refine ⟨m, rfl, h.afterUpdate ht (fun _ => Iff.rfl) (fun _ => Iff.rfl) ?_ rfl⟩
    refine h.accounted.keep (fun acct => ?_) fun acct => ?_
    · rw [ht, holds_cons_after]
      exact iff_of_false (holds_nil txn acct) List.not_mem_nil
    · rw [ht, inFlight_cons_after]
      exact inFlight_nil txn acct

omit [DecidableEq T] in
/-- An account without pending transactions has the balance of the model. -/
theorem Inv.balance (h : Inv first s m) {acct : A} {doc : Account T}
    (hdoc : s.db.accts.lookup acct = some doc) (hpending : doc.pendingTxns = []) :
    m.lookup acct = some doc.balance := by
  have hkey : acct ∈ m := (h.keys acct).mpr (AList.lookup_isSome.mp (by rw [hdoc]; rfl))
  obtain ⟨b, hb⟩ := Option.isSome_iff_exists.mp (AList.lookup_isSome.mpr hkey)
  have hbalance := (h.accounted acct doc b hdoc hb).balance
  rw [hpending, List.map_nil, List.sum_nil, add_zero] at hbalance
  rw [hb, hbalance]

omit [DecidableEq T] in
theorem mem_partialRead {accts : Assoc A (Account T)} {e : Σ _ : A, ℤ}
    (he : e ∈ (MongodbSmartos.partialRead accts).entries) :
    ∃ doc, accts.lookup e.1 = some doc ∧ doc.pendingTxns = [] ∧ doc.balance = e.2 := by
  have hlookup := Assoc.mem_entries_iff.mp he
  rw [MongodbSmartos.partialRead, AList.lookup_to_alist] at hlookup
  obtain ⟨e', he', heq⟩ := List.mem_map.mp (List.of_mem_dlookup hlookup)
  obtain ⟨hmem, hempty⟩ := List.mem_filter.mp he'
  obtain ⟨acct, doc⟩ := e'
  rw [Sigma.mk.injEq] at heq
  obtain ⟨rfl, hbalance⟩ := heq
  exact ⟨doc, Assoc.mem_entries_iff.mp hmem, List.isEmpty_iff.mp hempty, eq_of_heq hbalance⟩

/-- A read of the accounts with nothing pending agrees with the model. -/
theorem Inv.partialRead (h : Inv first s m) {value : Assoc A ℤ}
    (hstep : Step s (.partialRead value) s') :
    modelStep m (.partialRead value : Action A T) = .ok m ∧ s' = s := by
  rw [Step, System.step] at hstep
  by_cases hvalue : value.entries = (MongodbSmartos.partialRead s.db.accts).entries
  · rw [if_pos hvalue] at hstep
    refine ⟨?_, (Option.some.inj hstep).symm⟩
    change Accounts.step m (.partialRead value) = .ok m
    rw [Accounts.step, if_pos]
    rw [List.all_eq_true]
    intro e he
    rw [hvalue] at he
    obtain ⟨doc, hdoc, hpending, hbalance⟩ := mem_partialRead he
    rw [decide_eq_true_iff, h.balance hdoc hpending, hbalance]
  · rw [if_neg hvalue] at hstep
    cases hstep

/-- One step of the system is one of the model, or none. -/
theorem Inv.step (h : Inv first s m) {action : Action A T} (hstep : Step s action s') :
    ∃ m', modelStep m action = .ok m' ∧ Inv first s' m' := by
  cases action with
  | create txn => exact ⟨m, rfl, h.create hstep⟩
  | update txn next => exact h.update hstep
  | partialRead value =>
    obtain ⟨hmodel, rfl⟩ := h.partialRead hstep
    exact ⟨m, hmodel, h⟩

end Steps

/-! ## Whole runs -/

/-- The history of a run, with each transfer at the update that applies it to the second
account. -/
def history (actions : List (Action A T)) : List (AccountsOp A) :=
  actions.filterMap Action.modelOp

/-- The transfer has made both updates of `p5-clear-pending`. -/
def Transfer.Cleared (t : Transfer A T) : Prop := .clearFrom ∉ t.rest ∧ .clearTo ∉ t.rest

/-- Every run has a run of the model with the transfers and reads of its history. -/
theorem exists_model {first : Assoc A ℤ} {actions : List (Action A T)} {s : System A T}
    (hrun : Run Step (System.initial first) actions s) :
    ∃ m, (history actions).foldlM Accounts.step first = .ok m ∧ Inv first s m := by
  induction hrun with
  | nil => exact ⟨first, rfl, Inv.initial first⟩
  | @snoc actions s t action hprior hlast ih =>
    obtain ⟨m, hm, hinv⟩ := ih
    obtain ⟨m', hm', hinv'⟩ := hinv.step hlast
    refine ⟨m', ?_, hinv'⟩
    rw [history, List.filterMap_append, ← history, List.foldlM_append, hm]
    change ([action].filterMap Action.modelOp).foldlM Accounts.step m = .ok m'
    rw [List.filterMap_cons, List.filterMap_nil]
    unfold modelStep at hm'
    cases hop : action.modelOp with
    | none =>
      rw [hop] at hm'
      exact hm'
    | some op =>
      rw [hop] at hm'
      dsimp only at hm' ⊢
      rw [List.foldlM_cons, hm']
      rfl

/-- In every run of transfers between different accounts and partial reads, the history is
one of the accounts model, and once every transfer has made its `p5-clear-pending` updates,
nothing is pending and the balances have their first total. -/
theorem transfers_isolated {first : Assoc A ℤ} {actions : List (Action A T)} {s : System A T}
    (hrun : Run Step (System.initial first) actions s) :
    (∃ m, (history actions).foldlM Accounts.step first = .ok m) ∧
      ((∀ id t, s.transfers id = some t → t.Cleared) →
        (∀ acct doc, s.db.accts.lookup acct = some doc → doc.pendingTxns = []) ∧
          total (balancesOf s.db.accts) = total first) := by
  obtain ⟨m, hm, hinv⟩ := exists_model hrun
  refine ⟨⟨m, hm⟩, fun hcleared => ?_⟩
  have hpending : ∀ acct doc, s.db.accts.lookup acct = some doc → doc.pendingTxns = [] := by
    intro acct doc hdoc
    have hkey : acct ∈ m := (hinv.keys acct).mpr (AList.lookup_isSome.mp (by rw [hdoc]; rfl))
    obtain ⟨b, hb⟩ := Option.isSome_iff_exists.mp (AList.lookup_isSome.mpr hkey)
    apply List.eq_nil_iff_forall_not_mem.mpr
    intro id hid
    obtain ⟨t, ht, hheld⟩ := ((hinv.accounted acct doc b hdoc hb).pending id).mp hid
    cases hheld with
    | inl hfrom => exact (hcleared id t ht).1 hfrom.2.2
    | inr hto => exact (hcleared id t ht).2 hto.2.2
  refine ⟨hpending, ?_⟩
  rw [← hinv.sum]
  apply total_congr
  intro acct
  rw [balancesOf, Assoc.lookup_mapVals]
  cases hdoc : s.db.accts.lookup acct with
  | none =>
    have hnot : acct ∉ m := by
      rw [hinv.keys, ← AList.lookup_isSome, hdoc]
      exact Bool.false_ne_true
    rw [AList.lookup_eq_none.mpr hnot]
    rfl
  | some doc =>
    rw [hinv.balance hdoc (hpending acct doc hdoc)]
    rfl

/-- Two accounts with 10 each. -/
def twoAccounts : Assoc ℕ ℤ := [(⟨0, 10⟩ : Σ _ : ℕ, ℤ), ⟨1, 10⟩].toAList

/-- Two transfers between them cross, with a read while the second has applied one half. -/
def crossing : List (Action ℕ ℕ) :=
  [.create ⟨0, 0, 1, 3⟩, .update ⟨0, 0, 1, 3⟩ .applyFrom, .create ⟨1, 1, 0, 4⟩,
    .update ⟨0, 0, 1, 3⟩ .applyTo, .update ⟨1, 1, 0, 4⟩ .applyFrom,
    .update ⟨0, 0, 1, 3⟩ .markApplied, .update ⟨0, 0, 1, 3⟩ .clearFrom,
    .partialRead ([(⟨0, 7⟩ : Σ _ : ℕ, ℤ)].toAList), .update ⟨1, 1, 0, 4⟩ .applyTo,
    .update ⟨0, 0, 1, 3⟩ .clearTo]

/-- The system after them. -/
def crossed : System ℕ ℕ :=
  (crossing.foldlM System.step (System.initial twoAccounts)).getD (System.initial twoAccounts)

theorem crossing_isolated :
    ∃ m, (history crossing).foldlM Accounts.step twoAccounts = .ok m :=
  (transfers_isolated (s := crossed) (Run.of_foldlM rfl)).1

end Jepsen.MongodbSmartos
