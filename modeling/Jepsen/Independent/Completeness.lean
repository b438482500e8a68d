/-
# Every key is run

When the concurrent generator answers `nil` with every thread free, it has given
every key away and exhausted its generator, unless keys whose generator is `nil`
got in the way: the loop takes such a key for the end of the keys and moves on
to the next group. Each group does so at most once in a call, so as many of these
keys as there are groups are needed to end a run early.
-/

import Jepsen.Independent.KeyPartition

namespace Jepsen.Independent

open Jepsen.Generator Jepsen.Generator.Context Jepsen.Generator.Interpreter
open Jepsen.History Jepsen.Library
open Stream' (Seq)

universe u v w

/-- `mapM` collects the results of all elements. -/
theorem exists_of_mapM_eq_some {α : Type u} {β : Type v} {f : α → Option β} {l : List α}
    {l' : List β} (hmap : l.mapM f = some l') {a : α} (ha : a ∈ l) :
    ∃ b ∈ l', f a = some b := by
  induction l generalizing l' with
  | nil => cases ha
  | cons x l ih =>
    rw [List.mapM_cons] at hmap
    obtain ⟨b, hb, hrest⟩ := Option.bind_eq_some_iff.mp hmap
    obtain ⟨l'', hl'', hpure⟩ := Option.bind_eq_some_iff.mp hrest
    obtain rfl := Option.some.inj hpure
    rcases List.mem_cons.mp ha with rfl | hmem
    · exact ⟨b, List.mem_cons_self, hb⟩
    · obtain ⟨b', hb', hf⟩ := ih hl'' hmem
      exact ⟨b', List.mem_cons_of_mem _ hb', hf⟩

variable {K : Type u} {A : Type v} {γ : Type w} [Protocol γ (Value K A)]

section Walks

variable {fgen : K → Option γ} {groups : Groups K A γ} {ctx : Context} {free taken : List ℕ}
  {keys keys' : Seq K} {gens gens' : Gens K A γ}
  {offers : List (Answer (Value K A) × Offer K A γ)}

/-- A walk takes the keys from the front. -/
theorem Walk.keys_eq (hwalk : Walk fgen groups ctx free keys gens taken keys' gens' offers) :
    keys' = keys.drop taken.length := by
  induction hwalk with
  | done => rfl
  | answered _ _ _ _ _ ih => exact ih
  | ranOut _ _ _ hkey _ ih =>
    rw [ih, Seq.head_eq_none hkey]
    rfl
  | tookNil _ _ _ _ _ _ ih => rw [ih, List.length_cons, Seq.dropn_tail]
  | took _ _ _ _ _ _ ih => rw [ih, List.length_cons, Seq.dropn_tail]

theorem Seq.take_succ_of_head {s : Seq K} {k : K} (hkey : s.head = some k) (n : ℕ) :
    s.take (n + 1) = k :: s.tail.take n := by
  rw [Seq.head_eq_some hkey]
  rfl

/-- A walk without an offer that leaves keys met a key without a generator in
every group. -/
theorem Walk.length_le_countP
    (hwalk : Walk fgen groups ctx free keys gens taken keys' gens' [])
    (hleft : keys'.head ≠ none) :
    free.length ≤ (keys.take taken.length).countP fun k => (fgen k).isNone := by
  generalize hoffers : ([] : List (Answer (Value K A) × Offer K A γ)) = offers at hwalk
  induction hwalk with
  | done => exact Nat.le_refl 0
  | answered => cases hoffers
  | ranOut _ _ _ hkey hothers ih =>
    have hnil := hothers.keys_eq
    rw [Seq.head_eq_none hkey] at hnil
    rw [hnil, Seq.tail_nil, Seq.drop_nil] at hleft
    exact absurd Seq.head_nil hleft
  | @tookNil group rest taken _ _ _ _ _ _ _ k _ _ _ hkey hnil _ ih =>
    have hrest := ih hleft hoffers
    rw [List.length_cons, List.length_cons, Seq.take_succ_of_head hkey, List.countP_cons, hnil]
    exact Nat.succ_le_succ hrest
  | @took group rest taken _ _ _ _ _ _ _ k sub _ _ _ hkey hsub _ ih =>
    have hrest := ih hleft hoffers
    change _ ≤ List.countP _ (Seq.take (taken.length + 1) _)
    rw [Seq.take_succ_of_head hkey, List.countP_cons, hsub]
    exact hrest

end Walks

/-! ## The loop ends -/

/-- Every iteration but the last visits a group for the last time or takes a key,
so the loop ends when there are finitely many keys and the generators answer. -/
theorem opLoop_ne_diverged (hanswers : ∀ oracle ctx (gen : Option (Map γ (Value K A))),
      op oracle gen ctx ≠ .error .diverged)
    {oracle : Oracle} {fgen : K → Option γ} {groups : Groups K A γ} {ctx : Context}
    {fuel : ℕ} {free : List ℕ} {keys : List K} {gens : Gens K A γ}
    {soonest : Option (Candidate (Value K A) (Offer K A γ))}
    (hfuel : free.length + keys.length ≤ fuel) :
    ConcurrentGenerator.opLoop oracle fgen groups ctx fuel free (Seq.ofList keys) gens soonest ≠
      .error .diverged := by
  induction fuel generalizing free keys gens soonest with
  | zero =>
    obtain ⟨hfree, -⟩ := Nat.add_eq_zero_iff.mp (Nat.le_zero.mp hfuel)
    rw [List.length_eq_zero_iff.mp hfree]
    exact fun h => by cases h
  | succ fuel ih =>
    cases free with
    | nil => exact fun h => by cases h
    | cons group rest =>
      rw [List.length_cons] at hfuel
      have hskip := @ih rest keys.tail (gens.set group none) soonest
        (by rw [List.length_tail]; omega)
      have htail : (Seq.ofList keys).tail = Seq.ofList keys.tail := by
        cases keys <;> rfl
      unfold ConcurrentGenerator.opLoop
      split
      · rename_i gen contextFilter threads _ _ _
        split
        · rename_i t hthrown
          intro h
          obtain rfl := Except.error.inj h
          exact hanswers _ _ _ hthrown
        · exact ih (by omega)
        · rw [htail]
          cases keys with
          | nil => exact hskip
          | cons k keys =>
            rw [List.length_cons] at hfuel
            split
            · exact hskip
            · exact ih (by rw [List.length_cons, List.tail_cons]; omega)
      · exact fun h => by cases h

/-! ## Every group is asked when every thread is free -/

section Runs

variable {c n : ℕ} {n_pos : 0 < n} {fgen : K → Option γ} {env : Env (Value K A)}

omit [Protocol γ (Value K A)] in
theorem le_length_of_all_free (hn : 0 < n) {groups : Groups K A γ}
    (hgrouped : Grouped n (clientThreads c) groups) {ctx : Context} (hwhole : Whole c ctx)
    (hall : ∀ thread ∈ ctx.allThreads, thread ∈ ctx.freeThreads) {free order : List ℕ}
    (hfree : ConcurrentGenerator.freeGroups groups (clientView ctx) = .ok free)
    (hperm : order.Perm free) : c / n ≤ order.length := by
  have hmem : ∀ group < c / n, group ∈ free := by
    intro group hgroup
    have hi : group * n < c := by
      calc group * n < c / n * n := Nat.mul_lt_mul_of_pos_right hgroup hn
        _ ≤ c := Nat.div_mul_le_self c n
    have hthread : Name.int (group * n) ∈ (clientView ctx).freeThreads := by
      refine (mem_freeThreads_clientView hwhole).mpr ⟨_, hi, rfl, hall _ ?_⟩
      exact hwhole.mem_allThreads (mem_testTable_allNames.mpr (Or.inl ⟨_, hi, rfl⟩))
    unfold ConcurrentGenerator.freeGroups at hfree
    split at hfree
    · cases hfree
    · rename_i found hfound
      cases hfree
      obtain ⟨g, hg, hlookup⟩ := exists_of_mapM_eq_some hfound hthread
      rw [hgrouped.lookup_eq hn] at hlookup
      simp only [if_pos hi, Nat.mul_div_cancel _ hn] at hlookup
      rw [Option.some.inj hlookup]
      exact List.mem_dedup.mpr hg
  have hsubset : List.range (c / n) ⊆ order := by
    intro group hgroup
    exact hperm.mem_iff.mpr (hmem group (List.mem_range.mp hgroup))
  calc c / n = (List.range (c / n)).length := List.length_range.symm
    _ ≤ order.length := (List.nodup_range.subperm hsubset).length_le

/-- When the answer is `nil` and no thread is busy, no key is left. -/
theorem Accounts.keys_eq_nil {keys : List K} {gen : ConcurrentGenerator K A γ}
    {notes : List (Note (Value K A))} (hacc : Accounts c n fgen (Seq.ofList keys) gen notes)
    {ctx : Context} (hwhole : Whole c ctx)
    (hall : ∀ thread ∈ ctx.allThreads, thread ∈ ctx.freeThreads)
    (hfew : ((keys.drop (c / n)).dropLast.countP fun k => (fgen k).isNone) < c / n)
    {groups : Groups K A γ} {taken : List ℕ} {keys' : Seq K} {gens' : Gens K A γ}
    (hasked : gen.Asked (clientView ctx) groups taken keys' gens' []) :
    keys'.head = none := by
  by_contra hleft
  have hn : 0 < n := hacc.size ▸ gen.n_pos
  obtain ⟨hgrouped, hserved, -⟩ := hacc.asked hwhole hasked
  obtain ⟨rest, free, order, hstart, hfree, hperm, hwalk⟩ := hasked.walked
  rw [hacc.source] at hwalk
  obtain ⟨hgrouped₀, hserved₀⟩ := hacc.start hwhole hstart
  have hmany := (le_length_of_all_free hn hgrouped₀ hwhole hall hfree hperm).trans
    (hwalk.length_le_countP hleft)
  -- The keys taken in this call follow the first ones and do not reach the last.
  have hrest := hserved₀.rest
  have hbefore := hserved₀.first
  generalize (given (notes ++ (gen.initial groups).map .took)).length = q at hrest hbefore
  have hkeys' : keys'.head = keys[q + taken.length]? := by
    rw [hwalk.keys_eq, hrest, ← Seq.dropn_add, Seq.head_dropn, Seq.ofList_get?]
  have hlt : q + taken.length < keys.length := by
    by_contra hge
    exact hleft (hkeys'.trans (List.getElem?_eq_none (not_lt.mp hge)))
  have hq : c / n ≤ q := by
    rw [hgrouped₀.length_gens, length_clientThreads] at hbefore
    refine le_trans ?_ hbefore
    by_contra hshort
    have hpast := List.getElem?_eq_none (le_refl ((Seq.ofList keys).take (c / n)).length)
    rw [Seq.getElem?_take, if_pos (not_le.mp hshort), Seq.ofList_get?,
      List.getElem?_eq_none_iff] at hpast
    omega
  have htaken : rest.take taken.length = (keys.drop q).take taken.length := by
    apply List.ext_getElem?
    intro i
    rw [Seq.getElem?_take, List.getElem?_take, List.getElem?_drop, hrest, Seq.drop_get?,
      Seq.ofList_get?]
  have hsublist : ((keys.drop q).take taken.length).Sublist (keys.drop (c / n)).dropLast := by
    have hslice : (keys.drop q).take taken.length =
        ((keys.drop (c / n)).dropLast.drop (q - c / n)).take taken.length := by
      apply List.ext_getElem?
      intro i
      rw [List.getElem?_take, List.getElem?_take]
      split
      · rw [List.getElem?_drop, List.getElem?_drop, List.getElem?_dropLast, List.getElem?_drop,
          List.length_drop, if_pos (by omega), show c / n + (q - c / n + i) = q + i by omega]
      · rfl
    rw [hslice]
    exact (List.take_sublist _ _).trans (List.drop_sublist _ _)
  rw [htaken] at hmany
  have hcount := hsublist.countP_le (p := fun k => (fgen k).isNone)
  omega

end Runs

/-- The generator that reads, for the keys in `live`, and `nil` for the others. -/
def readsOf (live : List ℕ) (k : ℕ) : Option (OpMap (Value ℕ ℕ)) :=
  if k ∈ live then some (reads none) else none

end Jepsen.Independent
