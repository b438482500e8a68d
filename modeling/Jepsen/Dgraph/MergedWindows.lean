/-
# Merged windows

`merged-windows` computes a half-open window around each point, and merges windows
that overlap.
-/

import Mathlib

namespace Jepsen.Dgraph

/-! ## The reduction -/

/-- The windows that are complete, and the bounds of the current one. -/
structure Merging where
  windows : List (ℤ × ℤ)
  lower : ℤ
  upper : ℤ

/-- The function that the points are reduced with. -/
def Merging.step (s : ℤ) (state : Merging) (p : ℤ) : Merging :=
  if state.upper ≤ p - s then
    -- Start a new window
    { windows := state.windows ++ [(state.lower, state.upper)], lower := p - s, upper := p + s }
  else
    -- Expand this window
    { state with upper := p + s }

/-- All windows, with the current one. -/
def Merging.all (state : Merging) : List (ℤ × ℤ) :=
  state.windows ++ [(state.lower, state.upper)]

/-- `merged-windows`, of sorted points. -/
def mergeSorted (s : ℤ) : List ℤ → List (ℤ × ℤ)
  | [] => []
  | first :: rest =>
    ((first :: rest).foldl (Merging.step s) ⟨[], first - s, first + s⟩).all

/-- `merged-windows` -/
def mergedWindows (s : ℤ) (points : List ℤ) : List (ℤ × ℤ) :=
  mergeSorted s (points.insertionSort (· ≤ ·))

/-! ## The windows -/

/-- A window goes from below a point to above a point. -/
structure IsWindow (s : ℤ) (points : List ℤ) (window : ℤ × ℤ) : Prop where
  proper : window.1 < window.2
  lower : ∃ p ∈ points, window.1 = p - s
  upper : ∃ p ∈ points, window.2 = p + s

/-- A window has all of the window around a point. -/
def Around (s : ℤ) (window : ℤ × ℤ) (p : ℤ) : Prop := window.1 ≤ p - s ∧ p + s ≤ window.2

/-- Windows are sorted and disjoint, and cover the windows around all points. -/
structure AreWindows (s : ℤ) (points : List ℤ) (windows : List (ℤ × ℤ)) : Prop where
  apart : windows.Pairwise fun a b => a.2 ≤ b.1
  each : ∀ window ∈ windows, IsWindow s points window
  covers : ∀ p ∈ points, ∃ window ∈ windows, Around s window p

theorem IsWindow.mono {s : ℤ} {points points' : List ℤ} {window : ℤ × ℤ}
    (h : IsWindow s points window) (hsubset : points ⊆ points') : IsWindow s points' window := by
  obtain ⟨p, hp, hlower⟩ := h.lower
  obtain ⟨q, hq, hupper⟩ := h.upper
  exact ⟨h.proper, ⟨p, hsubset hp, hlower⟩, ⟨q, hsubset hq, hupper⟩⟩

theorem isWindow_around {s p : ℤ} (hs : 1 ≤ s) {points : List ℤ} (hp : p ∈ points) :
    IsWindow s points (p - s, p + s) := by
  refine ⟨?_, ⟨p, hp, rfl⟩, ⟨p, hp, rfl⟩⟩
  dsimp only
  omega

theorem areWindows_nil (s : ℤ) : AreWindows s [] [] where
  apart := List.Pairwise.nil
  each _ hwindow := absurd hwindow List.not_mem_nil
  covers _ hp := absurd hp List.not_mem_nil

/-- A window that starts after the others. -/
theorem AreWindows.concat {s p : ℤ} (hs : 1 ≤ s) {points : List ℤ} {windows : List (ℤ × ℤ)}
    (h : AreWindows s points windows) (hafter : ∀ window ∈ windows, window.2 ≤ p - s) :
    AreWindows s (points ++ [p]) (windows ++ [(p - s, p + s)]) where
  apart := by
    rw [List.pairwise_append]
    refine ⟨h.apart, List.pairwise_singleton _ _, ?_⟩
    intro a ha b hb
    rw [List.mem_singleton.mp hb]
    exact hafter a ha
  each := by
    rw [List.forall_mem_append, List.forall_mem_singleton]
    exact ⟨fun window hwindow => (h.each window hwindow).mono (List.subset_append_left _ _),
      isWindow_around hs (List.mem_append_right _ List.mem_cons_self)⟩
  covers := by
    rw [List.forall_mem_append, List.forall_mem_singleton]
    constructor
    · intro p' hp'
      obtain ⟨window, hwindow, haround⟩ := h.covers p' hp'
      exact ⟨window, List.mem_append_left _ hwindow, haround⟩
    · exact ⟨_, List.mem_append_right _ List.mem_cons_self, le_rfl, le_rfl⟩

/-- The last window grows, and covers what it did. -/
theorem AreWindows.expand {s p lower upper : ℤ} {points : List ℤ} {windows : List (ℤ × ℤ)}
    (h : AreWindows s points (windows ++ [(lower, upper)])) (hlower : lower ≤ p - s)
    (hupper : upper ≤ p + s) :
    AreWindows s (points ++ [p]) (windows ++ [(lower, p + s)]) where
  apart := by
    have hapart := List.pairwise_append.mp h.apart
    rw [List.pairwise_append]
    refine ⟨hapart.1, List.pairwise_singleton _ _, ?_⟩
    intro a ha b hb
    rw [List.mem_singleton.mp hb]
    exact hapart.2.2 a ha (lower, upper) List.mem_cons_self
  each := by
    have heach := h.each
    rw [List.forall_mem_append, List.forall_mem_singleton] at heach ⊢
    have hlast := heach.2.mono (List.subset_append_left points [p])
    refine ⟨fun window hwindow => (heach.1 window hwindow).mono (List.subset_append_left _ _),
      hlast.proper.trans_le hupper, hlast.lower, ?_⟩
    exact ⟨p, List.mem_append_right _ List.mem_cons_self, rfl⟩
  covers := by
    rw [List.forall_mem_append, List.forall_mem_singleton]
    constructor
    · intro p' hp'
      obtain ⟨window, hwindow, haround⟩ := h.covers p' hp'
      cases List.mem_append.mp hwindow with
      | inl hwindow => exact ⟨window, List.mem_append_left _ hwindow, haround⟩
      | inr hwindow =>
        rw [List.mem_singleton.mp hwindow] at haround
        exact ⟨_, List.mem_append_right _ List.mem_cons_self, haround.1,
          haround.2.trans hupper⟩
    · exact ⟨_, List.mem_append_right _ List.mem_cons_self, hlower, le_rfl⟩

/-- The windows of the points so far, of which `q` is the last one. -/
structure Merged (s : ℤ) (points : List ℤ) (q : ℤ) (state : Merging) : Prop where
  areWindows : AreWindows s points state.all
  last : state.upper = q + s
  around : state.lower ≤ q - s

/-- A point that is not before the last one keeps the windows. -/
theorem Merged.step {s : ℤ} (hs : 1 ≤ s) {points : List ℤ} {q p : ℤ} {state : Merging}
    (h : Merged s points q state) (hle : q ≤ p) :
    Merged s (points ++ [p]) p (state.step s p) := by
  have hlast := h.last
  have haround := h.around
  unfold Merging.step
  split_ifs with hnew
  · refine ⟨h.areWindows.concat hs ?_, rfl, le_rfl⟩
    have hcurrent := (h.areWindows.each _ (List.mem_append_right _ List.mem_cons_self)).proper
    have hapart := List.pairwise_append.mp h.areWindows.apart
    intro window hwindow
    cases List.mem_append.mp hwindow with
    | inl hwindow =>
      have hbefore := hapart.2.2 window hwindow _ List.mem_cons_self
      exact hbefore.trans (hcurrent.le.trans hnew)
    | inr hwindow =>
      rw [List.mem_singleton.mp hwindow]
      exact hnew
  · have hlower : state.lower ≤ p - s := by omega
    exact ⟨h.areWindows.expand hlower (by omega), rfl, hlower⟩

theorem Merged.foldl {s : ℤ} (hs : 1 ≤ s) {rest points : List ℤ} {q : ℤ} {state : Merging}
    (h : Merged s points q state) (hsorted : (q :: rest).Pairwise (· ≤ ·)) :
    AreWindows s (points ++ rest) (rest.foldl (Merging.step s) state).all := by
  induction rest generalizing points q state with
  | nil =>
    rw [List.append_nil]
    exact h.areWindows
  | cons p rest ih =>
    rw [List.pairwise_cons] at hsorted
    have hstep := ih (h.step hs (hsorted.1 p List.mem_cons_self)) hsorted.2
    rw [List.append_assoc] at hstep
    exact hstep

theorem AreWindows.congr {s : ℤ} {points points' : List ℤ} {windows : List (ℤ × ℤ)}
    (h : AreWindows s points windows) (hiff : ∀ p, p ∈ points ↔ p ∈ points') :
    AreWindows s points' windows where
  apart := h.apart
  each window hwindow := (h.each window hwindow).mono fun p hp => (hiff p).mp hp
  covers p hp := h.covers p ((hiff p).mpr hp)

/-- The merged windows of some points are sorted and disjoint, and cover the window around each
point. -/
theorem areWindows_mergedWindows {s : ℤ} (hs : 1 ≤ s) (points : List ℤ) :
    AreWindows s points (mergedWindows s points) := by
  have hsorted := List.pairwise_insertionSort (· ≤ ·) points
  have hmem : ∀ p, p ∈ points.insertionSort (· ≤ ·) ↔ p ∈ points :=
    fun p => List.mem_insertionSort _
  unfold mergedWindows
  apply AreWindows.congr _ hmem
  cases hpoints : points.insertionSort (· ≤ ·) with
  | nil => exact areWindows_nil s
  | cons first rest =>
    rw [hpoints] at hsorted
    -- The first point is there when the reduction starts, and once more in its steps.
    have hfirst : Merged s [first] first ⟨[], first - s, first + s⟩ :=
      ⟨(areWindows_nil s).concat hs fun _ hwindow => absurd hwindow List.not_mem_nil, rfl, le_rfl⟩
    have htwice := hfirst.foldl hs (List.pairwise_cons.mpr
      ⟨fun p hp => (List.mem_cons.mp hp).elim (fun heq => heq.ge) fun hp =>
        (List.pairwise_cons.mp hsorted).1 p hp, hsorted⟩)
    exact htwice.congr fun p => by simp

end Jepsen.Dgraph
