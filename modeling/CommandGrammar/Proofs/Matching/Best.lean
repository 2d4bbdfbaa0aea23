/-
  CommandGrammar.Proofs.Matching.Best — the best of several branches, where scores are exact.

  A group fails only if all its branches do. Otherwise it takes the first of the
  successes that score most (`bestSuccess_best`); and if it has to concede, the score that
  it adds is the highest that a branch reached, but not below zero, and the failure that it
  reports is that of the first branch that reached it (`concede_best`).
-/

import CommandGrammar.Proofs.Matching.Choice
import Mathlib.Order.Bounds.Basic

namespace CommandGrammar

variable {σ α : Type}

/-! ## Successes -/

theorem Branch.success?_of_matched {b : Branch σ α} {x : Progress σ} (h : b.outcome = .matched x) :
    b.success? = some (x, b.label) := by
  rw [success?, h]

theorem bestSuccess_eq_none [Score σ] {branches : List (Branch σ α)} :
    bestSuccess branches = none ↔ ∀ b ∈ branches, ∃ f x, b.outcome = .failed f x := by
  rw [bestSuccess, Score.firstBest_eq_none, List.filterMap_eq_nil_iff]
  refine forall₂_congr fun b _ => ?_
  unfold Branch.success?
  cases b.outcome with
  | matched x => simp
  | failed f x => simp

/-- No success scores more than the best, and of those that score as much it has the least label. -/
theorem bestSuccess_best [Preorder α] {branches : List (Branch Rat α)} {x : Progress Rat} {l : α}
    (h : bestSuccess branches = some (x, l)) (hlabels : branches.Pairwise fun b b' => b.label < b'.label) :
    ∀ b ∈ branches, ∀ y, b.outcome = .matched y → y.score ≤ x.score ∧ (y.score = x.score → l ≤ b.label) := by
  obtain ⟨b, hb, hs, hbest⟩ := Score.firstBest_filterMap h hlabels
  obtain ⟨-, rfl⟩ := Branch.success?_eq_some hs
  intro b' hb' y hy
  exact hbest b' hb' _ (Branch.success?_of_matched hy)

/-! ## Failures -/

theorem Branch.setback?_of_pos {b : Branch Rat α} {e : Failure Rat} {x : Progress Rat} (h : b.outcome = .failed e x)
    (hpos : 0 < x.score) : b.setback? = some { e with score := x.score } := by
  rw [setback?, h]
  exact if_pos hpos

/-- The scores of the branches that failed. -/
def failedScores (branches : List (Branch Rat α)) : Set Rat :=
  {s | ∃ b ∈ branches, ∃ e x, b.outcome = .failed e x ∧ s = x.score}

/-- No failure scores more than the best setback, and of those that score as much it has the least label. -/
theorem bestSetback_best [Preorder α] {branches : List (Branch Rat α)} {f : Failure Rat} (h : bestSetback branches = some f)
    (hlabels : branches.Pairwise fun b b' => b.label < b'.label) :
    ∃ b ∈ branches, ∃ e x, b.outcome = .failed e x ∧ 0 < x.score ∧ f = { e with score := x.score } ∧
      ∀ b' ∈ branches, ∀ e' y, b'.outcome = .failed e' y →
        y.score ≤ x.score ∧ (y.score = x.score → b.label ≤ b'.label) := by
  obtain ⟨b, hb, hs, hbest⟩ := Score.firstBest_filterMap h hlabels
  obtain ⟨e, x, hout, hpos, rfl⟩ := Branch.setback?_eq_some hs
  refine ⟨b, hb, e, x, hout, hpos, rfl, fun b' hb' e' y hy => ?_⟩
  rcases le_or_gt y.score 0 with hzero | hpos'
  · have hlt := hzero.trans_lt hpos
    exact ⟨hlt.le, fun heq => absurd heq hlt.ne⟩
  · exact hbest b' hb' _ (Branch.setback?_of_pos hy hpos')

/-- Without a setback no branch has scored. -/
theorem failedScores_of_bestSetback {branches : List (Branch Rat α)} (h : bestSetback branches = none) :
    ∀ s ∈ failedScores branches, s ≤ 0 := by
  rintro s ⟨b, hb, e, x, hout, rfl⟩
  by_contra hpos
  have hnil := List.filterMap_eq_nil_iff.mp (Score.firstBest_eq_none.mp h) b hb
  rw [Branch.setback?_of_pos hout (not_le.mp hpos)] at hnil
  cases hnil

/-- What is conceded for is the highest score of a failure, or nothing; and if it is a score, the failure is that of
    the first branch that reached it. -/
theorem concede_best [Preorder α] {branches : List (Branch Rat α)} {otherwise f : Failure Rat} {m m' : Progress Rat}
    (h : concede branches otherwise m = .failed f m') (hlabels : branches.Pairwise fun b b' => b.label < b'.label) :
    ∃ s, m' = m.addScore s ∧ IsGreatest (insert 0 (failedScores branches)) s ∧
      (0 < s → ∃ b ∈ branches, ∃ e x, b.outcome = .failed e x ∧ x.score = s ∧ f = { e with score := s } ∧
        ∀ b' ∈ branches, ∀ e' y, b'.outcome = .failed e' y → y.score = s → b.label ≤ b'.label) := by
  unfold concede at h
  split at h
  case h_1 g hbest =>
    cases h
    obtain ⟨b, hb, e, x, hout, hpos, rfl, hfirst⟩ := bestSetback_best hbest hlabels
    refine ⟨x.score, rfl, ⟨.inr ⟨b, hb, e, x, hout, rfl⟩, ?_⟩, fun _ => ⟨b, hb, e, x, hout, rfl, rfl, ?_⟩⟩
    · rintro t (rfl | ⟨b', hb', e', y, hy, rfl⟩)
      · exact hpos.le
      · exact (hfirst b' hb' e' y hy).1
    · exact fun b' hb' e' y hy => (hfirst b' hb' e' y hy).2
  case h_2 hnone =>
    cases h
    refine ⟨0, by rw [Progress.addScore, Rat.add_zero], ⟨.inl rfl, ?_⟩, fun hpos => absurd hpos (lt_irrefl 0)⟩
    rintro t (rfl | ht)
    · exact le_rfl
    · exact failedScores_of_bestSetback hnone t ht

end CommandGrammar
