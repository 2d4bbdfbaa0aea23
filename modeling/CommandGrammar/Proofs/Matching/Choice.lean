/-
  CommandGrammar.Proofs.Matching.Choice — what is chosen was there to choose.

  The best success of several branches is the success of one of them, the failure that is
  conceded is that of one of them if any scored, and an arrangement of a list is a
  permutation of it. Nothing here depends on what scores are.
-/

import CommandGrammar.Matching.Arrangement
import CommandGrammar.Matching.Attempt
import CommandGrammar.Proofs.Score

namespace CommandGrammar

variable {σ α β : Type}

/-! ## The best of several -/

theorem Branch.success?_eq_some {b : Branch σ α} {f : Progress σ} {l : α} (h : b.success? = some (f, l)) :
    b.outcome = .matched f ∧ b.label = l := by
  unfold Branch.success? at h
  split at h
  · rename_i m hm
    cases h
    exact ⟨hm, rfl⟩
  · cases h

section

variable [Score σ]

theorem Branch.setback?_eq_some {b : Branch σ α} {f : Failure σ} (h : b.setback? = some f) :
    ∃ e x, b.outcome = .failed e x ∧ 0 < x.score ∧ f = { e with score := x.score } := by
  unfold setback? at h
  split at h
  · cases h
  · rename_i e x hout
    split at h
    · rename_i hpos
      cases h
      exact ⟨e, x, hout, hpos, rfl⟩
    · cases h

theorem bestSuccess_mem {branches : List (Branch σ α)} {f : Progress σ} {l : α} (h : bestSuccess branches = some (f, l)) :
    ∃ b ∈ branches, b.outcome = .matched f ∧ b.label = l := by
  obtain ⟨b, hb, hs⟩ := List.mem_filterMap.mp (Score.firstBest_mem h)
  exact ⟨b, hb, Branch.success?_eq_some hs⟩

/-- The best success is that of an attempt on a fork. -/
theorem bestSuccess_tryEach {m f : Progress σ} {attempts : List (α × Attempt σ)} {l : α}
    (h : bestSuccess (tryEach m attempts) = some (f, l)) : ∃ a, (l, a) ∈ attempts ∧ a m.fork = .matched f := by
  obtain ⟨b, hb, hout, rfl⟩ := bestSuccess_mem h
  obtain ⟨x, hx, rfl⟩ := List.mem_map.mp hb
  exact ⟨x.2, hx, hout⟩

/-- The best setback is that of a branch that scored before it failed. -/
theorem bestSetback_mem {branches : List (Branch σ α)} {f : Failure σ} (h : bestSetback branches = some f) :
    ∃ b ∈ branches, ∃ e x, b.outcome = .failed e x ∧ 0 < x.score ∧ f = { e with score := x.score } := by
  obtain ⟨b, hb, hs⟩ := List.mem_filterMap.mp (Score.firstBest_mem h)
  exact ⟨b, hb, Branch.setback?_eq_some hs⟩

/-- What is conceded is the failure of a branch, or the one that is kept ready for want of any. -/
theorem concede_eq_failed {branches : List (Branch σ α)} {otherwise f : Failure σ} {m m' : Progress σ}
    (h : concede branches otherwise m = .failed f m') :
    (∃ b ∈ branches, ∃ e x, b.outcome = .failed e x ∧ f = { e with score := x.score }) ∨ f = otherwise := by
  unfold concede at h
  split at h
  · rename_i g hg
    cases h
    obtain ⟨b, hb, e, x, hout, -, rfl⟩ := bestSetback_mem hg
    exact .inl ⟨b, hb, e, x, hout, rfl⟩
  · cases h
    exact .inr rfl

theorem concede_ne_matched (branches : List (Branch σ α)) (otherwise : Failure σ) (m m' : Progress σ) :
    concede branches otherwise m ≠ .matched m' := by
  intro h
  unfold concede at h
  split at h <;> cases h

end

/-- An element that is told by its number is one, and the others are the rest. -/
theorem perm_cons_filter {xs : List (α × Nat)} {c : α} {i : Nat} (hnodup : (xs.map (·.2)).Nodup) (h : (c, i) ∈ xs) :
    ((c, i) :: xs.filter (·.2 != i)).Perm xs := by
  induction xs with
  | nil => cases h
  | cons x xs ih =>
    rw [List.map_cons, List.nodup_cons] at hnodup
    obtain ⟨hx, hxs⟩ := hnodup
    rcases List.mem_cons.mp h with rfl | h
    · have hothers : xs.filter (·.2 != i) = xs := by
        rw [List.filter_eq_self]
        intro y hy
        rw [bne_iff_ne]
        intro hi
        exact hx (List.mem_map.mpr ⟨y, hy, hi⟩)
      rw [List.filter_cons_of_neg (by simp), hothers]
    · have hne : x.2 ≠ i := by
        intro hi
        exact hx (List.mem_map.mpr ⟨_, h, hi.symm⟩)
      rw [List.filter_cons_of_pos (by simpa using hne)]
      exact (List.Perm.swap x (c, i) _).trans ((ih hxs h).cons x)

/-! ## Arrangements -/

theorem perm_of_mem_picks {xs : List α} {p : α × List α} (h : p ∈ picks xs) : (p.1 :: p.2).Perm xs := by
  induction xs generalizing p with
  | nil => cases h
  | cons x xs ih =>
    rcases List.mem_cons.mp h with rfl | h
    · exact List.Perm.refl _
    · obtain ⟨q, hq, rfl⟩ := List.mem_map.mp h
      exact (List.Perm.swap x q.1 q.2).trans ((ih hq).cons x)

theorem perm_of_mem_arrangementsOf (n : Nat) : ∀ {xs ys : List α}, xs.length = n → ys ∈ arrangementsOf n xs → ys.Perm xs := by
  induction n with
  | zero =>
    intro xs ys hn h
    rw [List.length_eq_zero_iff.mp hn]
    exact List.Perm.of_eq (List.mem_singleton.mp h)
  | succ n ih =>
    intro xs ys hn h
    obtain ⟨p, hp, h⟩ := List.mem_flatMap.mp h
    obtain ⟨zs, hzs, rfl⟩ := List.mem_map.mp h
    have hperm := perm_of_mem_picks hp
    have hlen : p.2.length = n := by
      have := hperm.length_eq
      simp only [List.length_cons] at this
      omega
    exact ((ih hlen hzs).cons p.1).trans hperm

theorem perm_of_mem_arrangements {xs ys : List α} (h : ys ∈ arrangements xs) : ys.Perm xs :=
  perm_of_mem_arrangementsOf xs.length rfl h

theorem picks_map (f : α → β) (xs : List α) : picks (xs.map f) = (picks xs).map fun p => (f p.1, p.2.map f) := by
  induction xs with
  | nil => rfl
  | cons x xs ih =>
    rw [List.map_cons, picks, picks, ih, List.map_cons, List.map_map, List.map_map]
    rfl

theorem arrangementsOf_map (f : α → β) (n : Nat) :
    ∀ xs : List α, arrangementsOf n (xs.map f) = (arrangementsOf n xs).map (·.map f) := by
  induction n with
  | zero => exact fun xs => rfl
  | succ n ih =>
    intro xs
    simp only [arrangementsOf, picks_map, List.flatMap_map, List.map_flatMap, ih, List.map_map]
    rfl

theorem arrangements_map (f : α → β) (xs : List α) : arrangements (xs.map f) = (arrangements xs).map (·.map f) := by
  rw [arrangements, List.length_map, arrangementsOf_map, arrangements]

end CommandGrammar
