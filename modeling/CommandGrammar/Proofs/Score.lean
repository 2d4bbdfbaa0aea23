/-
  CommandGrammar.Proofs.Score — the first of the best.

  `Score.firstBest` goes through a list once and keeps the better of the best so far and
  the next. What it keeps is in the list whatever scores are. If they are rational numbers
  it is what its name says: nothing before it scores as much, and nothing behind it more
  (`Score.firstBest_eq_some`), also where it is picked from another list
  (`Score.firstBest_filterMap`).
-/

import CommandGrammar.Score
import Mathlib.Algebra.Order.Ring.Rat
import Mathlib.Data.List.Forall2
import Mathlib.Data.List.Induction

namespace CommandGrammar.Score

variable {σ α β : Type}

/-! ## One of those passed -/

section

variable [Score σ]

/-- The better of the best so far and the next. -/
def better (score : α → σ) (best : Option α) (x : α) : Option α :=
  match best with
  | none => some x
  | some b => if score b < score x then some x else some b

theorem better_eq_some {score : α → σ} {best : Option α} {x y : α} (h : better score best y = some x) :
    best = some x ∨ x = y := by
  unfold better at h
  split at h
  · exact .inr (Option.some.inj h).symm
  · split at h
    · exact .inr (Option.some.inj h).symm
    · exact .inl h

theorem firstBest_mem {score : α → σ} {xs : List α} {x : α} (h : firstBest score xs = some x) : x ∈ xs := by
  -- along the fold the best so far is the one it started with, or one of those passed
  have hfold : ∀ (ys : List α) (best : Option α), ys.foldl (better score) best = some x → best = some x ∨ x ∈ ys := by
    intro ys
    induction ys with
    | nil => exact fun best hb => .inl hb
    | cons y ys ih =>
      intro best hb
      rcases ih _ hb with hy | hy
      · rcases better_eq_some hy with hx | rfl
        · exact .inl hx
        · exact .inr List.mem_cons_self
      · exact .inr (List.mem_cons_of_mem _ hy)
  rcases hfold xs none h with hx | hx
  · cases hx
  · exact hx

/-- Of two lists that go side by side with the same scores, the best are side by side. -/
theorem firstBest_rel {R : α → β → Prop} {score : α → σ} {score' : β → σ} (hscore : ∀ x y, R x y → score x = score' y)
    {xs : List α} {ys : List β} (h : List.Forall₂ R xs ys) : Option.Rel R (firstBest score xs) (firstBest score' ys) := by
  have hbetter : ∀ {best best' x y}, Option.Rel R best best' → R x y →
      Option.Rel R (better score best x) (better score' best' y) := by
    intro best best' x y hbest hxy
    cases hbest with
    | none => exact .some hxy
    | some hb =>
      simp only [better, hscore _ _ hb, hscore _ _ hxy]
      split
      · exact .some hxy
      · exact .some hb
  have hfold : ∀ {best best'}, Option.Rel R best best' →
      Option.Rel R (xs.foldl (better score) best) (ys.foldl (better score') best') := by
    induction h with
    | nil => exact id
    | cons hxy _ ih => exact fun hbest => ih (hbetter hbest hxy)
  exact hfold .none

theorem firstBest_map (score : α → σ) (score' : β → σ) (f : α → β) (h : ∀ x, score' (f x) = score x) (xs : List α) :
    (firstBest score xs).map f = firstBest score' (xs.map f) := by
  have hbeside : List.Forall₂ (fun x y => y = f x) xs (xs.map f) := by
    rw [List.forall₂_map_right_iff, List.forall₂_same]
    exact fun _ _ => rfl
  have hscore : ∀ x y, y = f x → score x = score' y := by
    rintro x _ rfl
    exact (h x).symm
  have hbest := firstBest_rel hscore hbeside
  generalize firstBest score xs = best, firstBest score' (xs.map f) = best' at hbest
  cases hbest with
  | none => rfl
  | some heq => rw [heq, Option.map_some]

theorem firstBest_snoc (score : α → σ) (xs : List α) (x : α) :
    firstBest score (xs ++ [x]) = better score (firstBest score xs) x := by
  rw [firstBest, List.foldl_append]
  rfl

/-- Nothing is best only where there is nothing. -/
theorem firstBest_eq_none {score : α → σ} {xs : List α} : firstBest score xs = none ↔ xs = [] := by
  induction xs using List.reverseRecOn with
  | nil => exact ⟨fun _ => rfl, fun _ => rfl⟩
  | append_singleton xs x _ =>
    rw [firstBest_snoc]
    constructor
    · intro h
      unfold better at h
      split at h
      · cases h
      · split at h <;> cases h
    · intro h
      simp at h

end

/-! ## The best -/

/-- The best divides the list: what stands before it scores less, what stands behind it no more. -/
theorem firstBest_eq_some {score : α → Rat} {xs : List α} {x : α} (h : firstBest score xs = some x) :
    ∃ before after, xs = before ++ x :: after ∧ (∀ y ∈ before, score y < score x) ∧
      ∀ y ∈ after, score y ≤ score x := by
  induction xs using List.reverseRecOn generalizing x with
  | nil => cases h
  | append_singleton xs z ih =>
    rw [firstBest_snoc] at h
    unfold better at h
    split at h
    case h_1 hnone =>
      cases h
      rw [firstBest_eq_none.mp hnone]
      exact ⟨[], [], rfl, List.forall_mem_nil _, List.forall_mem_nil _⟩
    case h_2 b hb =>
      obtain ⟨before, after, rfl, hbefore, hafter⟩ := ih hb
      split at h
      case isTrue hlt =>
        cases h
        refine ⟨before ++ b :: after, [], rfl, ?_, List.forall_mem_nil _⟩
        rw [List.forall_mem_append, List.forall_mem_cons]
        exact ⟨fun y hy => (hbefore y hy).trans hlt, hlt, fun y hy => (hafter y hy).trans_lt hlt⟩
      case isFalse hge =>
        cases h
        refine ⟨before, after ++ [z], by simp, hbefore, ?_⟩
        rw [List.forall_mem_append, List.forall_mem_singleton]
        exact ⟨hafter, not_lt.mp hge⟩

/-- Of what is picked from a list none scores more than the best, and of what scores as much it has the least key. -/
theorem firstBest_filterMap {γ : Type} [Preorder γ] {score : α → Rat} {pick : β → Option α} {key : β → γ} {bs : List β}
    {x : α} (h : firstBest score (bs.filterMap pick) = some x) (hkeys : bs.Pairwise fun b b' => key b < key b') :
    ∃ b ∈ bs, pick b = some x ∧
      ∀ b' ∈ bs, ∀ y, pick b' = some y → score y ≤ score x ∧ (score y = score x → key b ≤ key b') := by
  obtain ⟨before, after, hpicked, hbefore, hafter⟩ := firstBest_eq_some h
  obtain ⟨bs₁, rest, rfl, rfl, hrest⟩ := List.filterMap_eq_append_iff.mp hpicked
  obtain ⟨bs₂, b, bs₃, rfl, hnone, hb, rfl⟩ := List.filterMap_eq_cons_iff.mp hrest
  have hbehind : ∀ b' ∈ bs₃, key b < key b' := by
    obtain ⟨-, hrest, -⟩ := List.pairwise_append.mp hkeys
    obtain ⟨-, hrest, -⟩ := List.pairwise_append.mp hrest
    exact (List.pairwise_cons.mp hrest).1
  refine ⟨b, List.mem_append_right _ (List.mem_append_right _ List.mem_cons_self), hb, fun b' hb' y hy => ?_⟩
  simp only [List.mem_append, List.mem_cons] at hb'
  rcases hb' with hb' | hb' | rfl | hb'
  · have hlt := hbefore y (List.mem_filterMap.mpr ⟨b', hb', hy⟩)
    exact ⟨hlt.le, fun heq => absurd heq hlt.ne⟩
  · rw [hnone b' hb'] at hy
    cases hy
  · rw [Option.some.inj (hb.symm.trans hy)]
    exact ⟨le_rfl, fun _ => le_rfl⟩
  · exact ⟨hafter y (List.mem_filterMap.mpr ⟨b', hb', hy⟩), fun _ => (hbehind b' hb').le⟩

theorem same_iff {a b : Rat} : same a b = true ↔ a = b := by
  simp only [same, Bool.and_eq_true, decide_eq_true_eq]
  exact le_antisymm_iff.symm

end CommandGrammar.Score
