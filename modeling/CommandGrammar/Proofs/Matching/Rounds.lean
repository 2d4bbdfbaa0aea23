/-
  CommandGrammar.Proofs.Matching.Rounds — the order in which an unordered group is filled.

  A group that is filled round by round commits one child in each round: the child
  matches on a fork, and the fork is joined before the next round. So the children are
  committed one after the other, each of them once, in the order that is recorded
  (`rounds_commits`). Nothing here depends on what scores are.
-/

import CommandGrammar.Proofs.Matching.Children
import CommandGrammar.Proofs.Matching.Choice

namespace CommandGrammar

variable {σ : Type} [Score σ]

/-- The patterns match one after the other, each on a fork that is then joined. -/
inductive Commits (policy : Policy σ) : List Pattern → Progress σ → Progress σ → Prop
  | nil (m : Progress σ) : Commits policy [] m m
  | cons {c : Pattern} {cs : List Pattern} {m x m' : Progress σ} : c.attempt policy m.fork = .matched x →
      Commits policy cs (m.join x) m' → Commits policy (c :: cs) m m'

variable {policy : Policy σ}

/-- The best child of a round is one of those left, and its match on a fork is what is joined. -/
theorem bestSuccess_round {left : List (Pattern × Nat)} {m x : Progress σ} {i : Nat}
    (h : bestSuccess (tryEach m ((left.map (Pattern.child policy)).map fun c => (c.index, c.attempt))) = some (x, i)) :
    ∃ c, (c, i) ∈ left ∧ c.attempt policy m.fork = .matched x := by
  obtain ⟨a, ha, hx⟩ := bestSuccess_tryEach h
  rw [List.map_map] at ha
  obtain ⟨⟨c, j⟩, hc, heq⟩ := List.mem_map.mp ha
  obtain ⟨rfl, rfl⟩ := Prod.mk.inj (show (j, c.attempt policy) = (i, a) from heq)
  exact ⟨c, hc, hx⟩

/-- The next round has all children that are left but the one that was committed. -/
theorem filter_child (left : List (Pattern × Nat)) (i : Nat) :
    (left.map (Pattern.child policy)).filter (·.index != i) = (left.filter (·.2 != i)).map (Pattern.child policy) :=
  List.filter_map

theorem length_filter_of_mem {left : List (Pattern × Nat)} {c : Pattern} {i n : Nat} (hnodup : (left.map (·.2)).Nodup)
    (hc : (c, i) ∈ left) (hlen : left.length = n + 1) : (left.filter (·.2 != i)).length = n := by
  have hperm := (perm_cons_filter hnodup hc).length_eq
  rw [List.length_cons] at hperm
  omega

/-- Round by round, the children that are left are committed in some order, each of them once. -/
theorem rounds_commits (p : Pattern) (id : Option Bytes) (n : Nat) : ∀ {left : List (Pattern × Nat)} {order : List Nat}
    {m m' : Progress σ}, left.length = n → (left.map (·.2)).Nodup →
    attemptRounds p id n (left.map (Pattern.child policy)) order m = .matched m' →
    ∃ (placed : List (Pattern × Nat)) (m₁ : Progress σ), placed.Perm left ∧ Commits policy (placed.map (·.1)) m m₁ ∧
      m' = m₁.recordOrder id (order ++ placed.map (·.2)) := by
  induction n with
  | zero =>
    intro left order m m' hlen _ hm
    cases hm
    rw [List.length_eq_zero_iff.mp hlen]
    exact ⟨[], m, List.Perm.refl [], .nil m, by simp⟩
  | succ n ih =>
    intro left order m m' hlen hnodup hm
    unfold attemptRounds at hm
    dsimp only at hm
    split at hm
    · rename_i x i hbest
      obtain ⟨c, hc, hx⟩ := bestSuccess_round hbest
      have hnodup' : ((left.filter (·.2 != i)).map (·.2)).Nodup := hnodup.sublist (List.filter_sublist.map _)
      rw [filter_child] at hm
      obtain ⟨placed, m₁, hplaced, hcommits, rfl⟩ := ih (length_filter_of_mem hnodup hc hlen) hnodup' hm
      refine ⟨(c, i) :: placed, m₁, (hplaced.cons _).trans (perm_cons_filter hnodup hc), .cons hx hcommits, ?_⟩
      rw [List.map_cons, List.append_assoc]
      rfl
    · exact absurd hm (concede_ne_matched _ _ _ _)

/-- The children of a group and their places, as the first round has them. -/
theorem nodup_zipIdx (cs : List Pattern) : (cs.zipIdx.map (·.2)).Nodup := by
  rw [List.zipIdx_map_snd]
  exact List.nodup_range'

theorem perm_of_zipIdx {cs : List Pattern} {placed : List (Pattern × Nat)} (h : placed.Perm cs.zipIdx) :
    (placed.map (·.1)).Perm cs := by
  simpa using h.map (·.1)

theorem perm_range_of_zipIdx {cs : List Pattern} {placed : List (Pattern × Nat)} (h : placed.Perm cs.zipIdx) :
    (placed.map (·.2)).Perm (List.range cs.length) := by
  simpa [List.range_eq_range'] using h.map (·.2)

end CommandGrammar
