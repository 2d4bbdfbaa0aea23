/-
  CommandGrammar.Proofs.Matching.Suggestions — a suggestion scores less than a word that is taken for its similarity.

  A literal is suggested only for a word that it does not equal, under the same rule for
  case by which the two are then compared. Their similarity is below 1, and so what the
  suggestion scores is below the score of a tolerant literal (`suggestion_below_fuzzy`).
-/

import CommandGrammar.Proofs.Matching.Children
import CommandGrammar.Proofs.Similarity.Measure

namespace CommandGrammar

open Similarity (measure)

/-- A word that a literal does not equal is less similar to it than the literal itself. -/
theorem Policy.similarity_lt_one (policy : Policy Rat) {literal word : Bytes} {caseSensitive : Bool}
    (h : policy.equal literal word caseSensitive = false) : policy.similarity literal word caseSensitive < 1 := by
  have hlt : ∀ {lhs rhs : Bytes}, lhs ≠ rhs → (measure lhs rhs : Rat) < 1 := fun {lhs rhs} hne =>
    lt_of_le_of_ne (Similarity.measure_le_one lhs rhs) (mt (Similarity.measure_eq_one_iff lhs rhs).mp hne)
  unfold Policy.equal at h
  unfold Policy.similarity
  split at h
  case isTrue hcase =>
    rw [if_pos hcase]
    exact hlt (ne_of_beq_false h)
  case isFalse hcase =>
    rw [if_neg hcase]
    exact hlt (ne_of_beq_false h)

/-- A literal is suggested where the next word does not equal it, and scores by their similarity. -/
theorem attempt_suggested {σ : Type} [Score σ] (policy : Policy σ) {text : Bytes} {caseSensitive tolerant : Bool}
    {m m' : Progress σ} {f : Failure σ}
    (h : (Pattern.literal text caseSensitive tolerant).attempt policy m = .failed f m')
    (hkind : f.kind = .suggestedLiteral) :
    ∃ word rest, m.tokens = word :: rest ∧ policy.equal text word.value caseSensitive = false ∧
      m' = m.addScore (policy.fuzzyScore * policy.similarity text word.value caseSensitive) := by
  rw [Pattern.attempt] at h
  unfold unlessTerminated attemptLiteral at h
  dsimp only at h
  split at h
  · cases h
    cases hkind
  · split at h
    · cases h
      cases hkind
    · rename_i word rest htokens
      split at h
      · cases h
      · rename_i hne
        split at h
        · split at h
          · cases h
          · cases h
            exact ⟨word, rest, htokens, Bool.eq_false_iff.mpr hne, rfl⟩
        · cases h
          cases hkind

/-- Similarity lies between 0 and 1 and is 1 for equal texts only, so that a literal that is suggested always scores less
    than one that takes a similar word. -/
theorem suggestion_below_fuzzy :
    (∀ lhs rhs : Bytes, (0 : Rat) ≤ measure lhs rhs ∧ (measure lhs rhs : Rat) ≤ 1 ∧
        ((measure lhs rhs : Rat) = 1 ↔ lhs = rhs)) ∧
      ∀ policy : Policy Rat, 0 < policy.fuzzyScore → ∀ (text : Bytes) (caseSensitive tolerant : Bool),
        (∀ word, policy.equal text word caseSensitive = false →
          policy.fuzzyScore * policy.similarity text word caseSensitive < policy.fuzzyScore) ∧
        ∀ (m m' : Progress Rat) (f : Failure Rat),
          (Pattern.literal text caseSensitive tolerant).attempt policy m = .failed f m' → f.kind = .suggestedLiteral →
            ∃ s, m' = m.addScore s ∧ s < policy.fuzzyScore := by
  constructor
  · exact fun lhs rhs => ⟨Similarity.measure_nonneg lhs rhs, Similarity.measure_le_one lhs rhs,
      Similarity.measure_eq_one_iff lhs rhs⟩
  · intro policy hpos text caseSensitive tolerant
    have hbelow : ∀ word, policy.equal text word caseSensitive = false →
        policy.fuzzyScore * policy.similarity text word caseSensitive < policy.fuzzyScore :=
      fun word hne => mul_lt_of_lt_one_right hpos (policy.similarity_lt_one hne)
    refine ⟨hbelow, ?_⟩
    intro m m' f h hkind
    obtain ⟨word, _, _, hne, hm'⟩ := attempt_suggested policy h hkind
    exact ⟨_, hm', hbelow word.value hne⟩

/-- Two letters that have changed places. -/
theorem suggestion_below_fuzzy_transposed :
    let m : Progress Rat := .start (ascii "strat") [⟨.plain, ascii "strat", 0, 5, ascii "strat"⟩]
    0 < (Policy.standard : Policy Rat).fuzzyScore ∧
      (Policy.standard : Policy Rat).equal (ascii "start") (ascii "strat") true = false ∧
      ∃ f m', (Pattern.literal (ascii "start") true false).attempt .standard m = .failed f m' ∧
        f.kind = .suggestedLiteral ∧ ∃ s, m' = m.addScore s ∧ s < (Policy.standard : Policy Rat).fuzzyScore := by
  intro m
  have hpos : 0 < (Policy.standard : Policy Rat).fuzzyScore := by decide +kernel
  have hkind : ((Pattern.literal (ascii "start") true false).attempt .standard m).failure?.map (·.kind) =
      some .suggestedLiteral := by decide +kernel
  cases h : (Pattern.literal (ascii "start") true false).attempt .standard m with
  | matched m' =>
    rw [h] at hkind
    cases hkind
  | failed f m' =>
    rw [h] at hkind
    have hf : f.kind = .suggestedLiteral := Option.some.inj hkind
    exact ⟨hpos, by decide, f, m', rfl, hf, (suggestion_below_fuzzy.2 .standard hpos _ _ _).2 m m' f h hf⟩

end CommandGrammar
