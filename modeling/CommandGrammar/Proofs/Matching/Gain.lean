/-
  CommandGrammar.Proofs.Matching.Gain — no attempt lowers the score.

  If no word scores less than zero, neither does a pattern: a branch that is joined
  gained on its fork, where it began with nothing, and a failure that is reported for its
  score scored above zero.
-/

import CommandGrammar.Proofs.Matching.Stepwise
import CommandGrammar.Proofs.Similarity

namespace CommandGrammar

/-- No word lowers the score. -/
structure Policy.Nonneg (policy : Policy Rat) : Prop where
  literal : 0 ≤ policy.literalScore
  fuzzy : 0 ≤ policy.fuzzyScore
  parameter : 0 ≤ policy.parameterScore

theorem Policy.similarity_nonneg (policy : Policy Rat) (literal word : Bytes) (caseSensitive : Bool) :
    0 ≤ policy.similarity literal word caseSensitive := by
  unfold Policy.similarity
  split <;> exact Similarity.measure_nonneg _ _

/-- The attempt leaves no lower a score than it finds. -/
def Gains (a : Attempt Rat) : Prop :=
  ∀ m, m.score ≤ (a m).progress.score

theorem Progress.score_le_addScore {m : Progress Rat} {s : Rat} (h : 0 ≤ s) : m.score ≤ (m.addScore s).score :=
  le_add_of_nonneg_right h

theorem Progress.score_le_join {m x : Progress Rat} (h : 0 ≤ x.score) : m.score ≤ (m.join x).score :=
  le_add_of_nonneg_right h

theorem Gains.fork_nonneg {a : Attempt Rat} (h : Gains a) (m : Progress Rat) : 0 ≤ (a m.fork).progress.score :=
  h m.fork

theorem gains_stepwise : Stepwise fun (m : Progress Rat) o => m.score ≤ o.progress.score where
  matched m := le_refl m.score
  failed _ m := le_refl m.score
  setback _ _ _ hs := Progress.score_le_addScore (le_of_lt hs)
  record {m _} hr := by cases hr <;> exact le_refl m.score
  join hx := Progress.score_le_join hx
  after hx ho := hx.trans ho

variable {policy : Policy Rat} (hp : policy.Nonneg)

include hp

theorem word_gains (m : Progress Rat) (o : Outcome Rat) (h : WordStep policy m o) : m.score ≤ o.progress.score := by
  cases h with
  | declined => exact le_refl m.score
  | suggested f text word caseSensitive =>
    exact Progress.score_le_addScore (mul_nonneg hp.fuzzy (policy.similarity_nonneg text word caseSensitive))
  | equal => exact Progress.score_le_addScore hp.literal
  | similar => exact Progress.score_le_addScore hp.fuzzy
  | bound => exact Progress.score_le_addScore hp.parameter
  | rest => exact Progress.score_le_addScore hp.parameter

theorem gains_composes : Composes policy Gains :=
  gains_stepwise.composes (word_gains hp)

theorem attempt_gains (p : Pattern) : Gains (p.attempt policy) :=
  (gains_composes hp).attempt p

end CommandGrammar
