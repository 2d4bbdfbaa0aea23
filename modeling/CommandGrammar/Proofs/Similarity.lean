/-
  CommandGrammar.Proofs.Similarity — the similarity of two texts is not negative.

  No more bytes can stand in another order than are paired, so that each of the three
  parts of the measure is at least zero, and bringing it nearer to 1 does not lower it
  below zero.
-/

import CommandGrammar.Similarity
import Mathlib.Tactic.Linarith
import Mathlib.Tactic.Positivity
import Mathlib.Tactic.Ring

namespace CommandGrammar.Similarity

theorem halfTranspositions_le (l r : Bytes) : halfTranspositions l r ≤ l.length := by
  have hzip : (l.zip r).length ≤ l.length := by
    rw [List.length_zip]
    exact Nat.min_le_left _ _
  exact (List.length_filter_le _ _).trans hzip

theorem jaro_eq (pairs half left right : Nat) :
    (jaro pairs half left right : Rat) =
      ((pairs : Rat) / left + (pairs : Rat) / right + ((pairs : Rat) - (half : Rat) / 2) / pairs) / 3 :=
  rfl

theorem boost_eq (front : Nat) (x : Rat) : boost front x = x + (front : Rat) / 10 * (1 - x) := by
  have hboost : boost front x = x + (front : Rat) * (((1 : Nat) : Rat) / ((10 : Nat) : Rat)) * (((1 : Nat) : Rat) - x) := rfl
  rw [hboost]
  push_cast
  ring

theorem jaro_nonneg {pairs half : Nat} (h : half ≤ pairs) (left right : Nat) :
    (0 : Rat) ≤ jaro pairs half left right := by
  have hhalf : (half : Rat) ≤ pairs := by exact_mod_cast h
  have hpairs : (0 : Rat) ≤ pairs := Nat.cast_nonneg _
  have horder : (0 : Rat) ≤ (pairs : Rat) - (half : Rat) / 2 := by linarith
  rw [jaro_eq]
  positivity

theorem boost_nonneg {front : Nat} (hfront : front ≤ 4) {x : Rat} (hx : 0 ≤ x) : 0 ≤ boost front x := by
  have h4 : (front : Rat) ≤ 4 := by exact_mod_cast hfront
  have hsplit : boost front x = x * (1 - front / 10) + front / 10 := by
    rw [boost_eq]
    ring
  have hrest : (0 : Rat) ≤ 1 - (front : Rat) / 10 := by linarith
  rw [hsplit]
  positivity

theorem measure_nonneg (lhs rhs : Bytes) : (0 : Rat) ≤ measure lhs rhs := by
  unfold measure
  split
  · exact Nat.cast_nonneg 1
  · split
    · exact le_refl _
    · dsimp only
      split
      · exact le_refl _
      · exact boost_nonneg (Nat.min_le_left _ _) (jaro_nonneg (halfTranspositions_le _ _) _ _)

end CommandGrammar.Similarity
