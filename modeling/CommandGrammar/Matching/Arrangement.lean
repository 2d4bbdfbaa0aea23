/-
  CommandGrammar.Matching.Arrangement — all orders of a list.

  The orders come in lexicographic order of positions: those that start with the first
  element, then those that start with the second, and so on, each part in the same way.
-/

namespace CommandGrammar

variable {α : Type}

/-- Each element with the others, which keep their order. -/
def picks : List α → List (α × List α)
  | [] => []
  | x :: xs => (x, xs) :: (picks xs).map fun p => (p.1, x :: p.2)

/-- The orders of `n` elements taken from a list. -/
def arrangementsOf : Nat → List α → List (List α)
  | 0, _ => [[]]
  | n + 1, xs => (picks xs).flatMap fun p => (arrangementsOf n p.2).map (p.1 :: ·)

def arrangements (xs : List α) : List (List α) :=
  arrangementsOf xs.length xs

end CommandGrammar
