/-
  CommandGrammar.Matching.Policy — what matching is told: scores, comparison, types, sentences.
-/

import CommandGrammar.Matching.Failure
import CommandGrammar.Similarity
import CommandGrammar.Value.Basic

namespace CommandGrammar

/-- How the children of an unordered group are assigned to the call. -/
inductive Strategy where
  /-- The best child that is left goes first, round by round. -/
  | greedy
  /-- Every order is tried. -/
  | permutation
  deriving DecidableEq, Repr

structure Policy (σ : Type) where
  /-- The similarity from which on a word counts as close to a literal. -/
  literalThreshold : σ
  literalScore : σ
  /-- The score of a word that a tolerant literal takes for its similarity. -/
  fuzzyScore : σ
  parameterScore : σ
  /-- If not, no literal is. -/
  caseSensitive : Bool := true
  strategy : Strategy := .greedy
  types : Types := Types.builtin
  wording : Failure.Wording := Failure.Wording.standard

namespace Policy

variable {σ : Type} [Score σ]

def standard : Policy σ where
  literalThreshold := Score.ratio 3 4
  literalScore := Score.ratio 1 1
  fuzzyScore := Score.ratio 1 4
  parameterScore := Score.ratio 1 2

/-- Whether a literal takes the word; `caseSensitive` is the literal's own flag. -/
def equal (p : Policy σ) (literal word : Bytes) (caseSensitive : Bool) : Bool :=
  if caseSensitive && p.caseSensitive then literal == word else literal.sameFolded word

def similarity (p : Policy σ) (literal word : Bytes) (caseSensitive : Bool) : σ :=
  if caseSensitive && p.caseSensitive then Similarity.measure literal word
  else Similarity.measure literal.lower word.lower

/-- The value of a word for a parameter: its own text, unless the parameter has a type. -/
def valueOf (p : Policy σ) (type : Option Bytes) (word : Bytes) : Except Bytes Value :=
  match type with
  | none => .ok (.str word)
  | some t => p.types.construct t word

end Policy

end CommandGrammar
