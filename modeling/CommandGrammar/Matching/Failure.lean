/-
  CommandGrammar.Matching.Failure — why a call does not match, and how it is said.

  A failure names what was expected and the token that stood there instead. The
  sentence for each kind of failure is configurable.
-/

import CommandGrammar.Call.Token
import CommandGrammar.Pattern.Expected

namespace CommandGrammar

namespace Failure

inductive Kind where
  | missingLiteral
  | mismatchedLiteral
  | suggestedLiteral
  | missingParameter
  | mismatchedType
  | missingTail
  | missingUnordered
  | unmatchedUnordered
  | missingVariant
  | noMatchedVariant
  | terminated
  | tooManyArguments
  | unknownCommand
  deriving DecidableEq, Repr

abbrev Wording := Kind → Bytes

def Wording.standard : Wording
  | .missingLiteral => ascii "Expected literal"
  | .mismatchedLiteral => ascii "Expected literal"
  | .suggestedLiteral => ascii "Did you mean"
  | .missingParameter => ascii "Expected argument for parameter"
  | .mismatchedType => ascii "Argument does not match type of parameter"
  | .missingTail => ascii "Expected arguments for"
  | .missingUnordered => ascii "Expected"
  | .unmatchedUnordered => ascii "Expected"
  | .missingVariant => ascii "Expected"
  | .noMatchedVariant => ascii "Expected"
  | .terminated => ascii "Tried matching after a tail parameter consumed the call"
  | .tooManyArguments => ascii "Too many arguments"
  | .unknownCommand => ascii "Unknown command"

end Failure

structure Failure (σ : Type) where
  kind : Failure.Kind
  /-- What would have matched. -/
  expected : Bytes := []
  /-- The token that stood there. -/
  actual : Option Call.Token := none
  /-- The pattern that failed. -/
  source : Option Pattern := none
  /-- The literal that was probably meant. -/
  suggestion : Bytes := []
  /-- Why a type does not take the token. -/
  reason : Bytes := []
  score : σ

def Failure.message {σ : Type} (w : Failure.Wording) (f : Failure σ) : Bytes :=
  let value : Option Bytes := f.actual.map (·.value.quoted)
  let got : Bytes := match value with
    | none => []
    | some v => ascii ", got " ++ v
  let expected : Bytes := if f.expected.isEmpty then [] else [space] ++ f.expected
  match f.kind with
  | .suggestedLiteral => w f.kind ++ expected ++ ascii "?"
  | .mismatchedType => w f.kind ++ expected ++ got ++ ascii ": " ++ f.reason
  | .unknownCommand =>
    match value with
    | none => w f.kind
    | some v => w f.kind ++ ascii ": " ++ v
  | _ => w f.kind ++ expected ++ got

end CommandGrammar
