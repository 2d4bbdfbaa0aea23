/-
  CommandGrammar.Grammar.Fault — what can be wrong with a grammar, and how it is said.

  Every fault points at a token of the grammar. The sentence for each kind of fault is
  configurable; the rest of the message is not.
-/

import CommandGrammar.Grammar.Token

namespace CommandGrammar.Grammar

namespace Fault

inductive Kind where
  | unexpectedToken
  | emptyParameterName
  | emptyOptional
  | emptySequence
  | emptyVariant
  | emptyUnordered
  | duplicateSymbol
  | illegalIdentifier
  | illegalModifier
  | illegalVariant
  | tailNotLast
  | unterminatedParameter
  | unterminatedExpression
  | undefinedType
  deriving DecidableEq, Repr

end Fault

abbrev Wording := Fault.Kind → Bytes

def Wording.standard : Wording
  | .unexpectedToken => ascii "Unexpected token"
  | .emptyParameterName => ascii "Empty parameter name"
  | .emptyOptional => ascii "Empty optional sequence"
  | .emptySequence => ascii "Empty sequence"
  | .emptyVariant => ascii "Empty variant"
  | .emptyUnordered => ascii "Empty unordered group"
  | .duplicateSymbol => ascii "Symbol used more than once"
  | .illegalIdentifier => ascii "Cannot assign identifier"
  | .illegalModifier => ascii "Modifiers can only follow a literal"
  | .illegalVariant => ascii "Cannot define variants in an unordered group, maybe you meant to use parentheses?"
  | .tailNotLast => ascii "Nothing may follow a tail parameter"
  | .unterminatedParameter => ascii "Unterminated parameter"
  | .unterminatedExpression => ascii "Unterminated expression"
  | .undefinedType => ascii "Undefined type"

/-- Why an identifier cannot be assigned. -/
inductive IdentifierFault where
  | nothingToIdentify
  | cannotIdentify (kindName : Bytes)
  | alreadyIdentified
  | missing
  deriving DecidableEq, Repr

def IdentifierFault.text : IdentifierFault → Bytes
  | .nothingToIdentify => ascii "nothing to identify"
  | .cannotIdentify kindName => ascii "cannot identify " ++ kindName
  | .alreadyIdentified => ascii "already identified"
  | .missing => ascii "missing identifier"

/-- A bracket that is still open, and whether a divider was met inside. -/
structure OpenGroup where
  bracket : Bracket
  divided : Bool
  deriving DecidableEq, Repr

def OpenGroup.names : OpenGroup → List Bytes
  | ⟨.sequence, false⟩ => [ascii "sequence"]
  | ⟨.sequence, true⟩ => [ascii "variant_group"]
  | ⟨.optional, false⟩ => [ascii "optional_sequence"]
  | ⟨.optional, true⟩ => [ascii "optional_sequence", ascii "variant_group"]
  | ⟨.unordered, _⟩ => [ascii "unordered_group"]

inductive Fault where
  | unexpectedToken
  | emptyParameterName
  /-- Nothing stands between the brackets. -/
  | emptyGroup (bracket : Bracket)
  | emptyVariant
  | duplicateSymbol
  | illegalIdentifier (why : IdentifierFault)
  | illegalModifier
  | illegalVariant
  | tailNotLast
  | unterminatedParameter
  /-- The brackets that are open at the end, outer ones first. -/
  | unterminatedExpression (path : List OpenGroup)
  | undefinedType
  deriving DecidableEq, Repr

def Fault.kind : Fault → Fault.Kind
  | .unexpectedToken => .unexpectedToken
  | .emptyParameterName => .emptyParameterName
  | .emptyGroup .optional => .emptyOptional
  | .emptyGroup .sequence => .emptySequence
  | .emptyGroup .unordered => .emptyUnordered
  | .emptyVariant => .emptyVariant
  | .duplicateSymbol => .duplicateSymbol
  | .illegalIdentifier _ => .illegalIdentifier
  | .illegalModifier => .illegalModifier
  | .illegalVariant => .illegalVariant
  | .tailNotLast => .tailNotLast
  | .unterminatedParameter => .unterminatedParameter
  | .unterminatedExpression _ => .unterminatedExpression
  | .undefinedType => .undefinedType

structure SyntaxError where
  fault : Fault
  /-- The token at fault: the innermost opening bracket for an unterminated expression. -/
  token : Token
  deriving DecidableEq, Repr

namespace SyntaxError

def location (e : SyntaxError) : Nat :=
  e.token.start

/-- The offending token, by its text and place. -/
def place (e : SyntaxError) : Bytes :=
  ascii ": " ++ e.token.text.quoted ++ ascii " at " ++ decimal e.location

def message (w : Wording) (e : SyntaxError) : Bytes :=
  w e.fault.kind ++
    match e.fault with
    | .unterminatedExpression path => ascii ": " ++ (ascii " > ").intercalate (path.flatMap OpenGroup.names)
    | .illegalIdentifier why => e.place ++ ascii ", " ++ why.text
    | _ => e.place

end SyntaxError

end CommandGrammar.Grammar
