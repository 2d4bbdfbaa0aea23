/-
  CommandGrammar.Pattern.Basic — what a command looks like.

  A pattern is a tree of literals, parameters and groups. The two flags of a variant
  group say how it is written and nothing else: `Pattern.same` does not see them.
-/

import CommandGrammar.Bytes

namespace CommandGrammar

inductive Pattern where
  /-- One given word; a tolerant literal also takes a similar one. -/
  | literal (text : Bytes) (caseSensitive tolerant : Bool)
  /-- One word, bound to a name and converted by a named type. -/
  | parameter (name : Bytes) (type : Option Bytes)
  /-- All the words that are left: as a list, or raw as the text they span. -/
  | tail (name : Bytes) (raw : Bool)
  | sequence (children : List Pattern)
  /-- All of the children or none of them. -/
  | optional (children : List Pattern) (identifier : Option Bytes)
  /-- One of the alternatives. An inherited identifier is written on the optional around the group. -/
  | variants (alternatives : List (List Pattern)) (identifier : Option Bytes) (inherited parenthesized : Bool)
  /-- All of the children, in any order. -/
  | unordered (children : List Pattern) (identifier : Option Bytes)
  deriving Repr

namespace Pattern

/-- What the kind of a pattern is called in messages. -/
def kindName : Pattern → Bytes
  | .literal .. => ascii "literal"
  | .parameter .. => ascii "parameter"
  | .tail .. => ascii "tail"
  | .sequence .. => ascii "sequence"
  | .optional .. => ascii "optional_sequence"
  | .variants .. => ascii "variant_group"
  | .unordered .. => ascii "unordered_group"

/-! ## Equality up to writing -/

mutual

/-- The two patterns match the same calls in the same way. -/
def same : Pattern → Pattern → Bool
  | .literal t c o, .literal t' c' o' => t == t' && c == c' && o == o'
  | .parameter n t, .parameter n' t' => n == n' && t == t'
  | .tail n r, .tail n' r' => n == n' && r == r'
  | .sequence cs, .sequence cs' => sameList cs cs'
  | .optional cs i, .optional cs' i' => i == i' && sameList cs cs'
  | .variants as i _ _, .variants as' i' _ _ => i == i' && sameAlternatives as as'
  | .unordered cs i, .unordered cs' i' => i == i' && sameList cs cs'
  | _, _ => false

def sameList : List Pattern → List Pattern → Bool
  | [], [] => true
  | c :: cs, c' :: cs' => same c c' && sameList cs cs'
  | _, _ => false

def sameAlternatives : List (List Pattern) → List (List Pattern) → Bool
  | [], [] => true
  | a :: as, a' :: as' => sameList a a' && sameAlternatives as as'
  | _, _ => false

end

/-! ## Tails -/

mutual

/-- Nothing can follow the pattern, because its last word is always taken by a tail. -/
def endsInTail : Pattern → Bool
  | .tail .. => true
  | .sequence cs => lastEndsInTail cs
  | .unordered cs _ => lastEndsInTail cs
  | _ => false

def lastEndsInTail : List Pattern → Bool
  | [] => false
  | [c] => endsInTail c
  | _ :: cs => lastEndsInTail cs

end

/-! ## Identifiers -/

/-- The identifier that the sole variant group of an optional has inherited from it. -/
def inherited? : List Pattern → Option Bytes
  | [.variants _ (some id) true _] => some id
  | _ => none

/-- The identifier that was written after the pattern, if any; `none` where there is no place for one. -/
def writtenIdentifier? : Pattern → Option (Option Bytes)
  | .optional cs id => some ((inherited? cs).or id)
  | .variants _ id _ _ => some id
  | .unordered _ id => some id
  | _ => none

/-- Gives a group its identifier. An optional that holds only a variant group without parentheses
    passes it on to that group. -/
def identify (id : Bytes) : Pattern → Pattern
  | .optional [.variants as _ _ false] own => .optional [.variants as (some id) true false] own
  | .optional cs _ => .optional cs (some id)
  | .variants as _ inherited parenthesized => .variants as (some id) inherited parenthesized
  | .unordered cs _ => .unordered cs (some id)
  | p => p

mutual

/-- The identifiers of all groups in the pattern, outer ones first. -/
def identifiers : Pattern → List Bytes
  | .sequence cs => identifiersOf cs
  | .optional cs id => id.toList ++ identifiersOf cs
  | .variants as id _ _ => id.toList ++ identifiersOfEach as
  | .unordered cs id => id.toList ++ identifiersOf cs
  | _ => []

def identifiersOf : List Pattern → List Bytes
  | [] => []
  | c :: cs => identifiers c ++ identifiersOf cs

def identifiersOfEach : List (List Pattern) → List Bytes
  | [] => []
  | a :: as => identifiersOf a ++ identifiersOfEach as

end

end Pattern

end CommandGrammar
