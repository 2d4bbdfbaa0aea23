/-
  CommandGrammar.Pattern.Flatten — the canonical form of a pattern.

  Groups of one child without an identifier are replaced by the child, sequences are
  unpacked into the list that holds them, and variant groups into the variants that
  hold nothing else. The pass also decides which variant groups need parentheses.
-/

import CommandGrammar.Pattern.Basic

namespace CommandGrammar.Pattern

/-- What the pattern contributes to a list of children. -/
def unpacked : Pattern → List Pattern
  | .sequence cs => cs
  | p => [p]

def unpackAll (cs : List Pattern) : List Pattern :=
  cs.flatMap unpacked

/-- What a variant contributes to its group: a nested group needs no level of its own. -/
def mergedVariant : List Pattern → List (List Pattern)
  | [.variants as none _ false] => as
  | cs => [cs]

/-- In an identified optional a sole variant group keeps its parentheses, or it would be written
    as if it had inherited the identifier. -/
def guardSole : Option Bytes → List Pattern → List Pattern
  | some _, [.variants as none inherited _] => [.variants as none inherited true]
  | _, cs => cs

mutual

/-- Flattens a pattern that is `nested` in another one, there the `sole` child or one of several. -/
def flattenIn (nested sole : Bool) : Pattern → Pattern
  | .sequence [c] => flattenIn nested sole c
  | .sequence cs => .sequence (unpackAll (flattenEach false cs))
  | .optional cs id => .optional (guardSole id (unpackAll (flattenEach (cs.length == 1) cs))) id
  | .variants [[c]] none _ _ => flattenIn nested sole c
  | .variants [cs] none _ _ => .sequence (unpackAll (flattenEach false cs))
  | .variants as id inherited _ =>
    .variants (flattenVariants as) id inherited ((nested && !sole) || (id.isSome && !inherited))
  | .unordered [c] none => flattenIn nested sole c
  | .unordered cs id => .unordered (flattenEach (cs.length == 1) cs) id
  | p => p

def flattenEach (sole : Bool) : List Pattern → List Pattern
  | [] => []
  | c :: cs => flattenIn true sole c :: flattenEach sole cs

def flattenVariants : List (List Pattern) → List (List Pattern)
  | [] => []
  | a :: as => mergedVariant (unpackAll (flattenEach (a.length == 1) a)) ++ flattenVariants as

end

def flatten (p : Pattern) : Pattern :=
  flattenIn false true p

end CommandGrammar.Pattern
