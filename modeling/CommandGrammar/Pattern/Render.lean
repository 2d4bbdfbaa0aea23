/-
  CommandGrammar.Pattern.Render — a pattern, written as a grammar.

  Children stand one space apart. A sequence is enclosed unless it is the root; a
  variant group is enclosed if it is marked so, or has an identifier of its own that
  must be attached to something.
-/

import CommandGrammar.Pattern.Basic
import CommandGrammar.Specials

namespace CommandGrammar.Pattern

variable (sp : Specials)

/-- The identifier of a group, behind a separator. -/
def label : Option Bytes → Bytes
  | none => []
  | some id => sp.text .separator ++ id

def enclose (b : Bracket) (inside : Bytes) : Bytes :=
  sp.text (.opening b) ++ inside ++ sp.text (.closing b)

def spaced (texts : List Bytes) : Bytes :=
  [space].intercalate texts

mutual

/-- The grammar of the pattern; `root` says that nothing stands around it. -/
def render (root : Bool) : Pattern → Bytes
  | .literal text caseSensitive tolerant =>
    text ++ (if caseSensitive then [] else sp.text .caseInsensitive) ++ (if tolerant then sp.text .tolerant else [])
  | .parameter name type =>
    sp.text .parameterOpening ++ name
      ++ (match type with
        | none => []
        | some t => sp.text .separator ++ [space] ++ t)
      ++ sp.text .parameterClosing
  | .tail name raw =>
    sp.text .parameterOpening ++ name ++ sp.text .tail ++ (if raw then sp.text .raw else [])
      ++ sp.text .parameterClosing
  | .sequence cs =>
    let inside := spaced (renderEach cs)
    if root then inside else enclose sp .sequence inside
  | .optional cs id =>
    enclose sp .optional (spaced (renderEach cs)) ++ label sp ((inherited? cs).or id)
  | .variants as id inherited parenthesized =>
    let own := if inherited then none else id
    let inside := (sp.text .divider).intercalate (renderAlternatives as)
    (if parenthesized || own.isSome then enclose sp .sequence inside else inside) ++ label sp own
  | .unordered cs id =>
    enclose sp .unordered (spaced (renderEach cs)) ++ label sp id

def renderEach : List Pattern → List Bytes
  | [] => []
  | c :: cs => render false c :: renderEach cs

def renderAlternatives : List (List Pattern) → List Bytes
  | [] => []
  | a :: as => spaced (renderEach a) :: renderAlternatives as

end

end CommandGrammar.Pattern
