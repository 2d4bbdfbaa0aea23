/-
  CommandGrammar.Grammar.Parse — from the tokens of a grammar to a list of patterns.

  One token at a time, with no look-ahead. The state holds the level being filled, the
  brackets around it (each with the level that it interrupted), and what the next token
  may mean. The rules, in words:

    - a symbol is a literal; `^` and `~` change the literal right before them;
    - `<name>`, `<name: type>`, `<name...>` and `<name...*>` are parameters and tails;
    - `|` divides the level it stands in into variants, none of them empty;
    - `:` gives an identifier to the group right before it, once;
    - no name is used twice, no type is used that is not known;
    - nothing follows what ends in a tail.
-/

import CommandGrammar.Grammar.Fault
import CommandGrammar.Grammar.Symbols
import CommandGrammar.Pattern.Basic

namespace CommandGrammar.Grammar

/-! ## States -/

/-- A variant that is complete, with the divider that completed it. -/
structure Variant where
  children : List Pattern
  divider : Token

/-- What has been read between two brackets so far. -/
structure Level where
  /-- The complete variants, the latest first. -/
  variants : List Variant := []
  /-- The children of the current variant, the latest first. -/
  children : List Pattern := []

/-- An opening bracket that waits for its closing one. -/
structure Opened where
  bracket : Bracket
  token : Token
  /-- The level that the bracket stands in. -/
  outside : Level

inductive Phase where
  /-- Between items. `fresh`: the latest child is right behind, and may still be modified or identified. -/
  | between (fresh : Bool)
  | parameter (opener : Token)
  | named (opener name : Token)
  | awaitingType (opener name : Token)
  | typed (opener name type : Token)
  | tail (opener name : Token) (raw : Bool)
  /-- Behind the separator of an identifier, which the latest child waits for. -/
  | identifier (separator : Token)

structure State where
  level : Level := {}
  /-- The open brackets, the innermost first. -/
  opened : List Opened := []
  phase : Phase := .between false
  symbols : Symbols := {}

/-- What the parser has to be told. -/
structure Reading where
  /-- Whether literals without a modifier are case-sensitive. -/
  caseSensitive : Bool
  /-- The types that parameters may have. -/
  knownType : Bytes → Bool

/-! ## Levels -/

namespace Level

/-- Nothing more fits into the current variant. -/
def full (l : Level) : Bool :=
  match l.children with
  | [] => false
  | latest :: _ => latest.endsInTail

def add (l : Level) (p : Pattern) : Level :=
  { l with children := p :: l.children }

/-- Changes the latest child. -/
def amend (l : Level) (f : Pattern → Pattern) : Level :=
  match l.children with
  | [] => l
  | latest :: rest => { l with children := f latest :: rest }

def divide (l : Level) (divider : Token) : Level where
  variants := ⟨l.children.reverse, divider⟩ :: l.variants
  children := []

/-- Every variant in the order of the grammar, the current one last. -/
def alternatives (l : Level) : List (List Pattern) :=
  (l.children.reverse :: l.variants.map (·.children)).reverse

/-- What the level holds once it is complete: its children, or one variant group. -/
def contents (l : Level) : List Pattern :=
  if l.variants.isEmpty then l.children.reverse else [.variants l.alternatives none false false]

end Level

/-- The pattern of a complete bracket. Variants between round brackets are a group in parentheses. -/
def group (b : Bracket) (inside : Level) : Pattern :=
  match b with
  | .sequence =>
    if inside.variants.isEmpty then .sequence inside.children.reverse
    else .variants inside.alternatives none false true
  | .optional => .optional inside.contents none
  | .unordered => .unordered inside.contents none

/-- The brackets that enclose a level, outer ones first. -/
def openPath : Level → List Opened → List OpenGroup
  | _, [] => []
  | inside, o :: rest => openPath o.outside rest ++ [⟨o.bracket, !inside.variants.isEmpty⟩]

/-! ## One token -/

def fail {α : Type} (t : Token) (fault : Fault) : Except SyntaxError α :=
  .error ⟨fault, t⟩

namespace State

/-- The child that a modifier or an identifier at this point applies to. -/
def latest? (s : State) : Option Pattern :=
  match s.phase with
  | .between true => s.level.children.head?
  | _ => none

def append (s : State) (p : Pattern) : State :=
  { s with level := s.level.add p, phase := .between true }

/-- Adds a name, which the token `name` stands for. -/
def declare (s : State) (name : Token) : Except SyntaxError State :=
  match s.symbols.add? name.text with
  | none => fail name .duplicateSymbol
  | some symbols => .ok { s with symbols }

def symbol (r : Reading) (s : State) (t : Token) : Except SyntaxError State :=
  match s.phase with
  | .between _ =>
    if s.level.full then fail t .tailNotLast
    else .ok (s.append (.literal t.text r.caseSensitive false))
  | .parameter opener => .ok { s with phase := .named opener t }
  | .awaitingType opener name => .ok { s with phase := .typed opener name t }
  | .identifier _ => do
    let s ← s.declare t
    return { s with level := s.level.amend (Pattern.identify t.text), phase := .between true }
  | _ => fail t .unexpectedToken

def openParameter (s : State) (t : Token) : Except SyntaxError State :=
  match s.phase with
  | .between _ => if s.level.full then fail t .tailNotLast else .ok { s with phase := .parameter t }
  | _ => fail t .unexpectedToken

def closeParameter (r : Reading) (s : State) (t : Token) : Except SyntaxError State :=
  match s.phase with
  | .parameter _ => fail t .emptyParameterName
  | .named _ name => do
    let s ← s.declare name
    return s.append (.parameter name.text none)
  | .typed _ name type => do
    let s ← s.declare name
    if r.knownType type.text then return s.append (.parameter name.text (some type.text))
    else fail type .undefinedType
  | .tail _ name raw => do
    let s ← s.declare name
    return s.append (.tail name.text raw)
  | _ => fail t .unexpectedToken

def separate (s : State) (t : Token) : Except SyntaxError State :=
  match s.phase with
  | .named opener name => .ok { s with phase := .awaitingType opener name }
  | .between _ =>
    match s.latest? with
    | none => fail t (.illegalIdentifier .nothingToIdentify)
    | some p =>
      match p.writtenIdentifier? with
      | none => fail t (.illegalIdentifier (.cannotIdentify p.kindName))
      | some (some _) => fail t (.illegalIdentifier .alreadyIdentified)
      | some none => .ok { s with phase := .identifier t }
  | _ => fail t .unexpectedToken

def markTail (s : State) (t : Token) : Except SyntaxError State :=
  match s.phase with
  | .named opener name => .ok { s with phase := .tail opener name false }
  | _ => fail t .unexpectedToken

def markRaw (s : State) (t : Token) : Except SyntaxError State :=
  match s.phase with
  | .tail opener name false => .ok { s with phase := .tail opener name true }
  | _ => fail t .unexpectedToken

/-- Applies a modifier to the literal right behind. -/
def modify (s : State) (t : Token) (change : Bytes → Bool → Bool → Pattern) : Except SyntaxError State :=
  match s.phase with
  | .between _ =>
    match s.latest? with
    | some (.literal text caseSensitive tolerant) =>
      .ok { s with level := s.level.amend fun _ => change text caseSensitive tolerant }
    | _ => fail t .illegalModifier
  | _ => fail t .unexpectedToken

def divide (s : State) (t : Token) : Except SyntaxError State :=
  match s.phase with
  | .between _ =>
    if s.opened.head?.any (·.bracket == .unordered) then fail t .illegalVariant
    else if s.level.children.isEmpty then fail t .emptyVariant
    else .ok { s with level := s.level.divide t, phase := .between false }
  | _ => fail t .unexpectedToken

def openGroup (s : State) (b : Bracket) (t : Token) : Except SyntaxError State :=
  match s.phase with
  | .between _ =>
    if s.level.full then fail t .tailNotLast
    else .ok { s with level := {}, opened := ⟨b, t, s.level⟩ :: s.opened, phase := .between false }
  | _ => fail t .unexpectedToken

def closeGroup (s : State) (b : Bracket) (t : Token) : Except SyntaxError State :=
  match s.phase, s.opened with
  | .between _, o :: rest =>
    if o.bracket ≠ b then fail t .unexpectedToken
    else if s.level.children.isEmpty then
      fail t (if s.level.variants.isEmpty then .emptyGroup b else .emptyVariant)
    else .ok ({ s with level := o.outside, opened := rest }.append (group b s.level))
  | _, _ => fail t .unexpectedToken

def step (r : Reading) (s : State) (t : Token) : Except SyntaxError State :=
  match t.kind with
  | .symbol => s.symbol r t
  | .mark .parameterOpening => s.openParameter t
  | .mark .parameterClosing => s.closeParameter r t
  | .mark .separator => s.separate t
  | .mark .divider => s.divide t
  | .mark (.opening b) => s.openGroup b t
  | .mark (.closing b) => s.closeGroup b t
  | .mark .tail => s.markTail t
  | .mark .raw => s.markRaw t
  | .mark .caseInsensitive => s.modify t fun text _ tolerant => .literal text false tolerant
  | .mark .tolerant => s.modify t fun text caseSensitive _ => .literal text caseSensitive true

/-! ## The end of the grammar -/

/-- The items of the whole grammar, if it may end here. -/
def finish (s : State) : Except SyntaxError (List Pattern) :=
  match s.phase with
  | .identifier separator => fail separator (.illegalIdentifier .missing)
  | .parameter opener | .named opener _ | .awaitingType opener _ | .typed opener _ _ | .tail opener _ _ =>
    fail opener .unterminatedParameter
  | .between _ =>
    match s.opened with
    | innermost :: _ => fail innermost.token (.unterminatedExpression (openPath s.level s.opened))
    | [] =>
      match s.level.children, s.level.variants with
      | [], latest :: _ => fail latest.divider .emptyVariant
      | _, _ => .ok s.level.contents

end State

/-- The items that a grammar consists of, or its first fault. -/
def parse (r : Reading) (ts : List Token) : Except SyntaxError (List Pattern) := do
  let s ← ts.foldlM (State.step r) {}
  s.finish

end CommandGrammar.Grammar
