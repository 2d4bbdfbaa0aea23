/-
  CommandGrammar.Grammar.Compile — from a grammar to the pattern that calls are matched with.

  A grammar is parsed and then, as configured, brought into its canonical form. Where
  that changes the pattern, a note can say so.
-/

import CommandGrammar.Grammar.Parse
import CommandGrammar.Pattern.Flatten
import CommandGrammar.Pattern.Render

namespace CommandGrammar.Grammar

/-- What happens to a pattern once it is parsed. -/
inductive Simplify where
  /-- It stays as it was written. -/
  | no
  /-- It stays, with a note if it could be simpler. -/
  | warn
  /-- It is flattened, with a note if that changes it. -/
  | yes
  /-- It is flattened without a word. -/
  | silently
  deriving DecidableEq, Repr

structure Config where
  specials : Specials := Specials.standard
  caseSensitive : Bool := true
  simplify : Simplify := .yes
  /-- Whether notes are wanted. -/
  notes : Bool := false
  wording : Wording := Wording.standard

/-- A remark on a grammar that has a simpler form. -/
structure Note where
  grammar : Bytes
  written : Pattern
  simplified : Pattern
  applied : Bool

def Note.text (sp : Specials) (n : Note) : Bytes :=
  ascii "\x1b[36mNote:\x1b[0m Grammar " ++ n.grammar.quoted
    ++ ascii (if n.applied then " simplified to " else " can be simplified to ")
    ++ (n.simplified.render sp true).quoted ++ ascii " (from " ++ (n.written.render sp true).quoted ++ ascii ")\n"

/-- A grammar in its compiled form. -/
structure Compiled where
  root : Pattern
  grammar : Bytes
  specials : Specials

namespace Compiled

/-- The grammar as the pattern is written now. -/
def render (c : Compiled) : Bytes :=
  c.root.render c.specials true

def flattened (c : Compiled) : Compiled :=
  { c with root := c.root.flatten }

end Compiled

/-- The pattern of a list of items; a single item needs no sequence around it. -/
def rootOf : List Pattern → Pattern
  | [p] => p
  | items => .sequence items

/-- The pattern that stands for the parsed items, and the note that goes with it. -/
def simplify (mode : Simplify) (grammar : Bytes) (items : List Pattern) : Pattern × Option Note :=
  let root := rootOf items
  let note (applied : Bool) : Option Note :=
    if root.flatten.same root then none else some ⟨grammar, root, root.flatten, applied⟩
  match mode with
  | .no => (.sequence items, none)
  | .warn => (root, note false)
  | .yes => (root.flatten, note true)
  | .silently => (root.flatten, none)

def compileNoted (cfg : Config) (knownType : Bytes → Bool) (grammar : Bytes) :
    Except SyntaxError (Compiled × Option Note) := do
  let items ← parse ⟨cfg.caseSensitive, knownType⟩ (tokens cfg.specials grammar)
  let (root, note) := simplify cfg.simplify grammar items
  return (⟨root, grammar, cfg.specials⟩, if cfg.notes then note else none)

def compile (cfg : Config) (knownType : Bytes → Bool) (grammar : Bytes) : Except SyntaxError Compiled :=
  (compileNoted cfg knownType grammar).map (·.1)

end CommandGrammar.Grammar
