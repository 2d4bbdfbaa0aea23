/-
  CommandGrammar.Grammar.Token — a grammar, cut into symbols and marks.

  A blank ends the run of bytes before it, which is a symbol. After every other byte
  the run may end in the text of a mark: what stands before that text is a symbol,
  and the mark a token of its own. Of several marks the first in `Mark.all` counts.
  Any grammar can be cut; whether its tokens make sense is for the parser to say.
-/

import CommandGrammar.Specials

namespace CommandGrammar.Grammar

inductive Kind where
  | symbol
  | mark (mark : Mark)
  deriving DecidableEq, Repr

structure Token where
  kind : Kind
  text : Bytes
  start : Nat
  deriving DecidableEq, Repr

def Token.stop (t : Token) : Nat :=
  t.start + t.text.length

/-! ## The run being read -/

structure Run where
  start : Nat
  text : Bytes := []
  deriving DecidableEq, Repr

namespace Run

def stop (r : Run) : Nat :=
  r.start + r.text.length

def symbol? (r : Run) : Option Token :=
  if r.text.isEmpty then none else some ⟨.symbol, r.text, r.start⟩

/-- The mark that the run ends in. -/
def mark? (sp : Specials) (r : Run) : Option Mark :=
  Mark.all.find? fun m => !(sp.text m).isEmpty && (sp.text m).isSuffixOf r.text

/-- The run without its last `n` bytes. -/
def dropLast (r : Run) (n : Nat) : Run :=
  { r with text := r.text.take (r.text.length - n) }

/-- Reads one byte: the tokens that it completes, and the run that is then being read. -/
def step (sp : Specials) (r : Run) (c : UInt8) : List Token × Run :=
  if isBlank c then (r.symbol?.toList, { start := r.stop + 1 })
  else
    let grown : Run := { r with text := r.text ++ [c] }
    match grown.mark? sp with
    | none => ([], grown)
    | some m =>
      let before := grown.dropLast (sp.text m).length
      (before.symbol?.toList ++ [⟨.mark m, sp.text m, before.stop⟩], { start := grown.stop })

end Run

/-! ## The tokens of a grammar -/

def scan (sp : Specials) (r : Run) : Bytes → List Token
  | [] => r.symbol?.toList
  | c :: rest => (r.step sp c).1 ++ scan sp (r.step sp c).2 rest

def tokens (sp : Specials) (grammar : Bytes) : List Token :=
  scan sp { start := 0 } grammar

end CommandGrammar.Grammar
