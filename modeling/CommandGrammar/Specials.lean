/-
  CommandGrammar.Specials — the punctuation of grammars and the quoting of calls.

  A grammar is written with fourteen marks. Each has a text, of any length; a mark
  whose text is empty is never met. Calls know only quote bytes and an escape byte.
-/

import CommandGrammar.Bytes

namespace CommandGrammar

/-- The groups that a pair of marks encloses. -/
inductive Bracket where
  | sequence | optional | unordered
  deriving DecidableEq, Repr

inductive Mark where
  | parameterOpening | parameterClosing
  | separator | divider
  | opening (bracket : Bracket) | closing (bracket : Bracket)
  | tail | raw
  | caseInsensitive | tolerant
  deriving DecidableEq, Repr

/-- Every mark, those that are recognised first in front. -/
def Mark.all : List Mark :=
  [.parameterOpening, .parameterClosing, .separator, .divider,
    .opening .sequence, .closing .sequence, .opening .optional, .closing .optional,
    .opening .unordered, .closing .unordered, .tail, .raw, .caseInsensitive, .tolerant]

structure Quoting where
  /-- Each byte opens and closes quoted words. -/
  quotes : Bytes
  escape : UInt8

def Quoting.isQuote (q : Quoting) (c : UInt8) : Bool :=
  q.quotes.contains c

structure Specials where
  text : Mark → Bytes
  quoting : Quoting

namespace Specials

def defaultText : Mark → Bytes
  | .parameterOpening => ascii "<"
  | .parameterClosing => ascii ">"
  | .separator => ascii ":"
  | .divider => ascii "|"
  | .opening .sequence => ascii "("
  | .closing .sequence => ascii ")"
  | .opening .optional => ascii "["
  | .closing .optional => ascii "]"
  | .opening .unordered => ascii "\x7b"
  | .closing .unordered => ascii "\x7d"
  | .tail => ascii "..."
  | .raw => ascii "*"
  | .caseInsensitive => ascii "^"
  | .tolerant => ascii "~"

def standard : Specials where
  text := defaultText
  quoting := ⟨ascii "\"'", 92⟩

/-- The same specials with another text for one mark. -/
def withText (sp : Specials) (m : Mark) (text : Bytes) : Specials :=
  { sp with text := fun n => if n = m then text else sp.text n }

end Specials

end CommandGrammar
