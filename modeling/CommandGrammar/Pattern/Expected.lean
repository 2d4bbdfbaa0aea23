/-
  CommandGrammar.Pattern.Expected — what a pattern starts with, for messages.

  A literal is quoted, a group of choices lists what its choices start with, and all
  else is written as a grammar with the standard marks.
-/

import CommandGrammar.Pattern.Render

namespace CommandGrammar.Pattern

/-- How a pattern is named in a message. -/
def shown (p : Pattern) : Bytes :=
  render Specials.standard false p

mutual

def expected : Pattern → Bytes
  | .literal text _ _ => text.quoted
  | .sequence cs => expectedFirst cs
  | .variants as _ _ _ => Bytes.orList ((expectedFirstOfEach as).filter (!·.isEmpty)).eraseDups
  | .unordered cs _ => Bytes.orList ((expectedOfEach cs).filter (!·.isEmpty)).eraseDups
  | p => shown p

def expectedFirst : List Pattern → Bytes
  | [] => []
  | c :: _ => expected c

def expectedOfEach : List Pattern → List Bytes
  | [] => []
  | c :: cs => expected c :: expectedOfEach cs

def expectedFirstOfEach : List (List Pattern) → List Bytes
  | [] => []
  | a :: as => expectedFirst a :: expectedFirstOfEach as

end

/-- What any of the children may start with, for a failure that names those still unused. -/
def expectedOfAny (leads : List Bytes) : Bytes :=
  Bytes.orList leads.eraseDups

end CommandGrammar.Pattern
