/-
  CommandGrammar.Command.Wrap — text in lines of a limited width.

  Words are separated by spaces, any number of them. A line is broken only before a
  word that does not fit any more, so a word longer than the width has a line of its
  own. A width of 0 sets no limit.
-/

import CommandGrammar.Bytes

namespace CommandGrammar

def wordsOf (text : Bytes) : List Bytes :=
  (text.splitAt space).filter (!·.isEmpty)

/-- Adds words to `line`, which holds at least one already; `indent` opens each line after it. -/
def fillLines (width : Nat) (indent line : Bytes) : List Bytes → List Bytes
  | [] => [line]
  | w :: rest =>
    if width ≠ 0 ∧ width < line.length + 1 + w.length then line :: fillLines width indent (indent ++ w) rest
    else fillLines width indent (line ++ [space] ++ w) rest

def wrap (width : Nat) (firstIndent indent text : Bytes) : List Bytes :=
  match wordsOf text with
  | [] => []
  | w :: rest => fillLines width indent (firstIndent ++ w) rest

end CommandGrammar
