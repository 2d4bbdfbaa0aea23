/-
  CommandGrammar.Report — faults, failures and usage as they are shown on a terminal.

  Headings are coloured. Where a place is known, a caret below the text points at it.
-/

import CommandGrammar.Command.Dispatcher

namespace CommandGrammar.Report

def line (text : Bytes) : Bytes :=
  text ++ [newline]

/-- A line that is set off from the message above it. -/
def quotedLine (text : Bytes) : Bytes :=
  line (ascii " | " ++ text)

/-- The text with a caret below the byte at `place`, or behind the last one. Tabs keep their width. -/
def caret (text : Bytes) (place : Nat) : Bytes :=
  quotedLine text ++ quotedLine ((text.take place).map (fun c => if c = tab then tab else space) ++ ascii "^")

/-- A fault of a grammar, which may not have a place. -/
def fault (message grammar : Bytes) (place : Option Nat) : Bytes :=
  line (ascii "Syntax error.") ++ line (ascii "\x1b[31mError: \x1b[0m" ++ message)
    ++ match place with
      | none => quotedLine grammar
      | some i => caret grammar i

def failure (message : Bytes) : Bytes :=
  line (ascii "\x1b[31mError:\x1b[0m " ++ message)

/-- A call that no command answers, with the place where it went wrong and what came close. -/
def refusal (message call : Bytes) (place : Option Nat) (closest : List Bytes) : Bytes :=
  failure message
    ++ (match place with
      | none => []
      | some i => caret call i)
    ++ (if closest.isEmpty then []
      else line (ascii "\x1b[36mClosest usages:\x1b[0m") ++ closest.flatMap quotedLine)

def ofSyntaxError (cfg : Grammar.Config) (grammar : Bytes) (e : Grammar.SyntaxError) : Bytes :=
  fault (e.message cfg.wording) grammar (some e.location)

def ofRefusal {σ : Type} (w : Failure.Wording) (r : Refusal σ) : Bytes :=
  refusal (r.failure.message w) r.call (r.failure.actual.map (·.start)) r.closest

def usage (lines : List Bytes) : Bytes :=
  line (ascii "\x1b[36mUsages:\x1b[0m") ++ lines.flatMap line

end CommandGrammar.Report
