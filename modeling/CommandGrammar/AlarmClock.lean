/-
  CommandGrammar.AlarmClock — a program with six commands, to show how they are set up and answered.

  The program keeps one alarm. It answers the call made of its arguments, or without
  arguments one call for each line that it reads.
-/

import CommandGrammar.Matching.Lookup
import CommandGrammar.Report

namespace CommandGrammar.AlarmClock

inductive Action where
  | setAlarm | clearAlarm | showAlarm | bread | help | exit
  deriving DecidableEq, Repr

structure Alarm where
  hour : Int
  pm : Bool
  loud : Bool
  message : Bytes
  deriving DecidableEq, Repr

/-! ## Commands -/

def commands : List (String × Action × String) :=
  [("set [loud] alarm at <time: hour> (am|pm) [with message <message...*>]", .setAlarm,
      "Sets the alarm. The message keeps its spacing."),
    ("(clear~|remove~|delete~) alarm", .clearAlarm, "Clears the alarm."),
    ("show^ alarm", .showAlarm, "Shows the alarm."),
    ("i [don't] like bread", .bread, "Shares your opinion about bread."),
    ("help", .help, "Prints this text."),
    ("exit|quit", .exit, "Exits the program.")]

variable {σ : Type} [Score σ]

def blank : Dispatcher σ Action :=
  Dispatcher.registerType { grammar := { notes := true }, policy := Policy.standard } (ascii "hour")
    (Converter.range 1 12 (ascii "hours go from 1 to 12"))

/-- The dispatcher with all commands and the notes on their grammars, or the report on a grammar at fault. -/
def setup : Except Bytes (Dispatcher σ Action × List Grammar.Note) :=
  commands.foldlM
    (fun (d, notes) (grammar, action, description) =>
      match d.add (ascii grammar) action (ascii description) with
      | .ok (d, note) => .ok (d, notes ++ note.toList)
      | .error e => .error (Report.ofSyntaxError d.grammar (ascii grammar) e))
    (blank, [])

/-! ## Answers -/

structure Reply where
  alarm : Option Alarm
  output : Bytes := []
  /-- The call was answered. -/
  ok : Bool := true
  /-- The program is to end. -/
  leave : Bool := false

def Alarm.text (a : Alarm) : Bytes :=
  ascii (if a.loud then "Loud alarm at " else "Alarm at ") ++ signedDecimal a.hour
    ++ ascii (if a.pm then " pm" else " am")
    ++ if a.message.isEmpty then [] else ascii ": " ++ a.message

/-- The alarm that a call has set. -/
def alarmOf (f : Findings) : Except LookupError Alarm := do
  let hour ← f.int (ascii "time")
  let half ← f.variantAt 0
  let loud ← f.optionalAt 0
  let message ← if f.params.contains (ascii "message") then f.str (ascii "message") else pure []
  return ⟨hour, half == 1, loud, message⟩

/-- Carries out an action. -/
def perform (d : Dispatcher σ Action) (alarm : Option Alarm) (f : Findings) : Action → Except LookupError Reply
  | .setAlarm => do
    let a ← alarmOf f
    return { alarm := some a, output := Report.line (ascii "Alarm set.") }
  | .clearAlarm => .ok { alarm := none, output := Report.line (ascii "Alarm cleared.") }
  | .showAlarm =>
    .ok { alarm, output := Report.line (match alarm with
      | none => ascii "No alarm."
      | some a => a.text) }
  | .bread => do
    let dislike ← f.optionalAt 0
    return { alarm, output := Report.line (ascii (if dislike then "More for me then." else "Me too!")) }
  | .help => .ok { alarm, output := Report.usage (d.usageLines 70 4) }
  | .exit => .ok { alarm, leave := true }

def answer (d : Dispatcher σ Action) (alarm : Option Alarm) (call : Bytes) : Except LookupError Reply :=
  match d.dispatch call with
  | .error r => .ok { alarm, output := Report.ofRefusal d.policy.wording r, ok := false }
  | .ok a => perform d alarm a.progress.found a.result

/-! ## Runs -/

/-- What a run has written, and its exit code. -/
structure Run where
  output : Bytes
  code : Nat

def prompt : Bytes :=
  ascii ">> "

/-- A run that a missing record would cut short. -/
def aborted : Run :=
  ⟨[], 134⟩

/-- The lines of a text. Nothing behind the last newline is no line. -/
def linesOf (input : Bytes) : List Bytes :=
  let pieces := input.splitAt newline
  if pieces.getLast? = some [] then pieces.dropLast else pieces

/-- Answers one line after the other, with a prompt before each and at the end of the input. -/
def converse (d : Dispatcher σ Action) (alarm : Option Alarm) : List Bytes → Run
  | [] => ⟨prompt, 0⟩
  | call :: rest =>
    match answer d alarm call with
    | .error _ => { aborted with output := prompt }
    | .ok r =>
      if r.leave then ⟨prompt ++ r.output, 0⟩
      else
        let later := converse d r.alarm rest
        { later with output := prompt ++ r.output ++ later.output }

/-- The call made of arguments, each of which ends at its first zero byte. -/
def callOf (args : List Bytes) : Bytes :=
  [space].intercalate (args.map Bytes.beforeZero)

/-- Answers one call. -/
def runOnce (d : Dispatcher σ Action) (call : Bytes) : Run :=
  match answer d none call with
  | .error _ => aborted
  | .ok r => ⟨r.output, if r.ok then 0 else 1⟩

def run (d : Dispatcher σ Action) (args : List Bytes) (input : Bytes) : Run :=
  if args.isEmpty then converse d none (linesOf input) else runOnce d (callOf args)

end CommandGrammar.AlarmClock
