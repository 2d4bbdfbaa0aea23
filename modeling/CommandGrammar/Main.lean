/-
  CommandGrammar.Main — the alarm clock on a terminal.

  Arguments make one call; without arguments every line of the input is a call, and
  the program prompts for it. What it writes is decided in `AlarmClock`.
-/

import CommandGrammar.AlarmClock

namespace CommandGrammar.AlarmClock

def emit (out : IO.FS.Stream) (text : Bytes) : IO Unit := do
  out.write (ByteArray.mk text.toArray)
  out.flush

/-- The bytes up to the next newline, or nothing at the end of the input. -/
partial def nextLine (input : IO.FS.Stream) (sofar : Array UInt8) : IO (Option Bytes) := do
  match (← input.read 1).toList with
  | [] => return if sofar.isEmpty then none else some sofar.toList
  | c :: _ => if c = newline then return some sofar.toList else nextLine input (sofar.push c)

partial def interact (input out : IO.FS.Stream) (d : Dispatcher Float Action) (alarm : Option Alarm) : IO UInt32 := do
  emit out prompt
  match ← nextLine input #[] with
  | none => return 0
  | some call =>
    match answer d alarm call with
    | .error _ => return UInt32.ofNat aborted.code
    | .ok r =>
      emit out r.output
      if r.leave then return 0 else interact input out d r.alarm

/-- Sets up the commands, then answers the arguments or converses. -/
def program (args : List String) : IO UInt32 := do
  let out ← IO.getStdout
  let log ← IO.getStderr
  match (setup : Except Bytes (Dispatcher Float Action × List Grammar.Note)) with
  | .error report =>
    emit log report
    return 1
  | .ok (d, notes) =>
    notes.forM fun n => emit log (n.text d.grammar.specials)
    if args.isEmpty then interact (← IO.getStdin) out d none
    else
      let r := runOnce d (callOf (args.map fun a => a.toUTF8.toList))
      emit out r.output
      return UInt32.ofNat r.code

end CommandGrammar.AlarmClock

def main (args : List String) : IO UInt32 :=
  CommandGrammar.AlarmClock.program args
