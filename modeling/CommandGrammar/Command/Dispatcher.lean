/-
  CommandGrammar.Command.Dispatcher — a set of commands that answers calls.

  Every command is tried on the whole call. The best success is the answer. If there
  is none, the best failure is, provided that it scored at all, together with all
  commands that came as close; a call that no command goes along with is unknown. Of
  equals the command that was added first counts.
-/

import CommandGrammar.Command.Wrap
import CommandGrammar.Matching.Match

namespace CommandGrammar

structure Command (α : Type) where
  compiled : Grammar.Compiled
  /-- What the command stands for. -/
  result : α
  description : Bytes := []

structure Dispatcher (σ α : Type) where
  grammar : Grammar.Config
  policy : Policy σ
  /-- In the order in which they were added. -/
  commands : List (Command α) := []

/-- The command that answers a call. -/
structure Answer (σ α : Type) where
  result : α
  index : Nat
  tokens : List Call.Token
  progress : Progress σ

/-- Why no command answers a call. -/
structure Refusal (σ : Type) where
  failure : Failure σ
  call : Bytes
  /-- The command that failed; none came close if it is missing. -/
  index : Option Nat := none
  /-- The grammars of the commands that came closest. -/
  closest : List Bytes := []

/-- The failure of one command. -/
structure Rejection (σ α : Type) where
  index : Nat
  command : Command α
  failure : Failure σ

namespace Dispatcher

variable {σ α : Type}

def registerType (d : Dispatcher σ α) (name : Bytes) (convert : Converter) : Dispatcher σ α :=
  { d with policy := { d.policy with types := d.policy.types.insert name convert } }

/-- Adds a command, unless its grammar is at fault. -/
def add (d : Dispatcher σ α) (grammar : Bytes) (result : α) (description : Bytes) :
    Except Grammar.SyntaxError (Dispatcher σ α × Option Grammar.Note) := do
  let (compiled, note) ← Grammar.compileNoted d.grammar d.policy.types.contains grammar
  return ({ d with commands := d.commands ++ [⟨compiled, result, description⟩] }, note)

/-! ## Calls -/

variable [Score σ]

/-- The outcome of each command, with the place of the command. -/
def outcomes (d : Dispatcher σ α) (call : Bytes) (tokens : List Call.Token) : List (Nat × Command α × Outcome σ) :=
  d.commands.zipIdx.map fun c => (c.2, c.1, c.1.compiled.matchCall d.policy (Progress.start call tokens))

def answers (tokens : List Call.Token) (os : List (Nat × Command α × Outcome σ)) : List (Answer σ α) :=
  os.filterMap fun o =>
    match o.2.2 with
    | .matched m => some ⟨o.2.1.result, o.1, tokens, m⟩
    | .failed .. => none

def rejections (os : List (Nat × Command α × Outcome σ)) : List (Rejection σ α) :=
  os.filterMap fun o => o.2.2.failure?.map fun f => ⟨o.1, o.2.1, f⟩

def unknownCommand (tokens : List Call.Token) : Failure σ where
  kind := .unknownCommand
  actual := tokens.head?
  score := 0

def refuse (call : Bytes) (tokens : List Call.Token) (rs : List (Rejection σ α)) : Refusal σ :=
  match Score.firstBest (·.failure.score) rs with
  | some best =>
    if 0 < best.failure.score then
      { failure := best.failure
        call
        index := some best.index
        closest := (rs.filter fun r => Score.same r.failure.score best.failure.score).map (·.command.compiled.render) }
    else { failure := unknownCommand tokens, call }
  | none => { failure := unknownCommand tokens, call }

def dispatch (d : Dispatcher σ α) (call : Bytes) : Except (Refusal σ) (Answer σ α) :=
  let tokens := Call.tokens d.grammar.specials.quoting call
  let os := d.outcomes call tokens
  match Score.firstBest (·.progress.score) (answers tokens os) with
  | some answer => .ok answer
  | none => .error (refuse call tokens (rejections os))

/-! ## Usage -/

/-- Each grammar with its description below it, in lines of a limited width. -/
def usageLines (d : Dispatcher σ α) (width indentWidth : Nat) : List Bytes :=
  let indent := List.replicate indentWidth space
  d.commands.flatMap fun c =>
    wrap width [] indent c.compiled.render ++ wrap width indent indent c.description

end Dispatcher

end CommandGrammar
