/-
  CommandGrammar.Call.Token — a call, cut into words.

  Blanks separate words. A quote byte opens a quoted word, which runs to the next
  quote of the same kind and may hold blanks; it also ends the plain word before it.
  An escape byte takes a quote or an escape literally:

    - before an escape it stands for one escape;
    - before a quote it is dropped inside a quoted word and kept outside of one;
    - before any other byte, and at the end of a word, it is kept.

  A quoted word that is never closed keeps its opening quote in its value.
-/

import CommandGrammar.Specials

namespace CommandGrammar.Call

inductive Kind where
  | plain | quoted | unterminated
  deriving DecidableEq, Repr

structure Token where
  kind : Kind := .plain
  /-- The bytes of the call that the token stands for, quotes and escapes included. -/
  raw : Bytes
  start : Nat
  stop : Nat
  /-- What the token says: quotes removed, escapes resolved. -/
  value : Bytes
  deriving DecidableEq, Repr

/-- The text that names a token in a listing. -/
def Token.describe (t : Token) : Bytes :=
  t.value.quoted ++ ascii " at " ++ decimal t.start

/-! ## The word being read -/

structure Word where
  start : Nat
  raw : Bytes := []
  value : Bytes := []
  /-- The quote that is open. -/
  quote : Option UInt8 := none
  /-- The byte before was an escape that is not yet resolved. -/
  escaped : Bool := false
  deriving DecidableEq, Repr

namespace Word

variable (q : Quoting)

def stop (w : Word) : Nat :=
  w.start + w.raw.length

/-- The value once a pending escape is known to be kept. -/
def settled (w : Word) : Bytes :=
  if w.escaped then w.value ++ [q.escape] else w.value

/-- The plain word read so far, if there is one. -/
def plain? (w : Word) : Option Token :=
  let value := w.settled q
  if value.isEmpty then none else some ⟨.plain, w.raw, w.start, w.stop, value⟩

/-- Reads `c`, after which the value is `value`. -/
def take (w : Word) (c : UInt8) (value : Bytes) : Word :=
  { w with raw := w.raw ++ [c], value, escaped := false }

/-- Reads one byte: the token that it completes, and the word that is then being read. -/
def step (w : Word) (c : UInt8) : Option Token × Word :=
  if w.quote.isNone && isBlank c then (w.plain? q, { start := w.stop + 1 })
  else if q.isQuote c then
    if w.escaped then
      (none, w.take c (if w.quote.isNone then w.value ++ [q.escape, c] else w.value ++ [c]))
    else
      match w.quote with
      | none => (w.plain? q, { start := w.stop, raw := [c], quote := some c })
      | some opening =>
        if c = opening then (some ⟨.quoted, w.raw ++ [c], w.start, w.stop + 1, w.value⟩, { start := w.stop + 1 })
        else (none, w.take c (w.value ++ [c]))
  else if c = q.escape then
    if w.escaped then (none, w.take c (w.value ++ [c]))
    else (none, { w.take c w.value with escaped := true })
  else (none, w.take c (w.settled q ++ [c]))

/-- The token that the end of the call completes. -/
def finish (w : Word) : Option Token :=
  match w.quote with
  | none => w.plain? q
  | some opening => some ⟨.unterminated, w.raw, w.start, w.stop, opening :: w.settled q⟩

end Word

/-! ## The tokens of a call -/

def scan (q : Quoting) (w : Word) : Bytes → List Token
  | [] => (w.finish q).toList
  | c :: rest => (w.step q c).1.toList ++ scan q (w.step q c).2 rest

def tokens (q : Quoting) (call : Bytes) : List Token :=
  scan q { start := 0 } call

end CommandGrammar.Call
