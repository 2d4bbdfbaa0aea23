/-
  CommandGrammar.Value.Basic — what parameters are bound to, and the types that convert words.

  A type is a name for a converter. Four types are always there; others may be added,
  and one that is named like another replaces it.
-/

import CommandGrammar.Table
import CommandGrammar.Value.Number

namespace CommandGrammar

inductive Value where
  | str (text : Bytes)
  | int (n : Int)
  | float (x : Float)
  | bool (b : Bool)
  | list (texts : List Bytes)
  deriving Repr

/-- The value of a word, or the reason why it has none. -/
abbrev Converter := Bytes → Except Bytes Value

namespace Converter

def str : Converter := fun s =>
  .ok (.str s)

def int : Converter := fun s =>
  match Number.readInt s with
  | .ok n => .ok (.int n)
  | .error e => .error (e.message s)

def float : Converter := fun s =>
  match Number.readFloat s with
  | .ok x => .ok (.float x)
  | .error e => .error (e.message s)

def bool : Converter := fun s =>
  match Truth.read? s with
  | some b => .ok (.bool b)
  | none => .error (s.quoted ++ ascii " cannot be read as a boolean")

/-- The integers from `lo` to `hi`. -/
def range (lo hi : Int) (message : Bytes) : Converter := fun s =>
  match Number.readInt s with
  | .ok n => if n < lo ∨ hi < n then .error message else .ok (.int n)
  | .error e => .error (e.message s)

def choice (choices : List Bytes) : Converter := fun s =>
  if choices.contains s then .ok (.str s) else .error (s.quoted ++ ascii " is not a choice")

def never (message : Bytes) : Converter := fun _ =>
  .error message

/-- The pieces between commas. -/
def commaSeparated : Converter := fun s =>
  .ok (.list (s.splitAt 44))

end Converter

abbrev Types := Table Converter

namespace Types

def builtin : Types :=
  (((Table.empty.insert (ascii "str") Converter.str).insert (ascii "int") Converter.int).insert
    (ascii "float") Converter.float).insert (ascii "bool") Converter.bool

/-- The value of a word as the named type. -/
def construct (types : Types) (name text : Bytes) : Except Bytes Value :=
  match types.get? name with
  | none => .error (ascii "Undefined type " ++ name.quoted)
  | some convert => convert text

end Types

end CommandGrammar
