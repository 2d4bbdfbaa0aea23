/-
  CommandGrammar.Grammar.Symbols — the names that one grammar has used.

  Parameters, tails and identifiers share one space of names, and each name may be
  used once.
-/

import CommandGrammar.Bytes

namespace CommandGrammar.Grammar

structure Symbols where
  names : List Bytes := []
  nodup : names.Nodup := by exact List.nodup_nil

namespace Symbols

def contains (s : Symbols) (name : Bytes) : Bool :=
  decide (name ∈ s.names)

def size (s : Symbols) : Nat :=
  s.names.length

/-- The symbols with one more name, unless it is already used. -/
def add? (s : Symbols) (name : Bytes) : Option Symbols :=
  if h : name ∈ s.names then none else some ⟨name :: s.names, List.nodup_cons.mpr ⟨h, s.nodup⟩⟩

end Symbols

end CommandGrammar.Grammar
