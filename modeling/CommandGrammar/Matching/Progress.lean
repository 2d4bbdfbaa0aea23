/-
  CommandGrammar.Matching.Progress — the state of one attempt to match a call.

  An attempt holds the tokens that are left, its score, and what it has found: values
  of parameters and records of groups. A group with an identifier is recorded under
  it, any other in the order in which groups are met. A branch is tried on a fork, a
  copy that has found nothing yet, and joined back if it is taken.
-/

import CommandGrammar.Call.Token
import CommandGrammar.Score
import CommandGrammar.Value.Basic

namespace CommandGrammar

structure Findings where
  params : Table Value := {}
  /-- Whether each optional without an identifier was present. -/
  optionals : List Bool := []
  /-- Which variant was chosen in each variant group without an identifier. -/
  variants : List Nat := []
  namedOptionals : Table Bool := {}
  namedVariants : Table Nat := {}
  /-- The order in which the children of each identified unordered group matched. -/
  namedOrders : Table (List Nat) := {}

namespace Findings

/-- What both found, in this order; for one name the later finding wins. -/
def merge (a b : Findings) : Findings where
  params := a.params.merge b.params
  optionals := a.optionals ++ b.optionals
  variants := a.variants ++ b.variants
  namedOptionals := a.namedOptionals.merge b.namedOptionals
  namedVariants := a.namedVariants.merge b.namedVariants
  namedOrders := a.namedOrders.merge b.namedOrders

def bind (f : Findings) (name : Bytes) (v : Value) : Findings :=
  { f with params := f.params.insert name v }

def recordOptional (f : Findings) (id : Option Bytes) (present : Bool) : Findings :=
  match id with
  | none => { f with optionals := f.optionals ++ [present] }
  | some id => { f with namedOptionals := f.namedOptionals.insert id present }

def recordVariant (f : Findings) (id : Option Bytes) (index : Nat) : Findings :=
  match id with
  | none => { f with variants := f.variants ++ [index] }
  | some id => { f with namedVariants := f.namedVariants.insert id index }

/-- A group without an identifier leaves no record of its order. -/
def recordOrder (f : Findings) (id : Option Bytes) (order : List Nat) : Findings :=
  match id with
  | none => f
  | some id => { f with namedOrders := f.namedOrders.insert id order }

end Findings

structure Progress (σ : Type) where
  /-- The whole call. -/
  raw : Bytes := []
  /-- The tokens that are left. -/
  tokens : List Call.Token := []
  score : σ
  /-- A tail has taken the rest of the call. -/
  terminated : Bool := false
  found : Findings := {}

namespace Progress

variable {σ : Type} [Score σ]

/-- The attempt before anything is matched. -/
def start (raw : Bytes) (tokens : List Call.Token) : Progress σ :=
  { raw, tokens, score := 0 }

def fork (m : Progress σ) : Progress σ :=
  { m with score := 0, found := {} }

/-- Goes on from where the fork `f` of `m` has got to. -/
def join (m f : Progress σ) : Progress σ where
  raw := m.raw
  tokens := f.tokens
  score := m.score + f.score
  terminated := m.terminated || f.terminated
  found := m.found.merge f.found

def consume (m : Progress σ) (n : Nat) : Progress σ :=
  { m with tokens := m.tokens.drop n }

/-- Takes all that is left; nothing can match any more. -/
def terminate (m : Progress σ) : Progress σ :=
  { m with tokens := [], terminated := true }

def addScore (m : Progress σ) (delta : σ) : Progress σ :=
  { m with score := m.score + delta }

def bind (m : Progress σ) (name : Bytes) (v : Value) : Progress σ :=
  { m with found := m.found.bind name v }

def recordOptional (m : Progress σ) (id : Option Bytes) (present : Bool) : Progress σ :=
  { m with found := m.found.recordOptional id present }

def recordVariant (m : Progress σ) (id : Option Bytes) (index : Nat) : Progress σ :=
  { m with found := m.found.recordVariant id index }

def recordOrder (m : Progress σ) (id : Option Bytes) (order : List Nat) : Progress σ :=
  { m with found := m.found.recordOrder id order }

/-- The text of the call that the tokens left span, if there is any. -/
def remainingText (m : Progress σ) : Bytes :=
  match m.tokens.head?, m.tokens.getLast? with
  | some first, some last =>
    if first.start < last.stop ∧ last.stop ≤ m.raw.length then m.raw.slice first.start last.stop else []
  | _, _ => []

end Progress

end CommandGrammar
