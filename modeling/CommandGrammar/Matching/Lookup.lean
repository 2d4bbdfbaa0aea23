/-
  CommandGrammar.Matching.Lookup — reading what a match has found.

  Values are looked up by the name of the parameter, records of groups by identifier
  or by position.
-/

import CommandGrammar.Matching.Progress

namespace CommandGrammar

inductive LookupError where
  | unboundParameter (name : Bytes)
  | unknownOptional (identifier : Bytes)
  | unknownVariants (identifier : Bytes)
  | unknownUnordered (identifier : Bytes)
  /-- There are not so many records. -/
  | noSuchPosition
  /-- The parameter is bound to another type of value. -/
  | otherType
  deriving DecidableEq, Repr

/-- The sentence for a name that was not found. A zero byte ends it, so a name that holds one is shown only
    up to there. -/
def LookupError.message? : LookupError → Option Bytes
  | .unboundParameter name => some (ascii "Unbound parameter: " ++ name.beforeZero)
  | .unknownOptional id => some (ascii "Unknown optional sequence: " ++ id.beforeZero)
  | .unknownVariants id => some (ascii "Unknown variant group: " ++ id.beforeZero)
  | .unknownUnordered id => some (ascii "Unknown unordered group: " ++ id.beforeZero)
  | .noSuchPosition => none
  | .otherType => none

/-- Whether a value is of the wanted type. -/
inductive ValueType where
  | str | int | float | bool | list
  deriving DecidableEq, Repr

def Value.type : Value → ValueType
  | .str _ => .str
  | .int _ => .int
  | .float _ => .float
  | .bool _ => .bool
  | .list _ => .list

/-- A record of a group under its identifier. -/
inductive NamedRecord where
  | optional (present : Bool)
  | variant (index : Nat)
  | order (indexes : List Nat)
  deriving DecidableEq, Repr

namespace Findings

def orError {α : Type} (e : LookupError) : Option α → Except LookupError α
  | some a => .ok a
  | none => .error e

def value (f : Findings) (name : Bytes) : Except LookupError Value :=
  orError (.unboundParameter name) (f.params.get? name)

/-- The value of a parameter that must have the given type. -/
def valueOf (f : Findings) (type : ValueType) (name : Bytes) : Except LookupError Value := do
  let v ← f.value name
  if v.type = type then return v else throw .otherType

def int (f : Findings) (name : Bytes) : Except LookupError Int := do
  match ← f.value name with
  | .int n => return n
  | _ => throw .otherType

def str (f : Findings) (name : Bytes) : Except LookupError Bytes := do
  match ← f.value name with
  | .str s => return s
  | _ => throw .otherType

def optionalAt (f : Findings) (i : Nat) : Except LookupError Bool :=
  orError .noSuchPosition f.optionals[i]?

def optional (f : Findings) (id : Bytes) : Except LookupError Bool :=
  orError (.unknownOptional id) (f.namedOptionals.get? id)

def variantAt (f : Findings) (i : Nat) : Except LookupError Nat :=
  orError .noSuchPosition f.variants[i]?

def variant (f : Findings) (id : Bytes) : Except LookupError Nat :=
  orError (.unknownVariants id) (f.namedVariants.get? id)

def order (f : Findings) (id : Bytes) : Except LookupError (List Nat) :=
  orError (.unknownUnordered id) (f.namedOrders.get? id)

/-- The records under one identifier. -/
def recordsOf (f : Findings) (id : Bytes) : List NamedRecord :=
  ((f.namedOptionals.get? id).map .optional).toList
    ++ ((f.namedVariants.get? id).map .variant).toList
    ++ ((f.namedOrders.get? id).map .order).toList

/-- All records under the given identifiers, in the order of the identifiers. -/
def namedRecords (f : Findings) (ids : List Bytes) : List (Bytes × NamedRecord) :=
  let known : Table Unit := ids.foldl (fun t id => t.insert id ()) {}
  known.keys.flatMap fun id => (f.recordsOf id).map (id, ·)

end Findings

end CommandGrammar
