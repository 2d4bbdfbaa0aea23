/-
  CommandGrammar.Proofs.Grammar.Registers — parsing with registers and a stack of scopes.

  The states of the parser hold in each phase just what that phase needs. The same can be
  done with one record for all phases: a stack of open scopes, each with a flag that a
  tail closed it, and registers for the tokens that are read ahead and for the latest
  node. Nothing in such a record says which registers are set. So every register is read
  with the question whether it is, and where it is not the machine stops (`Stop.unset`).
-/

import CommandGrammar.Grammar.Parse

namespace CommandGrammar.Grammar

/-! ## Scopes -/

inductive Scope where
  | root
  | group (bracket : Bracket) (opening : Token)
  deriving DecidableEq

def Scope.bracket? : Scope → Option Bracket
  | .root => none
  | .group b _ => some b

/-- A variant group that is not complete. -/
structure Choice where
  variants : List (List Pattern) := []
  parenthesized : Bool
  deriving Repr

structure Frame where
  scope : Scope
  /-- The children of the current variant, or of the whole scope if there are no variants. -/
  children : List Pattern := []
  /-- Set once a divider is met in this scope. -/
  choice : Option Choice := none
  /-- A tail has been appended to the children. -/
  tailClosed : Bool := false

/-- A node on the stack: the frame that it is in, counted from the bottom, and its place among the children. -/
structure Place where
  frame : Nat
  child : Nat
  deriving DecidableEq

inductive Mode where
  | normal
  | beforeName | afterName | beforeType | afterType
  | afterTail | afterRawTail
  | beforeIdentifier
  deriving DecidableEq

def Mode.inParameter : Mode → Bool
  | .normal => false
  | .beforeIdentifier => false
  | _ => true

structure Machine where
  /-- The open scopes, the innermost first. -/
  frames : List Frame := [{ scope := .root }]
  mode : Mode := .normal
  opener : Option Token := none
  name : Option Token := none
  type : Option Token := none
  separator : Option Token := none
  /-- The node appended last, if nothing else happened since. -/
  last : Option Place := none
  symbols : Symbols := {}

inductive Stop where
  | fault (e : SyntaxError)
  /-- Something was read that is not there: a register that is not set, a node, or a scope. -/
  | unset

def reject {α : Type} (t : Token) (fault : Fault) : Except Stop α :=
  .error (.fault ⟨fault, t⟩)

/-- What must be there. -/
def held {α : Type} : Option α → Except Stop α
  | none => .error .unset
  | some x => .ok x

/-! ## Frames -/

namespace Frame

def divide (f : Frame) : Frame :=
  let choice := f.choice.getD { parenthesized := f.scope.bracket? == some .sequence }
  { f with choice := some { choice with variants := choice.variants ++ [f.children] }, children := [], tailClosed := false }

/-- Closes the current variant, if there are variants, and collects what the scope holds. -/
def collect (f : Frame) (t : Token) : Except Stop (List Pattern) :=
  match f.choice with
  | none => .ok f.children
  | some choice =>
    if f.children.isEmpty then reject t .emptyVariant
    else .ok [.variants (choice.variants ++ [f.children]) none false choice.parenthesized]

/-- What a scope is once it is closed. -/
def closed (f : Frame) (b : Bracket) (contents : List Pattern) : Except Stop Pattern :=
  match b with
  | .sequence => if f.choice.isSome then held contents.head? else .ok (.sequence contents)
  | .optional => .ok (.optional contents none)
  | .unordered => .ok (.unordered contents none)

def open? (f : Frame) : Option OpenGroup :=
  f.scope.bracket?.map fun b => ⟨b, f.choice.isSome⟩

end Frame

namespace Machine

/-! ## Nodes -/

/-- The node at a place on the stack, which must be there. -/
def node (m : Machine) (p : Place) : Except Stop Pattern := do
  let frame ← held m.frames.reverse[p.frame]?
  held frame.children[p.child]?

def write (m : Machine) (p : Place) (node : Pattern) : Machine :=
  { m with frames := (m.frames.reverse.modify p.frame fun f => { f with children := f.children.set p.child node }).reverse }

/-- Changes the innermost scope, which must be there. -/
def onTop (m : Machine) (f : Frame → Frame) : Except Stop Machine :=
  match m.frames with
  | [] => .error .unset
  | top :: outer => .ok { m with frames := f top :: outer }

def append (m : Machine) (p : Pattern) : Except Stop Machine :=
  match m.frames with
  | [] => .error .unset
  | top :: outer =>
    .ok { m with
      frames := { top with children := top.children ++ [p] } :: outer
      last := some ⟨outer.length, top.children.length⟩ }

def declare (m : Machine) (name : Token) : Except Stop Machine :=
  match m.symbols.add? name.text with
  | none => reject name .duplicateSymbol
  | some symbols => .ok { m with symbols }

/-! ## One token

`top` is the innermost scope, and `previous` what the register of the latest node held before the token. -/

def symbol (r : Reading) (m : Machine) (top : Frame) (previous : Option Place) (t : Token) : Except Stop Machine :=
  match m.mode with
  | .normal => if top.tailClosed then reject t .tailNotLast else m.append (.literal t.text r.caseSensitive false)
  | .beforeName => .ok { m with name := some t, mode := .afterName }
  | .beforeType => .ok { m with type := some t, mode := .afterType }
  | .beforeIdentifier => do
    let m ← m.declare t
    let place ← held previous
    let node ← m.node place
    return { m.write place (node.identify t.text) with last := previous, mode := .normal }
  | _ => reject t .unexpectedToken

def openParameter (m : Machine) (top : Frame) (t : Token) : Except Stop Machine :=
  match m.mode with
  | .normal =>
    if top.tailClosed then reject t .tailNotLast
    else .ok { m with opener := some t, name := none, type := none, mode := .beforeName }
  | _ => reject t .unexpectedToken

def separate (m : Machine) (previous : Option Place) (t : Token) : Except Stop Machine :=
  match m.mode with
  | .afterName => .ok { m with mode := .beforeType }
  | .normal =>
    match previous with
    | none => reject t (.illegalIdentifier .nothingToIdentify)
    | some place => do
      let node ← m.node place
      match node.writtenIdentifier? with
      | none => reject t (.illegalIdentifier (.cannotIdentify node.kindName))
      | some (some _) => reject t (.illegalIdentifier .alreadyIdentified)
      | some none => return { m with separator := some t, last := some place, mode := .beforeIdentifier }
  | _ => reject t .unexpectedToken

/-- The parameter that the registers describe. Whether it has a type is asked of the register, not of the mode. -/
def parameter (r : Reading) (m : Machine) (name : Token) : Except Stop Pattern :=
  match m.type with
  | none => .ok (.parameter name.text none)
  | some type =>
    if r.knownType type.text then .ok (.parameter name.text (some type.text)) else reject type .undefinedType

def closeParameter (r : Reading) (m : Machine) (t : Token) : Except Stop Machine :=
  match m.mode with
  | .beforeName => reject t .emptyParameterName
  | .afterName | .afterType => do
    let name ← held m.name
    let m ← m.declare name
    let m ← m.append (← m.parameter r name)
    return { m with mode := .normal }
  | .afterTail | .afterRawTail => do
    let name ← held m.name
    let declared ← m.declare name
    let appended ← declared.append (.tail name.text (m.mode == .afterRawTail))
    let closed ← appended.onTop fun f => { f with tailClosed := true }
    return { closed with mode := .normal }
  | _ => reject t .unexpectedToken

def markTail (m : Machine) (t : Token) : Except Stop Machine :=
  match m.mode with
  | .afterName => .ok { m with mode := .afterTail }
  | _ => reject t .unexpectedToken

def markRaw (m : Machine) (t : Token) : Except Stop Machine :=
  match m.mode with
  | .afterTail => .ok { m with mode := .afterRawTail }
  | _ => reject t .unexpectedToken

def modify (m : Machine) (previous : Option Place) (t : Token) (change : Bytes → Bool → Bool → Pattern) :
    Except Stop Machine :=
  match m.mode with
  | .normal =>
    match previous with
    | none => reject t .illegalModifier
    | some place => do
      match ← m.node place with
      | .literal text caseSensitive tolerant =>
        return { m.write place (change text caseSensitive tolerant) with last := some place }
      | _ => reject t .illegalModifier
  | _ => reject t .unexpectedToken

def divide (m : Machine) (top : Frame) (t : Token) : Except Stop Machine :=
  match m.mode with
  | .normal =>
    if top.scope.bracket? = some .unordered then reject t .illegalVariant
    else if top.children.isEmpty then reject t .emptyVariant
    else m.onTop Frame.divide
  | _ => reject t .unexpectedToken

def openGroup (m : Machine) (top : Frame) (b : Bracket) (t : Token) : Except Stop Machine :=
  match m.mode with
  | .normal =>
    if top.tailClosed then reject t .tailNotLast else .ok { m with frames := { scope := .group b t } :: m.frames }
  | _ => reject t .unexpectedToken

/-- Puts a scope that is complete into the one around it. A tail that is not behind a divider, or in an optional, closes
    that one too. -/
def closeInto (m : Machine) (top : Frame) (b : Bracket) (p : Pattern) (t : Token) : Except Stop Machine := do
  let m := { m with frames := m.frames.tail }
  let outside ← held m.frames.head?
  if outside.tailClosed then reject t .tailNotLast
  else
    let m ← m.append p
    if top.tailClosed && b != .optional && top.choice.isNone then m.onTop fun f => { f with tailClosed := true }
    else return m

def closeGroup (m : Machine) (top : Frame) (b : Bracket) (t : Token) : Except Stop Machine :=
  match m.mode with
  | .normal =>
    if top.scope.bracket? ≠ some b then reject t .unexpectedToken
    else do
      let contents ← top.collect t
      if contents.isEmpty then reject t (.emptyGroup b)
      else m.closeInto top b (← top.closed b contents) t
  | _ => reject t .unexpectedToken

def step (r : Reading) (m : Machine) (t : Token) : Except Stop Machine := do
  let previous := m.last
  let m := { m with last := none }
  let top ← held m.frames.head?
  match t.kind with
  | .symbol => m.symbol r top previous t
  | .mark .parameterOpening => m.openParameter top t
  | .mark .parameterClosing => m.closeParameter r t
  | .mark .separator => m.separate previous t
  | .mark .divider => m.divide top t
  | .mark (.opening b) => m.openGroup top b t
  | .mark (.closing b) => m.closeGroup top b t
  | .mark .tail => m.markTail t
  | .mark .raw => m.markRaw t
  | .mark .caseInsensitive => m.modify previous t fun text _ tolerant => .literal text false tolerant
  | .mark .tolerant => m.modify previous t fun text caseSensitive _ => .literal text caseSensitive true

/-! ## The end of the grammar -/

/-- The items of the whole grammar. An empty variant at the end is reported at `t`. -/
def finish (m : Machine) (t : Token) : Except Stop (List Pattern) :=
  match m.mode with
  | .beforeIdentifier => do
    let separator ← held m.separator
    reject separator (.illegalIdentifier .missing)
  | .normal =>
    match m.frames with
    | [] => .error .unset
    | [root] => root.collect t
    | top :: _ =>
      match top.scope with
      | .root => .error .unset
      | .group _ opening => reject opening (.unterminatedExpression (m.frames.reverse.filterMap Frame.open?))
  | _ => do
    let opener ← held m.opener
    reject opener .unterminatedParameter

/-- The machine behind the tokens. -/
def run (r : Reading) (ts : List Token) : Except Stop Machine :=
  ts.foldlM (step r) {}

/-- The items of a grammar; `terminator` stands at the end of one without tokens. -/
def parse (r : Reading) (terminator : Token) (ts : List Token) : Except Stop (List Pattern) := do
  let m ← run r ts
  m.finish (ts.getLast?.getD terminator)

end Machine

end CommandGrammar.Grammar
