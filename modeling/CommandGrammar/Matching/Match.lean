/-
  CommandGrammar.Matching.Match — matching a call with a pattern.

  `Pattern.attempt` says for each kind of pattern which tokens it takes, what it
  finds and what it scores. Once a tail has taken the rest of the call, no pattern
  matches any more, not even an empty one.
-/

import CommandGrammar.Grammar.Compile
import CommandGrammar.Matching.Arrangement
import CommandGrammar.Matching.Attempt
import CommandGrammar.Matching.Policy

namespace CommandGrammar

variable {σ : Type} [Score σ]

/-- The best of all orders of the children. -/
def attemptOrders (p : Pattern) (id : Option Bytes) (children : List (Child σ)) : Attempt σ := fun m =>
  let orders := (arrangements children).map fun cs => (cs.map (·.index), inOrder (cs.map (·.attempt)))
  let branches := tryEach m orders
  match bestSuccess branches with
  | some (f, order) => .matched ((m.recordOrder id order).join f)
  | none => concede branches (failedAt p (unorderedKind m) p.expected m) m

def attemptUnordered (strategy : Strategy) (p : Pattern) (id : Option Bytes) (children : List (Child σ)) : Attempt σ :=
  match strategy with
  | .greedy => attemptGreedy p id children
  | .permutation => attemptOrders p id children

/-! ## Words -/

variable (policy : Policy σ)

def attemptLiteral (text : Bytes) (caseSensitive tolerant : Bool) : Attempt σ := fun m =>
  let p : Pattern := .literal text caseSensitive tolerant
  match m.tokens with
  | [] => .failed (failedAt p .missingLiteral text.quoted m) m
  | actual :: _ =>
    if policy.equal text actual.value caseSensitive then .matched ((m.addScore policy.literalScore).consume 1)
    else
      let similarity := policy.similarity text actual.value caseSensitive
      if policy.literalThreshold ≤ similarity then
        if tolerant then .matched ((m.addScore policy.fuzzyScore).consume 1)
        else
          .failed { failedAt p .suggestedLiteral text.quoted m with suggestion := text }
            (m.addScore (policy.fuzzyScore * similarity))
      else .failed (failedAt p .mismatchedLiteral text.quoted m) m

def attemptParameter (name : Bytes) (type : Option Bytes) : Attempt σ := fun m =>
  let p : Pattern := .parameter name type
  match m.tokens with
  | [] => .failed (failedAt p .missingParameter p.shown m) m
  | actual :: _ =>
    match policy.valueOf type actual.value with
    | .ok v => .matched (((m.bind name v).addScore policy.parameterScore).consume 1)
    | .error reason => .failed { failedAt p .mismatchedType p.shown m with reason } m

def attemptTail (name : Bytes) (raw : Bool) : Attempt σ := fun m =>
  let p : Pattern := .tail name raw
  let text := m.remainingText
  if text.isEmpty then .failed (failedAt p .missingTail p.shown m) m
  else
    let v : Value := if raw then .str text else .list (m.tokens.map (·.value))
    .matched (((m.bind name v).addScore policy.parameterScore).terminate)

/-! ## Patterns -/

/-- Nothing matches behind a tail. -/
def unlessTerminated (p : Pattern) (a : Attempt σ) : Attempt σ := fun m =>
  if m.terminated then .failed { failedAt p .terminated [] m with actual := none } m else a m

namespace Pattern

mutual

/-- Matches the pattern with the tokens that are left. Tokens may be left over. -/
def attempt : Pattern → Attempt σ
  | .literal text caseSensitive tolerant =>
    unlessTerminated (.literal text caseSensitive tolerant) (attemptLiteral policy text caseSensitive tolerant)
  | .parameter name type => unlessTerminated (.parameter name type) (attemptParameter policy name type)
  | .tail name raw => unlessTerminated (.tail name raw) (attemptTail policy name raw)
  | .sequence cs => unlessTerminated (.sequence cs) (inOrder (attemptEach cs))
  | .optional cs id => unlessTerminated (.optional cs id) (attemptOptional id (inOrder (attemptEach cs)))
  | .variants as id inherited parenthesized =>
    let p : Pattern := .variants as id inherited parenthesized
    unlessTerminated p (attemptVariants p id (attemptAlternatives as))
  | .unordered cs id =>
    let p : Pattern := .unordered cs id
    unlessTerminated p (attemptUnordered policy.strategy p id (childrenFrom 0 cs))

def attemptEach : List Pattern → List (Attempt σ)
  | [] => []
  | c :: cs => attempt c :: attemptEach cs

/-- The children of an unordered group, the first of which has the index `i`. -/
def childrenFrom (i : Nat) : List Pattern → List (Child σ)
  | [] => []
  | c :: cs => ⟨i, c.expected, attempt c⟩ :: childrenFrom (i + 1) cs

def attemptAlternatives : List (List Pattern) → List (Attempt σ)
  | [] => []
  | a :: as => inOrder (attemptEach a) :: attemptAlternatives as

end

end Pattern

namespace Grammar.Compiled

/-- Matches the pattern; a failure has the score that the attempt reached. -/
def matchPart (c : Compiled) : Attempt σ := fun m =>
  match c.root.attempt policy m with
  | .matched m' => .matched m'
  | .failed f m' => .failed { f with score := m'.score } m'

/-- Matches the pattern with the whole call: no token may be left over. -/
def matchCall (c : Compiled) : Attempt σ := fun m =>
  match c.matchPart policy m with
  | .failed f m' => .failed f m'
  | .matched m' =>
    if m'.tokens.isEmpty then .matched m'
    else .failed { failedAt c.root .tooManyArguments [] m' with score := m'.score } m'

end Grammar.Compiled

end CommandGrammar
