/-
  CommandGrammar.Matching.Attempt — trying, and trying several ways.

  An attempt takes the state of a match to the state after it, with a failure if it
  did not succeed. A failed attempt leaves its state too: the score it reached says
  how far the call went along with it. Where several branches are tried, each works
  on a fork of its own; the best success wins, and if there is none the best failure
  that scored at all is the one to report. Of equals the first counts.
-/

import CommandGrammar.Matching.Failure
import CommandGrammar.Matching.Progress

namespace CommandGrammar

inductive Outcome (σ : Type) where
  | matched (m : Progress σ)
  | failed (f : Failure σ) (m : Progress σ)

abbrev Attempt (σ : Type) := Progress σ → Outcome σ

namespace Outcome

variable {σ : Type}

/-- The state that the attempt leaves. -/
def progress : Outcome σ → Progress σ
  | .matched m => m
  | .failed _ m => m

def failure? : Outcome σ → Option (Failure σ)
  | .matched _ => none
  | .failed f _ => some f

end Outcome

variable {σ : Type} [Score σ]

/-- One attempt after the other, up to the first that fails. -/
def inOrder : List (Attempt σ) → Attempt σ
  | [], m => .matched m
  | a :: rest, m =>
    match a m with
    | .matched m' => inOrder rest m'
    | .failed f m' => .failed f m'

/-- The failure of the pattern `p` at the next token. -/
def failedAt (p : Pattern) (kind : Failure.Kind) (expected : Bytes) (m : Progress σ) : Failure σ where
  kind
  expected
  actual := m.tokens.head?
  source := some p
  score := 0

/-! ## Branches -/

/-- A branch that was tried on a fork. -/
structure Branch (σ α : Type) where
  label : α
  outcome : Outcome σ

namespace Branch

variable {α : Type}

def success? (b : Branch σ α) : Option (Progress σ × α) :=
  match b.outcome with
  | .matched m => some (m, b.label)
  | .failed .. => none

/-- The failure of a branch that scored, with that score. A branch without a score says nothing about
    what was meant. -/
def setback? (b : Branch σ α) : Option (Failure σ) :=
  match b.outcome with
  | .matched _ => none
  | .failed f m => if 0 < m.score then some { f with score := m.score } else none

end Branch

/-- Tries each of the attempts on a fork of its own. -/
def tryEach {α : Type} (m : Progress σ) (attempts : List (α × Attempt σ)) : List (Branch σ α) :=
  attempts.map fun a => ⟨a.1, a.2 m.fork⟩

def bestSuccess {α : Type} (branches : List (Branch σ α)) : Option (Progress σ × α) :=
  Score.firstBest (·.1.score) (branches.filterMap Branch.success?)

def bestSetback {α : Type} (branches : List (Branch σ α)) : Option (Failure σ) :=
  Score.firstBest (·.score) (branches.filterMap Branch.setback?)

/-- No branch succeeded: the best setback is reported and its score counts, or else `otherwise`. -/
def concede {α : Type} (branches : List (Branch σ α)) (otherwise : Failure σ) (m : Progress σ) : Outcome σ :=
  match bestSetback branches with
  | some f => .failed f (m.addScore f.score)
  | none => .failed otherwise m

/-! ## Groups of attempts -/

/-- All or nothing. A branch that scored before it failed was meant, so that its failure counts. -/
def attemptOptional (id : Option Bytes) (inside : Attempt σ) : Attempt σ := fun m =>
  match inside m.fork with
  | .matched f => .matched ((m.recordOptional id true).join f)
  | .failed e f =>
    if 0 < f.score then .failed e (m.addScore f.score) else .matched (m.recordOptional id false)

/-- The best of the alternatives. -/
def attemptVariants (p : Pattern) (id : Option Bytes) (alternatives : List (Attempt σ)) : Attempt σ := fun m =>
  let branches := tryEach m (alternatives.zipIdx.map fun a => (a.2, a.1))
  match bestSuccess branches with
  | some (f, i) => .matched ((m.recordVariant id i).join f)
  | none =>
    let kind := if m.tokens.isEmpty then .missingVariant else .noMatchedVariant
    concede branches (failedAt p kind p.expected m) m

/-- A child of an unordered group. -/
structure Child (σ : Type) where
  index : Nat
  /-- What the child starts with. -/
  lead : Bytes
  attempt : Attempt σ

def unorderedKind (m : Progress σ) : Failure.Kind :=
  if m.tokens.isEmpty then .missingUnordered else .unmatchedUnordered

/-- Commits the best of the children left, `n` times over. -/
def attemptRounds (p : Pattern) (id : Option Bytes) : Nat → List (Child σ) → List Nat → Attempt σ
  | 0, _, order, m => .matched (m.recordOrder id order)
  | n + 1, left, order, m =>
    let branches := tryEach m (left.map fun c => (c.index, c.attempt))
    match bestSuccess branches with
    | some (f, i) => attemptRounds p id n (left.filter (·.index != i)) (order ++ [i]) (m.join f)
    | none => concede branches (failedAt p (unorderedKind m) (Pattern.expectedOfAny (left.map (·.lead))) m) m

def attemptGreedy (p : Pattern) (id : Option Bytes) (children : List (Child σ)) : Attempt σ :=
  attemptRounds p id children.length children []

end CommandGrammar
