/-
  CommandGrammar.Similarity — how much two texts have in common, from 0 to 1.

  The Jaro-Winkler measure. Each byte of the left text is paired with the first free
  equal byte of the right text that is not further away than the window. The measure
  counts the pairs, takes off for those that stand in another order, and adds for the
  first bytes that are equal, four at most.
-/

import CommandGrammar.Bytes
import CommandGrammar.Score

namespace CommandGrammar.Similarity

/-! ## Pairing -/

/-- How far apart two bytes may stand that are paired. -/
def window (lhs rhs : Bytes) : Nat :=
  let longer := max lhs.length rhs.length
  if 2 ≤ longer then longer / 2 - 1 else 0

/-- Takes the first free `c` at the positions from `lo` up to, and without, `hi`. The list starts at position
    `j`; its flags say which bytes are taken. -/
def partner? (c : UInt8) (lo hi : Nat) : Nat → List (UInt8 × Bool) → Option (List (UInt8 × Bool))
  | _, [] => none
  | j, (d, taken) :: rest =>
    if lo ≤ j ∧ j < hi ∧ taken = false ∧ c = d then some ((d, true) :: rest)
    else (partner? c lo hi (j + 1) rest).map ((d, taken) :: ·)

/-- Pairs the bytes of the left text from position `i` on: which of them found a partner, and what is then
    taken of the right text. -/
def pairFrom (w : Nat) : Nat → Bytes → List (UInt8 × Bool) → List (UInt8 × Bool) × List (UInt8 × Bool)
  | _, [], rhs => ([], rhs)
  | i, c :: lhs, rhs =>
    match partner? c (i - w) (i + w + 1) 0 rhs with
    | none =>
      let (l, r) := pairFrom w (i + 1) lhs rhs
      ((c, false) :: l, r)
    | some rhs' =>
      let (l, r) := pairFrom w (i + 1) lhs rhs'
      ((c, true) :: l, r)

/-- The bytes of both texts, each with the flag whether it is paired. -/
def pairing (lhs rhs : Bytes) : List (UInt8 × Bool) × List (UInt8 × Bool) :=
  pairFrom (window lhs rhs) 0 lhs (rhs.map (·, false))

def paired (marked : List (UInt8 × Bool)) : Bytes :=
  (marked.filter (·.2)).map (·.1)

/-- The number of paired bytes that differ from the paired byte at the same rank on the other side. -/
def halfTranspositions (l r : Bytes) : Nat :=
  ((l.zip r).filter fun p => p.1 != p.2).length

def commonFront : Bytes → Bytes → Nat
  | a :: l, b :: r => if a = b then commonFront l r + 1 else 0
  | _, _ => 0

/-! ## The measure -/

variable {σ : Type} [Score σ]

def jaro (pairs half left right : Nat) : σ :=
  let m : σ := (pairs : σ)
  (m / (left : σ) + m / (right : σ) + (m - (half : σ) / ((2 : Nat) : σ)) / m) / ((3 : Nat) : σ)

/-- Brings the measure nearer to 1 by a tenth of the distance for each of `front` equal first bytes. -/
def boost (front : Nat) (x : σ) : σ :=
  x + (front : σ) * Score.ratio 1 10 * (((1 : Nat) : σ) - x)

def measure (lhs rhs : Bytes) : σ :=
  if lhs.isEmpty && rhs.isEmpty then ((1 : Nat) : σ)
  else if lhs.isEmpty || rhs.isEmpty then 0
  else
    let (l, r) := pairing lhs rhs
    let pairs := (paired l).length
    if pairs = 0 then 0
    else
      boost (min 4 (commonFront lhs rhs))
        (jaro pairs (halfTranspositions (paired l) (paired r)) lhs.length rhs.length)

end CommandGrammar.Similarity
