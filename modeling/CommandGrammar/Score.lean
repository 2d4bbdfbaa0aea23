/-
  CommandGrammar.Score — the arithmetic of scores.

  Matching adds, multiplies and compares scores and does nothing else with them, so
  it is written once over this class. Calls are matched with `Float`; laws are stated
  with `Rat`, where a sum does not depend on the order in which it is taken.
-/

namespace CommandGrammar

class Score (σ : Type) extends Zero σ, Add σ, Sub σ, Mul σ, Div σ, NatCast σ, LT σ, LE σ where
  decLt : DecidableLT σ
  decLe : DecidableLE σ

instance Score.decidableLT {σ : Type} [Score σ] : DecidableLT σ := Score.decLt
instance Score.decidableLE {σ : Type} [Score σ] : DecidableLE σ := Score.decLe

instance Score.ofFloat : Score Float where
  zero := 0
  natCast := Float.ofNat
  decLt := inferInstance
  decLe := inferInstance

instance Score.ofRat : Score Rat where
  zero := 0
  decLt := inferInstance
  decLe := inferInstance

namespace Score

variable {σ : Type} [Score σ]

/-- The score `num / den`. -/
def ratio (num den : Nat) : σ :=
  (num : σ) / (den : σ)

/-- Neither is above the other; a score that compares with nothing equals nothing. -/
def same (a b : σ) : Bool :=
  decide (a ≤ b) && decide (b ≤ a)

/-- The first of the elements with the highest score. -/
def firstBest {α : Type} (score : α → σ) (xs : List α) : Option α :=
  xs.foldl
    (fun best x =>
      match best with
      | none => some x
      | some b => if score b < score x then some x else some b)
    none

end Score

end CommandGrammar
