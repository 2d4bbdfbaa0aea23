/-
  CommandGrammar.Proofs.Matching.Types — a match asks for no types but those that the pattern names.

  Of all types that are registered only those of the parameters in a pattern are ever
  looked up. With another registry that has the same converters for them, the pattern
  matches in the same way (`attempt_agrees`).
-/

import CommandGrammar.Proofs.Matching.Children

namespace CommandGrammar

variable {σ : Type} [Score σ] {policy : Policy σ} {types : Types}

/-- For each type that the pattern names, the other registry has the same converter. -/
def Agrees (policy : Policy σ) (types : Types) (p : Pattern) : Prop :=
  ∀ t ∈ p.type?, types.get? t = policy.types.get? t

theorem parameter_agrees {name : Bytes} {type : Option Bytes} (h : Agrees policy types (.parameter name type)) :
    attemptParameter { policy with types } name type = attemptParameter policy name type := by
  have hvalue : ∀ word, Policy.valueOf { policy with types } type word = policy.valueOf type word := by
    intro word
    cases type with
    | none => rfl
    | some t =>
      show types.construct t word = policy.types.construct t word
      rw [Types.construct, h t rfl, Types.construct]
  funext m
  simp only [attemptParameter, hvalue]

/-- What other types there are does not matter to a match. -/
theorem attempt_agrees (p : Pattern) (h : ∀ q ∈ p.nodes, Agrees policy types q) :
    p.attempt { policy with types } = p.attempt policy := by
  refine Pattern.nodes_induct (P := Agrees policy types)
    (M := fun q => q.attempt { policy with types } = q.attempt policy) (fun p hp ih => ?_) p h
  refine Pattern.attempt_congr ih (fun hleaf => ?_) fun _ _ _ => rfl
  cases hleaf with
  | literal text caseSensitive tolerant => rfl
  | parameter name type => rw [Pattern.attempt, Pattern.attempt, parameter_agrees hp]
  | tail name raw => rfl

theorem matchCall_agrees {c : Grammar.Compiled} (h : ∀ q ∈ c.root.nodes, Agrees policy types q) :
    c.matchCall { policy with types } = c.matchCall policy := by
  funext m
  simp only [Grammar.Compiled.matchCall, Grammar.Compiled.matchPart, attempt_agrees c.root h]

end CommandGrammar
