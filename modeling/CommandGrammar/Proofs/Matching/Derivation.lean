/-
  CommandGrammar.Proofs.Matching.Derivation — what a pattern matches, without saying how.

  A derivation takes a pattern from one position in a call to another and says what is
  found on the way. It tries nothing and scores nothing: an optional is there or not, one
  of the variants is chosen, the children of an unordered group come in some order. Each
  rule starts where no tail has taken the rest of the call, so nothing is derived behind
  a tail.
-/

import CommandGrammar.Matching.Match

namespace CommandGrammar

variable {σ : Type} [Score σ]

/-! ## Derivations -/

/-- How far a call is matched. -/
structure Position where
  tokens : List Call.Token
  /-- A tail has taken the rest of the call. -/
  terminated : Bool

def Progress.position (m : Progress σ) : Position :=
  ⟨m.tokens, m.terminated⟩

/-- What an unordered group finds: its order and what its children find. A group that is filled round by round
    is recorded behind its children, and any other before them. -/
def Strategy.ordered (strategy : Strategy) (id : Option Bytes) (order : List Nat) (inside : Findings) : Findings :=
  match strategy, id with
  | .greedy, _ => inside.recordOrder id order
  | .permutation, none => inside
  | .permutation, some id => { inside with namedOrders := (Table.empty.insert id order).merge inside.namedOrders }

mutual

inductive Derives (policy : Policy σ) (raw : Bytes) : Pattern → Position → Position → Findings → Prop
  | equal {text : Bytes} {caseSensitive : Bool} (tolerant : Bool) {t : Call.Token} (ts : List Call.Token) :
      policy.equal text t.value caseSensitive = true →
      Derives policy raw (.literal text caseSensitive tolerant) ⟨t :: ts, false⟩ ⟨ts, false⟩ {}
  | similar {text : Bytes} {caseSensitive : Bool} {t : Call.Token} (ts : List Call.Token) :
      policy.literalThreshold ≤ policy.similarity text t.value caseSensitive →
      Derives policy raw (.literal text caseSensitive true) ⟨t :: ts, false⟩ ⟨ts, false⟩ {}
  | word (name : Bytes) (t : Call.Token) (ts : List Call.Token) :
      Derives policy raw (.parameter name none) ⟨t :: ts, false⟩ ⟨ts, false⟩ (({} : Findings).bind name (.str t.value))
  | typed (name : Bytes) {type : Bytes} {t : Call.Token} (ts : List Call.Token) {v : Value} :
      policy.types.construct type t.value = .ok v →
      Derives policy raw (.parameter name (some type)) ⟨t :: ts, false⟩ ⟨ts, false⟩ (({} : Findings).bind name v)
  | list (name : Bytes) (t : Call.Token) (ts : List Call.Token) :
      Derives policy raw (.tail name false) ⟨t :: ts, false⟩ ⟨[], true⟩
        (({} : Findings).bind name (.list ((t :: ts).map (·.value))))
  | text (name : Bytes) {t last : Call.Token} {ts : List Call.Token} : (t :: ts).getLast? = some last →
      Derives policy raw (.tail name true) ⟨t :: ts, false⟩ ⟨[], true⟩
        (({} : Findings).bind name (.str (raw.slice t.start last.stop)))
  | sequence {cs : List Pattern} {ts : List Call.Token} {l : Position} {f : Findings} :
      DerivesEach policy raw cs ⟨ts, false⟩ l f → Derives policy raw (.sequence cs) ⟨ts, false⟩ l f
  | absent (cs : List Pattern) (id : Option Bytes) (ts : List Call.Token) :
      Derives policy raw (.optional cs id) ⟨ts, false⟩ ⟨ts, false⟩ (({} : Findings).recordOptional id false)
  | present {cs : List Pattern} (id : Option Bytes) {ts : List Call.Token} {l : Position} {f : Findings} :
      DerivesEach policy raw cs ⟨ts, false⟩ l f →
      Derives policy raw (.optional cs id) ⟨ts, false⟩ l ((({} : Findings).recordOptional id true).merge f)
  | variant {as : List (List Pattern)} {a : List Pattern} {i : Nat} (id : Option Bytes) (inherited parenthesized : Bool)
      {ts : List Call.Token} {l : Position} {f : Findings} : as[i]? = some a → DerivesEach policy raw a ⟨ts, false⟩ l f →
      Derives policy raw (.variants as id inherited parenthesized) ⟨ts, false⟩ l
        ((({} : Findings).recordVariant id i).merge f)
  | unordered {cs : List Pattern} (id : Option Bytes) {placed : List (Pattern × Nat)} {ts : List Call.Token}
      {l : Position} {f : Findings} : placed.Perm cs.zipIdx → DerivesEach policy raw (placed.map (·.1)) ⟨ts, false⟩ l f →
      Derives policy raw (.unordered cs id) ⟨ts, false⟩ l (policy.strategy.ordered id (placed.map (·.2)) f)

/-- The patterns one after the other. -/
inductive DerivesEach (policy : Policy σ) (raw : Bytes) : List Pattern → Position → Position → Findings → Prop
  | nil (l : Position) : DerivesEach policy raw [] l l {}
  | cons {c : Pattern} {cs : List Pattern} {l l₁ l₂ : Position} {f g : Findings} : Derives policy raw c l l₁ f →
      DerivesEach policy raw cs l₁ l₂ g → DerivesEach policy raw (c :: cs) l l₂ (f.merge g)

end

variable {policy : Policy σ} {raw : Bytes}

theorem derivesEach_nil {l l' : Position} {f : Findings} : DerivesEach policy raw [] l l' f ↔ l' = l ∧ f = {} := by
  constructor
  · intro h
    cases h
    exact ⟨rfl, rfl⟩
  · rintro ⟨rfl, rfl⟩
    exact .nil l'

theorem derivesEach_cons {c : Pattern} {cs : List Pattern} {l l' : Position} {f : Findings} :
    DerivesEach policy raw (c :: cs) l l' f ↔
      ∃ l₁ g h, Derives policy raw c l l₁ g ∧ DerivesEach policy raw cs l₁ l' h ∧ f = g.merge h := by
  constructor
  · intro h
    cases h with | cons hc hcs => exact ⟨_, _, _, hc, hcs, rfl⟩
  · rintro ⟨l₁, g, h, hc, hcs, rfl⟩
    exact .cons hc hcs

/-- A literal finds nothing. -/
theorem Derives.literal_found {text : Bytes} {caseSensitive tolerant : Bool} {l l' : Position} {f : Findings}
    (h : Derives policy raw (.literal text caseSensitive tolerant) l l' f) : f = {} := by
  cases h <;> rfl

theorem Derives.not_terminated {p : Pattern} {l l' : Position} {f : Findings} (h : Derives policy raw p l l' f) :
    l.terminated = false := by
  cases h <;> rfl

mutual

/-- What is left behind a pattern is an end of what was left before it. -/
theorem Derives.suffix {p : Pattern} {l l' : Position} {f : Findings} (h : Derives policy raw p l l' f) :
    l'.tokens <:+ l.tokens := by
  match h with
  | .equal _ ts _ => exact List.suffix_cons _ ts
  | .similar ts _ => exact List.suffix_cons _ ts
  | .word _ t ts => exact List.suffix_cons t ts
  | .typed _ ts _ => exact List.suffix_cons _ ts
  | .list _ _ _ => exact List.nil_suffix
  | .text _ _ => exact List.nil_suffix
  | .sequence hcs => exact hcs.suffix
  | .absent _ _ ts => exact List.suffix_refl ts
  | .present _ hcs => exact hcs.suffix
  | .variant _ _ _ _ ha => exact ha.suffix
  | .unordered _ _ hcs => exact hcs.suffix

theorem DerivesEach.suffix {cs : List Pattern} {l l' : Position} {f : Findings} (h : DerivesEach policy raw cs l l' f) :
    l'.tokens <:+ l.tokens := by
  match h with
  | .nil l => exact List.suffix_refl l.tokens
  | .cons hc hcs => exact hcs.suffix.trans hc.suffix

end

end CommandGrammar
