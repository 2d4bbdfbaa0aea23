/-
  CommandGrammar.Proofs.Matching.Behind — what was there before has no say in a match.

  Two attempts of a pattern that start at the same place of a call do the same, whatever
  each of them has found and scored before (`attempt_oblivious`): both succeed, or both
  fail in the same way, and what they leave differs only in what was there before. The
  score of a state is added to and never asked for, so that a relation of two scores
  that is kept by adding to both is kept by every attempt. This needs no law of
  arithmetic and holds for scores that are rounded.
-/

import CommandGrammar.Proofs.Matching.Children
import CommandGrammar.Proofs.Matching.Findings

namespace CommandGrammar

variable {σ : Type}

@[ext] theorem Progress.ext {m m' : Progress σ} (hraw : m.raw = m'.raw) (htokens : m.tokens = m'.tokens)
    (hscore : m.score = m'.score) (hterminated : m.terminated = m'.terminated) (hfound : m.found = m'.found) : m = m' := by
  cases m
  cases m'
  simp only at hraw htokens hscore hterminated hfound
  rw [hraw, htokens, hscore, hterminated, hfound]

/-! ## States at the same place -/

/-- `y` is at the same place as `x`, with `earlier` found before and a score that is related. -/
structure Behind (rel : σ → σ → Prop) (earlier : Findings) (x y : Progress σ) : Prop where
  raw : y.raw = x.raw
  tokens : y.tokens = x.tokens
  terminated : y.terminated = x.terminated
  found : y.found = earlier.merge x.found
  score : rel x.score y.score

/-- The outcomes say the same, of states at the same place. -/
inductive Outcome.Behind (rel : σ → σ → Prop) (earlier : Findings) : Outcome σ → Outcome σ → Prop
  | matched {x y : Progress σ} : CommandGrammar.Behind rel earlier x y → Outcome.Behind rel earlier (.matched x) (.matched y)
  | failed (f : Failure σ) {x y : Progress σ} : CommandGrammar.Behind rel earlier x y →
      Outcome.Behind rel earlier (.failed f x) (.failed f y)

variable {rel : σ → σ → Prop} {earlier : Findings} {x y : Progress σ}

theorem Outcome.Behind.failure {o o' : Outcome σ} (h : o.Behind rel earlier o') :
    o'.failure? = o.failure? := by
  cases h <;> rfl

theorem Outcome.Behind.progress {o o' : Outcome σ} (h : o.Behind rel earlier o') :
    CommandGrammar.Behind rel earlier o.progress o'.progress := by
  cases h <;> assumption

namespace Behind

theorem remainingText (h : Behind rel earlier x y) : y.remainingText = x.remainingText := by
  simp only [Progress.remainingText, h.raw, h.tokens]

theorem consume (h : Behind rel earlier x y) (n : Nat) : Behind rel earlier (x.consume n) (y.consume n) :=
  { h with tokens := congrArg (List.drop n) h.tokens }

theorem terminate (h : Behind rel earlier x y) : Behind rel earlier x.terminate y.terminate :=
  { h with tokens := rfl, terminated := rfl }

theorem bind (h : Behind rel earlier x y) (name : Bytes) (v : Value) :
    Behind rel earlier (x.bind name v) (y.bind name v) :=
  { h with found := by rw [Progress.bind, h.found, Findings.merge_bind]; rfl }

theorem recordOptional (h : Behind rel earlier x y) (id : Option Bytes) (present : Bool) :
    Behind rel earlier (x.recordOptional id present) (y.recordOptional id present) :=
  { h with found := by rw [Progress.recordOptional, h.found, Findings.merge_recordOptional]; rfl }

theorem recordVariant (h : Behind rel earlier x y) (id : Option Bytes) (index : Nat) :
    Behind rel earlier (x.recordVariant id index) (y.recordVariant id index) :=
  { h with found := by rw [Progress.recordVariant, h.found, Findings.merge_recordVariant]; rfl }

theorem recordOrder (h : Behind rel earlier x y) (id : Option Bytes) (order : List Nat) :
    Behind rel earlier (x.recordOrder id order) (y.recordOrder id order) :=
  { h with found := by rw [Progress.recordOrder, h.found, Findings.merge_recordOrder]; rfl }

theorem unorderedKind (h : Behind rel earlier x y) : unorderedKind y = unorderedKind x := by
  rw [CommandGrammar.unorderedKind, h.tokens, CommandGrammar.unorderedKind]

end Behind

variable [Score σ]

/-- Related scores stay so when the same is added to both. -/
def Shifts (rel : σ → σ → Prop) : Prop :=
  ∀ s t d, rel s t → rel (s + d) (t + d)

namespace Behind

theorem fork (h : Behind rel earlier x y) : y.fork = x.fork :=
  Progress.ext h.raw h.tokens rfl h.terminated rfl

theorem failedAt (h : Behind rel earlier x y) (p : Pattern) (kind : Failure.Kind) (expected : Bytes) :
    failedAt p kind expected y = failedAt p kind expected x := by
  simp only [CommandGrammar.failedAt, h.tokens]

/-- Branches are tried on forks, which are the same at the same place. -/
theorem tryEach {α : Type} (h : Behind rel earlier x y) (attempts : List (α × Attempt σ)) :
    tryEach y attempts = tryEach x attempts := by
  rw [CommandGrammar.tryEach, h.fork, CommandGrammar.tryEach]

theorem addScore (hrel : Shifts rel) (h : Behind rel earlier x y) (d : σ) :
    Behind rel earlier (x.addScore d) (y.addScore d) :=
  { h with score := hrel _ _ d h.score }

theorem join (hrel : Shifts rel) (h : Behind rel earlier x y) (f : Progress σ) :
    Behind rel earlier (x.join f) (y.join f) where
  raw := h.raw
  tokens := rfl
  terminated := by rw [Progress.join, h.terminated]; rfl
  found := by rw [Progress.join, h.found, Findings.merge_assoc]; rfl
  score := hrel _ _ f.score h.score

end Behind

/-! ## One after the other -/

/-- The attempt does the same wherever it starts at the same place. -/
def Oblivious (rel : σ → σ → Prop) (a : Attempt σ) : Prop :=
  ∀ earlier x y, Behind rel earlier x y → (a x).Behind rel earlier (a y)

theorem unlessTerminated_oblivious {p : Pattern} {a : Attempt σ} (h : Oblivious rel a) :
    Oblivious rel (unlessTerminated p a) := by
  intro earlier x y hxy
  unfold unlessTerminated
  rw [hxy.terminated, hxy.failedAt]
  split
  · exact .failed _ hxy
  · exact h earlier x y hxy

omit [Score σ] in
theorem inOrder_oblivious {as : List (Attempt σ)} (h : ∀ a ∈ as, Oblivious rel a) : Oblivious rel (inOrder as) := by
  induction as with
  | nil => exact fun earlier x y hxy => .matched hxy
  | cons a as ih =>
    have ha := h a List.mem_cons_self
    have has := ih fun b hb => h b (List.mem_cons_of_mem _ hb)
    intro earlier x y hxy
    have hout := ha earlier x y hxy
    rw [inOrder_cons, inOrder_cons]
    generalize a x = ox at hout
    generalize a y = oy at hout
    cases hout with
    | matched hxy' => exact has earlier _ _ hxy'
    | failed f hxy' => exact .failed f hxy'

/-! ## Words -/

section

variable (hrel : Shifts rel) (policy : Policy σ)

include hrel

theorem literal_oblivious (text : Bytes) (caseSensitive tolerant : Bool) :
    Oblivious rel (attemptLiteral policy text caseSensitive tolerant) := by
  intro earlier x y h
  unfold attemptLiteral
  simp only [h.failedAt]
  rw [h.tokens]
  split
  · exact .failed _ h
  · split
    · exact .matched ((h.addScore hrel _).consume 1)
    · split
      · split
        · exact .matched ((h.addScore hrel _).consume 1)
        · exact .failed _ (h.addScore hrel _)
      · exact .failed _ h

theorem parameter_oblivious (name : Bytes) (type : Option Bytes) : Oblivious rel (attemptParameter policy name type) := by
  intro earlier x y h
  unfold attemptParameter
  simp only [h.failedAt]
  rw [h.tokens]
  split
  · exact .failed _ h
  · split
    · exact .matched (((h.bind name _).addScore hrel _).consume 1)
    · exact .failed _ h

theorem tail_oblivious (name : Bytes) (raw : Bool) : Oblivious rel (attemptTail policy name raw) := by
  intro earlier x y h
  unfold attemptTail
  simp only [h.failedAt, h.remainingText, h.tokens]
  split
  · exact .failed _ h
  · exact .matched (((h.bind name _).addScore hrel _).terminate)

/-! ## Groups -/

theorem concede_behind {α : Type} (branches : List (Branch σ α)) (otherwise : Failure σ) (h : Behind rel earlier x y) :
    (concede branches otherwise x).Behind rel earlier (concede branches otherwise y) := by
  unfold concede
  split
  · exact .failed _ (h.addScore hrel _)
  · exact .failed _ h

theorem optional_oblivious (id : Option Bytes) (inside : Attempt σ) : Oblivious rel (attemptOptional id inside) := by
  intro earlier x y h
  unfold attemptOptional
  rw [h.fork]
  split
  · exact .matched ((h.recordOptional id true).join hrel _)
  · split
    · exact .failed _ (h.addScore hrel _)
    · exact .matched (h.recordOptional id false)

theorem variants_oblivious (p : Pattern) (id : Option Bytes) (alternatives : List (Attempt σ)) :
    Oblivious rel (attemptVariants p id alternatives) := by
  intro earlier x y h
  unfold attemptVariants
  simp only [h.tryEach, h.failedAt, h.tokens]
  split
  · exact .matched ((h.recordVariant id _).join hrel _)
  · exact concede_behind hrel _ _ h

theorem orders_oblivious (p : Pattern) (id : Option Bytes) (children : List (Child σ)) :
    Oblivious rel (attemptOrders p id children) := by
  intro earlier x y h
  unfold attemptOrders
  simp only [h.tryEach, h.failedAt, h.unorderedKind]
  split
  · exact .matched ((h.recordOrder id _).join hrel _)
  · exact concede_behind hrel _ _ h

theorem rounds_oblivious (p : Pattern) (id : Option Bytes) (n : Nat) : ∀ (left : List (Child σ)) (order : List Nat),
    Oblivious rel (attemptRounds p id n left order) := by
  induction n with
  | zero => exact fun left order earlier x y h => .matched (h.recordOrder id order)
  | succ n ih =>
    intro left order earlier x y h
    unfold attemptRounds
    simp only [h.tryEach, h.failedAt, h.unorderedKind]
    split
    · exact ih _ _ _ _ _ (h.join hrel _)
    · exact concede_behind hrel _ _ h

theorem unordered_oblivious (strategy : Strategy) (p : Pattern) (id : Option Bytes) (children : List (Child σ)) :
    Oblivious rel (attemptUnordered strategy p id children) := by
  cases strategy with
  | greedy => exact rounds_oblivious hrel p id _ children []
  | permutation => exact orders_oblivious hrel p id children

end

/-! ## All patterns -/

theorem oblivious_composes (hrel : Shifts rel) (policy : Policy σ) : Composes policy (Oblivious rel) where
  literal := literal_oblivious hrel policy
  parameter := parameter_oblivious hrel policy
  tail := tail_oblivious hrel policy
  unlessTerminated _ _ := unlessTerminated_oblivious
  inOrder := inOrder_oblivious
  optional id a _ := optional_oblivious hrel id a
  variants p id as _ := variants_oblivious hrel p id as
  unordered p id cs _ := unordered_oblivious hrel _ p id cs

/-- Whatever was found and scored before, a pattern does the same at the same place. -/
theorem attempt_oblivious (hrel : Shifts rel) (policy : Policy σ) (p : Pattern) : Oblivious rel (p.attempt policy) :=
  (oblivious_composes hrel policy).attempt p

end CommandGrammar
