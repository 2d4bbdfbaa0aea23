/-
  CommandGrammar.Proofs.Matching.Forward — matching only moves forward.

  A join takes over the tokens of the fork, so that a fork from another place would give
  tokens back. None does: whatever an attempt comes to, the tokens that it leaves are the
  last ones of those that were there, and what was found before is still found
  (`Forward`). A tail takes all that is left, for good: a state that a tail has ended has
  no tokens (`Progress.TailTakesAll`), and no attempt gets anything out of it. Each single
  step keeps this on success and on failure, and so does every pattern
  (`attempt_forward`).
-/

import CommandGrammar.Proofs.Matching.Answers
import CommandGrammar.Proofs.Matching.Stepwise

namespace CommandGrammar

/-! ## What was found stays found -/

/-- `g` has all that `f` has found: positional records in front of later ones, and every name, whatever it is bound to. -/
structure Findings.Grows (f g : Findings) : Prop where
  optionals : f.optionals <+: g.optionals
  variants : f.variants <+: g.variants
  params : ∀ name, f.params.contains name = true → g.params.contains name = true
  namedOptionals : ∀ id, f.namedOptionals.contains id = true → g.namedOptionals.contains id = true
  namedVariants : ∀ id, f.namedVariants.contains id = true → g.namedVariants.contains id = true
  namedOrders : ∀ id, f.namedOrders.contains id = true → g.namedOrders.contains id = true

namespace Findings.Grows

theorem refl (f : Findings) : f.Grows f :=
  ⟨List.prefix_refl _, List.prefix_refl _, fun _ => id, fun _ => id, fun _ => id, fun _ => id⟩

theorem trans {f g k : Findings} (h : f.Grows g) (h' : g.Grows k) : f.Grows k where
  optionals := h.optionals.trans h'.optionals
  variants := h.variants.trans h'.variants
  params name hf := h'.params name (h.params name hf)
  namedOptionals id hf := h'.namedOptionals id (h.namedOptionals id hf)
  namedVariants id hf := h'.namedVariants id (h.namedVariants id hf)
  namedOrders id hf := h'.namedOrders id (h.namedOrders id hf)

theorem merge (f g : Findings) : f.Grows (f.merge g) where
  optionals := List.prefix_append _ _
  variants := List.prefix_append _ _
  params _ hf := Table.contains_merge hf _
  namedOptionals _ hf := Table.contains_merge hf _
  namedVariants _ hf := Table.contains_merge hf _
  namedOrders _ hf := Table.contains_merge hf _

theorem bind (f : Findings) (name : Bytes) (v : Value) : f.Grows (f.bind name v) := by
  rw [bind_eq_merge]
  exact merge f _

end Findings.Grows

/-! ## Forward in the call -/

variable {σ : Type}

/-- `x` is no further back in the call than `m`, and nothing that `m` has found is lost. -/
structure Forward (m x : Progress σ) : Prop where
  raw : x.raw = m.raw
  tokens : x.tokens <:+ m.tokens
  terminated : m.terminated = true → x.terminated = true
  found : m.found.Grows x.found

/-- Where a tail has ended the call, no tokens are left. -/
def Progress.TailTakesAll (m : Progress σ) : Prop :=
  m.terminated = true → m.tokens = []

namespace Forward

variable {m x y : Progress σ}

theorem refl (m : Progress σ) : Forward m m :=
  ⟨rfl, List.suffix_refl _, id, .refl _⟩

theorem trans (h : Forward m x) (h' : Forward x y) : Forward m y where
  raw := h'.raw.trans h.raw
  tokens := h'.tokens.trans h.tokens
  terminated ht := h'.terminated (h.terminated ht)
  found := h.found.trans h'.found

theorem record {r : Progress σ} (hr : Records m r) : Forward m r := by
  have hfound : m.found.Grows r.found := by
    cases hr with
    | optional id present =>
      rw [Progress.recordOptional, Findings.recordOptional_eq_merge]
      exact .merge _ _
    | variant id index =>
      rw [Progress.recordVariant, Findings.recordVariant_eq_merge]
      exact .merge _ _
    | order id order =>
      rw [Progress.recordOrder, Findings.recordOrder_eq_merge]
      exact .merge _ _
  cases hr <;> exact ⟨rfl, List.suffix_refl _, id, hfound⟩

variable [Score σ]

theorem addScore (m : Progress σ) (s : σ) : Forward m (m.addScore s) :=
  ⟨rfl, List.suffix_refl _, id, .refl _⟩

/-- A fork starts from the same tokens, so that no token comes back with it. -/
theorem join (h : Forward m.fork x) : Forward m (m.join x) where
  raw := rfl
  tokens := h.tokens
  terminated ht := by rw [Progress.join, ht, Bool.true_or]
  found := .merge _ _

/-- A fork of a state that a tail has ended is ended itself. -/
theorem tailTakesAll_join (h : Forward m.fork x) (hx : x.TailTakesAll) : (m.join x).TailTakesAll := by
  intro ht
  rw [Progress.join, Bool.or_eq_true] at ht
  exact hx (ht.elim h.terminated id)

end Forward

/-! ## All patterns -/

variable [Score σ]

/-- The outcome is forward of `m`, and where a tail has ended the call no tokens are left, if that was so of `m`. -/
def MovesForward (m : Progress σ) (o : Outcome σ) : Prop :=
  Forward m o.progress ∧ (m.TailTakesAll → o.progress.TailTakesAll)

theorem forward_stepwise : Stepwise (MovesForward (σ := σ)) where
  matched m := ⟨.refl m, id⟩
  failed _ m := ⟨.refl m, id⟩
  setback _ m s _ := ⟨.addScore m s, id⟩
  record hr := ⟨.record hr, by cases hr <;> exact id⟩
  join h := ⟨.join h.1, fun hm => h.1.tailTakesAll_join (h.2 hm)⟩
  after h h' := ⟨h.1.trans h'.1, fun hm => h'.2 (h.2 hm)⟩

theorem word_forward {policy : Policy σ} (m : Progress σ) (o : Outcome σ) (h : WordStep policy m o) : MovesForward m o := by
  have htaken : m.TailTakesAll → m.terminated = true → m.tokens.drop 1 = [] := by
    intro hm ht
    rw [hm ht, List.drop_nil]
  cases h with
  | declined => exact ⟨.refl m, id⟩
  | suggested => exact ⟨.addScore m _, id⟩
  | equal => exact ⟨⟨rfl, List.drop_suffix 1 _, id, .refl _⟩, htaken⟩
  | similar => exact ⟨⟨rfl, List.drop_suffix 1 _, id, .refl _⟩, htaken⟩
  | bound name v => exact ⟨⟨rfl, List.drop_suffix 1 _, id, .bind _ name v⟩, htaken⟩
  | rest name v => exact ⟨⟨rfl, List.nil_suffix, fun _ => rfl, .bind _ name v⟩, fun _ _ => rfl⟩

theorem attempt_movesForward (policy : Policy σ) (p : Pattern) (m : Progress σ) : MovesForward m (p.attempt policy m) :=
  (forward_stepwise.composes word_forward).attempt p m

/-- The verdict on the whole call leaves the state that its pattern leaves. -/
theorem matchCall_progress (policy : Policy σ) (c : Grammar.Compiled) (m : Progress σ) :
    (c.matchCall policy m).progress = (c.root.attempt policy m).progress := by
  unfold Grammar.Compiled.matchCall Grammar.Compiled.matchPart
  cases c.root.attempt policy m with
  | failed f x => rfl
  | matched x =>
    dsimp only
    split <;> rfl

/-- Whether it succeeds or fails, a match goes forward in the call and loses nothing that was found. Behind a tail no
    tokens are left, nothing matches and nothing changes. A call that is matched is matched with its last token. -/
theorem attempt_forward (policy : Policy σ) {m : Progress σ} (h : m.TailTakesAll) :
    (∀ p : Pattern,
      Forward m (p.attempt policy m).progress ∧ (p.attempt policy m).progress.TailTakesAll ∧
        (m.terminated = true → ∃ f, p.attempt policy m = .failed f m)) ∧
      ∀ c : Grammar.Compiled,
        Forward m (c.matchCall policy m).progress ∧ ∀ m', c.matchCall policy m = .matched m' → m'.tokens = [] := by
  constructor
  · intro p
    obtain ⟨hforward, htail⟩ := attempt_movesForward policy p m
    exact ⟨hforward, htail h, p.attempt_terminated policy⟩
  · intro c
    obtain ⟨hforward, -⟩ := attempt_movesForward policy c.root m
    rw [← matchCall_progress] at hforward
    exact ⟨hforward, fun m' hm' => (matchCall_eq_matched.mp hm').2⟩

/-- The tail ends the call, and the literal behind it fails there. -/
theorem attempt_forward_ended :
    let a : Call.Token := ⟨.plain, ascii "a", 0, 1, ascii "a"⟩
    let x : Call.Token := ⟨.plain, ascii "x", 2, 3, ascii "x"⟩
    let p : Pattern :=
      .sequence [.optional [.literal (ascii "a") true false] none, .tail (ascii "rest") false, .literal (ascii "b") true false]
    let m : Progress Rat := (Progress.start (ascii "a x") [a, x]).recordOptional none false
    m.TailTakesAll ∧ (p.attempt .standard m).failure?.isSome ∧ (p.attempt .standard m).progress.terminated ∧
      (p.attempt .standard m).progress.found.optionals = [false, true] ∧
      Forward m (p.attempt .standard m).progress ∧ (p.attempt .standard m).progress.TailTakesAll := by
  intro a x p m
  have hm : m.TailTakesAll := fun ht => nomatch ht
  obtain ⟨hforward, htail, -⟩ := (attempt_forward (.standard : Policy Rat) hm).1 p
  exact ⟨hm, by decide +kernel, by decide +kernel, by decide +kernel, hforward, htail⟩

end CommandGrammar
