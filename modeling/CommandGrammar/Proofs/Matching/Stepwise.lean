/-
  CommandGrammar.Proofs.Matching.Stepwise — what an attempt can do with a state, said once.

  A word takes the next token or the rest of the call, or it leaves the state as it is but
  for a score (`WordStep`). Groups fork and join the state, make records in it, and add the
  score of a failure. What is said of the outcome of an attempt from a state, and is kept
  by these steps (`Stepwise`), is kept by every way of putting attempts together. So it
  holds of all patterns as soon as it holds of words (`Stepwise.composes`).
-/

import CommandGrammar.Proofs.Matching.Children
import CommandGrammar.Proofs.Matching.Choice

namespace CommandGrammar

variable {σ : Type} [Score σ]

/-! ## Words -/

/-- What the attempt of a word comes to. -/
inductive WordStep (policy : Policy σ) (m : Progress σ) : Outcome σ → Prop
  | declined (f : Failure σ) : WordStep policy m (.failed f m)
  /-- The next token is close to a literal that is not tolerant. -/
  | suggested (f : Failure σ) (text word : Bytes) (caseSensitive : Bool) :
      WordStep policy m (.failed f (m.addScore (policy.fuzzyScore * policy.similarity text word caseSensitive)))
  | equal {t : Call.Token} {ts : List Call.Token} : m.tokens = t :: ts →
      WordStep policy m (.matched ((m.addScore policy.literalScore).consume 1))
  | similar {t : Call.Token} {ts : List Call.Token} : m.tokens = t :: ts →
      WordStep policy m (.matched ((m.addScore policy.fuzzyScore).consume 1))
  | bound {t : Call.Token} {ts : List Call.Token} (name : Bytes) (v : Value) : m.tokens = t :: ts →
      WordStep policy m (.matched (((m.bind name v).addScore policy.parameterScore).consume 1))
  | rest (name : Bytes) (v : Value) : m.tokens ≠ [] →
      WordStep policy m (.matched (((m.bind name v).addScore policy.parameterScore).terminate))

section

variable (policy : Policy σ) (m : Progress σ)

theorem literal_step (text : Bytes) (caseSensitive tolerant : Bool) :
    WordStep policy m (attemptLiteral policy text caseSensitive tolerant m) := by
  unfold attemptLiteral
  split
  · exact .declined _
  · rename_i t ts htokens
    dsimp only
    split
    · exact .equal htokens
    · split
      · split
        · exact .similar htokens
        · exact .suggested _ text t.value caseSensitive
      · exact .declined _

theorem parameter_step (name : Bytes) (type : Option Bytes) :
    WordStep policy m (attemptParameter policy name type m) := by
  unfold attemptParameter
  split
  · exact .declined _
  · rename_i t ts htokens
    split
    · exact .bound name _ htokens
    · exact .declined _

theorem tail_step (name : Bytes) (raw : Bool) : WordStep policy m (attemptTail policy name raw m) := by
  unfold attemptTail
  dsimp only
  split
  · exact .declined _
  · rename_i htext
    refine .rest name _ fun hnone => htext ?_
    rw [Progress.remainingText, hnone]
    rfl

end

/-! ## Groups -/

/-- `r` is `m` with one more record of a group. -/
inductive Records (m : Progress σ) : Progress σ → Prop
  | optional (id : Option Bytes) (present : Bool) : Records m (m.recordOptional id present)
  | variant (id : Option Bytes) (index : Nat) : Records m (m.recordVariant id index)
  | order (id : Option Bytes) (order : List Nat) : Records m (m.recordOrder id order)

/-- A fork does not see records. -/
theorem Records.fork {m r : Progress σ} (h : Records m r) : r.fork = m.fork := by
  cases h <;> rfl

/-- `Q` relates a state to the outcomes of attempts from there, and each single step keeps it. -/
structure Stepwise (Q : Progress σ → Outcome σ → Prop) : Prop where
  matched (m : Progress σ) : Q m (.matched m)
  failed (f : Failure σ) (m : Progress σ) : Q m (.failed f m)
  /-- A branch scored before it failed. -/
  setback (f : Failure σ) (m : Progress σ) {s : σ} : 0 < s → Q m (.failed f (m.addScore s))
  record {m r : Progress σ} : Records m r → Q m (.matched r)
  join {m x : Progress σ} : Q m.fork (.matched x) → Q m (.matched (m.join x))
  after {m x : Progress σ} {o : Outcome σ} : Q m (.matched x) → Q x o → Q m o

namespace Stepwise

variable {Q : Progress σ → Outcome σ → Prop} (h : Stepwise Q)

include h

/-- A group is recorded, and goes on from what its branch leaves. -/
theorem record_join {m r x : Progress σ} (hr : Records m r) (hx : Q m.fork (.matched x)) : Q m (.matched (r.join x)) := by
  refine h.after (h.record hr) (h.join ?_)
  rwa [hr.fork]

theorem unlessTerminated (p : Pattern) {a : Attempt σ} (ha : ∀ m, Q m (a m)) : ∀ m, Q m (unlessTerminated p a m) := by
  intro m
  unfold CommandGrammar.unlessTerminated
  split
  · exact h.failed _ m
  · exact ha m

theorem inOrder {as : List (Attempt σ)} (has : ∀ a ∈ as, ∀ m, Q m (a m)) : ∀ m, Q m (inOrder as m) := by
  induction as with
  | nil => exact h.matched
  | cons a as ih =>
    intro m
    have ha := has a List.mem_cons_self m
    rw [inOrder_cons]
    cases hm : a m with
    | matched m₁ =>
      rw [hm] at ha
      exact h.after ha (ih (fun b hb => has b (List.mem_cons_of_mem _ hb)) m₁)
    | failed f m₁ =>
      rw [hm] at ha
      exact ha

theorem concede {α : Type} (branches : List (Branch σ α)) (otherwise : Failure σ) (m : Progress σ) :
    Q m (concede branches otherwise m) := by
  unfold CommandGrammar.concede
  split
  · rename_i f hf
    obtain ⟨b, -, e, x, -, hpos, rfl⟩ := bestSetback_mem hf
    exact h.setback _ m hpos
  · exact h.failed otherwise m

theorem optional (id : Option Bytes) {a : Attempt σ} (ha : ∀ m, Q m (a m)) : ∀ m, Q m (attemptOptional id a m) := by
  intro m
  have hfork := ha m.fork
  unfold attemptOptional
  split
  · rename_i x hx
    rw [hx] at hfork
    exact h.record_join (.optional id true) hfork
  · split
    · rename_i hpos
      exact h.setback _ m hpos
    · exact h.record (.optional id false)

omit h in
/-- The best success is that of one of the attempts. -/
theorem of_bestSuccess {α : Type} {m x : Progress σ} {attempts : List (α × Attempt σ)} {l : α}
    (has : ∀ a ∈ attempts, ∀ m, Q m (a.2 m)) (hbest : bestSuccess (tryEach m attempts) = some (x, l)) :
    Q m.fork (.matched x) := by
  obtain ⟨a, ha, hx⟩ := bestSuccess_tryEach hbest
  have hfork : Q m.fork (a m.fork) := has (l, a) ha m.fork
  rwa [hx] at hfork

theorem variants (p : Pattern) (id : Option Bytes) {as : List (Attempt σ)} (has : ∀ a ∈ as, ∀ m, Q m (a m)) :
    ∀ m, Q m (attemptVariants p id as m) := by
  intro m
  unfold attemptVariants
  dsimp only
  split
  · rename_i x i hbest
    refine h.record_join (.variant id i) (of_bestSuccess ?_ hbest)
    rintro ⟨j, a⟩ ha
    exact has a (List.mem_of_getElem? (mem_numbered.mp ha))
  · exact h.concede _ _ m

theorem rounds (p : Pattern) (id : Option Bytes) (n : Nat) : ∀ {left : List (Child σ)} (order : List Nat),
    (∀ c ∈ left, ∀ m, Q m (c.attempt m)) → ∀ m, Q m (attemptRounds p id n left order m) := by
  induction n with
  | zero => exact fun order _ m => h.record (.order id order)
  | succ n ih =>
    intro left order hleft m
    unfold attemptRounds
    dsimp only
    split
    · rename_i x i hbest
      have hx : Q m.fork (.matched x) := by
        refine of_bestSuccess ?_ hbest
        intro a ha
        obtain ⟨c, hc, rfl⟩ := List.mem_map.mp ha
        exact hleft c hc
      exact h.after (h.join hx) (ih _ (fun c hc => hleft c (List.mem_filter.mp hc).1) (m.join x))
    · exact h.concede _ _ m

theorem orders (p : Pattern) (id : Option Bytes) {cs : List (Child σ)} (hcs : ∀ c ∈ cs, ∀ m, Q m (c.attempt m)) :
    ∀ m, Q m (attemptOrders p id cs m) := by
  intro m
  unfold attemptOrders
  dsimp only
  split
  · rename_i x order hbest
    refine h.record_join (.order id order) (of_bestSuccess ?_ hbest)
    intro a ha
    obtain ⟨placed, hplaced, rfl⟩ := List.mem_map.mp ha
    refine h.inOrder fun b hb => ?_
    obtain ⟨c, hc, rfl⟩ := List.mem_map.mp hb
    exact hcs c ((perm_of_mem_arrangements hplaced).subset hc)
  · exact h.concede _ _ m

/-- What holds of words, and is kept by each step, holds of every pattern. -/
theorem composes {policy : Policy σ} (hword : ∀ m o, WordStep policy m o → Q m o) :
    Composes policy fun a => ∀ m, Q m (a m) where
  literal text caseSensitive tolerant m := hword m _ (literal_step policy m text caseSensitive tolerant)
  parameter name type m := hword m _ (parameter_step policy m name type)
  tail name raw m := hword m _ (tail_step policy m name raw)
  unlessTerminated p _ := h.unlessTerminated p
  inOrder := h.inOrder
  optional id _ := h.optional id
  variants p id _ := h.variants p id
  unordered p id _ hcs := by
    cases policy.strategy with
    | greedy => exact h.rounds p id _ [] hcs
    | permutation => exact h.orders p id hcs

end Stepwise

end CommandGrammar
