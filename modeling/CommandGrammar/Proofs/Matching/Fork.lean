/-
  CommandGrammar.Proofs.Matching.Fork — what a match does does not depend on what was there before.

  An attempt sees of the state only the call, the tokens that are left and whether a tail
  has taken them. So it does the same on a fork, and joined behind the earlier state that
  gives what the attempt would have done there: the same result, the same failure, and
  the same state in every field (`attempt_join_fork`). The score is the one field that
  is added up in another order; where scores are exact it is the same too
  (`attempt_transparent`).
-/

import CommandGrammar.Proofs.Matching.Behind
import CommandGrammar.Proofs.Matching.Stepwise

namespace CommandGrammar

variable {σ : Type}

/-! ## Onward in the call -/

/-- `x` is further in the same call: what is terminated stays so. -/
structure Keeps (m x : Progress σ) : Prop where
  raw : x.raw = m.raw
  terminated : m.terminated = true → x.terminated = true

namespace Keeps

variable {m x y : Progress σ}

theorem refl (m : Progress σ) : Keeps m m where
  raw := rfl
  terminated := id

theorem trans (h : Keeps m x) (h' : Keeps x y) : Keeps m y where
  raw := h'.raw.trans h.raw
  terminated ht := h'.terminated (h.terminated ht)

variable [Score σ]

theorem join (m x : Progress σ) : Keeps m (m.join x) where
  raw := rfl
  terminated ht := by simp [Progress.join, ht]

theorem terminated_join (h : Keeps m x) : (m.join x).terminated = x.terminated := by
  have ht := h.terminated
  simp only [Progress.join]
  cases hm : m.terminated with
  | false => exact Bool.false_or _
  | true => rw [ht hm]; rfl

end Keeps

/-- The attempt never goes back in the call. -/
def Onward (a : Attempt σ) : Prop :=
  ∀ m, Keeps m (a m).progress

variable [Score σ]

theorem onward_stepwise : Stepwise fun (m : Progress σ) o => Keeps m o.progress where
  matched := Keeps.refl
  failed _ := Keeps.refl
  setback _ _ _ _ := ⟨rfl, id⟩
  record hr := by cases hr <;> exact ⟨rfl, id⟩
  join {m x} _ := Keeps.join m x
  after hx ho := hx.trans ho

theorem word_onward {policy : Policy σ} (m : Progress σ) (o : Outcome σ) (h : WordStep policy m o) :
    Keeps m o.progress := by
  cases h with
  | declined => exact Keeps.refl m
  | suggested => exact ⟨rfl, id⟩
  | equal => exact ⟨rfl, id⟩
  | similar => exact ⟨rfl, id⟩
  | bound => exact ⟨rfl, id⟩
  | rest => exact ⟨rfl, fun _ => rfl⟩

theorem onward_composes (policy : Policy σ) : Composes policy Onward :=
  onward_stepwise.composes word_onward

theorem attempt_onward (policy : Policy σ) (p : Pattern) : Onward (p.attempt policy) :=
  (onward_composes policy).attempt p

/-! ## Behind a fork -/

section

variable {rel : σ → σ → Prop} {m x y : Progress σ}

theorem Behind.of_fork (m : Progress σ) (h : rel 0 m.score) : Behind rel m.found m.fork m where
  raw := rfl
  tokens := rfl
  terminated := rfl
  found := (Findings.merge_nothing _).symm
  score := h

/-- What is at the same place behind the findings of `m` is joined to `m`, the score aside. -/
theorem Behind.eq_join (h : Behind rel m.found x y) (hk : Keeps m x) : y = { m.join x with score := y.score } :=
  Progress.ext (h.raw.trans hk.raw) h.tokens rfl (h.terminated.trans hk.terminated_join.symm) h.found

end

/-! ## Exact scores -/

/-- What the outcome leaves is joined behind `m`. -/
def Outcome.onto (m : Progress Rat) : Outcome Rat → Outcome Rat
  | .matched x => .matched (m.join x)
  | .failed f x => .failed f (m.join x)

/-- The score of `m` in front of another one. -/
def Progress.Ahead (m : Progress Rat) (s t : Rat) : Prop :=
  t = m.score + s

theorem Progress.ahead_shifts (m : Progress Rat) : Shifts m.Ahead := by
  intro s t d h
  rw [Ahead, h]
  exact Rat.add_assoc _ _ _

theorem Behind.eq_join_of_ahead {m x y : Progress Rat} (h : Behind m.Ahead m.found x y) (hk : Keeps m x) : y = m.join x := by
  rw [h.eq_join hk, h.score]
  rfl

namespace Keeps

variable {m x : Progress Rat}

/-- A fork adds nothing to what is joined behind it. -/
theorem join_of_fork (hfork : m.fork = m) (h : Keeps m x) : m.join x = x := by
  have hscore : m.score = 0 := (congrArg Progress.score hfork).symm
  have hfound : m.found = {} := (congrArg Progress.found hfork).symm
  refine Progress.ext h.raw.symm rfl ?_ h.terminated_join ?_
  · simp only [Progress.join, hscore]
    exact Rat.zero_add _
  · simp only [Progress.join, hfound]
    exact Findings.nothing_merge _

theorem behind_join (h : Keeps m x) : Behind m.Ahead m.found x (m.join x) where
  raw := h.raw.symm
  tokens := rfl
  terminated := h.terminated_join
  found := rfl
  score := rfl

end Keeps

/-- The attempt does behind an earlier state what it does without it. -/
structure Transparent (a : Attempt Rat) : Prop where
  keeps : ∀ m, Keeps m (a m).progress
  frame : ∀ m x, Keeps m x → a (m.join x) = (a x).onto m

namespace Transparent

theorem of_oblivious {a : Attempt Rat} (hkeeps : Onward a) (h : ∀ m : Progress Rat, Oblivious m.Ahead a) : Transparent a where
  keeps := hkeeps
  frame m x hx := by
    have hk := hx.trans (hkeeps x)
    have hout := h m _ _ _ hx.behind_join
    generalize a x = ox at hk hout
    generalize a (m.join x) = oy at hout
    cases hout with
    | matched hxy => exact congrArg Outcome.matched (hxy.eq_join_of_ahead hk)
    | failed f hxy => exact congrArg (Outcome.failed f) (hxy.eq_join_of_ahead hk)

/-- In particular it does what it does on a fork. -/
theorem onto_fork {a : Attempt Rat} (h : Transparent a) (m : Progress Rat) : a m = (a m.fork).onto m := by
  have hjoin : m.join m.fork = m :=
    ((Behind.of_fork m (Rat.add_zero _).symm).eq_join_of_ahead (x := m.fork) ⟨rfl, id⟩).symm
  have hframe := h.frame m m.fork ⟨rfl, id⟩
  rwa [hjoin] at hframe

end Transparent

theorem attempt_transparent (policy : Policy Rat) (p : Pattern) : Transparent (p.attempt policy) :=
  .of_oblivious (attempt_onward policy p) fun m => attempt_oblivious m.ahead_shifts policy p

theorem each_transparent (policy : Policy Rat) (cs : List Pattern) : Transparent (inOrder (Pattern.attemptEach policy cs)) :=
  .of_oblivious ((onward_composes policy).inOrder ((onward_composes policy).each cs))
    fun m => inOrder_oblivious ((oblivious_composes m.ahead_shifts policy).each cs)

/-! ## Matching and forking -/

/-- What a match comes to does not depend on the score and the findings that are there before, and what it leaves
    is the state before, joined with what the match leaves of a fork. Only the score is added up in another order,
    which makes no difference where it is exact. -/
theorem attempt_join_fork (p : Pattern) :
    (∀ {σ : Type} [Score σ] (policy : Policy σ) (m : Progress σ),
        (p.attempt policy m).failure? = (p.attempt policy m.fork).failure? ∧
          (∃ s, (p.attempt policy m).progress = { m.join (p.attempt policy m.fork).progress with score := s }) ∧
          ∀ score found, (p.attempt policy { m with score, found }).failure? = (p.attempt policy m).failure?) ∧
      ∀ (policy : Policy Rat) (m : Progress Rat),
        (p.attempt policy m).progress = m.join (p.attempt policy m.fork).progress := by
  constructor
  · intro σ _ policy m
    -- no relation of scores is needed to compare the rest
    have hany : Shifts fun _ _ : σ => True := fun _ _ _ _ => trivial
    have hbehind : ∀ m : Progress σ, (p.attempt policy m.fork).Behind (fun _ _ => True) m.found (p.attempt policy m) :=
      fun m => attempt_oblivious hany policy p _ _ _ (.of_fork m trivial)
    have hkeeps : Keeps m (p.attempt policy m.fork).progress := by
      have hk := attempt_onward policy p m.fork
      exact ⟨hk.raw, hk.terminated⟩
    exact ⟨(hbehind m).failure, ⟨_, (hbehind m).progress.eq_join hkeeps⟩, fun score found =>
      (hbehind { m with score, found }).failure.trans (hbehind m).failure.symm⟩
  · intro policy m
    rw [(attempt_transparent policy p).onto_fork m]
    cases p.attempt policy m.fork <;> rfl

end CommandGrammar
