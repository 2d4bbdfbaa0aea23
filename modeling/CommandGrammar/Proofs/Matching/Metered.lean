/-
  CommandGrammar.Proofs.Matching.Metered — zero score means that nothing was used.

  If every word that is taken scores, the score tells what was used of the call: an
  attempt that adds nothing to it takes no token and binds no parameter, and a match that
  adds something has taken a token (`attempt_metered`). So an optional that is recorded as
  absent, because its branch failed without a score, drops nothing (`attempt_unscored`).
-/

import CommandGrammar.Proofs.Matching.Gain
import CommandGrammar.Proofs.Table

namespace CommandGrammar

/-- Every word that is taken scores. -/
structure Policy.Positive (policy : Policy Rat) : Prop where
  literal : 0 < policy.literalScore
  fuzzy : 0 < policy.fuzzyScore
  parameter : 0 < policy.parameterScore

/-! ## Using nothing -/

/-- From `m` to `x` no token is taken and no parameter is bound. -/
structure Unused (m x : Progress Rat) : Prop where
  tokens : x.tokens = m.tokens
  terminated : x.terminated = m.terminated
  params : x.found.params = m.found.params

namespace Unused

variable {m x y : Progress Rat}

theorem refl (m : Progress Rat) : Unused m m := ⟨rfl, rfl, rfl⟩

theorem trans (h : Unused m x) (h' : Unused x y) : Unused m y :=
  ⟨h'.tokens.trans h.tokens, h'.terminated.trans h.terminated, h'.params.trans h.params⟩

theorem record {r : Progress Rat} (h : Records m r) : Unused m r := by
  cases h with
  | optional id present => cases id <;> exact ⟨rfl, rfl, rfl⟩
  | variant id index => cases id <;> exact ⟨rfl, rfl, rfl⟩
  | order id order => cases id <;> exact ⟨rfl, rfl, rfl⟩

/-- A fork that used nothing is joined. -/
theorem join (h : Unused m.fork x) : Unused m (m.join x) where
  tokens := h.tokens
  terminated := by
    have hterminated : x.terminated = m.terminated := h.terminated
    rw [Progress.join, hterminated, Bool.or_self]
  params := by
    have hparams : x.found.params = {} := h.params
    rw [Progress.join, Findings.merge, hparams, Table.merge_empty]

end Unused

/-! ## What the score tells -/

/-- The outcome of an attempt from `m` scored if and only if it used something; of a failure it is only told that
    nothing was used if it did not score. -/
inductive Outcome.Metered (m : Progress Rat) : Outcome Rat → Prop
  | idle {x : Progress Rat} : Unused m x → x.score = m.score → Outcome.Metered m (.matched x)
  | paid {x : Progress Rat} : x.tokens.length < m.tokens.length → m.score < x.score → Outcome.Metered m (.matched x)
  | unused (f : Failure Rat) {x : Progress Rat} : Unused m x → x.score = m.score → Outcome.Metered m (.failed f x)
  | missed (f : Failure Rat) {x : Progress Rat} : m.score < x.score → Outcome.Metered m (.failed f x)

namespace Outcome.Metered

variable {m x : Progress Rat} {o : Outcome Rat}

theorem score_le (h : o.Metered m) : m.score ≤ o.progress.score := by
  cases h with
  | idle _ hscore => exact hscore.ge
  | paid _ hscore => exact hscore.le
  | unused _ _ hscore => exact hscore.ge
  | missed _ hscore => exact hscore.le

theorem score_eq_iff (h : (Outcome.matched x).Metered m) : x.score = m.score ↔ x.tokens = m.tokens := by
  cases h with
  | idle hidle hscore => exact iff_of_true hscore hidle.tokens
  | paid htokens hscore =>
    exact iff_of_false hscore.ne' fun hsame => htokens.ne (congrArg List.length hsame)

theorem unused_of_failed {f : Failure Rat} (h : (Outcome.failed f x).Metered m) (hscore : x.score = m.score) :
    Unused m x := by
  cases h with
  | unused _ hidle _ => exact hidle
  | missed _ hlt => exact absurd hscore hlt.ne'

theorem fails (f : Failure Rat) (m : Progress Rat) : (Outcome.failed f m).Metered m := .unused f (.refl m) rfl

/-- What comes after a match. -/
theorem after (h : (Outcome.matched x).Metered m) (h' : o.Metered x) : o.Metered m := by
  cases h with
  | idle hidle hscore =>
    cases h' with
    | idle hidle' hscore' => exact .idle (hidle.trans hidle') (hscore'.trans hscore)
    | paid htokens hscore' => exact .paid (hidle.tokens ▸ htokens) (hscore ▸ hscore')
    | unused f hidle' hscore' => exact .unused f (hidle.trans hidle') (hscore'.trans hscore)
    | missed f hscore' => exact .missed f (hscore ▸ hscore')
  | paid htokens hscore =>
    cases h' with
    | idle hidle' hscore' => exact .paid (hidle'.tokens.symm ▸ htokens) (hscore'.symm ▸ hscore)
    | paid htokens' hscore' => exact .paid (htokens'.trans htokens) (hscore.trans hscore')
    | unused f _ hscore' => exact .missed f (hscore'.symm ▸ hscore)
    | missed f hscore' => exact .missed f (hscore.trans hscore')

/-- What is matched on a fork is joined. -/
theorem join (h : (Outcome.matched x).Metered m.fork) : (Outcome.matched (m.join x)).Metered m := by
  cases h with
  | idle hidle hzero =>
    have hzero : x.score = 0 := hzero
    exact .idle hidle.join (by rw [Progress.join, hzero]; exact add_zero m.score)
  | paid htokens hpos => exact .paid htokens (lt_add_of_pos_right m.score hpos)

end Outcome.Metered

/-- The score tells whether the attempt used anything. -/
def Metered (a : Attempt Rat) : Prop :=
  ∀ m, (a m).Metered m

theorem metered_stepwise : Stepwise fun (m : Progress Rat) o => o.Metered m where
  matched m := .idle (.refl m) rfl
  failed := .fails
  setback f m _ hs := .missed f (lt_add_of_pos_right m.score hs)
  record hr := .idle (.record hr) (by cases hr <;> rfl)
  join := .join
  after := .after

/-! ## Words -/

theorem Progress.length_drop_lt {m : Progress Rat} {t : Call.Token} {ts : List Call.Token} (h : m.tokens = t :: ts) :
    (m.tokens.drop 1).length < m.tokens.length := by
  rw [h]
  exact Nat.lt_succ_self ts.length

variable {policy : Policy Rat} (hp : policy.Positive)

include hp

theorem word_metered (m : Progress Rat) (o : Outcome Rat) (h : WordStep policy m o) : o.Metered m := by
  cases h with
  | declined f => exact .fails f m
  | suggested f text word caseSensitive =>
    -- the similarity may be zero, if the threshold is
    rcases (policy.similarity_nonneg text word caseSensitive).eq_or_lt with hzero | hpos
    · rw [← hzero, mul_zero]
      exact .unused f ⟨rfl, rfl, rfl⟩ (add_zero m.score)
    · exact .missed f (lt_add_of_pos_right m.score (mul_pos hp.fuzzy hpos))
  | equal htokens => exact .paid (Progress.length_drop_lt htokens) (lt_add_of_pos_right m.score hp.literal)
  | similar htokens => exact .paid (Progress.length_drop_lt htokens) (lt_add_of_pos_right m.score hp.fuzzy)
  | bound name v htokens => exact .paid (Progress.length_drop_lt htokens) (lt_add_of_pos_right m.score hp.parameter)
  | rest name v htokens => exact .paid (List.length_pos_iff.mpr htokens) (lt_add_of_pos_right m.score hp.parameter)

/-! ## All patterns -/

theorem metered_composes : Composes policy Metered :=
  metered_stepwise.composes (word_metered hp)

theorem attempt_metered (p : Pattern) : Metered (p.attempt policy) :=
  (metered_composes hp).attempt p

omit hp

/-- If every word that is taken scores, no attempt lowers the score; a match adds nothing to it exactly if it takes no
    token, and a failure that adds nothing has taken no token, bound no parameter and not ended the call. So a branch
    that used anything is never dropped for an optional that is recorded as absent. -/
theorem attempt_unscored {policy : Policy Rat} (hp : policy.Positive) (m : Progress Rat) :
    (∀ p : Pattern,
      m.score ≤ (p.attempt policy m).progress.score ∧
        (∀ m', p.attempt policy m = .matched m' → (m'.score = m.score ↔ m'.tokens = m.tokens)) ∧
        ∀ f m', p.attempt policy m = .failed f m' → m'.score = m.score → Unused m m') ∧
      ∀ cs id m', (Pattern.optional cs id).attempt policy m = .matched m' →
        (∃ x, inOrder (Pattern.attemptEach policy cs) m.fork = .matched x ∧ m' = (m.recordOptional id true).join x) ∨
          ∃ f x, inOrder (Pattern.attemptEach policy cs) m.fork = .failed f x ∧ Unused m.fork x ∧
            m' = m.recordOptional id false := by
  refine ⟨fun p => ?_, fun cs id m' h => ?_⟩
  · have hmetered := attempt_metered hp p m
    refine ⟨hmetered.score_le, fun m' h => ?_, fun f m' h hscore => ?_⟩
    · rw [h] at hmetered
      exact hmetered.score_eq_iff
    · rw [h] at hmetered
      exact hmetered.unused_of_failed hscore
  · obtain ⟨-, h⟩ := unlessTerminated_eq_matched.mp h
    refine (attemptOptional_matched h).imp_right ?_
    rintro ⟨f, x, hx, hpos, rfl⟩
    have hmetered := (metered_composes hp).inOrder ((metered_composes hp).each cs) m.fork
    rw [hx] at hmetered
    -- the fork began with nothing, so the branch scored nothing
    have hscore : x.score = m.fork.score := le_antisymm (not_lt.mp hpos) hmetered.score_le
    exact ⟨f, x, hx, hmetered.unused_of_failed hscore, rfl⟩

/-- The branch goes past an optional and takes a variant without words before it fails; for all that it used nothing,
    and it is dropped. -/
theorem attempt_unscored_dropped :
    let policy : Policy Rat := .standard
    let now : Pattern := .literal (ascii "now") true false
    let cs : List Pattern :=
      [.optional [.literal (ascii "stop") true false] none, .variants [[now], []] none false true, now]
    let m : Progress Rat :=
      .start (ascii "go now") [⟨.plain, ascii "go", 0, 2, ascii "go"⟩, ⟨.plain, ascii "now", 3, 6, ascii "now"⟩]
    policy.Positive ∧ ∃ m', (Pattern.optional cs none).attempt policy m = .matched m' ∧
      ∃ f x, inOrder (Pattern.attemptEach policy cs) m.fork = .failed f x ∧ x.found.variants = [1] ∧ Unused m.fork x ∧
        m' = m.recordOptional none false := by
  intro policy now cs m
  have hp : policy.Positive := ⟨by decide +kernel, by decide +kernel, by decide +kernel⟩
  have hvariants : (inOrder (Pattern.attemptEach policy cs) m.fork).progress.found.variants = [1] := by decide +kernel
  have hfailed : (inOrder (Pattern.attemptEach policy cs) m.fork).failure?.isNone = false := by decide +kernel
  obtain ⟨m', hm'⟩ : ∃ m', (Pattern.optional cs none).attempt policy m = .matched m' :=
    Outcome.exists_matched (by decide +kernel)
  rcases (attempt_unscored hp m).2 cs none m' hm' with ⟨x, hx, -⟩ | ⟨f, x, hx, hunused, rfl⟩
  · rw [hx] at hfailed
    cases hfailed
  · rw [hx] at hvariants
    exact ⟨hp, _, hm', f, x, hx, hvariants, hunused, rfl⟩

end CommandGrammar
