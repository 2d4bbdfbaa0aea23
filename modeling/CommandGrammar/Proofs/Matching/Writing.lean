/-
  CommandGrammar.Proofs.Matching.Writing — how a pattern is written does not matter to a match.

  The flags of a variant group show in the messages, and nowhere else. With the flags
  cleared a pattern does the same to every state, and fails where it failed, for the same
  reason (`attempt_cleared`); only what was expected is then written in another way. So
  patterns that are the same but for flags match in the same way (`attempt_of_same`),
  whatever scores are, and so do they once they are flattened.
-/

import CommandGrammar.Proofs.Matching.Parallel
import CommandGrammar.Proofs.Pattern.Writing

namespace CommandGrammar

variable {σ : Type}

/-! ## Failures -/

/-- The same failure of two patterns. -/
structure SameReason (f g : Failure σ) : Prop where
  kind : f.kind = g.kind
  actual : f.actual = g.actual
  suggestion : f.suggestion = g.suggestion
  reason : f.reason = g.reason
  score : f.score = g.score

theorem SameReason.refl (f : Failure σ) : SameReason f f :=
  ⟨rfl, rfl, rfl, rfl, rfl⟩

theorem SameReason.symm {f g : Failure σ} (h : SameReason f g) : SameReason g f :=
  ⟨h.kind.symm, h.actual.symm, h.suggestion.symm, h.reason.symm, h.score.symm⟩

theorem SameReason.trans {f g h : Failure σ} (hfg : SameReason f g) (hgh : SameReason g h) : SameReason f h :=
  ⟨hfg.kind.trans hgh.kind, hfg.actual.trans hgh.actual, hfg.suggestion.trans hgh.suggestion, hfg.reason.trans hgh.reason,
    hfg.score.trans hgh.score⟩

variable [Score σ]

theorem failedAt_sameReason (p q : Pattern) (kind : Failure.Kind) (expected expected' : Bytes) (m : Progress σ) :
    SameReason (failedAt p kind expected m) (failedAt q kind expected' m) :=
  ⟨rfl, rfl, rfl, rfl, rfl⟩

/-! ## Attempts -/

/-- The same state on both sides, and the same reason to fail. -/
def unflagged : Parallel σ where
  state := Eq
  left := Eq
  failure := SameReason
  left_of_state h := h
  score h := congrArg Progress.score h
  terminated h := congrArg Progress.terminated h
  isEmpty h := congrArg (·.tokens.isEmpty) h
  fork h := congrArg Progress.fork h
  join h h' := congrArg₂ Progress.join h h'
  addScore s h := congrArg (·.addScore s) h
  recordOptional id present h := congrArg (·.recordOptional id present) h
  recordVariant id index h := congrArg (·.recordVariant id index) h
  recordOrder id order h := congrArg (·.recordOrder id order) h
  rescored _ h := { h with score := rfl }

theorem alongside_refl (a : Attempt σ) : unflagged.Alongside a a := by
  rintro x _ rfl
  generalize a x = o
  cases o with
  | matched m => exact .matched rfl
  | failed f m => exact .failed (.refl f) rfl

theorem unlessTerminated_alongside (p q : Pattern) {a b : Attempt σ} (h : unflagged.Alongside a b) :
    unflagged.Alongside (unlessTerminated p a) (unlessTerminated q b) :=
  Parallel.unlessTerminated_alongside h fun _ _ _ => ⟨rfl, rfl, rfl, rfl, rfl⟩

theorem failsAs_unflagged (p q : Pattern) (expected expected' : Bytes) :
    (unflagged : Parallel σ).FailsAs p q expected expected' := by
  rintro kind x _ rfl
  exact failedAt_sameReason p q kind expected expected' x

variable (policy : Policy σ)

/-- Without its flags the pattern is matched in the same way. -/
theorem attempt_cleared (p : Pattern) : unflagged.Alongside (p.attempt policy) ((p.remark Pattern.cleared).attempt policy) := by
  induction p using Pattern.children_induct with | step p ih => ?_
  have hall : ∀ cs ∈ p.childLists, unflagged.Alongside (inOrder (Pattern.attemptEach policy cs))
      (inOrder (Pattern.attemptEach policy (cs.map (Pattern.remark Pattern.cleared)))) := by
    intro cs hcs
    rw [Pattern.attemptEach_eq_map, Pattern.attemptEach_eq_map, List.map_map]
    exact Parallel.inOrder_alongside (ih cs hcs)
  cases p with
  | literal text caseSensitive tolerant => exact alongside_refl _
  | parameter name type => exact alongside_refl _
  | tail name raw => exact alongside_refl _
  | sequence cs =>
    rw [Pattern.remark_sequence]
    exact unlessTerminated_alongside _ _ (hall cs List.mem_cons_self)
  | optional cs id =>
    rw [Pattern.remark_optional]
    exact unlessTerminated_alongside _ _ (Parallel.optional_alongside id (hall cs List.mem_cons_self))
  | variants as id inherited parenthesized =>
    rw [Pattern.remark_variants, Pattern.attempt, Pattern.attempt, Pattern.attemptAlternatives_eq_map,
      Pattern.attemptAlternatives_eq_map, List.map_map]
    exact unlessTerminated_alongside _ _ (Parallel.variants_alongside id hall (failsAs_unflagged _ _ _ _))
  | unordered cs id =>
    rw [Pattern.remark_unordered, Pattern.attempt, Pattern.attempt, Pattern.childrenFrom_eq_map, Pattern.childrenFrom_eq_map,
      List.zipIdx_map, List.map_map]
    refine unlessTerminated_alongside _ _ (Parallel.unordered_alongside _ id (fun c hc => ⟨rfl, ?_⟩)
      (failsAs_unflagged _ _ _ _) fun _ => failsAs_unflagged _ _ _ _)
    exact ih cs List.mem_cons_self c.1 (List.fst_mem_of_mem_zipIdx hc)

/-- Patterns that are the same both match or both fail, and leave the same state. Where they fail, it is for the same
    reason at the same token. Flattened they are still the same. -/
theorem attempt_of_same {p q : Pattern} (h : p.same q = true) (m : Progress σ) :
    (p.attempt policy m).progress = (q.attempt policy m).progress ∧
      Option.Rel SameReason (p.attempt policy m).failure? (q.attempt policy m).failure? ∧ p.flatten.same q.flatten = true := by
  have hp := attempt_cleared policy p (rfl : m = m)
  have hq := attempt_cleared policy q (rfl : m = m)
  rw [← (Pattern.same_iff p q).mp h] at hq
  refine and_assoc.mp ⟨?_, Pattern.flatten_same h⟩
  generalize p.attempt policy m = o, q.attempt policy m = o', (p.remark Pattern.cleared).attempt policy m = o'' at hp hq
  cases hp with
  | matched hx =>
    cases hq with
    | matched hy => exact ⟨hx.trans hy.symm, .none⟩
  | failed hf hx =>
    cases hq with
    | failed hg hy => exact ⟨hx.trans hy.symm, .some (hf.trans hg.symm)⟩

/-- A choice in brackets, written with parentheses and without: the failures differ in what they say was expected. -/
theorem attempt_of_same_enclosed :
    let pattern (parenthesized : Bool) : Pattern :=
      .variants [[.optional [.variants [[.literal (ascii "a") true false], [.literal (ascii "b") true false]] none false
        parenthesized] none, .literal (ascii "z") true false], [.literal (ascii "y") true false]] none false false
    let p := pattern false
    let q := pattern true
    let m : Progress Rat := .start (ascii "q") (Call.tokens Specials.standard.quoting (ascii "q"))
    p.same q = true ∧
      ((p.attempt .standard m).failure?.map (·.expected)) = some (ascii "[a|b] or 'y'") ∧
      ((q.attempt .standard m).failure?.map (·.expected)) = some (ascii "[(a|b)] or 'y'") ∧
      (p.attempt .standard m).progress = (q.attempt .standard m).progress ∧
      Option.Rel SameReason (p.attempt .standard m).failure? (q.attempt .standard m).failure? ∧
      p.flatten.same q.flatten = true := by
  intro pattern p q m
  have h : p.same q = true := by decide
  exact ⟨h, by decide +kernel, by decide +kernel, attempt_of_same .standard h m⟩

end CommandGrammar
