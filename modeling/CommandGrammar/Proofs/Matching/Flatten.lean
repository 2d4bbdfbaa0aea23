/-
  CommandGrammar.Proofs.Matching.Flatten — flattening changes no verdict.

  Each rewriting of the canonical form is one law of attempts: a group of one child comes
  to what the child comes to, a sequence to what its children do in its place, and a
  variant group without an identifier to what its variants do among the variants around
  it. A branch that fails without a score must not have lost any, so that no word may
  score less than zero. And no sequence may be empty: behind a tail an empty sequence
  fails, but nothing at all succeeds.
-/

import CommandGrammar.Pattern.Flatten
import CommandGrammar.Proofs.Matching.Contest
import CommandGrammar.Proofs.Matching.Gain
import CommandGrammar.Proofs.Pattern.Flatten

namespace CommandGrammar

open Pattern (Wraps attemptEach attemptAlternatives attempt_terminated unpacked unpackAll inlined flattenIn flattenEach_eq_map
  mergedVariant guardSole)

variable {policy : Policy Rat}

/-! ## Behind a tail -/

/-- What comes to the same as a pattern as long as no tail has matched is alike. -/
theorem alike_of_open {p q : Pattern} {a : Attempt Rat}
    (h : ∀ m, m.terminated = false → (a m).verdict = (q.attempt policy m).verdict) :
    Alike (unlessTerminated p a) (q.attempt policy) := by
  intro m
  cases hm : m.terminated with
  | false =>
    rw [unlessTerminated_open hm]
    exact h m hm
  | true =>
    obtain ⟨f, hf⟩ := attempt_terminated policy q hm
    rw [unlessTerminated, if_pos hm, hf]
    rfl

/-- Patterns are alike if they come to the same on forks as long as no tail has matched. -/
theorem alike_of_open_fork {p q : Pattern}
    (h : ∀ m, m.fork = m → m.terminated = false → (p.attempt policy m).verdict = (q.attempt policy m).verdict) :
    Alike (p.attempt policy) (q.attempt policy) := by
  refine Alike.of_fork (attempt_transparent policy p) (attempt_transparent policy q) fun m => ?_
  cases hm : m.fork.terminated with
  | false => exact h m.fork rfl hm
  | true =>
    obtain ⟨f, hf⟩ := attempt_terminated policy p hm
    obtain ⟨g, hg⟩ := attempt_terminated policy q hm
    rw [hf, hg]
    rfl

/-! ## Groups of one child -/

theorem sequence_single (c : Pattern) : Alike ((Pattern.sequence [c]).attempt policy) (c.attempt policy) := by
  refine alike_of_open fun m _ => ?_
  rw [attemptEach, attemptEach, inOrder_single]

theorem bestSuccess_single {α : Type} (l : α) (o : Outcome Rat) :
    bestSuccess [⟨l, o⟩] = match o with
      | .matched x => some (x, l)
      | .failed .. => none := by
  cases o <;> rfl

/-- A sole branch that lost no score is conceded with the score that it reached. -/
theorem concede_single {α : Type} (l : α) (f g : Failure Rat) {m x : Progress Rat} (h : 0 ≤ x.score) :
    (concede [⟨l, .failed f x⟩] g m).verdict = .failed (m.score + x.score) := by
  rw [concede_verdict]
  have hsetback : setbackScore [.failed x.score] = x.score := by
    unfold setbackScore
    by_cases hx : 0 < x.score
    · simp [Verdict.setback?, if_pos hx, Score.firstBest]
    · have hzero : x.score = 0 := le_antisymm (not_lt.mp hx) h
      simp [Verdict.setback?, hzero, Score.firstBest]
  exact congrArg (fun s => Verdict.failed (m.score + s)) hsetback

theorem unordered_single (hp : policy.Nonneg) (c : Pattern) :
    Alike ((Pattern.unordered [c] none).attempt policy) (c.attempt policy) := by
  refine alike_of_open fun m _ => ?_
  rw [(attempt_transparent policy c).onto_fork m]
  have hgain := (attempt_gains hp c).fork_nonneg m
  let child : Child Rat := ⟨0, c.expected, c.attempt policy⟩
  unfold attemptUnordered
  cases policy.strategy with
  | greedy =>
    show (attemptRounds (.unordered [c] none) none 1 [child] [] m).verdict = _
    have htry : tryEach m ([child].map fun c => (c.index, c.attempt)) = [⟨0, c.attempt policy m.fork⟩] := rfl
    unfold attemptRounds
    dsimp only
    rw [htry, bestSuccess_single]
    cases hc : c.attempt policy m.fork with
    | matched x => rfl
    | failed f x =>
      rw [hc] at hgain
      exact concede_single 0 f _ hgain
  | permutation =>
    show (attemptOrders (.unordered [c] none) none [child] m).verdict = _
    have htry : tryEach m ((arrangements [child]).map fun cs => (cs.map (·.index), inOrder (cs.map (·.attempt)))) =
        [⟨[0], c.attempt policy m.fork⟩] := by
      rw [← inOrder_single (c.attempt policy)]
      rfl
    unfold attemptOrders
    dsimp only
    rw [htry, bestSuccess_single]
    cases hc : c.attempt policy m.fork with
    | matched x => rfl
    | failed f x =>
      rw [hc] at hgain
      exact concede_single [0] f _ hgain

/-- What lists of children come to on a state, in the order in which they are tried. -/
def verdicts (policy : Policy Rat) (m : Progress Rat) (as : List (List Pattern)) : List Verdict :=
  as.map fun a => (inOrder (attemptEach policy a) m).verdict

/-- On a fork that is not terminated, a variant group comes to the best of its variants. -/
theorem variants_attempt_verdict (as : List (List Pattern)) (id : Option Bytes) (inherited parenthesized : Bool)
    {m : Progress Rat} (hfork : m.fork = m) (hopen : m.terminated = false) :
    ((Pattern.variants as id inherited parenthesized).attempt policy m).verdict = Verdict.best (verdicts policy m as) := by
  rw [Pattern.attempt, unlessTerminated_open hopen, variants_verdict _ id hfork, Pattern.attemptAlternatives_eq_map,
    List.map_map]
  · rfl
  · intro a ha
    rw [Pattern.attemptAlternatives_eq_map] at ha
    obtain ⟨cs, _, rfl⟩ := List.mem_map.mp ha
    exact (each_transparent policy cs).keeps m

theorem each_grounded (hp : policy.Nonneg) (cs : List Pattern) {m : Progress Rat} (hfork : m.fork = m) :
    (inOrder (attemptEach policy cs) m).verdict.Grounded := by
  have hgain := (gains_composes hp).inOrder ((gains_composes hp).each cs) m
  have hscore : m.score = 0 := (congrArg Progress.score hfork).symm
  cases hc : inOrder (attemptEach policy cs) m with
  | matched x => rfl
  | failed f x =>
    rw [hc, hscore] at hgain
    exact Verdict.grounded_failed hgain

theorem variants_single (hp : policy.Nonneg) (cs : List Pattern) (id : Option Bytes) (inherited parenthesized : Bool) :
    Alike ((Pattern.variants [cs] id inherited parenthesized).attempt policy) ((Pattern.sequence cs).attempt policy) := by
  refine alike_of_open_fork fun m hfork hopen => ?_
  rw [variants_attempt_verdict [cs] id inherited parenthesized hfork hopen, Pattern.sequence_open policy cs hopen]
  exact Verdict.best_single (each_grounded hp cs hfork)

/-! ## Sequences in place -/

theorem each_append (cs ds : List Pattern) (m : Progress Rat) :
    inOrder (attemptEach policy (cs ++ ds)) m =
      (inOrder (attemptEach policy cs) m).andThen (inOrder (attemptEach policy ds)) := by
  rw [Pattern.attemptEach_eq_map, List.map_append, ← Pattern.attemptEach_eq_map, ← Pattern.attemptEach_eq_map,
    inOrder_append]

/-- The children of a sequence come in its place to what the sequence comes to, if there are any. -/
theorem unpacked_alike (policy : Policy Rat) {p : Pattern} (h : unpacked p ≠ []) :
    Alike (inOrder (attemptEach policy (unpacked p))) (p.attempt policy) := by
  cases p with
  | sequence cs =>
    intro m
    cases hm : m.terminated with
    | false =>
      rw [Pattern.sequence_open policy cs hm]
      rfl
    | true =>
      cases cs with
      | nil => exact absurd rfl h
      | cons c cs =>
        obtain ⟨f, hf⟩ := attempt_terminated policy c hm
        obtain ⟨g, hg⟩ := attempt_terminated policy (.sequence (c :: cs)) hm
        rw [hg, unpacked, attemptEach, inOrder_cons, hf]
        rfl
  | _ =>
    intro m
    rw [unpacked, attemptEach, attemptEach, inOrder_single]
    · simp

theorem unpackAll_alike {ps : List Pattern} (h : ∀ p ∈ ps, unpacked p ≠ []) :
    Alike (inOrder (attemptEach policy (unpackAll ps))) (inOrder (attemptEach policy ps)) := by
  induction ps with
  | nil => exact Alike.refl _
  | cons p ps ih =>
    intro m
    have hps := ih fun q hq => h q (List.mem_cons_of_mem _ hq)
    have hp := unpacked_alike policy (h p List.mem_cons_self) m
    rw [unpackAll, List.flatMap_cons, each_append, attemptEach, inOrder_cons]
    exact andThen_verdict hp hps (each_transparent policy ps)

/-! ## How groups are written -/

theorem variants_flags (as : List (List Pattern)) (id : Option Bytes) (inherited parenthesized inherited' parenthesized' : Bool) :
    Alike ((Pattern.variants as id inherited parenthesized).attempt policy)
      ((Pattern.variants as id inherited' parenthesized').attempt policy) := by
  refine unlessTerminated_alike fun m _ => ?_
  unfold attemptVariants
  dsimp only
  split
  · rfl
  · rw [concede_verdict, concede_verdict]

theorem guardSole_alike (id : Option Bytes) (ps : List Pattern) :
    Alike (inOrder (attemptEach policy (guardSole id ps))) (inOrder (attemptEach policy ps)) := by
  unfold guardSole
  split
  · rename_i as inherited _
    intro m
    rw [attemptEach, attemptEach, attemptEach, attemptEach, inOrder_single, inOrder_single]
    exact variants_flags as none _ _ _ _ m
  · exact Alike.refl _

/-! ## Nested variants -/

/-- A variant that is merged into the group around it comes to the same there. -/
theorem mergedVariant_verdict (hp : policy.Nonneg) (a : List Pattern) {m : Progress Rat} (hfork : m.fork = m)
    (hopen : m.terminated = false) :
    Verdict.best (verdicts policy m (mergedVariant a)) = (inOrder (attemptEach policy a) m).verdict := by
  unfold mergedVariant
  split
  · rename_i as inherited
    rw [attemptEach, attemptEach, inOrder_single, variants_attempt_verdict as none inherited false hfork hopen]
  · exact Verdict.best_single (each_grounded hp a hfork)

/-! ## Flattening -/

/-- The pattern `r` comes to what `p` comes to, and there is something of it to be unpacked. -/
structure Preserves (policy : Policy Rat) (p r : Pattern) : Prop where
  alike : Alike (r.attempt policy) (p.attempt policy)
  unpacked : unpacked r ≠ []

section

variable {cs : List Pattern} (h : ∀ c ∈ cs, ∀ nested sole, Preserves policy c (flattenIn nested sole c))

include h

theorem inlined_alike : Alike (inOrder (attemptEach policy (inlined cs))) (inOrder (attemptEach policy cs)) := by
  refine (unpackAll_alike ?_).trans ?_
  · rw [flattenEach_eq_map]
    exact List.forall_mem_map.mpr fun c hc => (h c hc true _).unpacked
  · rw [flattenEach_eq_map, Pattern.attemptEach_eq_map, List.map_map, Pattern.attemptEach_eq_map]
    exact inOrder_alike (fun c hc => (h c hc true _).alike) fun c _ => attempt_transparent policy c

theorem inlined_ne_nil (hne : cs ≠ []) : inlined cs ≠ [] := by
  rw [Pattern.inlined_eq_flatMap]
  have hlen := Pattern.length_le_flatMap fun c hc => (h c hc true (cs.length == 1)).unpacked
  have hpos := List.length_pos_iff.mpr hne
  exact List.ne_nil_of_length_pos (by omega)

/-- A sequence of what the children become comes to what the sequence of the children comes to. -/
theorem inlined_sequence (hne : cs ≠ []) : Preserves policy (.sequence cs) (.sequence (inlined cs)) :=
  ⟨unlessTerminated_alike fun m _ => inlined_alike h m, inlined_ne_nil h hne⟩

end

/-- A group that wraps a child comes to what the child comes to. -/
theorem wraps_alike (hp : policy.Nonneg) {p c : Pattern} (h : Wraps p c) : Alike (p.attempt policy) (c.attempt policy) := by
  cases h with
  | sequence => exact sequence_single c
  | variants _ i e => exact (variants_single hp [c] none i e).trans (sequence_single c)
  | unordered => exact unordered_single hp c

theorem inlinedVariants_verdict (hp : policy.Nonneg) {as : List (List Pattern)}
    (h : ∀ a ∈ as, ∀ c ∈ a, ∀ nested sole, Preserves policy c (flattenIn nested sole c)) {m : Progress Rat}
    (hfork : m.fork = m) (hopen : m.terminated = false) :
    Verdict.best (verdicts policy m (as.flatMap fun a => mergedVariant (inlined a))) =
      Verdict.best (verdicts policy m as) := by
  induction as with
  | nil => rfl
  | cons a as ih =>
    have has := ih fun b hb => h b (List.mem_cons_of_mem _ hb)
    have ha := inlined_alike (h a List.mem_cons_self) m
    have hgrounded := each_grounded hp a hfork
    have hcons : verdicts policy m (a :: as) = [(inOrder (attemptEach policy a) m).verdict] ++ verdicts policy m as := rfl
    rw [List.flatMap_cons, verdicts, List.map_append, Verdict.best_append, hcons, Verdict.best_append,
      Verdict.best_single hgrounded, ← has, ← ha, ← mergedVariant_verdict hp _ hfork hopen]
    rfl

theorem inlinedVariants_alike (hp : policy.Nonneg) {as : List (List Pattern)} (id : Option Bytes)
    (inherited parenthesized parenthesized' : Bool)
    (h : ∀ a ∈ as, ∀ c ∈ a, ∀ nested sole, Preserves policy c (flattenIn nested sole c)) :
    Alike ((Pattern.variants (as.flatMap fun a => mergedVariant (inlined a)) id inherited parenthesized').attempt policy)
      ((Pattern.variants as id inherited parenthesized).attempt policy) := by
  refine alike_of_open_fork fun m hfork hopen => ?_
  rw [variants_attempt_verdict _ id inherited parenthesized' hfork hopen,
    variants_attempt_verdict _ id inherited parenthesized hfork hopen]
  exact inlinedVariants_verdict hp h hfork hopen

theorem children_alike {cs : List Pattern} (h : ∀ c ∈ cs, ∀ nested sole, Preserves policy c (flattenIn nested sole c))
    (id : Option Bytes) (nested sole : Bool) :
    Alike ((Pattern.unordered (cs.map (flattenIn nested sole)) id).attempt policy)
      ((Pattern.unordered cs id).attempt policy) := by
  rw [Pattern.attempt, Pattern.attempt, Pattern.childrenFrom_eq_map, Pattern.childrenFrom_eq_map, List.zipIdx_map,
    List.map_map]
  refine unordered_alike policy.strategy id (fun x hx => ⟨rfl, ?_⟩) fun x _ => attempt_transparent policy x.1
  exact (h x.1 (List.fst_mem_of_mem_zipIdx hx) nested sole).alike

/-- Flattening changes no verdict of a pattern without empty groups, wherever the pattern stands. -/
theorem preserves_flattenIn (hp : policy.Nonneg) {p : Pattern} (h : ∀ q ∈ p.nodes, q.Filled) :
    ∀ nested sole, Preserves policy p (flattenIn nested sole p) := by
  refine Pattern.nodes_induct (P := Pattern.Filled)
    (M := fun p => ∀ nested sole, Preserves policy p (flattenIn nested sole p)) ?_ p h
  intro p hfilled ih nested sole
  have hflattens := Pattern.flattens nested sole p
  generalize flattenIn nested sole p = r at hflattens
  cases hflattens with
  | leaf hl => exact ⟨Alike.refl _, by cases hl <;> exact List.cons_ne_nil _ _⟩
  | @unwrap _ c hw =>
    have hc : Preserves policy c (flattenIn nested sole c) := by
      cases hw <;> exact ih _ List.mem_cons_self c List.mem_cons_self nested sole
    exact ⟨hc.alike.trans (wraps_alike hp hw).symm, hc.unpacked⟩
  | sequence cs => exact inlined_sequence (ih cs List.mem_cons_self) (hfilled cs List.mem_cons_self)
  | variant cs i e =>
    have hcs := inlined_sequence (ih cs List.mem_cons_self) (hfilled cs List.mem_cons_self)
    exact ⟨hcs.alike.trans (variants_single hp cs none i e).symm, hcs.unpacked⟩
  | optional cs id =>
    have hcs := inlined_alike (ih cs List.mem_cons_self)
    exact ⟨optional_alike id ((guardSole_alike id _).trans hcs), List.cons_ne_nil _ _⟩
  | variants as id i e => exact ⟨inlinedVariants_alike hp id i e _ ih, List.cons_ne_nil _ _⟩
  | unordered cs id => exact ⟨children_alike (ih cs List.mem_cons_self) id true _, List.cons_ne_nil _ _⟩

end CommandGrammar
