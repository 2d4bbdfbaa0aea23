/-
  CommandGrammar.Proofs.Command.Dispatch — which command answers a call.

  What a command makes of a call does not depend on the others (`outcomeOf`). The answer
  is told from these outcomes alone: the command that leads among the successes, or else
  the one that leads among the failures, if its failure scored, and otherwise none
  (`Decides`). To lead is to score no less than any other, and more than all before it.
-/

import CommandGrammar.Command.Dispatcher
import CommandGrammar.Proofs.Score

namespace CommandGrammar

variable {α β γ : Type}

/-! ## Leading -/

/-- At the place `i` of the list stands `x`, which is the first of those with the highest score `s`. What has no
    score does not count. -/
structure Leads (score? : β → Option Rat) (xs : List β) (i : Nat) (x : β) (s : Rat) : Prop where
  here : xs[i]? = some x
  scored : score? x = some s
  highest : ∀ y ∈ xs, ∀ t ∈ score? y, t ≤ s
  first : ∀ j < i, ∀ y ∈ xs[j]?, ∀ t ∈ score? y, t < s

namespace Leads

variable {score? : β → Option Rat} {xs : List β} {i j : Nat} {x y : β} {s t : Rat}

theorem mem (h : Leads score? xs i x s) : x ∈ xs :=
  List.mem_of_getElem? h.here

theorem of_split {before after : List β} (hx : score? x = some s) (hbefore : ∀ y ∈ before, ∀ t ∈ score? y, t < s)
    (hafter : ∀ y ∈ after, ∀ t ∈ score? y, t ≤ s) : Leads score? (before ++ x :: after) before.length x s where
  here := by simp
  scored := hx
  highest := by
    rw [List.forall_mem_append, List.forall_mem_cons]
    refine ⟨fun y hy t ht => (hbefore y hy t ht).le, fun t ht => ?_, hafter⟩
    rw [Option.mem_def, hx] at ht
    exact (Option.some.inj ht).ge
  first := by
    intro j hj y hy
    rw [List.getElem?_append_left hj] at hy
    exact hbefore y (List.mem_of_getElem? hy)

theorem not_all_none (h : Leads score? xs i x s) : ¬ ∀ y ∈ xs, score? y = none := by
  intro hnone
  have := hnone x h.mem
  rw [h.scored] at this
  cases this

/-- No place before a leader leads. -/
theorem le (hx : Leads score? xs i x s) (hy : Leads score? xs j y t) : i ≤ j := by
  by_contra hji
  have hlt : t < s := hx.first j (not_le.mp hji) y hy.here t hy.scored
  have hle : s ≤ t := hy.highest x hx.mem s hx.scored
  exact absurd hlt (not_lt.mpr hle)

/-- There is one leader. -/
theorem unique (hx : Leads score? xs i x s) (hy : Leads score? xs j y t) : i = j ∧ x = y ∧ s = t := by
  have hij : i = j := le_antisymm (hx.le hy) (hy.le hx)
  have hxy : x = y := by
    have hhere := hx.here
    rw [hij, hy.here] at hhere
    exact (Option.some.inj hhere).symm
  have hst : s = t := by
    have hscored := hx.scored
    rw [hxy, hy.scored] at hscored
    exact (Option.some.inj hscored).symm
  exact ⟨hij, hxy, hst⟩

end Leads

theorem exists_mem_zipIdx {x : β} {xs : List β} (h : x ∈ xs) (k : Nat) : ∃ i, (x, i) ∈ xs.zipIdx k := by
  rw [← List.zipIdx_map_fst k xs] at h
  obtain ⟨⟨_, i⟩, hi, rfl⟩ := List.mem_map.mp h
  exact ⟨i, hi⟩

/-- The first of the best among what numbered elements give is given by the leader. -/
theorem leads_of_firstBest {score? : β → Option Rat} {score : γ → Rat} {give : β × Nat → Option γ} {xs : List β} {y : γ}
    (hgive : ∀ x i, (give (x, i)).map score = score? x) (h : Score.firstBest score (xs.zipIdx.filterMap give) = some y) :
    ∃ i x, Leads score? xs i x (score y) ∧ give (x, i) = some y := by
  obtain ⟨before, after, hsplit, hbefore, hafter⟩ := Score.firstBest_eq_some h
  -- the elements that give something are divided by the leader, and so are all
  obtain ⟨us, vs, hus, rfl, hvs⟩ := List.filterMap_eq_append_iff.mp hsplit
  obtain ⟨ws, ⟨x, i⟩, zs, rfl, hws, hx, rfl⟩ := List.filterMap_eq_cons_iff.mp hvs
  rw [← List.append_assoc] at hus
  obtain ⟨ps, qs, rfl, hps, hqs⟩ := List.zipIdx_eq_append_iff.mp hus
  obtain ⟨x', qs, rfl, hxi, rfl⟩ := List.zipIdx_eq_cons_iff.mp hqs.symm
  obtain ⟨rfl, rfl⟩ := Prod.mk.inj hxi
  rw [Nat.zero_add] at hx
  have hscore : ∀ z j, ∀ t ∈ score? z, ∃ c, give (z, j) = some c ∧ score c = t := by
    intro z j t ht
    rw [← hgive z j] at ht
    exact Option.map_eq_some_iff.mp ht
  refine ⟨ps.length, x, Leads.of_split ?_ ?_ ?_, hx⟩
  · rw [← hgive x ps.length, hx, Option.map_some]
  · intro z hz t ht
    obtain ⟨j, hj⟩ := exists_mem_zipIdx hz 0
    obtain ⟨c, hc, rfl⟩ := hscore z j t ht
    rw [← hps] at hj
    rcases List.mem_append.mp hj with hj | hj
    · exact hbefore c (List.mem_filterMap.mpr ⟨_, hj, hc⟩)
    · rw [hws _ hj] at hc
      cases hc
  · intro z hz t ht
    obtain ⟨j, hj⟩ := exists_mem_zipIdx hz (0 + ps.length + 1)
    obtain ⟨c, hc, rfl⟩ := hscore z j t ht
    exact hafter c (List.mem_filterMap.mpr ⟨_, hj, hc⟩)

namespace Dispatcher

variable {σ : Type}

/-! ## One command -/

/-- What the command makes of the call on its own. -/
def outcomeOf [Score σ] (d : Dispatcher σ α) (call : Bytes) (c : Command α) : Outcome σ :=
  c.compiled.matchCall d.policy (Progress.start call (Call.tokens d.grammar.specials.quoting call))

/-- Whatever scores are, the answer to a call is the match of a command. -/
theorem exists_matched_of_dispatch [Score σ] {d : Dispatcher σ α} {call : Bytes} {a : Answer σ α}
    (h : d.dispatch call = .ok a) :
    ∃ c ∈ d.commands, a.result = c.result ∧ d.outcomeOf call c = .matched a.progress := by
  unfold dispatch at h
  dsimp only at h
  split at h
  · rename_i best hbest
    cases h
    obtain ⟨o, ho, ha⟩ := List.mem_filterMap.mp (Score.firstBest_mem hbest)
    obtain ⟨c, hc, rfl⟩ := List.mem_map.mp ho
    refine ⟨c.1, List.fst_mem_of_mem_zipIdx hc, ?_⟩
    split at ha
    · rename_i m hm
      cases ha
      exact ⟨rfl, hm⟩
    · cases ha
  · cases h

variable (d : Dispatcher Rat α) (call : Bytes)

/-- The score of a command that matches the call. -/
def successScore? (c : Command α) : Option Rat :=
  match d.outcomeOf call c with
  | .matched m => some m.score
  | .failed .. => none

/-- The score of a command that does not. -/
def failureScore? (c : Command α) : Option Rat :=
  (d.outcomeOf call c).failure?.map (·.score)

/-- The answer that a command gives at its place. -/
def answerOf (c : Command α × Nat) : Option (Answer Rat α) :=
  match d.outcomeOf call c.1 with
  | .matched m => some ⟨c.1.result, c.2, Call.tokens d.grammar.specials.quoting call, m⟩
  | .failed .. => none

/-- The rejection that it gives instead. -/
def rejectionOf (c : Command α × Nat) : Option (Rejection Rat α) :=
  (d.outcomeOf call c.1).failure?.map fun f => ⟨c.2, c.1, f⟩

theorem answerOf_score (c : Command α) (i : Nat) :
    (d.answerOf call (c, i)).map (·.progress.score) = d.successScore? call c := by
  unfold answerOf successScore?
  cases d.outcomeOf call c <;> rfl

theorem rejectionOf_score (c : Command α) (i : Nat) :
    (d.rejectionOf call (c, i)).map (·.failure.score) = d.failureScore? call c := by
  unfold rejectionOf failureScore?
  cases d.outcomeOf call c <;> rfl

/-! ## All commands -/

theorem answers_eq :
    answers (Call.tokens d.grammar.specials.quoting call)
      (d.outcomes call (Call.tokens d.grammar.specials.quoting call)) = d.commands.zipIdx.filterMap (d.answerOf call) := by
  rw [answers, outcomes, List.filterMap_map]
  congr 1
  funext c
  simp only [Function.comp, answerOf, outcomeOf]
  generalize c.1.compiled.matchCall d.policy _ = o
  cases o <;> rfl

theorem rejections_eq :
    rejections (d.outcomes call (Call.tokens d.grammar.specials.quoting call)) =
      d.commands.zipIdx.filterMap (d.rejectionOf call) := by
  rw [rejections, outcomes, List.filterMap_map]
  rfl

/-- The grammars of the commands that failed with the score `s`. -/
def renderedAt (s : Rat) : List Bytes :=
  (d.commands.filter fun c => d.failureScore? call c == some s).map (·.compiled.render)

theorem rendered_eq (s : Rat) :
    ((d.commands.zipIdx.filterMap (d.rejectionOf call)).filter fun r => Score.same r.failure.score s).map
      (·.command.compiled.render) = d.renderedAt call s := by
  have hcommands : d.renderedAt call s =
      (d.commands.zipIdx.filter fun c => d.failureScore? call c.1 == some s).map (·.1.compiled.render) := by
    conv_lhs => rw [renderedAt, ← List.zipIdx_map_fst 0 d.commands, List.filter_map, List.map_map]
    rfl
  rw [hcommands, List.filter_filterMap, List.map_filterMap, ← List.filterMap_eq_filter, List.map_filterMap]
  congr 1
  funext c
  cases hf : (d.outcomeOf call c.1).failure? with
  | none => simp [rejectionOf, failureScore?, hf]
  | some f =>
    by_cases hs : f.score = s
    · simp [rejectionOf, failureScore?, hf, Option.filter, Score.same_iff, hs]
    · simp [rejectionOf, failureScore?, hf, Option.filter, Score.same_iff, hs]

/-! ## The decision -/

/-- What a call comes to, as far as it is told from what each command makes of it on its own. -/
inductive Decides : Except (Refusal Rat) (Answer Rat α) → Prop
  /-- The command that leads among the successes answers, with the state that it has reached. -/
  | answer {i : Nat} {c : Command α} {m : Progress Rat} :
      Leads (d.successScore? call) d.commands i c m.score → d.outcomeOf call c = .matched m →
      Decides (.ok { result := c.result, index := i, tokens := Call.tokens d.grammar.specials.quoting call, progress := m })
  /-- No command matches, and the one that leads among the failures has scored. -/
  | refusal {i : Nat} {c : Command α} {f : Failure Rat} :
      (∀ c ∈ d.commands, d.successScore? call c = none) →
      Leads (d.failureScore? call) d.commands i c f.score → (d.outcomeOf call c).failure? = some f → 0 < f.score →
      Decides (.error { failure := f, call, index := some i, closest := d.renderedAt call f.score })
  /-- All commands have failed without a score. -/
  | unknown :
      (∀ c ∈ d.commands, d.successScore? call c = none) → (∀ c ∈ d.commands, ∀ s ∈ d.failureScore? call c, s ≤ 0) →
      Decides (.error {
        failure := {
          kind := .unknownCommand
          actual := (Call.tokens d.grammar.specials.quoting call).head?
          score := 0 }
        call
        index := none
        closest := [] })

variable {d call}

theorem decides_of_answer {a : Answer Rat α}
    (h : Score.firstBest (·.progress.score) (d.commands.zipIdx.filterMap (d.answerOf call)) = some a) :
    d.Decides call (.ok a) := by
  obtain ⟨i, c, hlead, ha⟩ := leads_of_firstBest (d.answerOf_score call) h
  unfold answerOf at ha
  split at ha
  · rename_i m hm
    cases ha
    exact .answer hlead hm
  · cases ha

theorem decides_of_rejections (h : ∀ c ∈ d.commands, d.successScore? call c = none) :
    d.Decides call (.error (refuse call (Call.tokens d.grammar.specials.quoting call)
      (d.commands.zipIdx.filterMap (d.rejectionOf call)))) := by
  unfold refuse
  split
  case h_1 r hbest =>
    obtain ⟨i, c, hlead, hr⟩ := leads_of_firstBest (d.rejectionOf_score call) hbest
    obtain ⟨f, hf, rfl⟩ := Option.map_eq_some_iff.mp hr
    dsimp only at hlead ⊢
    split
    case isTrue hpos =>
      rw [rendered_eq]
      exact .refusal h hlead hf hpos
    case isFalse hpos =>
      exact .unknown h fun c' hc' s hs => (hlead.highest c' hc' s hs).trans (not_lt.mp hpos)
  case h_2 hnone =>
    have hnil := Score.firstBest_eq_none.mp hnone
    refine .unknown h fun c hc s hs => ?_
    -- a command that fails gives a rejection, and there is none
    obtain ⟨i, hi⟩ := exists_mem_zipIdx hc 0
    rw [← d.rejectionOf_score call c i, List.filterMap_eq_nil_iff.mp hnil _ hi] at hs
    cases hs

theorem decides_dispatch (d : Dispatcher Rat α) (call : Bytes) : d.Decides call (d.dispatch call) := by
  unfold dispatch
  dsimp only
  rw [answers_eq, rejections_eq]
  split
  case h_1 a ha => exact decides_of_answer ha
  case h_2 hnone =>
    have hnil := Score.firstBest_eq_none.mp hnone
    refine decides_of_rejections fun c hc => ?_
    obtain ⟨i, hi⟩ := exists_mem_zipIdx hc 0
    rw [← d.answerOf_score call c i, List.filterMap_eq_nil_iff.mp hnil _ hi]
    rfl

/-- The commands decide in one way. -/
theorem Decides.unique {r r' : Except (Refusal Rat) (Answer Rat α)} (h : d.Decides call r) (h' : d.Decides call r') :
    r = r' := by
  cases h with
  | answer hlead hm =>
    cases h' with
    | answer hlead' hm' =>
      obtain ⟨rfl, rfl, _⟩ := hlead.unique hlead'
      rw [hm] at hm'
      cases hm'
      rfl
    | refusal hnone => exact absurd hnone hlead.not_all_none
    | unknown hnone => exact absurd hnone hlead.not_all_none
  | refusal hnone hlead hf hpos =>
    cases h' with
    | answer hlead' => exact absurd hnone hlead'.not_all_none
    | refusal _ hlead' hf' =>
      obtain ⟨rfl, rfl, _⟩ := hlead.unique hlead'
      rw [hf] at hf'
      cases hf'
      rfl
    | unknown _ hle => exact absurd hpos (not_lt.mpr (hle _ hlead.mem _ hlead.scored))
  | unknown hnone hle =>
    cases h' with
    | answer hlead' => exact absurd hnone hlead'.not_all_none
    | refusal _ hlead' _ hpos => exact absurd hpos (not_lt.mpr (hle _ hlead'.mem _ hlead'.scored))
    | unknown => rfl

/-- A call is answered exactly if some command matches it, and what it comes to is what the commands decide. -/
theorem dispatch_decides (d : Dispatcher Rat α) (call : Bytes) :
    ((∃ a, d.dispatch call = .ok a) ↔ ∃ c ∈ d.commands, ∃ m, d.outcomeOf call c = .matched m) ∧
      ∀ r, d.dispatch call = r ↔ d.Decides call r := by
  have hdecides := decides_dispatch d call
  refine ⟨?_, fun r => ⟨fun h => h ▸ hdecides, fun h => hdecides.unique h⟩⟩
  constructor
  · rintro ⟨a, ha⟩
    rw [ha] at hdecides
    cases hdecides with
    | answer hlead hm => exact ⟨_, hlead.mem, _, hm⟩
  · rintro ⟨c, hc, m, hm⟩
    have hscore : d.successScore? call c = some m.score := by rw [successScore?, hm]
    generalize d.dispatch call = r at hdecides
    cases hdecides with
    | answer => exact ⟨_, rfl⟩
    | refusal hnone => rw [hnone c hc] at hscore; cases hscore
    | unknown hnone => rw [hnone c hc] at hscore; cases hscore

end Dispatcher

end CommandGrammar
