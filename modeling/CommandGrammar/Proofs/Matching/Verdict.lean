/-
  CommandGrammar.Proofs.Matching.Verdict — when two attempts come to the same.

  The verdict of an attempt is what is left of its outcome without the records of
  variants and the text of failures. Attempts are alike if their verdicts are the same on
  every state. Being alike is kept by every way of putting attempts together; where an
  attempt follows another one this needs that what it does depends on no records, that
  is, that it is transparent.
-/

import CommandGrammar.Proofs.Matching.Fork
import CommandGrammar.Proofs.Matching.Parallel

namespace CommandGrammar

/-! ## Verdicts -/

/-- The state with nothing recorded of variants. -/
def Progress.withoutVariants (m : Progress Rat) : Progress Rat :=
  { m with found := { m.found with variants := [], namedVariants := .empty } }

/-- What a match comes to: the state that it leaves, or the score at which it failed. -/
inductive Verdict where
  | matched (m : Progress Rat)
  | failed (score : Rat)

def Outcome.verdict : Outcome Rat → Verdict
  | .matched m => .matched m.withoutVariants
  | .failed _ m => .failed m.score

theorem Outcome.verdict_eq {o o' : Outcome Rat} (h : o.verdict = o'.verdict) :
    (∃ x y, o = .matched x ∧ o' = .matched y ∧ x.withoutVariants = y.withoutVariants) ∨
      ∃ f g x y, o = .failed f x ∧ o' = .failed g y ∧ x.score = y.score := by
  cases o with
  | matched x =>
    cases o' with
    | matched y => exact .inl ⟨x, y, rfl, rfl, Verdict.matched.inj h⟩
    | failed g y => cases h
  | failed f x =>
    cases o' with
    | matched y => cases h
    | failed g y => exact .inr ⟨f, g, x, y, rfl, rfl, Verdict.failed.inj h⟩

/-- The attempts come to the same on every state. -/
def Alike (a b : Attempt Rat) : Prop :=
  ∀ m, (a m).verdict = (b m).verdict

theorem Alike.refl (a : Attempt Rat) : Alike a a := fun _ => rfl

theorem Alike.symm {a b : Attempt Rat} (h : Alike a b) : Alike b a := fun m => (h m).symm

theorem Alike.trans {a b c : Attempt Rat} (h : Alike a b) (h' : Alike b c) : Alike a c :=
  fun m => (h m).trans (h' m)

/-! ## States that differ in variants -/

theorem Progress.withoutVariants_recordVariant (m : Progress Rat) (id : Option Bytes) (index : Nat) :
    (m.recordVariant id index).withoutVariants = m.withoutVariants := by
  cases id <;> rfl

theorem Progress.withoutVariants_recordOptional (m : Progress Rat) (id : Option Bytes) (present : Bool) :
    (m.recordOptional id present).withoutVariants = m.withoutVariants.recordOptional id present := by
  cases id <;> rfl

theorem Progress.withoutVariants_recordOrder (m : Progress Rat) (id : Option Bytes) (order : List Nat) :
    (m.recordOrder id order).withoutVariants = m.withoutVariants.recordOrder id order := by
  cases id <;> rfl

section

variable {m m' x x' : Progress Rat}

theorem Progress.fork_congr (h : m.withoutVariants = m'.withoutVariants) : m.fork = m'.fork := by
  have hm : m.fork = m.withoutVariants.fork := rfl
  have hm' : m'.fork = m'.withoutVariants.fork := rfl
  rw [hm, hm', h]

theorem Progress.withoutVariants_join (m x : Progress Rat) :
    (m.join x).withoutVariants = m.withoutVariants.join x.withoutVariants := rfl

theorem Progress.join_congr (h : m.withoutVariants = m'.withoutVariants) (h' : x.withoutVariants = x'.withoutVariants) :
    (m.join x).withoutVariants = (m'.join x').withoutVariants := by
  rw [withoutVariants_join, withoutVariants_join, h, h']

theorem Progress.score_congr (h : m.withoutVariants = m'.withoutVariants) : m.score = m'.score := by
  show m.withoutVariants.score = m'.withoutVariants.score
  rw [h]

theorem Outcome.verdict_onto (o : Outcome Rat) (h : m.withoutVariants = m'.withoutVariants) :
    (o.onto m).verdict = (o.onto m').verdict := by
  cases o with
  | matched x => exact congrArg Verdict.matched (Progress.join_congr h rfl)
  | failed f x =>
    have hscore : m.score + x.score = m'.score + x.score := by rw [Progress.score_congr h]
    exact congrArg Verdict.failed hscore

/-- What a transparent attempt comes to does not depend on what is recorded of variants. -/
theorem Transparent.verdict_congr {a : Attempt Rat} (ha : Transparent a) (h : m.withoutVariants = m'.withoutVariants) :
    (a m).verdict = (a m').verdict := by
  rw [ha.onto_fork m, ha.onto_fork m', Progress.fork_congr h]
  exact Outcome.verdict_onto _ h

end

/-- Transparent attempts that come to the same on forks are alike. -/
theorem Alike.of_fork {a b : Attempt Rat} (ha : Transparent a) (hb : Transparent b)
    (h : ∀ m : Progress Rat, (a m.fork).verdict = (b m.fork).verdict) : Alike a b := by
  intro m
  rw [ha.onto_fork m, hb.onto_fork m]
  rcases Outcome.verdict_eq (h m) with ⟨x, y, hx, hy, heq⟩ | ⟨f, g, x, y, hx, hy, heq⟩
  · rw [hx, hy]
    exact congrArg Verdict.matched (Progress.join_congr rfl heq)
  · rw [hx, hy]
    exact congrArg (fun s => Verdict.failed (m.score + s)) heq

/-! ## One after the other -/

theorem andThen_verdict {o o' : Outcome Rat} {a b : Attempt Rat} (ho : o.verdict = o'.verdict) (h : Alike a b)
    (hb : Transparent b) : (o.andThen a).verdict = (o'.andThen b).verdict := by
  rcases Outcome.verdict_eq ho with ⟨x, y, rfl, rfl, heq⟩ | ⟨f, g, x, y, rfl, rfl, heq⟩
  · exact (h x).trans (hb.verdict_congr heq)
  · exact congrArg Verdict.failed heq

theorem unlessTerminated_alike {p q : Pattern} {a b : Attempt Rat}
    (h : ∀ m, m.terminated = false → (a m).verdict = (b m).verdict) :
    Alike (unlessTerminated p a) (unlessTerminated q b) := by
  intro m
  unfold unlessTerminated
  cases hm : m.terminated with
  | false => exact h m hm
  | true => rfl

theorem optional_alike {p q : Pattern} {a b : Attempt Rat} (id : Option Bytes) (h : Alike a b) :
    Alike (unlessTerminated p (attemptOptional id a)) (unlessTerminated q (attemptOptional id b)) := by
  refine unlessTerminated_alike fun m _ => ?_
  unfold attemptOptional
  rcases Outcome.verdict_eq (h m.fork) with ⟨x, y, hx, hy, heq⟩ | ⟨f, g, x, y, hx, hy, heq⟩
  · rw [hx, hy]
    exact congrArg Verdict.matched (Progress.join_congr rfl heq)
  · rw [hx, hy]
    dsimp only
    rw [heq]
    split <;> rfl

/-! ## Branches -/

variable {α : Type}

def Branch.verdict (b : Branch Rat α) : α × Verdict :=
  (b.label, b.outcome.verdict)

def Verdict.success? : Verdict → Option (Progress Rat)
  | .matched x => some x
  | .failed _ => none

/-- The score of a failure that scored. -/
def Verdict.setback? : Verdict → Option Rat
  | .matched _ => none
  | .failed s => if 0 < s then some s else none

/-- The best success up to variants, as far as verdicts tell it. -/
theorem bestSuccess_verdicts (branches : List (Branch Rat α)) :
    (bestSuccess branches).map (fun s => (s.1.withoutVariants, s.2)) =
      Score.firstBest (fun s => s.1.score)
        ((branches.map Branch.verdict).filterMap fun r => r.2.success?.map fun x => (x, r.1)) := by
  unfold bestSuccess
  refine (Score.firstBest_map _ (fun s : Progress Rat × α => s.1.score) _ (fun _ => rfl) _).trans ?_
  rw [List.map_filterMap, List.filterMap_map]
  congr 2
  funext b
  simp only [Branch.success?, Branch.verdict, Function.comp]
  cases b.outcome <;> rfl

theorem bestSuccess_states (branches : List (Branch Rat α)) :
    (bestSuccess branches).map (fun s => s.1.withoutVariants) =
      Score.firstBest (·.score) ((branches.map fun b => b.outcome.verdict).filterMap Verdict.success?) := by
  have hfst := congrArg (Option.map Prod.fst) (bestSuccess_verdicts branches)
  rw [Option.map_map] at hfst
  refine hfst.trans ((Score.firstBest_map _ (fun x : Progress Rat => x.score) Prod.fst (fun _ => rfl) _).trans ?_)
  rw [List.map_filterMap, List.filterMap_map, List.filterMap_map]
  congr 2
  funext b
  simp [Branch.verdict, Function.comp_def]

/-- The score of the best failure, zero if none scored. -/
def setbackScore (verdicts : List Verdict) : Rat :=
  (Score.firstBest id (verdicts.filterMap Verdict.setback?)).getD 0

theorem concede_verdict (branches : List (Branch Rat α)) (otherwise : Failure Rat) (m : Progress Rat) :
    (concede branches otherwise m).verdict = .failed (m.score + setbackScore (branches.map fun b => b.outcome.verdict)) := by
  have hscores : (bestSetback branches).map (·.score) =
      Score.firstBest id ((branches.map fun b => b.outcome.verdict).filterMap Verdict.setback?) := by
    unfold bestSetback
    refine (Score.firstBest_map _ id _ (fun _ => rfl) _).trans ?_
    rw [List.map_filterMap, List.filterMap_map]
    congr 2
    funext b
    simp only [Branch.setback?, Function.comp]
    cases b.outcome with
    | matched x => rfl
    | failed f x =>
      simp only [Outcome.verdict, Verdict.setback?]
      split <;> rfl
  unfold concede setbackScore
  rw [← hscores]
  cases bestSetback branches with
  | none => exact congrArg Verdict.failed (Rat.add_zero _).symm
  | some f => rfl

/-! ## Side by side -/

/-- States that differ in variants only, side by side. Of failures, only what they scored is compared. -/
def upToVariants : Parallel Rat where
  state x y := x.withoutVariants = y.withoutVariants
  left x y := x.score = y.score
  failure _ _ := True
  left_of_state h := Progress.score_congr h
  score h := h
  terminated {x y} h := show x.withoutVariants.terminated = y.withoutVariants.terminated by rw [h]
  isEmpty {x y} h := show x.withoutVariants.tokens.isEmpty = y.withoutVariants.tokens.isEmpty by rw [h]
  fork h := congrArg Progress.withoutVariants (Progress.fork_congr h)
  join h h' := Progress.join_congr h h'
  addScore s h := congrArg (fun m : Progress Rat => m.addScore s) h
  recordOptional id present h := by
    rw [Progress.withoutVariants_recordOptional, Progress.withoutVariants_recordOptional, h]
  recordVariant id index h := by
    rw [Progress.withoutVariants_recordVariant, Progress.withoutVariants_recordVariant, h]
  recordOrder id order h := by
    rw [Progress.withoutVariants_recordOrder, Progress.withoutVariants_recordOrder, h]
  rescored _ _ := trivial

theorem upToVariants_agree {o o' : Outcome Rat} : upToVariants.Agree o o' ↔ o.verdict = o'.verdict := by
  constructor
  · intro h
    cases h with
    | matched hxy => exact congrArg Verdict.matched hxy
    | failed _ hxy => exact congrArg Verdict.failed hxy
  · intro h
    rcases Outcome.verdict_eq h with ⟨x, y, rfl, rfl, heq⟩ | ⟨f, g, x, y, rfl, rfl, heq⟩
    · exact .matched heq
    · exact .failed trivial heq

theorem Alike.alongside {a b : Attempt Rat} (h : Alike a b) (hb : Transparent b) : upToVariants.Alongside a b :=
  fun x _ hxy => upToVariants_agree.mpr ((h x).trans (hb.verdict_congr hxy))

theorem Alike.of_alongside {a b : Attempt Rat} (h : upToVariants.Alongside a b) : Alike a b :=
  fun _ => upToVariants_agree.mp (h rfl)

theorem inOrder_alike {β : Type} {f g : β → Attempt Rat} {xs : List β} (h : ∀ x ∈ xs, Alike (f x) (g x))
    (ht : ∀ x ∈ xs, Transparent (g x)) : Alike (inOrder (xs.map f)) (inOrder (xs.map g)) :=
  .of_alongside (Parallel.inOrder_alongside fun x hx => (h x hx).alongside (ht x hx))

theorem unordered_alike {β : Type} {f g : β → Child Rat} {p q p' q' : Pattern} (strategy : Strategy) (id : Option Bytes)
    {xs : List β} (h : ∀ x ∈ xs, (f x).index = (g x).index ∧ Alike (f x).attempt (g x).attempt)
    (ht : ∀ x ∈ xs, Transparent (g x).attempt) :
    Alike (unlessTerminated p (attemptUnordered strategy p' id (xs.map f)))
      (unlessTerminated q (attemptUnordered strategy q' id (xs.map g))) := by
  have hchildren : ∀ x ∈ xs, (f x).index = (g x).index ∧ upToVariants.Alongside (f x).attempt (g x).attempt :=
    fun x hx => ⟨(h x hx).1, (h x hx).2.alongside (ht x hx)⟩
  have hgroup : upToVariants.Alongside (attemptUnordered strategy p' id (xs.map f))
      (attemptUnordered strategy q' id (xs.map g)) :=
    Parallel.unordered_alongside strategy id hchildren (fun _ _ _ _ => trivial) fun _ _ _ _ _ => trivial
  exact .of_alongside (Parallel.unlessTerminated_alongside hgroup fun _ _ _ => trivial)

end CommandGrammar
