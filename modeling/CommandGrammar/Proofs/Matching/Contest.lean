/-
  CommandGrammar.Proofs.Matching.Contest — what a group of variants comes to.

  The verdict of a variant group is that of its variants, taken one after the other with
  `Verdict.or`: the better success, or else the better failure, the first of equals. This
  is associative, so that variants may be grouped in any way without changing what the
  whole comes to.
-/

import CommandGrammar.Proofs.Matching.Verdict
import Mathlib.Tactic.Linarith

namespace CommandGrammar

/-! ## The better of two verdicts -/

def Verdict.or : Verdict → Verdict → Verdict
  | .matched x, .matched y => .matched (if x.score < y.score then y else x)
  | .matched x, .failed _ => .matched x
  | .failed _, .matched y => .matched y
  | .failed s, .failed t => .failed (max s t)

theorem Verdict.or_assoc (u v w : Verdict) : (u.or v).or w = u.or (v.or w) := by
  cases u with
  | matched x =>
    cases v with
    | matched y =>
      cases w with
      | matched z =>
        simp only [Verdict.or]
        by_cases hxy : x.score < y.score
        · by_cases hyz : y.score < z.score
          · rw [if_pos hxy, if_pos hyz, if_pos (hxy.trans hyz)]
          · rw [if_pos hxy, if_neg hyz, if_pos hxy]
        · by_cases hyz : y.score < z.score
          · rw [if_neg hxy, if_pos hyz]
          · have hxz : ¬ x.score < z.score := by
              rw [not_lt] at hxy hyz ⊢
              exact hyz.trans hxy
            rw [if_neg hxy, if_neg hyz, if_neg hxy, if_neg hxz]
      | failed s => rfl
    | failed t => cases w <;> rfl
  | failed s =>
    cases v with
    | matched y => cases w <;> rfl
    | failed t =>
      cases w with
      | matched z => rfl
      | failed r => exact congrArg Verdict.failed (max_assoc s t r)

/-- The verdict is not below a failure without a score. -/
def Verdict.Grounded (v : Verdict) : Prop :=
  v.or (.failed 0) = v

theorem Verdict.grounded_failed {s : Rat} (h : 0 ≤ s) : (Verdict.failed s).Grounded :=
  congrArg Verdict.failed (max_eq_left h)

theorem Verdict.Grounded.or {v : Verdict} (h : v.Grounded) (w : Verdict) : (v.or w).Grounded := by
  cases v with
  | matched x => cases w <;> rfl
  | failed s =>
    cases w with
    | matched y => rfl
    | failed t =>
      have hs : 0 ≤ s := max_eq_left_iff.mp (Verdict.failed.inj h)
      exact Verdict.grounded_failed (hs.trans (le_max_left s t))

theorem Verdict.zero_or {v : Verdict} (h : v.Grounded) : (Verdict.failed 0).or v = v := by
  cases v with
  | matched x => rfl
  | failed s => exact congrArg Verdict.failed ((max_comm 0 s).trans (Verdict.failed.inj h))

/-! ## The best of several verdicts -/

/-- The best of the verdicts, or a failure without a score. -/
def Verdict.best (vs : List Verdict) : Verdict :=
  vs.foldl Verdict.or (.failed 0)

theorem Verdict.foldl_or (vs : List Verdict) : ∀ {w : Verdict}, w.Grounded → vs.foldl Verdict.or w = w.or (best vs) := by
  induction vs with
  | nil => exact fun h => h.symm
  | cons v vs ih =>
    intro w h
    have hzero : (Verdict.failed 0).Grounded := Verdict.grounded_failed le_rfl
    calc (v :: vs).foldl Verdict.or w
        = (w.or v).or (best vs) := ih (h.or v)
      _ = w.or (v.or (best vs)) := Verdict.or_assoc _ _ _
      _ = w.or (((Verdict.failed 0).or v).or (best vs)) := by
          rw [Verdict.or_assoc, ← Verdict.or_assoc w (.failed 0), h]
      _ = w.or (best (v :: vs)) := by
          rw [← ih (hzero.or v)]
          rfl

theorem Verdict.best_grounded (vs : List Verdict) : (best vs).Grounded := by
  have hfold : ∀ {w : Verdict}, w.Grounded → (vs.foldl Verdict.or w).Grounded := by
    induction vs with
    | nil => exact id
    | cons v vs ih => exact fun h => ih (h.or v)
  exact hfold (Verdict.grounded_failed le_rfl)

theorem Verdict.best_append (us vs : List Verdict) : best (us ++ vs) = (best us).or (best vs) := by
  unfold best
  rw [List.foldl_append]
  exact Verdict.foldl_or vs (Verdict.best_grounded us)

theorem Verdict.best_single {v : Verdict} (h : v.Grounded) : best [v] = v :=
  Verdict.zero_or h

/-! ## Variant groups -/

/-- The best so far: a success, or else the score of a failure. -/
def Verdict.standing (success : Option (Progress Rat)) (setback : Option Rat) : Verdict :=
  match success with
  | some x => .matched x
  | none => .failed (setback.getD 0)

theorem Verdict.standing_or_matched (success : Option (Progress Rat)) (setback : Option Rat) (x : Progress Rat) :
    (standing success setback).or (.matched x) = standing (Score.better (·.score) success x) setback := by
  cases success with
  | none => rfl
  | some y =>
    simp only [standing, Verdict.or, Score.better]
    split
    · rfl
    · rfl

theorem Verdict.standing_or_failed {success : Option (Progress Rat)} {setback : Option Rat} (hpos : ∀ s ∈ setback, 0 < s)
    (s : Rat) : (standing success setback).or (.failed s) =
      standing success (if 0 < s then Score.better id setback s else setback) := by
  cases success with
  | some y => rfl
  | none =>
    refine congrArg Verdict.failed ?_
    by_cases hs : 0 < s
    · rw [if_pos hs]
      cases setback with
      | none => exact max_eq_right hs.le
      | some t =>
        unfold Score.better
        dsimp only [id]
        by_cases hts : t < s
        · rw [if_pos hts]
          exact max_eq_right hts.le
        · rw [if_neg hts]
          exact max_eq_left (not_lt.mp hts)
    · rw [if_neg hs]
      refine max_eq_left ((not_lt.mp hs).trans ?_)
      cases setback with
      | none => exact le_rfl
      | some t => exact (hpos t rfl).le

/-- Successes and failures are compared in one pass as they are in two. -/
theorem Verdict.best_eq (vs : List Verdict) :
    best vs = standing (Score.firstBest (·.score) (vs.filterMap Verdict.success?))
      (Score.firstBest id (vs.filterMap Verdict.setback?)) := by
  have hfold : ∀ (us : List Verdict) (success : Option (Progress Rat)) (setback : Option Rat), (∀ s ∈ setback, 0 < s) →
      us.foldl Verdict.or (standing success setback) =
        standing ((us.filterMap Verdict.success?).foldl (Score.better (·.score)) success)
          ((us.filterMap Verdict.setback?).foldl (Score.better id) setback) := by
    intro us
    induction us with
    | nil => exact fun _ _ _ => rfl
    | cons v us ih =>
      intro success setback hpos
      cases v with
      | matched x =>
        rw [List.foldl_cons, standing_or_matched]
        exact ih _ _ hpos
      | failed s =>
        rw [List.foldl_cons, standing_or_failed hpos]
        by_cases hs : 0 < s
        · have hcons : (Verdict.failed s :: us).filterMap Verdict.setback? = s :: us.filterMap Verdict.setback? :=
            List.filterMap_cons_some (if_pos hs)
          rw [if_pos hs, hcons, List.foldl_cons]
          refine ih _ _ ?_
          intro t ht
          rcases Score.better_eq_some ht with ht | rfl
          · exact hpos t ht
          · exact hs
        · have hcons : (Verdict.failed s :: us).filterMap Verdict.setback? = us.filterMap Verdict.setback? :=
            List.filterMap_cons_none (if_neg hs)
          rw [if_neg hs, hcons]
          exact ih _ _ hpos
  exact hfold vs none none (by simp)

/-- On a fork a variant group comes to the best of what its variants come to there. -/
theorem variants_verdict (p : Pattern) (id : Option Bytes) {alternatives : List (Attempt Rat)} {m : Progress Rat}
    (hfork : m.fork = m) (hkeeps : ∀ a ∈ alternatives, Keeps m (a m).progress) :
    (attemptVariants p id alternatives m).verdict = Verdict.best (alternatives.map fun a => (a m).verdict) := by
  have hverdicts : (tryEach m (alternatives.zipIdx.map fun a => (a.2, a.1))).map (fun b => b.outcome.verdict) =
      alternatives.map fun a => (a m).verdict := by
    unfold tryEach
    rw [List.map_map, List.map_map, hfork]
    conv => rhs; rw [← List.zipIdx_map_fst 0 alternatives, List.map_map]
    rfl
  have hstates := bestSuccess_states (tryEach m (alternatives.zipIdx.map fun a => (a.2, a.1)))
  rw [hverdicts] at hstates
  rw [Verdict.best_eq, ← hstates]
  unfold attemptVariants
  dsimp only
  cases hbest : bestSuccess (tryEach m (alternatives.zipIdx.map fun a => (a.2, a.1))) with
  | none =>
    dsimp only
    have hscore : m.score = 0 := (congrArg Progress.score hfork).symm
    rw [concede_verdict, hverdicts, hscore, Rat.zero_add]
    rfl
  | some s =>
    obtain ⟨x, i⟩ := s
    obtain ⟨a, ha, hx⟩ := bestSuccess_tryEach hbest
    have hkeep : Keeps m x := by
      have hk := hkeeps a (List.mem_of_getElem? (mem_numbered.mp ha))
      rw [hfork] at hx
      rwa [hx] at hk
    refine congrArg Verdict.matched ?_
    rw [Progress.join_congr (m.withoutVariants_recordVariant id i) rfl, hkeep.join_of_fork hfork]

end CommandGrammar
