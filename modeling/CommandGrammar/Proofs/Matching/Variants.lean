/-
  CommandGrammar.Proofs.Matching.Variants — the best of the variants of a group.

  Every variant of a group is tried on a fork of its own, so that no variant sees what
  another has found. The group goes on from the first of those that score most, just as if
  there were no other variant; if all fail it keeps what was there before, adds the highest
  score that one of them reached, and reports the failure of the first that reached it
  (`attempt_best_variant`).
-/

import CommandGrammar.Proofs.Matching.Best
import CommandGrammar.Proofs.Matching.Fork

namespace CommandGrammar

open Pattern (attemptEach)

/-! ## The variants on forks -/

section

variable {σ : Type} [Score σ] (policy : Policy σ) (as : List (List Pattern)) (m : Progress σ)

/-- What each of the variants comes to on a fork. -/
def triedVariants : List (Branch σ Nat) :=
  as.zipIdx.map fun a => ⟨a.2, inOrder (attemptEach policy a.1) m.fork⟩

theorem mem_triedVariants {b : Branch σ Nat} :
    b ∈ triedVariants policy as m ↔ ∃ i a, as[i]? = some a ∧ ⟨i, inOrder (attemptEach policy a) m.fork⟩ = b := by
  rw [triedVariants, List.mem_map]
  constructor
  · rintro ⟨a, ha, rfl⟩
    exact ⟨a.2, a.1, List.mk_mem_zipIdx_iff_getElem?.mp ha, rfl⟩
  · rintro ⟨i, a, ha, rfl⟩
    exact ⟨(a, i), List.mk_mem_zipIdx_iff_getElem?.mpr ha, rfl⟩

/-- The variants are tried from the first to the last. -/
theorem triedVariants_ascending : (triedVariants policy as m).Pairwise fun b b' => b.label < b'.label := by
  have hplaces : (as.zipIdx.map (·.2)).Pairwise (· < ·) := by
    rw [List.zipIdx_map_snd]
    exact List.pairwise_lt_range'
  exact List.pairwise_map.mpr (List.pairwise_map.mp hplaces)

/-- What a variant group comes to. -/
theorem variants_best (id : Option Bytes) (inherited parenthesized : Bool) (hopen : m.terminated = false) :
    ∃ otherwise, (Pattern.variants as id inherited parenthesized).attempt policy m =
      match bestSuccess (triedVariants policy as m) with
      | some (x, i) => .matched ((m.recordVariant id i).join x)
      | none => concede (triedVariants policy as m) otherwise m := by
  have htried : tryEach m ((Pattern.attemptAlternatives policy as).zipIdx.map fun a => (a.2, a.1)) =
      triedVariants policy as m := by
    rw [triedVariants, tryEach, Pattern.attemptAlternatives_eq_map, List.zipIdx_map, List.map_map, List.map_map]
    rfl
  rw [Pattern.attempt, unlessTerminated_open hopen, attemptVariants, htried]
  exact ⟨_, rfl⟩

end

/-! ## The best variant -/

section

variable {policy : Policy Rat} {as : List (List Pattern)} {m : Progress Rat}

/-- The variant that is taken scores at least as much as every other, and is the first of those that score as much. -/
theorem variant_of_bestSuccess {x : Progress Rat} {i : Nat} (h : bestSuccess (triedVariants policy as m) = some (x, i)) :
    ∃ a, as[i]? = some a ∧ inOrder (attemptEach policy a) m.fork = .matched x ∧
      ∀ j b y, as[j]? = some b → inOrder (attemptEach policy b) m.fork = .matched y →
        y.score ≤ x.score ∧ (y.score = x.score → i ≤ j) := by
  obtain ⟨b, hb, hx, rfl⟩ := bestSuccess_mem h
  obtain ⟨i, a, ha, rfl⟩ := (mem_triedVariants policy as m).mp hb
  refine ⟨a, ha, hx, fun j b y hb hy => ?_⟩
  have hmem := (mem_triedVariants policy as m).mpr ⟨j, b, hb, rfl⟩
  exact bestSuccess_best h (triedVariants_ascending policy as m) _ hmem y hy

theorem failed_variant (h : bestSuccess (triedVariants policy as m) = none) {i : Nat} {a : List Pattern}
    (ha : as[i]? = some a) : ∃ e x, inOrder (attemptEach policy a) m.fork = .failed e x :=
  bestSuccess_eq_none.mp h _ ((mem_triedVariants policy as m).mpr ⟨i, a, ha, rfl⟩)

/-- If all variants fail, what they scored is what the failures scored. -/
theorem failedScores_triedVariants (h : bestSuccess (triedVariants policy as m) = none) :
    failedScores (triedVariants policy as m) =
      {t | ∃ a ∈ as, t = (inOrder (attemptEach policy a) m.fork).progress.score} := by
  ext t
  constructor
  · rintro ⟨b, hb, e, x, hout, rfl⟩
    obtain ⟨i, a, ha, rfl⟩ := (mem_triedVariants policy as m).mp hb
    exact ⟨a, List.mem_of_getElem? ha, congrArg (·.progress.score) hout.symm⟩
  · rintro ⟨a, hmem, rfl⟩
    obtain ⟨i, ha⟩ := List.mem_iff_getElem?.mp hmem
    obtain ⟨e, x, hout⟩ := failed_variant h ha
    exact ⟨_, (mem_triedVariants policy as m).mpr ⟨i, a, ha, rfl⟩, e, x, hout, congrArg (·.progress.score) hout⟩

/-- If all variants fail, the best of their failures is reported, and of equals the first. -/
theorem variant_of_concede (h : bestSuccess (triedVariants policy as m) = none) {otherwise f : Failure Rat}
    {m' : Progress Rat} (hf : concede (triedVariants policy as m) otherwise m = .failed f m') :
    ∃ s, m' = m.addScore s ∧
      IsGreatest (insert 0 {t | ∃ a ∈ as, t = (inOrder (attemptEach policy a) m.fork).progress.score}) s ∧
      (0 < s → ∃ (i : Nat) (a : List Pattern) (e : Failure Rat) (x : Progress Rat), as[i]? = some a ∧
        inOrder (attemptEach policy a) m.fork = .failed e x ∧ x.score = s ∧ f = { e with score := s } ∧
        ∀ (j : Nat) (b : List Pattern), as[j]? = some b →
          (inOrder (attemptEach policy b) m.fork).progress.score = s → i ≤ j) := by
  obtain ⟨s, rfl, hgreatest, hfailure⟩ := concede_best hf (triedVariants_ascending policy as m)
  rw [failedScores_triedVariants h] at hgreatest
  refine ⟨s, rfl, hgreatest, fun hpos => ?_⟩
  obtain ⟨b, hb, e, x, hx, hscore, hf, hfirst⟩ := hfailure hpos
  obtain ⟨i, a, ha, rfl⟩ := (mem_triedVariants policy as m).mp hb
  refine ⟨i, a, e, x, ha, hx, hscore, hf, fun j b hb hreached => ?_⟩
  obtain ⟨e', y, hy⟩ := failed_variant h hb
  rw [hy] at hreached
  exact hfirst _ ((mem_triedVariants policy as m).mpr ⟨j, b, hb, rfl⟩) e' y hy hreached

end

/-- Behind its record, a group does what the variant would do alone. -/
theorem variant_alone (policy : Policy Rat) (a : List Pattern) (m : Progress Rat) (id : Option Bytes) (i : Nat)
    {x : Progress Rat} (h : inOrder (attemptEach policy a) m.fork = .matched x) :
    inOrder (attemptEach policy a) (m.recordVariant id i) = .matched ((m.recordVariant id i).join x) := by
  have hfork : (m.recordVariant id i).fork = m.fork := (Records.variant id i).fork
  rw [(each_transparent policy a).onto_fork, hfork, h]
  rfl

/-- A variant group matches exactly if some variant does. It takes the best of them, of equals the first, and leaves
    what this variant alone would leave behind the record of it. If all fail, only the score is changed: by the highest
    of what they scored, or not at all. If it is changed, the failure is that of the first variant that scored this. -/
theorem attempt_best_variant (policy : Policy Rat) (as : List (List Pattern)) (id : Option Bytes)
    (inherited parenthesized : Bool) {m : Progress Rat} (hopen : m.terminated = false) :
    ((∃ m', (Pattern.variants as id inherited parenthesized).attempt policy m = .matched m') ↔
        ∃ a ∈ as, ∃ x, inOrder (attemptEach policy a) m.fork = .matched x) ∧
      (∀ m', (Pattern.variants as id inherited parenthesized).attempt policy m = .matched m' →
        ∃ (i : Nat) (a : List Pattern) (x : Progress Rat), as[i]? = some a ∧
          inOrder (attemptEach policy a) m.fork = .matched x ∧ m' = (m.recordVariant id i).join x ∧
          inOrder (attemptEach policy a) (m.recordVariant id i) = .matched m' ∧
          ∀ (j : Nat) (b : List Pattern) (y : Progress Rat), as[j]? = some b →
            inOrder (attemptEach policy b) m.fork = .matched y → y.score ≤ x.score ∧ (y.score = x.score → i ≤ j)) ∧
      ∀ f m', (Pattern.variants as id inherited parenthesized).attempt policy m = .failed f m' →
        ∃ s, m' = m.addScore s ∧
          IsGreatest (insert 0 {t | ∃ a ∈ as, t = (inOrder (attemptEach policy a) m.fork).progress.score}) s ∧
          (0 < s → ∃ (i : Nat) (a : List Pattern) (e : Failure Rat) (x : Progress Rat), as[i]? = some a ∧
            inOrder (attemptEach policy a) m.fork = .failed e x ∧ x.score = s ∧ f = { e with score := s } ∧
            ∀ (j : Nat) (b : List Pattern), as[j]? = some b →
              (inOrder (attemptEach policy b) m.fork).progress.score = s → i ≤ j) := by
  obtain ⟨otherwise, hgroup⟩ := variants_best policy as m id inherited parenthesized hopen
  rw [hgroup]
  cases hbest : bestSuccess (triedVariants policy as m) with
  | some best =>
    obtain ⟨x, i⟩ := best
    obtain ⟨a, ha, hx, hfirst⟩ := variant_of_bestSuccess hbest
    refine ⟨⟨fun _ => ⟨a, List.mem_of_getElem? ha, x, hx⟩, fun _ => ⟨_, rfl⟩⟩, fun m' h => ?_, fun f m' h => ?_⟩
    · cases h
      exact ⟨i, a, x, ha, hx, rfl, variant_alone policy a m id i hx, hfirst⟩
    · cases h
  | none =>
    refine ⟨⟨?_, ?_⟩, fun m' h => absurd h (concede_ne_matched _ _ _ _), fun f m' h => ?_⟩
    · rintro ⟨m', h⟩
      exact absurd h (concede_ne_matched _ _ _ _)
    · rintro ⟨a, hmem, x, hx⟩
      obtain ⟨i, ha⟩ := List.mem_iff_getElem?.mp hmem
      obtain ⟨e, y, hy⟩ := failed_variant hbest ha
      rw [hx] at hy
      cases hy
    · exact variant_of_concede hbest h

/-- Two of the variants take both words, and the first word alone is worth as much to another; a call of one word leads
    three of them equally far. -/
theorem attempt_best_variant_tied :
    let as : List (List Pattern) :=
      [[.literal (ascii "go") true false, .parameter (ascii "n") (some (ascii "int"))],
        [.parameter (ascii "a") none, .literal (ascii "y") true false],
        [.parameter (ascii "b") none, .parameter (ascii "c") none],
        [.parameter (ascii "d") none, .parameter (ascii "e") none]]
    let group : Pattern := .variants as (some (ascii "v")) false false
    let m : Progress Rat :=
      .start (ascii "go x") [⟨.plain, ascii "go", 0, 2, ascii "go"⟩, ⟨.plain, ascii "x", 3, 4, ascii "x"⟩]
    let short : Progress Rat := .start (ascii "stop") [⟨.plain, ascii "stop", 0, 4, ascii "stop"⟩]
    m.terminated = false ∧ short.terminated = false ∧
      (∃ m', group.attempt .standard m = .matched m' ∧ m'.found.namedVariants.entries = [(ascii "v", 2)] ∧
        m'.found.params.entries.map (·.1) = [ascii "b", ascii "c"] ∧
        ∃ (i : Nat) (a : List Pattern), as[i]? = some a ∧
          inOrder (attemptEach .standard a) (m.recordVariant (some (ascii "v")) i) = .matched m') ∧
      ∃ f m', group.attempt .standard short = .failed f m' ∧ f.kind = .missingLiteral ∧
        ∃ s, m' = short.addScore s ∧
          IsGreatest (insert 0 {t | ∃ a ∈ as, t = (inOrder (attemptEach .standard a) short.fork).progress.score}) s := by
  intro as group m short
  have hmatched : (group.attempt .standard m).failure?.isNone = true := by decide +kernel
  have hfound : (group.attempt .standard m).progress.found.namedVariants.entries = [(ascii "v", 2)] ∧
      (group.attempt .standard m).progress.found.params.entries.map (·.1) = [ascii "b", ascii "c"] := by decide +kernel
  have hkind : (group.attempt .standard short).failure?.map (·.kind) = some .missingLiteral := by decide +kernel
  have hbest := attempt_best_variant .standard as (some (ascii "v")) false false (m := m) rfl
  have hworst := attempt_best_variant .standard as (some (ascii "v")) false false (m := short) rfl
  refine ⟨rfl, rfl, ?_, ?_⟩
  · obtain ⟨m', h⟩ := Outcome.exists_matched hmatched
    rw [h] at hfound
    obtain ⟨i, a, x, ha, -, -, halone, -⟩ := hbest.2.1 m' h
    exact ⟨m', h, hfound.1, hfound.2, i, a, ha, halone⟩
  · cases h : group.attempt .standard short with
    | matched m' =>
      rw [h] at hkind
      cases hkind
    | failed f m' =>
      rw [h] at hkind
      obtain ⟨s, hs, hgreatest, -⟩ := hworst.2.2 f m' h
      exact ⟨f, m', rfl, Option.some.inj hkind, s, hs, hgreatest⟩

end CommandGrammar
