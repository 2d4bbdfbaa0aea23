/-
  CommandGrammar.Proofs.Matching.Soundness — every successful match is a derivation.

  What a match adds to the state before it is exactly what a derivation of the pattern
  finds (`attempt_derives`). A branch that was tried and not taken leaves no trace: each
  works on a fork, and only the one that is chosen is joined. This holds for any nesting
  of groups, for both strategies, and whatever scores are.
-/

import CommandGrammar.Proofs.Matching.Derivation
import CommandGrammar.Proofs.Matching.Findings
import CommandGrammar.Proofs.Matching.Rounds

namespace CommandGrammar

variable {σ : Type}

/-! ## What a match adds -/

/-- `m'` is `m`, further in the same call, with `f` found behind what was found before. -/
structure Extends (m m' : Progress σ) (f : Findings) : Prop where
  raw : m'.raw = m.raw
  found : m'.found = m.found.merge f

theorem Extends.refl (m : Progress σ) : Extends m m {} where
  raw := rfl
  found := (Findings.merge_nothing _).symm

theorem Extends.trans {m m₁ m₂ : Progress σ} {f g : Findings} (h : Extends m m₁ f) (h' : Extends m₁ m₂ g) :
    Extends m m₂ (f.merge g) where
  raw := h'.raw.trans h.raw
  found := by rw [h'.found, h.found, Findings.merge_assoc]

theorem Progress.position_eq {m : Progress σ} (h : m.terminated = false) : m.position = ⟨m.tokens, false⟩ := by
  rw [position, h]

theorem Progress.remainingText_eq {m : Progress σ} (h : m.remainingText.isEmpty = false) :
    ∃ t ts last, m.tokens = t :: ts ∧ m.tokens.getLast? = some last ∧
      m.remainingText = m.raw.slice t.start last.stop := by
  unfold remainingText at h ⊢
  split at h
  · rename_i first last hfirst hlast
    obtain ⟨ts, hts⟩ := List.head?_eq_some_iff.mp hfirst
    refine ⟨first, ts, last, hts, hlast, ?_⟩
    split at h
    · rename_i hspan
      exact if_pos hspan
    · cases h
  · cases h

variable [Score σ]

/-- What a fork has found is found once it is joined. -/
theorem Extends.join {m m' : Progress σ} {f : Findings} (h : Extends m.fork m' f) : Extends m (m.join m') f where
  raw := rfl
  found := by
    have hfork : m.fork.found = {} := rfl
    rw [Progress.join, h.found, hfork, Findings.nothing_merge]

/-- A group is recorded in front of what the fork has found. -/
theorem Extends.join_behind {m r m' : Progress σ} {f g : Findings} (hr : Extends m r f) (hfork : r.fork = m.fork)
    (h : Extends m.fork m' g) : Extends m (r.join m') (f.merge g) := by
  rw [← hfork] at h
  exact hr.trans h.join

theorem Progress.position_join {m : Progress σ} (h : m.terminated = false) (f : Progress σ) :
    (m.join f).position = f.position := by
  simp [position, Progress.join, h]

theorem Progress.position_fork (m : Progress σ) : m.fork.position = m.position := rfl

theorem Progress.position_consume {m : Progress σ} {t : Call.Token} {ts : List Call.Token} (htokens : m.tokens = t :: ts)
    (hopen : m.terminated = false) (s : σ) : ((m.addScore s).consume 1).position = ⟨ts, false⟩ := by
  simp [position, consume, addScore, htokens, hopen]

variable {policy : Policy σ}

/-- Every match of the pattern is a derivation of what it adds. -/
def Sound (policy : Policy σ) (p : Pattern) : Prop :=
  ∀ m m', p.attempt policy m = .matched m' →
    ∃ f, Derives policy m.raw p m.position m'.position f ∧ Extends m m' f

def SoundEach (policy : Policy σ) (cs : List Pattern) : Prop :=
  ∀ m m', inOrder (Pattern.attemptEach policy cs) m = .matched m' →
    ∃ f, DerivesEach policy m.raw cs m.position m'.position f ∧ Extends m m' f

/-! ## Words -/

theorem literal_sound (text : Bytes) (caseSensitive tolerant : Bool) : Sound policy (.literal text caseSensitive tolerant) := by
  intro m m' h
  obtain ⟨hopen, h⟩ := unlessTerminated_eq_matched.mp h
  rw [Progress.position_eq hopen]
  unfold attemptLiteral at h
  split at h
  · cases h
  · rename_i t ts htokens
    rw [htokens]
    dsimp only at h
    split at h
    · rename_i hequal
      cases h
      rw [Progress.position_consume htokens hopen]
      exact ⟨{}, .equal tolerant ts hequal, rfl, (Findings.merge_nothing _).symm⟩
    · split at h
      · rename_i hsimilar
        split at h
        · rename_i htolerant
          cases h
          rw [Progress.position_consume htokens hopen, htolerant]
          exact ⟨{}, .similar ts hsimilar, rfl, (Findings.merge_nothing _).symm⟩
        · cases h
      · cases h

theorem parameter_sound (name : Bytes) (type : Option Bytes) : Sound policy (.parameter name type) := by
  intro m m' h
  obtain ⟨hopen, h⟩ := unlessTerminated_eq_matched.mp h
  rw [Progress.position_eq hopen]
  unfold attemptParameter at h
  split at h
  · cases h
  · rename_i t ts htokens
    rw [htokens]
    split at h
    · rename_i v hv
      cases h
      have hbind : (m.bind name v).tokens = t :: ts := htokens
      rw [Progress.position_consume hbind hopen]
      refine ⟨({} : Findings).bind name v, ?_, rfl, Findings.bind_eq_merge _ _ _⟩
      cases type with
      | none =>
        cases hv
        exact .word name t ts
      | some type => exact .typed name ts hv
    · cases h

theorem tail_sound (name : Bytes) (raw : Bool) : Sound policy (.tail name raw) := by
  intro m m' h
  obtain ⟨hopen, h⟩ := unlessTerminated_eq_matched.mp h
  rw [Progress.position_eq hopen]
  unfold attemptTail at h
  dsimp only at h
  split at h
  · cases h
  · rename_i htext
    cases h
    obtain ⟨t, ts, last, htokens, hlast, hslice⟩ := Progress.remainingText_eq (by simpa using htext)
    refine ⟨_, ?_, rfl, Findings.bind_eq_merge _ _ _⟩
    rw [htokens] at hlast ⊢
    cases raw with
    | false => exact .list name t ts
    | true =>
      rw [if_pos rfl, hslice]
      exact .text name hlast

/-! ## Groups -/

theorem soundEach {cs : List Pattern} (h : ∀ c ∈ cs, Sound policy c) : SoundEach policy cs := by
  induction cs with
  | nil =>
    intro m m' hm
    cases hm
    exact ⟨{}, .nil _, Extends.refl m⟩
  | cons c cs ih =>
    intro m m' hm
    obtain ⟨m₁, hc, hcs⟩ := inOrder_cons_eq_matched.mp hm
    obtain ⟨f, hf, he⟩ := h c List.mem_cons_self m m₁ hc
    obtain ⟨g, hg, he'⟩ := ih (fun d hd => h d (List.mem_cons_of_mem _ hd)) m₁ m' hcs
    rw [he.raw] at hg
    exact ⟨f.merge g, .cons hf hg, he.trans he'⟩

theorem sequence_sound {cs : List Pattern} (h : SoundEach policy cs) : Sound policy (.sequence cs) := by
  intro m m' hm
  obtain ⟨hopen, hm⟩ := unlessTerminated_eq_matched.mp hm
  obtain ⟨f, hf, he⟩ := h m m' hm
  rw [Progress.position_eq hopen] at hf ⊢
  exact ⟨f, .sequence hf, he⟩

theorem optional_sound {cs : List Pattern} (id : Option Bytes) (h : SoundEach policy cs) :
    Sound policy (.optional cs id) := by
  intro m m' hm
  obtain ⟨hopen, hm⟩ := unlessTerminated_eq_matched.mp hm
  have hrecord : ∀ b, Extends m (m.recordOptional id b) (({} : Findings).recordOptional id b) :=
    fun b => ⟨rfl, Findings.recordOptional_eq_merge _ _ _⟩
  rcases attemptOptional_matched hm with ⟨m₁, hinside, rfl⟩ | ⟨_, _, _, _, rfl⟩
  · obtain ⟨f, hf, he⟩ := h m.fork m₁ hinside
    rw [m.position_fork, Progress.position_eq hopen] at hf
    have hjoin : ((m.recordOptional id true).join m₁).position = m₁.position := Progress.position_join hopen m₁
    rw [hjoin, Progress.position_eq hopen]
    exact ⟨_, .present id hf, (hrecord true).join_behind rfl he⟩
  · have hpos : (m.recordOptional id false).position = ⟨m.tokens, false⟩ := Progress.position_eq hopen
    rw [hpos, Progress.position_eq hopen]
    exact ⟨_, .absent cs id m.tokens, hrecord false⟩

theorem variants_sound {as : List (List Pattern)} (id : Option Bytes) (inherited parenthesized : Bool)
    (h : ∀ a ∈ as, SoundEach policy a) : Sound policy (.variants as id inherited parenthesized) := by
  intro m m' hm
  obtain ⟨hopen, hm⟩ := unlessTerminated_eq_matched.mp hm
  unfold attemptVariants at hm
  dsimp only at hm
  split at hm
  · rename_i m₁ i hbest
    cases hm
    obtain ⟨a, ha, hinside⟩ := bestSuccess_tryEach hbest
    obtain ⟨variant, hvariant, rfl⟩ := (Pattern.getElem?_attemptAlternatives policy).mp (mem_numbered.mp ha)
    obtain ⟨f, hf, he⟩ := h variant (List.mem_of_getElem? hvariant) m.fork m₁ hinside
    rw [m.position_fork, Progress.position_eq hopen] at hf
    have hrecord : Extends m (m.recordVariant id i) (({} : Findings).recordVariant id i) :=
      ⟨rfl, Findings.recordVariant_eq_merge _ _ _⟩
    have hjoin : ((m.recordVariant id i).join m₁).position = m₁.position := Progress.position_join hopen m₁
    rw [hjoin, Progress.position_eq hopen]
    exact ⟨_, .variant id inherited parenthesized hvariant hf, hrecord.join_behind rfl he⟩
  · exact absurd hm (concede_ne_matched _ _ _ _)

/-! ## Unordered groups -/

/-- What children find that are committed one after the other adds up. -/
theorem commits_sound {cs : List Pattern} {m m' : Progress σ} (h : ∀ c ∈ cs, Sound policy c) (hm : Commits policy cs m m') :
    ∃ f, DerivesEach policy m.raw cs m.position m'.position f ∧ Extends m m' f := by
  induction hm with
  | nil m => exact ⟨{}, .nil _, Extends.refl m⟩
  | @cons c cs m x m' hc _ ih =>
    obtain ⟨f, hf, he⟩ := h c List.mem_cons_self m.fork x hc
    rw [m.position_fork] at hf
    have hopen : m.terminated = false := hf.not_terminated
    obtain ⟨g, hg, he'⟩ := ih fun d hd => h d (List.mem_cons_of_mem _ hd)
    rw [Progress.position_join hopen] at hg
    exact ⟨f.merge g, .cons hf hg, he.join.trans he'⟩

theorem Strategy.ordered_permutation (id : Option Bytes) (order : List Nat) (inside : Findings) :
    Strategy.ordered .permutation id order inside = (({} : Findings).recordOrder id order).merge inside := by
  cases id with
  | none => exact (Findings.nothing_merge inside).symm
  | some id => ext1 <;> simp [Strategy.ordered, Findings.recordOrder, Findings.merge, Table.empty]

theorem orders_sound (p : Pattern) (id : Option Bytes) {cs : List (Pattern × Nat)} (h : ∀ x ∈ cs, Sound policy x.1)
    {m m' : Progress σ} (hopen : m.terminated = false)
    (hm : attemptOrders p id (cs.map (Pattern.child policy)) m = .matched m') :
    ∃ (placed : List (Pattern × Nat)) (f : Findings), placed.Perm cs ∧
      DerivesEach policy m.raw (placed.map (·.1)) m.position m'.position f ∧
      Extends m m' ((({} : Findings).recordOrder id (placed.map (·.2))).merge f) := by
  unfold attemptOrders at hm
  dsimp only at hm
  split at hm
  · rename_i m₁ order hbest
    cases hm
    obtain ⟨a, ha, hinside⟩ := bestSuccess_tryEach hbest
    rw [arrangements_map, List.map_map] at ha
    obtain ⟨placed, hplaced, heq⟩ := List.mem_map.mp ha
    cases heq
    have hperm := perm_of_mem_arrangements hplaced
    have hsound : ∀ c ∈ placed.map (·.1), Sound policy c := by
      intro c hc
      obtain ⟨x, hx, rfl⟩ := List.mem_map.mp hc
      exact h x (hperm.subset hx)
    rw [Pattern.attempts_child] at hinside
    obtain ⟨f, hf, he⟩ := soundEach hsound m.fork m₁ hinside
    have hindexes : (placed.map (Pattern.child policy)).map (·.index) = placed.map (·.2) := by
      rw [List.map_map]
      rfl
    have hrecord : Extends m (m.recordOrder id (placed.map (·.2)))
        (({} : Findings).recordOrder id (placed.map (·.2))) := ⟨rfl, Findings.recordOrder_eq_merge _ _ _⟩
    rw [hindexes]
    have hjoin : ((m.recordOrder id (placed.map (·.2))).join m₁).position = m₁.position :=
      Progress.position_join hopen m₁
    rw [hjoin]
    exact ⟨placed, f, hperm, hf, hrecord.join_behind rfl he⟩
  · exact absurd hm (concede_ne_matched _ _ _ _)

theorem unordered_sound {cs : List Pattern} (id : Option Bytes) (h : ∀ c ∈ cs, Sound policy c) :
    Sound policy (.unordered cs id) := by
  intro m m' hm
  obtain ⟨hopen, hm⟩ := unlessTerminated_eq_matched.mp hm
  rw [Pattern.childrenFrom_eq_map] at hm
  have hsound : ∀ x ∈ cs.zipIdx, Sound policy x.1 := fun x hx => h x.1 (List.fst_mem_of_mem_zipIdx hx)
  unfold attemptUnordered at hm
  cases hs : policy.strategy with
  | greedy =>
    rw [hs] at hm
    unfold attemptGreedy at hm
    obtain ⟨placed, m₁, hperm, hcommits, rfl⟩ := rounds_commits _ id _ rfl (nodup_zipIdx cs) (by simpa using hm)
    have hplaced : ∀ c ∈ placed.map (·.1), Sound policy c :=
      List.forall_mem_map.mpr fun x hx => hsound x (hperm.subset hx)
    obtain ⟨f, hf, he⟩ := commits_sound hplaced hcommits
    rw [Progress.position_eq hopen] at hf ⊢
    have hfound := Derives.unordered id hperm hf
    rw [hs] at hfound
    have hrecord : Extends m (m₁.recordOrder id (placed.map (·.2))) (f.recordOrder id (placed.map (·.2))) := by
      refine ⟨he.raw, ?_⟩
      rw [← Findings.merge_recordOrder, ← he.found]
      rfl
    exact ⟨_, hfound, hrecord⟩
  | permutation =>
    rw [hs] at hm
    obtain ⟨placed, f, hperm, hf, he⟩ := orders_sound _ id hsound hopen hm
    rw [Progress.position_eq hopen] at hf ⊢
    have hfound := Derives.unordered id hperm hf
    rw [hs, Strategy.ordered_permutation] at hfound
    exact ⟨_, hfound, he⟩

/-! ## All patterns -/

mutual

theorem sound : ∀ p : Pattern, Sound policy p
  | .literal text caseSensitive tolerant => literal_sound text caseSensitive tolerant
  | .parameter name type => parameter_sound name type
  | .tail name raw => tail_sound name raw
  | .sequence cs => sequence_sound (soundEach (sound_children cs))
  | .optional cs id => optional_sound id (soundEach (sound_children cs))
  | .variants as id inherited parenthesized =>
    variants_sound id inherited parenthesized fun a ha => soundEach (sound_alternatives as a ha)
  | .unordered cs id => unordered_sound id (sound_children cs)

theorem sound_children : ∀ cs : List Pattern, ∀ c ∈ cs, Sound policy c
  | [] => List.forall_mem_nil _
  | c :: cs => List.forall_mem_cons.mpr ⟨sound c, sound_children cs⟩

theorem sound_alternatives : ∀ as : List (List Pattern), ∀ a ∈ as, ∀ c ∈ a, Sound policy c
  | [] => List.forall_mem_nil _
  | a :: as => List.forall_mem_cons.mpr ⟨sound_children a, sound_alternatives as⟩

end

/-- A match that succeeds has consumed the tokens that a derivation of the pattern takes, and has found, behind
    what was found before, what the derivation finds and nothing else. -/
theorem attempt_derives (policy : Policy σ) (p : Pattern) {m m' : Progress σ} (h : p.attempt policy m = .matched m') :
    (∃ consumed, m.tokens = consumed ++ m'.tokens) ∧ m'.raw = m.raw ∧
      ∃ f, Derives policy m.raw p ⟨m.tokens, m.terminated⟩ ⟨m'.tokens, m'.terminated⟩ f ∧ m'.found = m.found.merge f := by
  obtain ⟨f, hf, he⟩ := sound p m m' h
  obtain ⟨consumed, hconsumed⟩ := hf.suffix
  exact ⟨⟨consumed, hconsumed.symm⟩, he.raw, f, hf, he.found⟩

/-- A parameter that also takes the first word is tried and not taken: it leaves no binding. -/
theorem attempt_derives_discarded :
    let p : Pattern := .sequence
      [.optional [.literal (ascii "z") true false] none,
        .unordered [.literal (ascii "a") true false,
          .variants [[.parameter (ascii "n") none], [.literal (ascii "c") true false]] none false false] (some (ascii "o"))]
    let m : Progress Rat :=
      .start (ascii "c a") [⟨.plain, ascii "c", 0, 1, ascii "c"⟩, ⟨.plain, ascii "a", 2, 3, ascii "a"⟩]
    ∃ m', p.attempt .standard m = .matched m' ∧ m'.found.params.keys = [] ∧ m'.found.variants = [1] ∧
      m'.found.namedOrders.entries = [(ascii "o", [1, 0])] ∧
      (∃ consumed, m.tokens = consumed ++ m'.tokens) ∧ m'.raw = m.raw ∧
      ∃ f, Derives (Policy.standard : Policy Rat) m.raw p ⟨m.tokens, m.terminated⟩ ⟨m'.tokens, m'.terminated⟩ f ∧
        m'.found = m.found.merge f := by
  intro p m
  have hmatched : (p.attempt .standard m).failure?.isNone = true := by decide +kernel
  have hfound : (p.attempt .standard m).progress.found.params.keys = [] ∧
      (p.attempt .standard m).progress.found.variants = [1] ∧
      (p.attempt .standard m).progress.found.namedOrders.entries = [(ascii "o", [1, 0])] := by decide +kernel
  obtain ⟨m', hm'⟩ : ∃ m', p.attempt .standard m = .matched m' := by
    cases h : p.attempt .standard m with
    | matched m' => exact ⟨m', rfl⟩
    | failed f m' =>
      rw [h] at hmatched
      cases hmatched
  rw [hm'] at hfound
  exact ⟨m', hm', hfound.1, hfound.2.1, hfound.2.2, attempt_derives .standard p hm'⟩

end CommandGrammar
