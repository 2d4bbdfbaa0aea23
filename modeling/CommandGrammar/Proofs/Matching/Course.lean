/-
  CommandGrammar.Proofs.Matching.Course — what is tried in the course of a match.

  To match a pattern is to match patterns in it, each from a state of its own: the
  children of a sequence one after the other, the branches of a group on forks. `Tries`
  says which pattern is tried from which state, also where the branch is not taken in the
  end. All these states are further on in the call that was to be matched
  (`Tries.further`), and all these patterns are in the one that was to be matched
  (`Tries.mem_nodes`).
-/

import CommandGrammar.Proofs.Matching.Soundness
import CommandGrammar.Proofs.Pattern.Nodes

namespace CommandGrammar

variable {σ : Type}

/-! ## Further on in the call -/

/-- `x` is in the same call as `m`, with no token given back. -/
structure Further (m x : Progress σ) : Prop where
  raw : x.raw = m.raw
  tokens : x.tokens <:+ m.tokens

namespace Further

variable {m x y : Progress σ}

theorem refl (m : Progress σ) : Further m m := ⟨rfl, List.suffix_refl _⟩

theorem trans (h : Further m x) (h' : Further x y) : Further m y :=
  ⟨h'.raw.trans h.raw, h'.tokens.trans h.tokens⟩

variable [Score σ]

theorem of_fork (h : Further m.fork x) : Further m x := ⟨h.raw, h.tokens⟩

theorem join (h : Further m x) : Further m (m.join x) := ⟨rfl, h.tokens⟩

end Further

variable [Score σ]

/-! ## What is tried -/

mutual

/-- To match the first pattern from the state `m`, the pattern `q` is tried from the state `x`. -/
inductive Tries (policy : Policy σ) : Pattern → Progress σ → Pattern → Progress σ → Prop
  | self (p : Pattern) (m : Progress σ) : Tries policy p m p m
  | sequence {cs : List Pattern} {m : Progress σ} {q : Pattern} {x : Progress σ} : m.terminated = false →
      TriesEach policy cs m q x → Tries policy (.sequence cs) m q x
  | optional {cs : List Pattern} (id : Option Bytes) {m : Progress σ} {q : Pattern} {x : Progress σ} :
      m.terminated = false → TriesEach policy cs m.fork q x → Tries policy (.optional cs id) m q x
  | variant {as : List (List Pattern)} {a : List Pattern} (id : Option Bytes) (inherited parenthesized : Bool)
      {m : Progress σ} {q : Pattern} {x : Progress σ} : m.terminated = false → a ∈ as →
      TriesEach policy a m.fork q x → Tries policy (.variants as id inherited parenthesized) m q x
  | order {cs placed : List Pattern} (id : Option Bytes) {m : Progress σ} {q : Pattern} {x : Progress σ} :
      policy.strategy = .permutation → m.terminated = false → placed ∈ arrangements cs →
      TriesEach policy placed m.fork q x → Tries policy (.unordered cs id) m q x
  | rounds {cs : List Pattern} (id : Option Bytes) {m : Progress σ} {q : Pattern} {x : Progress σ} :
      policy.strategy = .greedy → m.terminated = false → TriesRounds policy cs.zipIdx m q x →
      Tries policy (.unordered cs id) m q x

/-- The patterns one after the other, up to the first that fails. -/
inductive TriesEach (policy : Policy σ) : List Pattern → Progress σ → Pattern → Progress σ → Prop
  | head {c : Pattern} (cs : List Pattern) {m : Progress σ} {q : Pattern} {x : Progress σ} : Tries policy c m q x →
      TriesEach policy (c :: cs) m q x
  | behind {c : Pattern} {cs : List Pattern} {m m₁ : Progress σ} {q : Pattern} {x : Progress σ} :
      c.attempt policy m = .matched m₁ → TriesEach policy cs m₁ q x → TriesEach policy (c :: cs) m q x

/-- Each of the numbered children that are left, and again without the best of them once it is committed. -/
inductive TriesRounds (policy : Policy σ) : List (Pattern × Nat) → Progress σ → Pattern → Progress σ → Prop
  | now {left : List (Pattern × Nat)} {c : Pattern × Nat} {m : Progress σ} {q : Pattern} {x : Progress σ} : c ∈ left →
      Tries policy c.1 m.fork q x → TriesRounds policy left m q x
  | later {left : List (Pattern × Nat)} {m f : Progress σ} {i : Nat} {q : Pattern} {x : Progress σ} :
      bestSuccess (tryEach m (left.map fun c => (c.2, c.1.attempt policy))) = some (f, i) →
      TriesRounds policy (left.filter (·.2 != i)) (m.join f) q x → TriesRounds policy left m q x

end

/-! ## Where it is tried -/

variable {policy : Policy σ}

theorem attempt_further {p : Pattern} {m m' : Progress σ} (h : p.attempt policy m = .matched m') : Further m m' := by
  obtain ⟨f, hf, he⟩ := sound p m m' h
  exact ⟨he.raw, hf.suffix⟩

mutual

theorem Tries.further {p q : Pattern} {m x : Progress σ} (h : Tries policy p m q x) : Further m x := by
  match h with
  | .self p m => exact .refl m
  | .sequence _ hcs => exact hcs.further
  | .optional _ _ hcs => exact hcs.further.of_fork
  | .variant _ _ _ _ _ ha => exact ha.further.of_fork
  | .order _ _ _ _ hcs => exact hcs.further.of_fork
  | .rounds _ _ _ hleft => exact hleft.further

theorem TriesEach.further {cs : List Pattern} {q : Pattern} {m x : Progress σ} (h : TriesEach policy cs m q x) :
    Further m x := by
  match h with
  | .head _ hc => exact hc.further
  | .behind hc hcs => exact (attempt_further hc).trans hcs.further

theorem TriesRounds.further {left : List (Pattern × Nat)} {q : Pattern} {m x : Progress σ}
    (h : TriesRounds policy left m q x) : Further m x := by
  match h with
  | .now _ hc => exact hc.further.of_fork
  | .later hbest hleft =>
    obtain ⟨a, ha, hfork⟩ := bestSuccess_tryEach hbest
    obtain ⟨c, _, heq⟩ := List.mem_map.mp ha
    obtain ⟨_, rfl⟩ := Prod.mk.inj heq
    exact (attempt_further hfork).of_fork.join.trans hleft.further

end

/-! ## What is tried of a pattern -/

mutual

/-- Nothing is tried but what the pattern holds. -/
theorem Tries.mem_nodes {p q : Pattern} {m x : Progress σ} (h : Tries policy p m q x) : q ∈ p.nodes := by
  match h with
  | .self p m => exact Pattern.mem_nodes_self p
  | .sequence _ hcs => exact List.mem_append_left _ hcs.mem_nodesOf
  | .optional _ _ hcs => exact List.mem_append_left _ hcs.mem_nodesOf
  | .variant _ _ _ _ ha htries =>
    exact List.mem_append_left _ (Pattern.mem_nodesOfEach.mpr ⟨_, ha, htries.mem_nodesOf⟩)
  | .order _ _ _ hplaced hcs =>
    obtain ⟨c, hc, hq⟩ := Pattern.mem_nodesOf.mp hcs.mem_nodesOf
    exact List.mem_append_left _ (Pattern.mem_nodesOf.mpr ⟨c, (perm_of_mem_arrangements hplaced).mem_iff.mp hc, hq⟩)
  | .rounds _ _ _ hleft =>
    obtain ⟨c, hc, hq⟩ := hleft.mem_nodes
    exact List.mem_append_left _ (Pattern.mem_nodesOf.mpr ⟨c.1, List.fst_mem_of_mem_zipIdx hc, hq⟩)

theorem TriesEach.mem_nodesOf {cs : List Pattern} {q : Pattern} {m x : Progress σ} (h : TriesEach policy cs m q x) :
    q ∈ Pattern.nodesOf cs := by
  match h with
  | .head _ hc => exact List.mem_append_left _ hc.mem_nodes
  | .behind _ hcs => exact List.mem_append_right _ hcs.mem_nodesOf

theorem TriesRounds.mem_nodes {left : List (Pattern × Nat)} {q : Pattern} {m x : Progress σ}
    (h : TriesRounds policy left m q x) : ∃ c ∈ left, q ∈ c.1.nodes := by
  match h with
  | .now hc htries => exact ⟨_, hc, htries.mem_nodes⟩
  | .later _ hleft =>
    obtain ⟨c, hc, hq⟩ := hleft.mem_nodes
    exact ⟨c, (List.mem_filter.mp hc).1, hq⟩

end

end CommandGrammar
