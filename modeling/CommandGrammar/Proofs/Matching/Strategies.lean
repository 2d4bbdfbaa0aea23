/-
  CommandGrammar.Proofs.Matching.Strategies — trying every order is at least as good as going round by round.

  The strategy is asked for by unordered groups only, so a pattern without them matches
  alike under both (`attempt_strategy`). The order in which a group is filled round by
  round is one of all the orders, and its children do there what they do in the rounds.
  So a group without others in it that matches under the greedy strategy also matches if
  every order is tried, and scores no less (`unordered_greedy_le`).
-/

import CommandGrammar.Proofs.Matching.Replay

namespace CommandGrammar

/-- All of the children, in any order. -/
def Pattern.isUnordered : Pattern → Bool
  | .unordered .. => true
  | _ => false

/-! ## The strategy -/

section

variable {σ : Type} [Score σ] (policy : Policy σ) (strategy : Strategy)

/-- Nothing but an unordered group asks for the strategy. -/
theorem attempt_strategy (p : Pattern) (h : ∀ q ∈ p.nodes, q.isUnordered = false) :
    p.attempt { policy with strategy } = p.attempt policy := by
  refine Pattern.nodes_induct (P := fun q => q.isUnordered = false)
    (M := fun q => q.attempt { policy with strategy } = q.attempt policy) (fun p hp ih => ?_) p h
  refine Pattern.attempt_congr ih (fun hleaf => ?_) ?_
  · cases hleaf <;> rfl
  · rintro cs id rfl
    cases hp

/-- So the children of a group do the same in an order under both strategies. -/
theorem attemptOrder_strategy {cs : List Pattern} (h : ∀ q ∈ Pattern.nodesOf cs, q.isUnordered = false)
    (order : List Nat) : attemptOrder { policy with strategy } cs order = attemptOrder policy cs order := by
  have hchildren : ∀ c ∈ Pattern.arranged cs order, c.attempt { policy with strategy } = c.attempt policy := by
    intro c hc
    obtain ⟨i, -, hi⟩ := List.mem_filterMap.mp hc
    exact attempt_strategy policy strategy c (Pattern.forall_mem_nodesOf.mp h c (List.mem_of_getElem? hi))
  rw [attemptOrder, attemptOrder, Pattern.attemptEach_congr hchildren]

end

/-! ## Greedy and exhaustive -/

/-- A group that tries every order of its children matches, and scores no less, where one of them matches. -/
theorem permutation_matches (policy : Policy Rat) (hs : policy.strategy = .permutation) {cs : List Pattern}
    (id : Option Bytes) {m x : Progress Rat} (hopen : m.terminated = false) {order : List Nat}
    (hperm : order.Perm (List.range cs.length)) (hx : attemptOrder policy cs order m.fork = .matched x) :
    ∃ m', (Pattern.unordered cs id).attempt policy m = .matched m' ∧ m.score + x.score ≤ m'.score := by
  obtain ⟨otherwise, hgroup⟩ := unordered_permutation policy cs m id hs hopen
  rw [hgroup]
  cases hbest : bestSuccess (triedOrders policy cs m) with
  | none =>
    obtain ⟨f, y, hy⟩ := failed_of_bestSuccess hbest hperm
    rw [hx] at hy
    cases hy
  | some best =>
    obtain ⟨y, chosen⟩ := best
    obtain ⟨-, -, hmost⟩ := order_of_bestSuccess hbest
    exact ⟨_, rfl, add_le_add_right (hmost order x hperm hx).1 m.score⟩

/-- A group without others in it that matches round by round also matches if every order is tried, and what it adds to
    the score is then at least as much. -/
theorem unordered_greedy_le (policy : Policy Rat) {cs : List Pattern}
    (hflat : ∀ q ∈ Pattern.nodesOf cs, q.isUnordered = false) (id : Option Bytes) {m m' : Progress Rat}
    (h : (Pattern.unordered cs id).attempt { policy with strategy := .greedy } m = .matched m') :
    ∃ m'', (Pattern.unordered cs id).attempt { policy with strategy := .permutation } m = .matched m'' ∧
      m'.score - m.score ≤ m''.score - m.score := by
  obtain ⟨hopen, order, x, hperm, hx, rfl⟩ := unordered_matched h
  have hx' : attemptOrder { policy with strategy := .permutation } cs order m.fork = .matched x := by
    rw [attemptOrder_strategy policy _ hflat] at hx ⊢
    exact hx
  obtain ⟨m'', hm'', hle⟩ := permutation_matches { policy with strategy := .permutation } rfl id hopen hperm hx'
  exact ⟨m'', hm'', sub_le_sub_right hle m.score⟩

/-- The best first word is not the best way to begin: going round by round, the variants take both words that the
    optional is there for. -/
theorem unordered_greedy_le_strictly :
    let a : Pattern := .literal (ascii "a") true false
    let cs : List Pattern := [.variants [[a, a], [a, .literal (ascii "b") true false]] none false true, .optional [a] none]
    let m : Progress Rat :=
      .start (ascii "a a b")
        [⟨.plain, ascii "a", 0, 1, ascii "a"⟩, ⟨.plain, ascii "a", 2, 3, ascii "a"⟩, ⟨.plain, ascii "b", 4, 5, ascii "b"⟩]
    let greedy : Policy Rat := { (Policy.standard : Policy Rat) with strategy := .greedy }
    let permutation : Policy Rat := { (Policy.standard : Policy Rat) with strategy := .permutation }
    (∀ q ∈ Pattern.nodesOf cs, q.isUnordered = false) ∧
      ∃ m', (Pattern.unordered cs none).attempt greedy m = .matched m' ∧ m'.score = 2 ∧
        ∃ m'', (Pattern.unordered cs none).attempt permutation m = .matched m'' ∧ m''.score = 3 ∧
          m'.score - m.score ≤ m''.score - m.score := by
  intro a cs m greedy permutation
  have hflat : ∀ q ∈ Pattern.nodesOf cs, q.isUnordered = false := by decide
  have hscore : ((Pattern.unordered cs none).attempt greedy m).progress.score = 2 := by decide +kernel
  have hscore' : ((Pattern.unordered cs none).attempt permutation m).progress.score = 3 := by decide +kernel
  obtain ⟨m', hm'⟩ : ∃ m', (Pattern.unordered cs none).attempt greedy m = .matched m' :=
    Outcome.exists_matched (by decide +kernel)
  obtain ⟨m'', hm'', hle⟩ := unordered_greedy_le .standard hflat none hm'
  rw [hm'] at hscore
  rw [hm''] at hscore'
  exact ⟨hflat, m', hm', hscore, m'', hm'', hscore', hle⟩

end CommandGrammar
