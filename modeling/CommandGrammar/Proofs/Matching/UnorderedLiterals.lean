/-
  CommandGrammar.Proofs.Matching.UnorderedLiterals — literals that may come in any order.

  Where each of the next words is the text of one literal of a group, and no other literal
  of the group would take it, only one order of the literals matches. A group that tries
  every order has to find this one. A group that is filled round by round finds it too: in
  each round the literals that are left are those that the next words say, and only the
  one that comes next matches. So under both strategies the group takes exactly these
  words (`unordered_literals`).
-/

import CommandGrammar.Proofs.Matching.Literals
import CommandGrammar.Proofs.Matching.Strategies

namespace CommandGrammar

/-- A literal of a group. -/
structure Literal where
  text : Bytes
  caseSensitive : Bool
  tolerant : Bool

namespace Literal

def pattern (l : Literal) : Pattern :=
  .literal l.text l.caseSensitive l.tolerant

/-- The word is not equal to the literal, nor close enough for a tolerant one. -/
structure Declines (policy : Policy Rat) (l : Literal) (word : Bytes) : Prop where
  unequal : policy.equal l.text word l.caseSensitive = false
  far : l.tolerant = true → policy.similarity l.text word l.caseSensitive < policy.literalThreshold

instance (policy : Policy Rat) (l : Literal) (word : Bytes) : Decidable (l.Declines policy word) :=
  decidable_of_iff (_ ∧ _) ⟨fun h => ⟨h.1, h.2⟩, fun h => ⟨h.unequal, h.far⟩⟩

end Literal

/-- The token is the text of the literal at the place `i`, and is declined by all others. -/
structure Says (policy : Policy Rat) (ls : List Literal) (i : Nat) (t : Call.Token) : Prop where
  text : ls[i]?.map (·.text) = some t.value
  others : ∀ x ∈ ls.zipIdx, x.2 ≠ i → x.1.Declines policy t.value

instance (policy : Policy Rat) (ls : List Literal) (i : Nat) (t : Call.Token) : Decidable (Says policy ls i t) :=
  decidable_of_iff (_ ∧ _) ⟨fun h => ⟨h.1, h.2⟩, fun h => ⟨h.text, h.others⟩⟩

variable {policy : Policy Rat} {ls : List Literal} {taken rest : List Call.Token} {m m' : Progress Rat}

/-! ## One word -/

namespace Says

variable {i : Nat} {t : Call.Token} {left : List Call.Token}

/-- The literal that the token says takes it. -/
theorem takes (h : Says policy ls i t) (hopen : m.terminated = false) (htokens : m.tokens = t :: left) :
    ∃ c, (ls.map Literal.pattern)[i]? = some c ∧
      c.attempt policy m = .matched { m with tokens := left, score := m.score + policy.literalScore } := by
  obtain ⟨l, hl, htext⟩ := Option.map_eq_some_iff.mp h.text
  have hequal : policy.equal l.text t.value l.caseSensitive = true := by
    rw [← htext]
    exact policy.equal_refl l.text
  exact ⟨l.pattern, by rw [List.getElem?_map, hl]; rfl, literal_taken l.tolerant hopen htokens hequal⟩

/-- No other literal takes it. -/
theorem only (h : Says policy ls i t) (htokens : m.tokens = t :: left) {j : Nat} {c : Pattern}
    (hc : (ls.map Literal.pattern)[j]? = some c) (hm : c.attempt policy m = .matched m') :
    j = i ∧ m' = { m with tokens := left, score := m.score + policy.literalScore } := by
  obtain ⟨l, hl, rfl⟩ := Option.map_eq_some_iff.mp (List.getElem?_map ▸ hc)
  have hopen : m.terminated = false := (unlessTerminated_eq_matched.mp hm).1
  obtain ⟨c, hi, hown⟩ := h.takes hopen htokens
  by_cases hj : j = i
  · subst hj
    obtain rfl := Option.some.inj (hc.symm.trans hi)
    exact ⟨rfl, Outcome.matched.inj (hm.symm.trans hown)⟩
  · have hdeclined := h.others (l, j) (List.mk_mem_zipIdx_iff_getElem?.mpr hl) hj
    exact absurd hm (literal_declined htokens hdeclined.unequal hdeclined.far)

end Says

/-! ## One order -/

theorem attemptOrder_cons (policy : Policy Rat) {cs : List Pattern} {c : Pattern} {i : Nat} (hi : cs[i]? = some c)
    (order : List Nat) (m : Progress Rat) :
    attemptOrder policy cs (i :: order) m = (c.attempt policy m).andThen (attemptOrder policy cs order) := by
  rw [attemptOrder, Pattern.arranged, List.filterMap_cons_some hi, Pattern.attemptEach, inOrder_cons]
  rfl

/-- In the order in which the words say them, all literals match. -/
theorem order_matched {order : List Nat} (h : List.Forall₂ (Says policy ls) order taken) : ∀ {m : Progress Rat},
    m.terminated = false → m.tokens = taken ++ rest →
      attemptOrder policy (ls.map Literal.pattern) order m =
        .matched { m with tokens := rest, score := m.score + taken.length * policy.literalScore } := by
  induction h with
  | nil =>
    intro m _ htokens
    have hscore : m.score + ((([] : List Call.Token).length : Nat) : Rat) * policy.literalScore = m.score := by simp
    rw [hscore]
    rw [List.nil_append] at htokens
    rw [← htokens]
    rfl
  | @cons i t order taken hi _ ih =>
    intro m hopen htokens
    obtain ⟨c, hc, hown⟩ := hi.takes hopen htokens
    rw [attemptOrder_cons policy hc, hown, ← score_cons]
    exact ih hopen rfl

/-- They match in no other order. -/
theorem order_unique {order : List Nat} (h : List.Forall₂ (Says policy ls) order taken) :
    ∀ {order' : List Nat} {m : Progress Rat}, order'.length = order.length → (∀ j ∈ order', j < ls.length) →
      m.tokens = taken ++ rest → attemptOrder policy (ls.map Literal.pattern) order' m = .matched m' →
        order' = order := by
  induction h with
  | nil => exact fun hlen _ _ _ => List.length_eq_zero_iff.mp hlen
  | @cons i t order taken hi _ ih =>
    intro order' m hlen hplaces htokens hm
    match order', hlen with
    | j :: order', hlen =>
      obtain ⟨hj, hplaces⟩ := List.forall_mem_cons.mp hplaces
      have hc : (ls.map Literal.pattern)[j]? = some ls[j].pattern := by
        rw [List.getElem?_map, List.getElem?_eq_getElem hj]
        rfl
      rw [attemptOrder_cons policy hc] at hm
      cases hfirst : ls[j].pattern.attempt policy m with
      | failed f x =>
        rw [hfirst] at hm
        cases hm
      | matched m₁ =>
        rw [hfirst] at hm
        obtain ⟨rfl, rfl⟩ := hi.only htokens hc hfirst
        rw [ih (Nat.succ.inj hlen) hplaces rfl hm]

/-! ## Round by round -/

section

variable {left : List (Pattern × Nat)}

/-- The round goes to the literal that the next word says. -/
theorem bestSuccess_next {i : Nat} {t : Call.Token} {ts : List Call.Token} (h : Says policy ls i t)
    (hleft : left ⊆ (ls.map Literal.pattern).zipIdx) (hi : i ∈ left.map (·.2)) (hopen : m.terminated = false)
    (htokens : m.tokens = t :: ts) :
    bestSuccess (tryEach m ((left.map (Pattern.child policy)).map fun c => (c.index, c.attempt))) =
      some ({ m.fork with tokens := ts, score := m.fork.score + policy.literalScore }, i) := by
  have hplace : ∀ {c j}, (c, j) ∈ left → (ls.map Literal.pattern)[j]? = some c := fun hc =>
    List.mk_mem_zipIdx_iff_getElem?.mp (hleft hc)
  cases hbest : bestSuccess (tryEach m ((left.map (Pattern.child policy)).map fun c => (c.index, c.attempt))) with
  | none =>
    obtain ⟨⟨c, i⟩, hc, rfl⟩ := List.mem_map.mp hi
    obtain ⟨c', hc', hown⟩ := h.takes (m := m.fork) hopen htokens
    obtain rfl := Option.some.inj ((hplace hc).symm.trans hc')
    have hbranch : (⟨i, c.attempt policy m.fork⟩ : Branch Rat Nat) ∈
        tryEach m ((left.map (Pattern.child policy)).map fun c => (c.index, c.attempt)) :=
      List.mem_map_of_mem (List.mem_map_of_mem (List.mem_map_of_mem hc))
    obtain ⟨f, x, hx⟩ := bestSuccess_eq_none.mp hbest _ hbranch
    rw [hown] at hx
    cases hx
  | some best =>
    obtain ⟨c, hc, hx⟩ := bestSuccess_round hbest
    obtain ⟨hj, hx⟩ := h.only (m := m.fork) htokens (hplace hc) hx
    exact congrArg some (Prod.ext hx hj)

/-- As long as the literals that are left are those that the next words say, every round has a winner. -/
theorem rounds_matched (p : Pattern) (id : Option Bytes) {order : List Nat}
    (h : List.Forall₂ (Says policy ls) order taken) :
    ∀ {left : List (Pattern × Nat)} {done : List Nat} {m : Progress Rat}, left ⊆ (ls.map Literal.pattern).zipIdx →
      (left.map (·.2)).Nodup → (left.map (·.2)).Perm order → m.terminated = false → m.tokens = taken ++ rest →
        ∃ m', attemptRounds p id order.length (left.map (Pattern.child policy)) done m = .matched m' := by
  induction h with
  | nil => exact fun _ _ _ _ _ => ⟨_, rfl⟩
  | @cons i t order taken hi _ ih =>
    intro left done m hleft hnodup hperm hopen htokens
    have hnext : i ∈ left.map (·.2) := hperm.mem_iff.mpr List.mem_cons_self
    obtain ⟨⟨c, i⟩, hc, rfl⟩ := List.mem_map.mp hnext
    have hrest : ((left.filter (·.2 != i)).map (·.2)).Perm order :=
      (((perm_cons_filter hnodup hc).map (·.2)).trans hperm).cons_inv
    rw [List.length_cons, attemptRounds, bestSuccess_next hi hleft hnext hopen htokens]
    dsimp only
    rw [filter_child]
    refine ih (fun x hx => hleft (List.mem_filter.mp hx).1) (hnodup.sublist (List.filter_sublist.map _)) hrest ?_ rfl
    rw [Progress.join, hopen]
    exact hopen

end

theorem greedy_matched (hs : policy.strategy = .greedy) (id : Option Bytes) {order : List Nat}
    (hperm : order.Perm (List.range ls.length)) (hwords : List.Forall₂ (Says policy ls) order taken)
    (hopen : m.terminated = false) (htokens : m.tokens = taken ++ rest) :
    ∃ m', (Pattern.unordered (ls.map Literal.pattern) id).attempt policy m = .matched m' := by
  have hplaces : ((ls.map Literal.pattern).zipIdx.map (·.2)).Perm order := by
    rw [List.zipIdx_map_snd, List.length_map, ← List.range_eq_range']
    exact hperm.symm
  have hlen : ((ls.map Literal.pattern).zipIdx.map (Pattern.child policy)).length = order.length := by
    rw [List.length_map, List.length_zipIdx, List.length_map, hperm.length_eq, List.length_range]
  rw [Pattern.attempt, unlessTerminated_open hopen, hs, Pattern.childrenFrom_eq_map]
  unfold attemptUnordered attemptGreedy
  dsimp only
  rw [hlen]
  exact rounds_matched _ id hwords (List.Subset.refl _) (nodup_zipIdx _) hplaces hopen htokens

/-! ## Every order -/

/-- A group that matches, and whose children match in one order only, leaves what they leave in this order. -/
theorem unordered_sole {cs : List Pattern} {id : Option Bytes} {order : List Nat} {x : Progress Rat}
    (hx : attemptOrder policy cs order m.fork = .matched x)
    (hsole : ∀ order' y, order'.Perm (List.range cs.length) → attemptOrder policy cs order' m.fork = .matched y →
      order' = order)
    (h : ∃ m', (Pattern.unordered cs id).attempt policy m = .matched m') :
    (Pattern.unordered cs id).attempt policy m =
      .matched { m.join x with found := m.found.merge (policy.strategy.ordered id order x.found) } := by
  obtain ⟨m', hm'⟩ := h
  obtain ⟨-, order', y, hperm, hy, rfl⟩ := unordered_matched hm'
  obtain rfl := hsole order' y hperm hy
  rw [hx] at hy
  cases hy
  exact hm'

/-- Under both strategies a group is recorded alike if its children find nothing. -/
theorem Strategy.ordered_nothing (strategy : Strategy) (id : Option Bytes) (order : List Nat) :
    strategy.ordered id order {} = ({} : Findings).recordOrder id order := by
  cases strategy with
  | greedy => rfl
  | permutation => cases id <;> rfl

/-- A group of literals matches the words that say its literals in some order, if each word is declined by all literals
    but its own. Under both strategies it takes these words and no more, scores once for each of them, and records
    the order. -/
theorem unordered_literals (policy : Policy Rat) {ls : List Literal} (id : Option Bytes) {order : List Nat}
    {taken rest : List Call.Token} {m : Progress Rat} (hperm : order.Perm (List.range ls.length))
    (hwords : List.Forall₂ (Says policy ls) order taken) (hopen : m.terminated = false)
    (htokens : m.tokens = taken ++ rest) :
    (Pattern.unordered (ls.map Literal.pattern) id).attempt policy m =
      .matched { m with
        tokens := rest
        score := m.score + ls.length * policy.literalScore
        found := m.found.recordOrder id order } := by
  have hperm' : order.Perm (List.range (ls.map Literal.pattern).length) := by rwa [List.length_map]
  have hinside := order_matched hwords (m := m.fork) hopen htokens
  have hmatched : ∃ m', (Pattern.unordered (ls.map Literal.pattern) id).attempt policy m = .matched m' := by
    cases hs : policy.strategy with
    | greedy => exact greedy_matched hs id hperm hwords hopen htokens
    | permutation =>
      obtain ⟨m', hm', -⟩ := permutation_matches policy hs id hopen hperm' hinside
      exact ⟨m', hm'⟩
  have hsole : ∀ order' y, order'.Perm (List.range (ls.map Literal.pattern).length) →
      attemptOrder policy (ls.map Literal.pattern) order' m.fork = .matched y → order' = order := by
    intro order' y horder' hy
    have hplaces : ∀ j ∈ order', j < ls.length := fun j hj => by
      simpa using horder'.mem_iff.mp hj
    exact order_unique hwords (m := m.fork) (horder'.length_eq.trans hperm'.length_eq.symm) hplaces htokens hy
  have hcount : taken.length = ls.length := by
    rw [← hwords.length_eq, hperm.length_eq, List.length_range]
  have hfound : m.found.merge (policy.strategy.ordered id order {}) = m.found.recordOrder id order := by
    rw [Strategy.ordered_nothing, ← Findings.recordOrder_eq_merge]
  have hscore : m.score + (m.fork.score + taken.length * policy.literalScore) =
      m.score + ls.length * policy.literalScore := by
    rw [hcount]
    exact congrArg (m.score + ·) (zero_add _)
  rw [unordered_sole hinside hsole hmatched]
  exact congrArg Outcome.matched (Progress.ext rfl rfl hscore (Bool.or_self _) hfound)

/-- The first two literals are close to each other: to fail at the word of the other scores more than to match. -/
theorem unordered_literals_close :
    let ls : List Literal := [⟨ascii "start", true, false⟩, ⟨ascii "stark", false, false⟩, ⟨ascii "Halt", true, true⟩]
    let policy (strategy : Strategy) : Policy Rat := { (Policy.standard : Policy Rat) with literalScore := -1, strategy }
    let taken : List Call.Token :=
      [⟨.plain, ascii "stark", 0, 5, ascii "stark"⟩, ⟨.plain, ascii "Halt", 6, 10, ascii "Halt"⟩,
        ⟨.plain, ascii "start", 11, 16, ascii "start"⟩]
    let rest : List Call.Token := [⟨.plain, ascii "Halt", 17, 21, ascii "Halt"⟩]
    let m : Progress Rat := .start (ascii "stark Halt start Halt") (taken ++ rest)
    [1, 2, 0].Perm (List.range ls.length) ∧ m.terminated = false ∧
      ∀ strategy, List.Forall₂ (Says (policy strategy) ls) [1, 2, 0] taken ∧
        (Pattern.unordered (ls.map Literal.pattern) (some (ascii "o"))).attempt (policy strategy) m =
          .matched { m with
            tokens := rest
            score := m.score + ls.length * (policy strategy).literalScore
            found := m.found.recordOrder (some (ascii "o")) [1, 2, 0] } := by
  intro ls policy taken rest m
  have hperm : [1, 2, 0].Perm (List.range ls.length) := by decide
  refine ⟨hperm, rfl, fun strategy => ?_⟩
  have hwords : List.Forall₂ (Says (policy strategy) ls) [1, 2, 0] taken := by
    cases strategy <;> decide +kernel
  exact ⟨hwords, unordered_literals (policy strategy) (some (ascii "o")) hperm hwords rfl rfl⟩

end CommandGrammar
