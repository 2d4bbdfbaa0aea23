/-
  CommandGrammar.Proofs.Matching.Parallel — two matches side by side.

  What groups do with a state is to fork and join it, to record in it and to add to its
  score, and what they decide by is its score, whether a tail was taken, and whether tokens
  are left. A comparison of states that keeps to this (`Parallel`) is kept by every way of
  putting attempts together: if the parts go side by side from states that compare, so does
  the whole (`unordered_alongside` and the others). Nothing here depends on what scores are.
-/

import CommandGrammar.Proofs.Matching.Children
import CommandGrammar.Proofs.Matching.Choice

namespace CommandGrammar

variable {σ : Type} [Score σ]

/-- A comparison of the states of two matches, and of their failures, that is kept by what groups do. -/
structure Parallel (σ : Type) [Score σ] where
  state : Progress σ → Progress σ → Prop
  /-- What is compared of the states that failed attempts leave. -/
  left : Progress σ → Progress σ → Prop
  failure : Failure σ → Failure σ → Prop
  left_of_state {x y} : state x y → left x y
  score {x y} : left x y → x.score = y.score
  terminated {x y} : state x y → x.terminated = y.terminated
  isEmpty {x y} : state x y → x.tokens.isEmpty = y.tokens.isEmpty
  fork {x y} : state x y → state x.fork y.fork
  join {x y x' y'} : state x y → state x' y' → state (x.join x') (y.join y')
  addScore {x y} (s : σ) : state x y → state (x.addScore s) (y.addScore s)
  recordOptional {x y} (id : Option Bytes) (present : Bool) :
    state x y → state (x.recordOptional id present) (y.recordOptional id present)
  recordVariant {x y} (id : Option Bytes) (index : Nat) : state x y → state (x.recordVariant id index) (y.recordVariant id index)
  recordOrder {x y} (id : Option Bytes) (order : List Nat) : state x y → state (x.recordOrder id order) (y.recordOrder id order)
  rescored {f g} (s : σ) : failure f g → failure { f with score := s } { g with score := s }

namespace Parallel

/-- The same outcome, up to the comparison. -/
inductive Agree (R : Parallel σ) : Outcome σ → Outcome σ → Prop
  | matched {x y : Progress σ} : R.state x y → Agree R (.matched x) (.matched y)
  | failed {f g : Failure σ} {x y : Progress σ} : R.failure f g → R.left x y → Agree R (.failed f x) (.failed g y)

/-- From states side by side the two attempts come to outcomes side by side. -/
def Alongside (R : Parallel σ) (a b : Attempt σ) : Prop :=
  ∀ ⦃x y : Progress σ⦄, R.state x y → R.Agree (a x) (b y)

/-- The failures of `p` and `q` at the next token compare, of whatever kind they are. -/
def FailsAs (R : Parallel σ) (p q : Pattern) (expected expected' : Bytes) : Prop :=
  ∀ kind ⦃x y : Progress σ⦄, R.state x y → R.failure (failedAt p kind expected x) (failedAt q kind expected' y)

variable {R : Parallel σ} {β : Type} {p q : Pattern}

theorem inOrder_alongside {f g : β → Attempt σ} {xs : List β} (h : ∀ x ∈ xs, R.Alongside (f x) (g x)) :
    R.Alongside (inOrder (xs.map f)) (inOrder (xs.map g)) := by
  induction xs with
  | nil => exact fun _ _ hm => .matched hm
  | cons x xs ih =>
    intro m m' hm
    rw [List.map_cons, List.map_cons, inOrder_cons, inOrder_cons]
    have hx := h x List.mem_cons_self hm
    generalize f x m = o, g x m' = o' at hx
    cases hx with
    | matched hxy => exact ih (fun y hy => h y (List.mem_cons_of_mem _ hy)) hxy
    | failed hfg hxy => exact .failed hfg hxy

theorem unlessTerminated_alongside {a b : Attempt σ} (hab : R.Alongside a b)
    (hfails : ∀ ⦃x y⦄, R.state x y → R.failure { failedAt p .terminated [] x with actual := none }
      { failedAt q .terminated [] y with actual := none }) :
    R.Alongside (unlessTerminated p a) (unlessTerminated q b) := by
  intro x y hxy
  unfold unlessTerminated
  rw [R.terminated hxy]
  split
  · exact .failed (hfails hxy) (R.left_of_state hxy)
  · exact hab hxy

theorem optional_alongside (id : Option Bytes) {a b : Attempt σ} (hab : R.Alongside a b) :
    R.Alongside (attemptOptional id a) (attemptOptional id b) := by
  intro x y hxy
  have hfork := hab (R.fork hxy)
  unfold attemptOptional
  generalize a x.fork = o, b y.fork = o' at hfork
  cases hfork with
  | matched hinside => exact .matched (R.join (R.recordOptional id true hxy) hinside)
  | failed hfg hinside =>
    dsimp only
    rw [R.score hinside]
    split
    · exact .failed hfg (R.left_of_state (R.addScore _ hxy))
    · exact .matched (R.recordOptional id false hxy)

/-! ## Branches -/

/-- The same branch on both sides. -/
structure Beside {α : Type} (R : Parallel σ) (b c : Branch σ α) : Prop where
  label : b.label = c.label
  outcome : R.Agree b.outcome c.outcome

section

variable {α : Type} {bs cs : List (Branch σ α)}

theorem tryEach_beside {f g : β → α × Attempt σ} {xs : List β} (h : ∀ x ∈ xs, (f x).1 = (g x).1 ∧ R.Alongside (f x).2 (g x).2)
    {m m' : Progress σ} (hm : R.state m m') : List.Forall₂ R.Beside (tryEach m (xs.map f)) (tryEach m' (xs.map g)) := by
  unfold tryEach
  rw [List.map_map, List.map_map, List.forall₂_map_left_iff, List.forall₂_map_right_iff, List.forall₂_same]
  exact fun x hx => ⟨(h x hx).1, (h x hx).2 (R.fork hm)⟩

theorem Beside.success {b c : Branch σ α} (h : R.Beside b c) :
    Option.Rel (fun s t => s.2 = t.2 ∧ R.state s.1 t.1) b.success? c.success? := by
  obtain ⟨l, o⟩ := b
  obtain ⟨l', o'⟩ := c
  obtain ⟨rfl, ho⟩ := h
  cases ho with
  | matched hxy => exact .some ⟨rfl, hxy⟩
  | failed _ _ => exact .none

theorem Beside.setback {b c : Branch σ α} (h : R.Beside b c) :
    Option.Rel (fun f g => f.score = g.score ∧ R.failure f g) b.setback? c.setback? := by
  obtain ⟨l, o⟩ := b
  obtain ⟨l', o'⟩ := c
  obtain ⟨rfl, ho⟩ := h
  cases ho with
  | matched _ => exact .none
  | failed hfg hxy =>
    simp only [Branch.setback?, R.score hxy]
    split
    · exact .some ⟨rfl, R.rescored _ hfg⟩
    · exact .none

variable (h : List.Forall₂ R.Beside bs cs)

include h

/-- The scores compare on both sides, so that the same branch is taken. -/
theorem bestSuccess_beside : (bestSuccess bs = none ∧ bestSuccess cs = none) ∨
    ∃ x y l, bestSuccess bs = some (x, l) ∧ bestSuccess cs = some (y, l) ∧ R.state x y := by
  have hbest : Option.Rel (fun s t => s.2 = t.2 ∧ R.state s.1 t.1) (bestSuccess bs) (bestSuccess cs) :=
    Score.firstBest_rel (fun _ _ hst => R.score (R.left_of_state hst.2)) (List.rel_filterMap (fun _ _ => Beside.success) h)
  generalize bestSuccess bs = s, bestSuccess cs = t at hbest
  cases hbest with
  | none => exact .inl ⟨rfl, rfl⟩
  | @some s t hst =>
    obtain ⟨x, l⟩ := s
    obtain ⟨y, l'⟩ := t
    obtain ⟨rfl, hxy⟩ := hst
    exact .inr ⟨x, y, l, rfl, rfl, hxy⟩

theorem concede_agree {f g : Failure σ} {x y : Progress σ} (hfg : R.failure f g) (hxy : R.state x y) :
    R.Agree (concede bs f x) (concede cs g y) := by
  have hbest : Option.Rel (fun f g => f.score = g.score ∧ R.failure f g) (bestSetback bs) (bestSetback cs) :=
    Score.firstBest_rel (fun _ _ hfg => hfg.1) (List.rel_filterMap (fun _ _ => Beside.setback) h)
  unfold concede
  generalize bestSetback bs = s, bestSetback cs = t at hbest
  cases hbest with
  | none => exact .failed hfg (R.left_of_state hxy)
  | some hbest =>
    dsimp only
    rw [hbest.1]
    exact .failed hbest.2 (R.left_of_state (R.addScore _ hxy))

end

/-! ## Groups -/

theorem variants_alongside (id : Option Bytes) {f g : β → Attempt σ} {xs : List β} (h : ∀ x ∈ xs, R.Alongside (f x) (g x))
    (hfails : R.FailsAs p q p.expected q.expected) :
    R.Alongside (attemptVariants p id (xs.map f)) (attemptVariants q id (xs.map g)) := by
  intro x y hxy
  have hbranches : List.Forall₂ R.Beside (tryEach x ((xs.map f).zipIdx.map fun a => (a.2, a.1)))
      (tryEach y ((xs.map g).zipIdx.map fun a => (a.2, a.1))) := by
    rw [List.zipIdx_map, List.zipIdx_map, List.map_map, List.map_map]
    have hnumbered : ∀ a ∈ xs.zipIdx, R.Alongside (f a.1) (g a.1) := fun a ha => h a.1 (List.fst_mem_of_mem_zipIdx ha)
    exact tryEach_beside (f := fun a : β × Nat => (a.2, f a.1)) (g := fun a : β × Nat => (a.2, g a.1))
      (fun a ha => ⟨rfl, hnumbered a ha⟩) hxy
  unfold attemptVariants
  dsimp only
  rcases bestSuccess_beside hbranches with ⟨hx, hy⟩ | ⟨x', y', i, hx, hy, hbest⟩
  · rw [hx, hy, R.isEmpty hxy]
    exact concede_agree hbranches (hfails _ hxy) hxy
  · rw [hx, hy]
    exact .matched (R.join (R.recordVariant id i hxy) hbest)

section

variable {f g : β → Child σ}

theorem unorderedKind_eq {x y : Progress σ} (hxy : R.state x y) : unorderedKind x = unorderedKind y := by
  rw [unorderedKind, unorderedKind, R.isEmpty hxy]

/-- Round by round, the same children are left on both sides. -/
theorem rounds_alongside (id : Option Bytes) (n : Nat)
    (hfails : ∀ xs : List β, R.FailsAs p q (Pattern.expectedOfAny ((xs.map f).map (·.lead)))
      (Pattern.expectedOfAny ((xs.map g).map (·.lead)))) :
    ∀ {xs : List β} (order : List Nat), (∀ x ∈ xs, (f x).index = (g x).index ∧ R.Alongside (f x).attempt (g x).attempt) →
      R.Alongside (attemptRounds p id n (xs.map f) order) (attemptRounds q id n (xs.map g) order) := by
  induction n with
  | zero => exact fun order _ _ _ hxy => .matched (R.recordOrder id order hxy)
  | succ n ih =>
    intro xs order h x y hxy
    have hbranches : List.Forall₂ R.Beside (tryEach x ((xs.map f).map fun c => (c.index, c.attempt)))
        (tryEach y ((xs.map g).map fun c => (c.index, c.attempt))) := by
      rw [List.map_map, List.map_map]
      exact tryEach_beside h hxy
    unfold attemptRounds
    dsimp only
    rcases bestSuccess_beside hbranches with ⟨hx, hy⟩ | ⟨x', y', i, hx, hy, hbest⟩
    · rw [hx, hy, unorderedKind_eq hxy]
      exact concede_agree hbranches (hfails xs _ hxy) hxy
    · rw [hx, hy]
      dsimp only
      have hleft : (xs.map g).filter (·.index != i) = (xs.filter fun z => (f z).index != i).map g := by
        rw [List.filter_map]
        congr 1
        refine List.filter_congr fun z hz => ?_
        simp only [Function.comp, (h z hz).1]
      rw [hleft, List.filter_map]
      exact ih _ (fun z hz => h z (List.mem_filter.mp hz).1) (R.join hxy hbest)

theorem orders_alongside (id : Option Bytes) {xs : List β}
    (h : ∀ x ∈ xs, (f x).index = (g x).index ∧ R.Alongside (f x).attempt (g x).attempt)
    (hfails : R.FailsAs p q p.expected q.expected) :
    R.Alongside (attemptOrders p id (xs.map f)) (attemptOrders q id (xs.map g)) := by
  intro x y hxy
  have hbranches : List.Forall₂ R.Beside
      (tryEach x ((arrangements (xs.map f)).map fun cs => (cs.map (·.index), inOrder (cs.map (·.attempt)))))
      (tryEach y ((arrangements (xs.map g)).map fun cs => (cs.map (·.index), inOrder (cs.map (·.attempt))))) := by
    rw [arrangements_map, arrangements_map, List.map_map, List.map_map]
    refine tryEach_beside (fun zs hzs => ?_) hxy
    have hmem : ∀ z ∈ zs, z ∈ xs := fun z hz => (perm_of_mem_arrangements hzs).subset hz
    simp only [Function.comp, List.map_map]
    exact ⟨List.map_congr_left fun z hz => (h z (hmem z hz)).1, inOrder_alongside fun z hz => (h z (hmem z hz)).2⟩
  unfold attemptOrders
  dsimp only
  rcases bestSuccess_beside hbranches with ⟨hx, hy⟩ | ⟨x', y', order, hx, hy, hbest⟩
  · rw [hx, hy, unorderedKind_eq hxy]
    exact concede_agree hbranches (hfails _ hxy) hxy
  · rw [hx, hy]
    exact .matched (R.join (R.recordOrder id order hxy) hbest)

theorem unordered_alongside (strategy : Strategy) (id : Option Bytes) {xs : List β}
    (h : ∀ x ∈ xs, (f x).index = (g x).index ∧ R.Alongside (f x).attempt (g x).attempt)
    (hgroup : R.FailsAs p q p.expected q.expected)
    (hleft : ∀ xs : List β, R.FailsAs p q (Pattern.expectedOfAny ((xs.map f).map (·.lead)))
      (Pattern.expectedOfAny ((xs.map g).map (·.lead)))) :
    R.Alongside (attemptUnordered strategy p id (xs.map f)) (attemptUnordered strategy q id (xs.map g)) := by
  cases strategy with
  | greedy =>
    unfold attemptUnordered attemptGreedy
    rw [List.length_map, List.length_map]
    exact rounds_alongside id xs.length hleft [] h
  | permutation => exact orders_alongside id h hgroup

end

end Parallel

end CommandGrammar
