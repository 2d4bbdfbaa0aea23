/-
  CommandGrammar.Proofs.Matching.Children — attempts of lists of patterns.

  The attempts of the children of a pattern are a map over the children, so that what
  holds of each child is said by membership, and a list of attempts is run piece by
  piece. What holds of words, and is kept by every way of putting attempts together,
  holds of all patterns (`Composes.attempt`).
-/

import CommandGrammar.Matching.Match
import CommandGrammar.Proofs.Pattern.Nodes

namespace CommandGrammar

variable {σ : Type}

/-- An element numbered by its place in the list. -/
theorem mem_numbered {α : Type} {xs : List α} {i : Nat} {x : α} :
    (i, x) ∈ (xs.zipIdx.map fun p => (p.2, p.1)) ↔ xs[i]? = some x := by
  rw [← List.mk_mem_zipIdx_iff_getElem?, List.mem_map]
  constructor
  · rintro ⟨p, hp, heq⟩
    cases heq
    exact hp
  · exact fun h => ⟨(x, i), h, rfl⟩

/-- An attempt that does not fail matches. -/
theorem Outcome.exists_matched {o : Outcome σ} (h : o.failure?.isNone = true) : ∃ m, o = .matched m := by
  cases o with
  | matched m => exact ⟨m, rfl⟩
  | failed f m => cases h

/-! ## One after the other -/

/-- What follows an attempt, if it succeeds. -/
def Outcome.andThen (o : Outcome σ) (a : Attempt σ) : Outcome σ :=
  match o with
  | .matched m => a m
  | .failed f m => .failed f m

theorem inOrder_cons (a : Attempt σ) (as : List (Attempt σ)) (m : Progress σ) :
    inOrder (a :: as) m = (a m).andThen (inOrder as) := by
  rw [inOrder]
  cases a m <;> rfl

theorem inOrder_single (a : Attempt σ) (m : Progress σ) : inOrder [a] m = a m := by
  rw [inOrder_cons]
  cases a m <;> rfl

theorem inOrder_append (as bs : List (Attempt σ)) (m : Progress σ) :
    inOrder (as ++ bs) m = (inOrder as m).andThen (inOrder bs) := by
  induction as generalizing m with
  | nil => rfl
  | cons a as ih =>
    rw [List.cons_append, inOrder_cons, inOrder_cons]
    cases a m with
    | matched m₁ => exact ih m₁
    | failed f m₁ => rfl

theorem inOrder_cons_eq_matched {a : Attempt σ} {as : List (Attempt σ)} {m m' : Progress σ} :
    inOrder (a :: as) m = .matched m' ↔ ∃ m₁, a m = .matched m₁ ∧ inOrder as m₁ = .matched m' := by
  rw [inOrder_cons]
  cases a m with
  | matched m₁ => simp [Outcome.andThen]
  | failed f m₁ => simp [Outcome.andThen]

variable [Score σ]

theorem unlessTerminated_eq_matched {p : Pattern} {a : Attempt σ} {m m' : Progress σ} :
    unlessTerminated p a m = .matched m' ↔ m.terminated = false ∧ a m = .matched m' := by
  unfold unlessTerminated
  cases m.terminated <;> simp

theorem unlessTerminated_open {p : Pattern} {a : Attempt σ} {m : Progress σ} (h : m.terminated = false) :
    unlessTerminated p a m = a m := by
  rw [unlessTerminated, h]
  rfl

/-- An optional is present if its branch matches, and absent if the branch fails without a score. -/
theorem attemptOptional_matched {id : Option Bytes} {a : Attempt σ} {m m' : Progress σ}
    (h : attemptOptional id a m = .matched m') :
    (∃ x, a m.fork = .matched x ∧ m' = (m.recordOptional id true).join x) ∨
      ∃ f x, a m.fork = .failed f x ∧ ¬ 0 < x.score ∧ m' = m.recordOptional id false := by
  unfold attemptOptional at h
  split at h
  · rename_i x hx
    cases h
    exact .inl ⟨x, hx, rfl⟩
  · rename_i f x hx
    split at h
    · cases h
    · rename_i hpos
      cases h
      exact .inr ⟨f, x, hx, hpos, rfl⟩

namespace Pattern

variable (policy : Policy σ)

/-! ## The attempts of children -/

theorem attemptEach_eq_map (cs : List Pattern) : attemptEach policy cs = cs.map (attempt policy) := by
  induction cs with
  | nil => rfl
  | cons c cs ih => rw [attemptEach, ih, List.map_cons]

theorem attemptAlternatives_eq_map (as : List (List Pattern)) :
    attemptAlternatives policy as = as.map fun a => inOrder (attemptEach policy a) := by
  induction as with
  | nil => rfl
  | cons a as ih => rw [attemptAlternatives, ih, List.map_cons]

theorem getElem?_attemptAlternatives {as : List (List Pattern)} {i : Nat} {a : Attempt σ} :
    (attemptAlternatives policy as)[i]? = some a ↔
      ∃ variant, as[i]? = some variant ∧ inOrder (attemptEach policy variant) = a := by
  rw [attemptAlternatives_eq_map, List.getElem?_map, Option.map_eq_some_iff]

theorem sequence_open (cs : List Pattern) {m : Progress σ} (h : m.terminated = false) :
    (sequence cs).attempt policy m = inOrder (attemptEach policy cs) m := by
  rw [attempt, unlessTerminated_open h]

/-- Behind a tail every pattern fails, and leaves the state as it is. -/
theorem attempt_terminated (p : Pattern) {m : Progress σ} (h : m.terminated = true) : ∃ f, p.attempt policy m = .failed f m := by
  obtain ⟨a, ha⟩ : ∃ a, p.attempt policy = unlessTerminated p a := by
    cases p <;> exact ⟨_, rfl⟩
  rw [ha, unlessTerminated, if_pos h]
  exact ⟨_, rfl⟩

/-- A pattern as a child of an unordered group, with its place in it. -/
def child (x : Pattern × Nat) : Child σ :=
  ⟨x.2, x.1.expected, x.1.attempt policy⟩

theorem childrenFrom_eq_map (cs : List Pattern) : ∀ i, childrenFrom policy i cs = (cs.zipIdx i).map (child policy) := by
  induction cs with
  | nil => exact fun i => rfl
  | cons c cs ih =>
    intro i
    rw [childrenFrom, ih, List.zipIdx_cons, List.map_cons]
    rfl

theorem attempts_child (placed : List (Pattern × Nat)) :
    (placed.map (child policy)).map (·.attempt) = attemptEach policy (placed.map (·.1)) := by
  rw [attemptEach_eq_map, List.map_map, List.map_map]
  rfl

section

variable {policy policy' : Policy σ}

theorem attemptEach_congr {cs : List Pattern} (h : ∀ c ∈ cs, c.attempt policy = c.attempt policy') :
    attemptEach policy cs = attemptEach policy' cs := by
  rw [attemptEach_eq_map, attemptEach_eq_map]
  exact List.map_congr_left h

theorem attemptAlternatives_congr {as : List (List Pattern)} (h : ∀ a ∈ as, ∀ c ∈ a, c.attempt policy = c.attempt policy') :
    attemptAlternatives policy as = attemptAlternatives policy' as := by
  rw [attemptAlternatives_eq_map, attemptAlternatives_eq_map]
  exact List.map_congr_left fun a ha => by rw [attemptEach_congr (h a ha)]

theorem childrenFrom_congr {cs : List Pattern} (h : ∀ c ∈ cs, c.attempt policy = c.attempt policy') (i : Nat) :
    childrenFrom policy i cs = childrenFrom policy' i cs := by
  rw [childrenFrom_eq_map, childrenFrom_eq_map]
  exact List.map_congr_left fun x hx => by rw [child, child, h x.1 (List.fst_mem_of_mem_zipIdx hx)]

/-- A pattern does the same under both policies if its children do, where an unordered group tries the same orders. -/
theorem attempt_congr {p : Pattern} (h : ∀ cs ∈ p.childLists, ∀ c ∈ cs, c.attempt policy = c.attempt policy')
    (hleaf : Leaf p → p.attempt policy = p.attempt policy')
    (hstrategy : ∀ cs id, p = .unordered cs id → policy.strategy = policy'.strategy) :
    p.attempt policy = p.attempt policy' := by
  cases p with
  | literal text caseSensitive tolerant => exact hleaf (.literal text caseSensitive tolerant)
  | parameter name type => exact hleaf (.parameter name type)
  | tail name raw => exact hleaf (.tail name raw)
  | sequence cs => rw [attempt, attempt, attemptEach_congr (h cs List.mem_cons_self)]
  | optional cs id => rw [attempt, attempt, attemptEach_congr (h cs List.mem_cons_self)]
  | variants as id inherited parenthesized =>
    have has : attemptAlternatives policy as = attemptAlternatives policy' as := attemptAlternatives_congr h
    rw [attempt, attempt, has]
  | unordered cs id =>
    rw [attempt, attempt, childrenFrom_congr (h cs List.mem_cons_self), hstrategy cs id rfl]

end

end Pattern

/-! ## All patterns -/

/-- `P` holds of words, and of what is put together from attempts of which it holds. -/
structure Composes (policy : Policy σ) (P : Attempt σ → Prop) : Prop where
  literal (text : Bytes) (caseSensitive tolerant : Bool) : P (attemptLiteral policy text caseSensitive tolerant)
  parameter (name : Bytes) (type : Option Bytes) : P (attemptParameter policy name type)
  tail (name : Bytes) (raw : Bool) : P (attemptTail policy name raw)
  unlessTerminated (p : Pattern) {a : Attempt σ} : P a → P (unlessTerminated p a)
  inOrder {as : List (Attempt σ)} : (∀ a ∈ as, P a) → P (inOrder as)
  optional (id : Option Bytes) {a : Attempt σ} : P a → P (attemptOptional id a)
  variants (p : Pattern) (id : Option Bytes) {as : List (Attempt σ)} : (∀ a ∈ as, P a) → P (attemptVariants p id as)
  unordered (p : Pattern) (id : Option Bytes) {cs : List (Child σ)} :
    (∀ c ∈ cs, P c.attempt) → P (attemptUnordered policy.strategy p id cs)

namespace Composes

variable {policy : Policy σ} {P : Attempt σ → Prop} (h : Composes policy P)

include h

theorem attempt (p : Pattern) : P (p.attempt policy) := by
  induction p using Pattern.children_induct with | step p ih => ?_
  have heach : ∀ cs ∈ p.childLists, P (CommandGrammar.inOrder (Pattern.attemptEach policy cs)) := by
    intro cs hcs
    rw [Pattern.attemptEach_eq_map]
    exact h.inOrder (List.forall_mem_map.mpr (ih cs hcs))
  cases p with
  | literal text caseSensitive tolerant => exact h.unlessTerminated _ (h.literal text caseSensitive tolerant)
  | parameter name type => exact h.unlessTerminated _ (h.parameter name type)
  | tail name raw => exact h.unlessTerminated _ (h.tail name raw)
  | sequence cs => exact h.unlessTerminated _ (heach cs List.mem_cons_self)
  | optional cs id => exact h.unlessTerminated _ (h.optional id (heach cs List.mem_cons_self))
  | variants as id inherited parenthesized =>
    have has : ∀ a ∈ Pattern.attemptAlternatives policy as, P a := by
      rw [Pattern.attemptAlternatives_eq_map]
      exact List.forall_mem_map.mpr heach
    exact h.unlessTerminated _ (h.variants _ id has)
  | unordered cs id =>
    have hcs : ∀ c ∈ Pattern.childrenFrom policy 0 cs, P c.attempt := by
      rw [Pattern.childrenFrom_eq_map]
      exact List.forall_mem_map.mpr fun x hx => ih cs List.mem_cons_self x.1 (List.fst_mem_of_mem_zipIdx hx)
    exact h.unlessTerminated _ (h.unordered _ id hcs)

theorem each (cs : List Pattern) : ∀ a ∈ Pattern.attemptEach policy cs, P a := by
  rw [Pattern.attemptEach_eq_map]
  exact List.forall_mem_map.mpr fun c _ => h.attempt c

end Composes

end CommandGrammar
