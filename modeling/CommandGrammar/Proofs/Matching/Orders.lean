/-
  CommandGrammar.Proofs.Matching.Orders — the best order of the children of an unordered group.

  The arrangements of a list are all its permutations, and those of the positions come in
  lexicographic order. So an unordered group that tries them all matches if any order of
  its children does, and takes the first of the orders that score most; if none matches,
  it reports the highest score that one of them reached (`attempt_best_order`).
-/

import CommandGrammar.Proofs.Matching.Best
import CommandGrammar.Proofs.Matching.Children
import Mathlib.Data.List.Lex

namespace CommandGrammar

/-! ## All orders -/

section

variable {α : Type}

theorem exists_mem_picks {xs : List α} {x : α} (h : x ∈ xs) : ∃ ys, (x, ys) ∈ picks xs := by
  induction xs with
  | nil => cases h
  | cons y xs ih =>
    rcases List.mem_cons.mp h with rfl | h
    · exact ⟨xs, List.mem_cons_self⟩
    · obtain ⟨ys, hys⟩ := ih h
      exact ⟨y :: ys, List.mem_cons_of_mem _ (List.mem_map.mpr ⟨_, hys, rfl⟩)⟩

theorem mem_arrangementsOf_of_perm (n : Nat) : ∀ {xs ys : List α}, xs.length = n → ys.Perm xs → ys ∈ arrangementsOf n xs := by
  induction n with
  | zero =>
    intro xs ys hn h
    rw [List.length_eq_zero_iff.mp hn] at h
    rw [h.eq_nil]
    exact List.mem_cons_self
  | succ n ih =>
    intro xs ys hn h
    cases ys with
    | nil =>
      rw [← h.length_eq] at hn
      cases hn
    | cons y ys =>
      obtain ⟨zs, hzs⟩ := exists_mem_picks (h.subset List.mem_cons_self)
      have hrest : (y :: zs).Perm xs := perm_of_mem_picks hzs
      have hlen : zs.length = n := by
        have := hrest.length_eq
        simp only [List.length_cons] at this
        omega
      have hys : ys ∈ arrangementsOf n zs := ih hlen (h.trans hrest.symm).cons_inv
      exact List.mem_flatMap.mpr ⟨(y, zs), hzs, List.mem_map.mpr ⟨ys, hys, rfl⟩⟩

theorem mem_arrangements {xs ys : List α} : ys ∈ arrangements xs ↔ ys.Perm xs :=
  ⟨perm_of_mem_arrangements, mem_arrangementsOf_of_perm xs.length rfl⟩

end

/-! ## In lexicographic order -/

/-- The elements are picked from the first to the last, and what is left keeps its order. -/
theorem picks_ascending {xs : List Nat} (h : xs.Pairwise (· < ·)) :
    (picks xs).Pairwise (fun p q => p.1 < q.1) ∧ ∀ p ∈ picks xs, p.1 ∈ xs ∧ p.2.Sublist xs := by
  induction xs with
  | nil => exact ⟨List.Pairwise.nil, List.forall_mem_nil _⟩
  | cons x xs ih =>
    obtain ⟨hx, hxs⟩ := List.pairwise_cons.mp h
    obtain ⟨hpicks, hrest⟩ := ih hxs
    rw [picks]
    refine ⟨List.pairwise_cons.mpr ⟨?_, ?_⟩, List.forall_mem_cons.mpr ⟨⟨List.mem_cons_self, List.sublist_cons_self x xs⟩, ?_⟩⟩
    · exact List.forall_mem_map.mpr fun p hp => hx p.1 (hrest p hp).1
    · exact List.pairwise_map.mpr hpicks
    · refine List.forall_mem_map.mpr fun p hp => ?_
      obtain ⟨hmem, hsub⟩ := hrest p hp
      exact ⟨List.mem_cons_of_mem x hmem, hsub.cons_cons x⟩

theorem arrangementsOf_ascending (n : Nat) : ∀ {xs : List Nat}, xs.Pairwise (· < ·) →
    (arrangementsOf n xs).Pairwise (· < ·) := by
  induction n with
  | zero => exact fun _ => List.pairwise_singleton _ _
  | succ n ih =>
    intro xs h
    obtain ⟨hpicks, hrest⟩ := picks_ascending h
    rw [arrangementsOf, List.pairwise_flatMap]
    constructor
    · intro p hp
      have hcons : ∀ ys zs : List Nat, ys < zs → p.1 :: ys < p.1 :: zs := fun _ _ => List.cons_lt_cons_self.mpr
      exact List.pairwise_map.mpr ((ih (h.sublist (hrest p hp).2)).imp fun hlt => hcons _ _ hlt)
    · refine hpicks.imp fun {p q} hlt => ?_
      refine List.forall_mem_map.mpr fun ys _ => List.forall_mem_map.mpr fun zs _ => ?_
      exact List.cons_lt_cons_iff.mpr (.inl hlt)

/-- The orders of the first numbers come in lexicographic order. -/
theorem arrangements_ascending (n : Nat) : (arrangements (List.range n)).Pairwise (· < ·) :=
  arrangementsOf_ascending _ List.pairwise_lt_range

example : arrangements (List.range 3) = [[0, 1, 2], [0, 2, 1], [1, 0, 2], [1, 2, 0], [2, 0, 1], [2, 1, 0]] := by decide

/-! ## The children in an order -/

/-- The children at the given places. -/
def Pattern.arranged (cs : List Pattern) (order : List Nat) : List Pattern :=
  order.filterMap (cs[·]?)

theorem Pattern.arranged_places {cs : List Pattern} {placed : List (Pattern × Nat)} (h : ∀ x ∈ placed, x ∈ cs.zipIdx) :
    arranged cs (placed.map (·.2)) = placed.map (·.1) := by
  rw [arranged, List.filterMap_map, ← List.filterMap_eq_map]
  refine List.filterMap_congr fun x hx => ?_
  exact List.mk_mem_zipIdx_iff_getElem?.mp (h x hx)

/-- The children in the given order, one after the other. -/
def attemptOrder {σ : Type} [Score σ] (policy : Policy σ) (cs : List Pattern) (order : List Nat) : Attempt σ :=
  inOrder (Pattern.attemptEach policy (Pattern.arranged cs order))

section

variable {σ : Type} [Score σ] (policy : Policy σ) (cs : List Pattern) (m : Progress σ)

/-- What each order of the children comes to on a fork. -/
def triedOrders : List (Branch σ (List Nat)) :=
  (arrangements (List.range cs.length)).map fun order => ⟨order, attemptOrder policy cs order m.fork⟩

theorem mem_triedOrders {b : Branch σ (List Nat)} :
    b ∈ triedOrders policy cs m ↔
      ∃ order, order.Perm (List.range cs.length) ∧ ⟨order, attemptOrder policy cs order m.fork⟩ = b := by
  simp only [triedOrders, List.mem_map, mem_arrangements]

theorem triedOrders_ascending : (triedOrders policy cs m).Pairwise fun b b' => b.label < b'.label :=
  List.pairwise_map.mpr (arrangements_ascending cs.length)

/-- The arrangements of the children are the orders of their places. -/
theorem tryEach_arrangements :
    tryEach m ((arrangements (Pattern.childrenFrom policy 0 cs)).map fun xs =>
      (xs.map (·.index), inOrder (xs.map (·.attempt)))) = triedOrders policy cs m := by
  have hplaces : arrangements (List.range cs.length) = (arrangements cs.zipIdx).map (·.map (·.2)) := by
    rw [← arrangements_map, List.zipIdx_map_snd, List.range_eq_range']
  rw [triedOrders, hplaces, tryEach, Pattern.childrenFrom_eq_map, arrangements_map, List.map_map, List.map_map,
    List.map_map]
  refine List.map_congr_left fun placed hplaced => ?_
  have hchildren : Pattern.arranged cs (placed.map (·.2)) = placed.map (·.1) :=
    Pattern.arranged_places fun x hx => (perm_of_mem_arrangements hplaced).subset hx
  simp only [Function.comp, attemptOrder, hchildren, Pattern.attemptEach_eq_map, List.map_map]
  rfl

/-- What a group comes to that tries every order of its children. -/
theorem unordered_permutation (id : Option Bytes) (hs : policy.strategy = .permutation) (hopen : m.terminated = false) :
    ∃ otherwise, (Pattern.unordered cs id).attempt policy m =
      match bestSuccess (triedOrders policy cs m) with
      | some (x, order) => .matched ((m.recordOrder id order).join x)
      | none => concede (triedOrders policy cs m) otherwise m := by
  rw [Pattern.attempt, unlessTerminated_open hopen, hs, attemptUnordered, attemptOrders, tryEach_arrangements]
  exact ⟨_, rfl⟩

end

/-! ## The best order -/

section

variable {policy : Policy Rat} {cs : List Pattern} {m : Progress Rat}

/-- The order that is taken scores at least as much as every other, and is the first of those that score as much. -/
theorem order_of_bestSuccess {x : Progress Rat} {order : List Nat}
    (h : bestSuccess (triedOrders policy cs m) = some (x, order)) :
    order.Perm (List.range cs.length) ∧ attemptOrder policy cs order m.fork = .matched x ∧
      ∀ order' x', order'.Perm (List.range cs.length) → attemptOrder policy cs order' m.fork = .matched x' →
        x'.score ≤ x.score ∧ (x'.score = x.score → order ≤ order') := by
  obtain ⟨b, hb, hx, rfl⟩ := bestSuccess_mem h
  obtain ⟨order, hperm, rfl⟩ := (mem_triedOrders policy cs m).mp hb
  refine ⟨hperm, hx, fun order' x' hperm' hx' => ?_⟩
  have hmem := (mem_triedOrders policy cs m).mpr ⟨order', hperm', rfl⟩
  exact bestSuccess_best h (triedOrders_ascending policy cs m) _ hmem x' hx'

theorem failed_of_bestSuccess (h : bestSuccess (triedOrders policy cs m) = none) {order : List Nat}
    (hperm : order.Perm (List.range cs.length)) : ∃ f x, attemptOrder policy cs order m.fork = .failed f x :=
  bestSuccess_eq_none.mp h _ ((mem_triedOrders policy cs m).mpr ⟨order, hperm, rfl⟩)

theorem failedScores_triedOrders :
    failedScores (triedOrders policy cs m) =
      {t | ∃ order e x, order.Perm (List.range cs.length) ∧ attemptOrder policy cs order m.fork = .failed e x ∧
        t = x.score} := by
  ext t
  constructor
  · rintro ⟨b, hb, e, x, hout, rfl⟩
    obtain ⟨order, hperm, rfl⟩ := (mem_triedOrders policy cs m).mp hb
    exact ⟨order, e, x, hperm, hout, rfl⟩
  · rintro ⟨order, e, x, hperm, hout, rfl⟩
    exact ⟨_, (mem_triedOrders policy cs m).mpr ⟨order, hperm, rfl⟩, e, x, hout, rfl⟩

end

/-- A group that tries every order of its children matches exactly if some order does. It goes on from what the best of
    them leaves, of equals the lexicographically first; if all fail, it scores the highest of what they scored, or
    nothing. -/
theorem attempt_best_order (policy : Policy Rat) (hs : policy.strategy = .permutation) (cs : List Pattern)
    (id : Option Bytes) {m : Progress Rat} (hopen : m.terminated = false) :
    ((∃ m', (Pattern.unordered cs id).attempt policy m = .matched m') ↔
        ∃ order x, order.Perm (List.range cs.length) ∧ attemptOrder policy cs order m.fork = .matched x) ∧
      (∀ m', (Pattern.unordered cs id).attempt policy m = .matched m' →
        ∃ order x, order.Perm (List.range cs.length) ∧ attemptOrder policy cs order m.fork = .matched x ∧
          m' = (m.recordOrder id order).join x ∧
          ∀ order' x', order'.Perm (List.range cs.length) → attemptOrder policy cs order' m.fork = .matched x' →
            x'.score ≤ x.score ∧ (x'.score = x.score → order ≤ order')) ∧
      ∀ f m', (Pattern.unordered cs id).attempt policy m = .failed f m' →
        ∃ s, m' = m.addScore s ∧ IsGreatest
          (insert 0 {t | ∃ order e x, order.Perm (List.range cs.length) ∧
            attemptOrder policy cs order m.fork = .failed e x ∧ t = x.score}) s := by
  obtain ⟨otherwise, hgroup⟩ := unordered_permutation policy cs m id hs hopen
  rw [hgroup]
  cases hbest : bestSuccess (triedOrders policy cs m) with
  | some best =>
    obtain ⟨x, order⟩ := best
    obtain ⟨hperm, hx, hfirst⟩ := order_of_bestSuccess hbest
    refine ⟨⟨fun _ => ⟨order, x, hperm, hx⟩, fun _ => ⟨_, rfl⟩⟩, fun m' h => ?_, fun f m' h => ?_⟩
    · cases h
      exact ⟨order, x, hperm, hx, rfl, hfirst⟩
    · cases h
  | none =>
    refine ⟨⟨?_, ?_⟩, fun m' h => absurd h (concede_ne_matched _ _ _ _), fun f m' h => ?_⟩
    · rintro ⟨m', h⟩
      exact absurd h (concede_ne_matched _ _ _ _)
    · rintro ⟨order, x, hperm, hx⟩
      obtain ⟨f, y, hy⟩ := failed_of_bestSuccess hbest hperm
      rw [hx] at hy
      cases hy
    · obtain ⟨s, rfl, hgreatest, -⟩ := concede_best h (triedOrders_ascending policy cs m)
      rw [failedScores_triedOrders] at hgreatest
      exact ⟨s, rfl, hgreatest⟩

/-- Three of the six orders match and score the same; the parameter, which stands first, must not take the first word. -/
theorem attempt_best_order_equal :
    let policy : Policy Rat := { (Policy.standard : Policy Rat) with strategy := .permutation }
    let cs : List Pattern :=
      [.optional [.parameter (ascii "n") none] none, .literal (ascii "a") true false,
        .optional [.literal (ascii "z") true false] none]
    let m : Progress Rat :=
      .start (ascii "a b") [⟨.plain, ascii "a", 0, 1, ascii "a"⟩, ⟨.plain, ascii "b", 2, 3, ascii "b"⟩]
    policy.strategy = .permutation ∧ m.terminated = false ∧
      ∃ m', (Pattern.unordered cs (some (ascii "o"))).attempt policy m = .matched m' ∧
        m'.found.namedOrders.entries = [(ascii "o", [1, 0, 2])] ∧
        ∃ order x, order.Perm (List.range cs.length) ∧ attemptOrder policy cs order m.fork = .matched x ∧
          m' = (m.recordOrder (some (ascii "o")) order).join x ∧
          ∀ order' x', order'.Perm (List.range cs.length) → attemptOrder policy cs order' m.fork = .matched x' →
            x'.score ≤ x.score ∧ (x'.score = x.score → order ≤ order') := by
  intro policy cs m
  have hbest := attempt_best_order policy rfl cs (some (ascii "o")) (m := m) rfl
  have hfound : ((Pattern.unordered cs (some (ascii "o"))).attempt policy m).progress.found.namedOrders.entries =
      [(ascii "o", [1, 0, 2])] := by decide +kernel
  have hmatched : ((Pattern.unordered cs (some (ascii "o"))).attempt policy m).failure?.isNone = true := by
    decide +kernel
  cases h : (Pattern.unordered cs (some (ascii "o"))).attempt policy m with
  | matched m' =>
    rw [h] at hfound
    exact ⟨rfl, rfl, m', rfl, hfound, hbest.2.1 m' h⟩
  | failed f m' =>
    rw [h] at hmatched
    cases hmatched

end CommandGrammar
