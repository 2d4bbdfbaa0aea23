/-
  CommandGrammar.Proofs.Matching.Replay — the order of an unordered group can be replayed.

  When an unordered group matches, under either strategy, there is an order of its
  children in which they match one after the other from the same state, and what the
  group leaves is what they leave, with the record of the order (`unordered_matched`). So
  the order that is recorded is a witness of the match: a sequence of the children in this
  order comes to the same state, except for the record itself (`attempt_order_replayed`).
  This needs exact scores, as the two add up the scores of the children in different ways.
-/

import CommandGrammar.Proofs.Matching.Accounts
import CommandGrammar.Proofs.Matching.Fork
import CommandGrammar.Proofs.Matching.Orders

namespace CommandGrammar

open Pattern (nodesOf arranged)

/-! ## The children of a group that matched -/

/-- What is committed child by child is matched in one go. -/
theorem Commits.inOrder {policy : Policy Rat} {cs : List Pattern} {m m' : Progress Rat} (h : Commits policy cs m m') :
    inOrder (Pattern.attemptEach policy cs) m = .matched m' := by
  induction h with
  | nil m => rfl
  | @cons c cs m x m' hc _ ih =>
    rw [Pattern.attemptEach, inOrder_cons, (attempt_transparent policy c).onto_fork m, hc]
    exact ih

theorem attemptOrder_onto_fork (policy : Policy Rat) (cs : List Pattern) (order : List Nat) (m : Progress Rat) :
    attemptOrder policy cs order m = (attemptOrder policy cs order m.fork).onto m :=
  (each_transparent policy (arranged cs order)).onto_fork m

/-- What an attempt leaves is what it leaves of a fork, joined. -/
theorem Outcome.onto_eq_matched {o : Outcome Rat} {m m' : Progress Rat} (h : o.onto m = .matched m') :
    ∃ x, o = .matched x ∧ m.join x = m' := by
  cases o with
  | matched x => exact ⟨x, rfl, Outcome.matched.inj h⟩
  | failed f x => cases h

/-- A group that matches goes on from what its children leave in some order, and records this order. -/
theorem unordered_matched {policy : Policy Rat} {cs : List Pattern} {id : Option Bytes} {m m' : Progress Rat}
    (h : (Pattern.unordered cs id).attempt policy m = .matched m') :
    m.terminated = false ∧ ∃ order x, order.Perm (List.range cs.length) ∧
      attemptOrder policy cs order m.fork = .matched x ∧
      m' = { m.join x with found := m.found.merge (policy.strategy.ordered id order x.found) } := by
  have hopen : m.terminated = false := (unlessTerminated_eq_matched.mp h).1
  refine ⟨hopen, ?_⟩
  cases hs : policy.strategy with
  | greedy =>
    rw [Pattern.attempt, unlessTerminated_open hopen, hs, Pattern.childrenFrom_eq_map] at h
    unfold attemptUnordered attemptGreedy at h
    obtain ⟨placed, m₁, hplaced, hcommits, rfl⟩ := rounds_commits _ id _ rfl (nodup_zipIdx cs) (by simpa using h)
    have hchildren : attemptOrder policy cs (placed.map (·.2)) m = .matched m₁ := by
      rw [attemptOrder, Pattern.arranged_places fun x hx => hplaced.subset hx]
      exact hcommits.inOrder
    rw [attemptOrder_onto_fork] at hchildren
    obtain ⟨x, hx, rfl⟩ := Outcome.onto_eq_matched hchildren
    refine ⟨_, x, perm_range_of_zipIdx hplaced, hx, ?_⟩
    rw [Strategy.ordered, ← Findings.merge_recordOrder]
    rfl
  | permutation =>
    obtain ⟨otherwise, hgroup⟩ := unordered_permutation policy cs m id hs hopen
    rw [hgroup] at h
    split at h
    · rename_i x order hbest
      cases h
      obtain ⟨hperm, hx, -⟩ := order_of_bestSuccess hbest
      refine ⟨order, x, hperm, hx, ?_⟩
      rw [Strategy.ordered_permutation, ← Findings.merge_assoc, ← Findings.recordOrder_eq_merge]
      rfl
    · exact absurd h (concede_ne_matched _ _ _ _)

/-! ## The record of the order -/

/-- The same is found, except for the order of the group with the identifier. -/
structure Findings.SameBut (id : Bytes) (f g : Findings) : Prop where
  params : f.params = g.params
  optionals : f.optionals = g.optionals
  variants : f.variants = g.variants
  namedOptionals : f.namedOptionals = g.namedOptionals
  namedVariants : f.namedVariants = g.namedVariants
  namedOrders : ∀ name, name ≠ id → f.namedOrders.get? name = g.namedOrders.get? name

theorem Findings.SameBut.merge {id : Bytes} {f g : Findings} (h : f.SameBut id g) (earlier : Findings) :
    (earlier.merge f).SameBut id (earlier.merge g) where
  params := by simp only [Findings.merge, h.params]
  optionals := by simp only [Findings.merge, h.optionals]
  variants := by simp only [Findings.merge, h.variants]
  namedOptionals := by simp only [Findings.merge, h.namedOptionals]
  namedVariants := by simp only [Findings.merge, h.namedVariants]
  namedOrders name hne := by simp only [Findings.merge, Table.get?_merge, h.namedOrders name hne]

/-- A group finds what its children find, and its order. -/
theorem Strategy.ordered_sameBut (strategy : Strategy) (id : Bytes) (order : List Nat) (f : Findings) :
    (strategy.ordered (some id) order f).SameBut id f := by
  cases strategy with
  | greedy =>
    refine ⟨rfl, rfl, rfl, rfl, rfl, fun name hne => ?_⟩
    exact Table.get?_insert_ne _ _ hne
  | permutation =>
    refine ⟨rfl, rfl, rfl, rfl, rfl, fun name hne => ?_⟩
    have hother : (Table.empty.insert id order).get? name = none := Table.get?_insert_ne _ _ hne
    rw [Strategy.ordered, Table.get?_merge, hother, Option.or_none]

/-- The order is found under the identifier, unless a group inside is recorded later under the same. -/
theorem Strategy.ordered_get? {strategy : Strategy} {id : Bytes} (order : List Nat) {f : Findings}
    (h : strategy = .permutation → f.namedOrders.get? id = none) :
    (strategy.ordered (some id) order f).namedOrders.get? id = some order := by
  cases strategy with
  | greedy => exact Table.get?_insert_self _ _ _
  | permutation =>
    rw [Strategy.ordered, Table.get?_merge, h rfl, Option.none_or]
    exact Table.get?_insert_self _ _ _

/-! ## Identifiers of orders -/

/-- Orders are found under no identifiers but those of unordered groups among the nodes. -/
def Findings.OrdersIn (nodes : List Pattern) (f : Findings) : Prop :=
  ∀ id order, f.namedOrders.get? id = some order → ∃ cs, .unordered cs (some id) ∈ nodes

namespace Findings.OrdersIn

variable {nodes nodes' : List Pattern} {f g : Findings}

theorem of_nothing (h : f.namedOrders = {}) : f.OrdersIn nodes := by
  intro id order hfound
  rw [h] at hfound
  cases hfound

theorem weaken (h : f.OrdersIn nodes) (hnodes : nodes ⊆ nodes') : f.OrdersIn nodes' := by
  intro id order hfound
  obtain ⟨cs, hcs⟩ := h id order hfound
  exact ⟨cs, hnodes hcs⟩

theorem merge (hf : f.OrdersIn nodes) (hg : g.OrdersIn nodes) : (f.merge g).OrdersIn nodes := by
  intro id order hfound
  rw [Findings.merge, Table.get?_merge, Option.or_eq_some_iff] at hfound
  rcases hfound with hfound | ⟨-, hfound⟩
  · exact hg id order hfound
  · exact hf id order hfound

theorem ordered {cs : List Pattern} {id : Option Bytes} (hf : f.OrdersIn nodes) (hgroup : .unordered cs id ∈ nodes)
    (strategy : Strategy) (order : List Nat) : (strategy.ordered id order f).OrdersIn nodes := by
  cases id with
  | none => cases strategy <;> exact hf
  | some id =>
    intro name found hfound
    by_cases hname : name = id
    · rw [hname]
      exact ⟨cs, hgroup⟩
    · rw [(strategy.ordered_sameBut id order f).namedOrders name hname] at hfound
      exact hf name found hfound

end Findings.OrdersIn

section

variable {σ : Type} [Score σ] {policy : Policy σ} {raw : Bytes}

mutual

theorem Derives.ordersIn {p : Pattern} {l l' : Position} {f : Findings} (h : Derives policy raw p l l' f) :
    f.OrdersIn p.nodes := by
  match h with
  | .equal _ _ _ => exact .of_nothing rfl
  | .similar _ _ => exact .of_nothing rfl
  | .word _ _ _ => exact .of_nothing rfl
  | .typed _ _ _ => exact .of_nothing rfl
  | .list _ _ _ => exact .of_nothing rfl
  | .text _ _ => exact .of_nothing rfl
  | .sequence hcs => exact hcs.ordersIn.weaken (List.subset_append_left _ _)
  | .absent _ id _ => exact .of_nothing (by cases id <;> rfl)
  | .present id hcs =>
    exact .merge (.of_nothing (by cases id <;> rfl)) (hcs.ordersIn.weaken (List.subset_append_left _ _))
  | .variant id _ _ hi ha =>
    have hnodes : nodesOf _ ⊆ Pattern.nodesOfEach _ := fun q hq =>
      Pattern.mem_nodesOfEach.mpr ⟨_, List.mem_of_getElem? hi, hq⟩
    exact .merge (.of_nothing (by cases id <;> rfl)) (ha.ordersIn.weaken (List.subset_append_of_subset_left _ hnodes))
  | @Derives.unordered _ _ _ _ cs id placed _ _ _ hplaced hcs =>
    have hchildren := perm_of_zipIdx hplaced
    have hinside := hcs.ordersIn.weaken (Pattern.nodesOf_perm hchildren).subset
    exact (hinside.weaken (List.subset_append_left _ _)).ordered (Pattern.mem_nodes_self _) _ _

theorem DerivesEach.ordersIn {cs : List Pattern} {l l' : Position} {f : Findings} (h : DerivesEach policy raw cs l l' f) :
    f.OrdersIn (nodesOf cs) := by
  match h with
  | .nil _ => exact .of_nothing rfl
  | .cons hc hcs =>
    exact (hc.ordersIn.weaken (List.subset_append_left _ _)).merge (hcs.ordersIn.weaken (List.subset_append_right _ _))

end

/-- On a fork, orders are found under the identifiers of groups among the children only. -/
theorem attemptOrder_ordersIn {cs : List Pattern} {order : List Nat} {m x : Progress σ}
    (h : attemptOrder policy cs order m.fork = .matched x) : x.found.OrdersIn (nodesOf cs) := by
  obtain ⟨f, hf, he⟩ := soundEach (fun c _ => sound c) m.fork x h
  have hfound : x.found = f := he.found.trans (Findings.nothing_merge f)
  rw [hfound]
  refine hf.ordersIn.weaken fun q hq => ?_
  obtain ⟨c, hc, hq⟩ := Pattern.mem_nodesOf.mp hq
  obtain ⟨i, -, hi⟩ := List.mem_filterMap.mp hc
  exact Pattern.mem_nodesOf.mpr ⟨c, List.mem_of_getElem? hi, hq⟩

end

/-! ## Replaying the order -/

/-- The order that a group records takes each of its children once, and a sequence of the children in this order
    matches from the same state and leaves the same, but for the record. The record is found under the identifier,
    unless a group inside has the same one and is recorded later. -/
theorem attempt_order_replayed (policy : Policy Rat) (cs : List Pattern) (id : Bytes) {m m' : Progress Rat}
    (h : (Pattern.unordered cs (some id)).attempt policy m = .matched m') :
    ∃ order m₁, order.Perm (List.range cs.length) ∧
      (Pattern.sequence (arranged cs order)).attempt policy m = .matched m₁ ∧
      m' = { m₁ with found := m'.found } ∧ m'.found.SameBut id m₁.found ∧
      (∃ f, m₁.found = m.found.merge f ∧ m'.found = m.found.merge (policy.strategy.ordered (some id) order f)) ∧
      ((policy.strategy = .permutation → ∀ ds, .unordered ds (some id) ∉ nodesOf cs) →
        m'.found.namedOrders.get? id = some order) := by
  obtain ⟨hopen, order, x, hperm, hx, rfl⟩ := unordered_matched h
  have hsequence : (Pattern.sequence (arranged cs order)).attempt policy m = .matched (m.join x) := by
    have horder := attemptOrder_onto_fork policy cs order m
    rw [hx] at horder
    rw [Pattern.sequence_open policy _ hopen]
    exact horder
  refine ⟨order, m.join x, hperm, hsequence, rfl, ?_, ⟨x.found, rfl, rfl⟩, fun hunique => ?_⟩
  · exact (policy.strategy.ordered_sameBut id order x.found).merge m.found
  · have hrecorded : (policy.strategy.ordered (some id) order x.found).namedOrders.get? id = some order := by
      refine Strategy.ordered_get? order fun hs => ?_
      rw [Option.eq_none_iff_forall_ne_some]
      intro other hother
      obtain ⟨ds, hds⟩ := attemptOrder_ordersIn hx id other hother
      exact hunique hs ds hds
    rw [Findings.merge, Table.get?_merge, hrecorded, Option.some_or]

/-- A group inside is recorded as well, and the tail is committed last though it could match from the first round on. -/
theorem attempt_order_replayed_nested :
    let cs : List Pattern :=
      [.tail (ascii "rest") false, .optional [.literal (ascii "x") true false] none, .literal (ascii "a") true false,
        .unordered [.literal (ascii "b") true false, .literal (ascii "c") true false] (some (ascii "in"))]
    let m : Progress Rat :=
      .start (ascii "a x c b y")
        [⟨.plain, ascii "a", 0, 1, ascii "a"⟩, ⟨.plain, ascii "x", 2, 3, ascii "x"⟩, ⟨.plain, ascii "c", 4, 5, ascii "c"⟩,
          ⟨.plain, ascii "b", 6, 7, ascii "b"⟩, ⟨.plain, ascii "y", 8, 9, ascii "y"⟩]
    ∃ m', (Pattern.unordered cs (some (ascii "out"))).attempt .standard m = .matched m' ∧
      m'.found.namedOrders.entries = [(ascii "in", [1, 0]), (ascii "out", [2, 1, 3, 0])] ∧
      ∃ order m₁, order.Perm (List.range cs.length) ∧
        (Pattern.sequence (arranged cs order)).attempt .standard m = .matched m₁ ∧
        m' = { m₁ with found := m'.found } ∧ m'.found.SameBut (ascii "out") m₁.found := by
  intro cs m
  have hfound : ((Pattern.unordered cs (some (ascii "out"))).attempt .standard m).progress.found.namedOrders.entries =
      [(ascii "in", [1, 0]), (ascii "out", [2, 1, 3, 0])] := by decide +kernel
  obtain ⟨m', hm'⟩ : ∃ m', (Pattern.unordered cs (some (ascii "out"))).attempt .standard m = .matched m' :=
    Outcome.exists_matched (by decide +kernel)
  rw [hm'] at hfound
  obtain ⟨order, m₁, hperm, hsequence, hplace, hsame, -⟩ := attempt_order_replayed .standard cs (ascii "out") hm'
  exact ⟨m', hm', hfound, order, m₁, hperm, hsequence, hplace, hsame⟩

end CommandGrammar
