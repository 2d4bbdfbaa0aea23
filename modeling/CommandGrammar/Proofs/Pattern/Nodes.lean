/-
  CommandGrammar.Proofs.Pattern.Nodes — the nodes of a pattern, and what can be said of each.

  The nodes are listed with the inner ones first, which is the order in which a grammar
  completes them. Names and types are read off this list, and a rule that holds
  everywhere in a pattern is a rule for all members of it. A walk also passes each node
  where a grammar begins it, so that it shows what stands inside of what.
-/

import CommandGrammar.Pattern.Basic
import Mathlib.Data.List.Basic

namespace CommandGrammar.Pattern

/-! ## Nodes -/

mutual

/-- The pattern and all patterns in it, inner ones first. -/
def nodes : Pattern → List Pattern
  | .sequence cs => nodesOf cs ++ [.sequence cs]
  | .optional cs id => nodesOf cs ++ [.optional cs id]
  | .variants as id inherited parenthesized => nodesOfEach as ++ [.variants as id inherited parenthesized]
  | .unordered cs id => nodesOf cs ++ [.unordered cs id]
  | p => [p]

def nodesOf : List Pattern → List Pattern
  | [] => []
  | c :: cs => nodes c ++ nodesOf cs

def nodesOfEach : List (List Pattern) → List Pattern
  | [] => []
  | a :: as => nodesOf a ++ nodesOfEach as

end

theorem nodesOf_eq_flatMap (cs : List Pattern) : nodesOf cs = cs.flatMap nodes := by
  induction cs with
  | nil => rfl
  | cons c cs ih => rw [nodesOf, ih, List.flatMap_cons]

theorem nodesOfEach_eq_flatten (as : List (List Pattern)) : nodesOfEach as = nodesOf as.flatten := by
  induction as with
  | nil => rfl
  | cons a as ih => rw [nodesOfEach, ih, List.flatten_cons, nodesOf_eq_flatMap, nodesOf_eq_flatMap, nodesOf_eq_flatMap,
      List.flatMap_append]

theorem nodesOfEach_eq_flatMap (as : List (List Pattern)) : nodesOfEach as = as.flatMap nodesOf := by
  induction as with
  | nil => rfl
  | cons a as ih => rw [nodesOfEach, ih, List.flatMap_cons]

theorem nodesOf_append (cs ds : List Pattern) : nodesOf (cs ++ ds) = nodesOf cs ++ nodesOf ds := by
  simp only [nodesOf_eq_flatMap, List.flatMap_append]

theorem mem_nodesOf {q : Pattern} {cs : List Pattern} : q ∈ nodesOf cs ↔ ∃ c ∈ cs, q ∈ nodes c := by
  rw [nodesOf_eq_flatMap, List.mem_flatMap]

theorem mem_nodesOfEach {q : Pattern} {as : List (List Pattern)} : q ∈ nodesOfEach as ↔ ∃ a ∈ as, q ∈ nodesOf a := by
  simp only [nodesOfEach_eq_flatten, mem_nodesOf, List.mem_flatten]
  constructor
  · rintro ⟨c, ⟨a, ha, hc⟩, hq⟩
    exact ⟨a, ha, c, hc, hq⟩
  · rintro ⟨a, ha, c, hc, hq⟩
    exact ⟨c, ⟨a, ha, hc⟩, hq⟩

/-! ## One node -/

/-- The lists of children of a node: one for each variant. -/
def childLists : Pattern → List (List Pattern)
  | .sequence cs => [cs]
  | .optional cs _ => [cs]
  | .variants as _ _ _ => as
  | .unordered cs _ => [cs]
  | _ => []

inductive Leaf : Pattern → Prop
  | literal (text : Bytes) (caseSensitive tolerant : Bool) : Leaf (.literal text caseSensitive tolerant)
  | parameter (name : Bytes) (type : Option Bytes) : Leaf (.parameter name type)
  | tail (name : Bytes) (raw : Bool) : Leaf (.tail name raw)

/-- A node comes behind the nodes of its children. -/
theorem nodes_eq (p : Pattern) : p.nodes = nodesOfEach p.childLists ++ [p] := by
  cases p <;> simp [nodes, childLists, nodesOfEach]

theorem mem_nodes_self (p : Pattern) : p ∈ p.nodes := by
  rw [nodes_eq]
  exact List.mem_append_right _ List.mem_cons_self

/-- A rule that holds everywhere in a pattern holds at its own node and in its children. -/
theorem forall_mem_nodes {P : Pattern → Prop} {p : Pattern} :
    (∀ q ∈ p.nodes, P q) ↔ P p ∧ ∀ cs ∈ p.childLists, ∀ q ∈ nodesOf cs, P q := by
  rw [nodes_eq, List.forall_mem_append, List.forall_mem_singleton, and_comm]
  refine and_congr_right fun _ => ⟨fun h cs hcs q hq => h q (mem_nodesOfEach.mpr ⟨cs, hcs, hq⟩), fun h q hq => ?_⟩
  obtain ⟨cs, hcs, hq⟩ := mem_nodesOfEach.mp hq
  exact h cs hcs q hq

theorem forall_mem_nodesOf {P : Pattern → Prop} {cs : List Pattern} :
    (∀ q ∈ nodesOf cs, P q) ↔ ∀ c ∈ cs, ∀ q ∈ c.nodes, P q := by
  refine ⟨fun h c hc q hq => h q (mem_nodesOf.mpr ⟨c, hc, hq⟩), fun h q hq => ?_⟩
  obtain ⟨c, hc, hq⟩ := mem_nodesOf.mp hq
  exact h c hc q hq

section

variable {P M : Pattern → Prop}

mutual

/-- Induction over a pattern in which `P` holds everywhere: what holds of a node as soon as it holds of the children
    holds of the pattern. -/
theorem nodes_induct (step : ∀ p, P p → (∀ cs ∈ p.childLists, ∀ c ∈ cs, M c) → M p) :
    ∀ p : Pattern, (∀ q ∈ p.nodes, P q) → M p
  | .literal .., h => step _ (h _ (mem_nodes_self _)) (List.forall_mem_nil _)
  | .parameter .., h => step _ (h _ (mem_nodes_self _)) (List.forall_mem_nil _)
  | .tail .., h => step _ (h _ (mem_nodes_self _)) (List.forall_mem_nil _)
  | .sequence cs, h =>
    step _ (h _ (mem_nodes_self _))
      (List.forall_mem_singleton.mpr (nodesOf_induct step cs fun q hq => h q (List.mem_append_left _ hq)))
  | .optional cs _, h =>
    step _ (h _ (mem_nodes_self _))
      (List.forall_mem_singleton.mpr (nodesOf_induct step cs fun q hq => h q (List.mem_append_left _ hq)))
  | .variants as _ _ _, h =>
    step _ (h _ (mem_nodes_self _)) (nodesOfEach_induct step as fun q hq => h q (List.mem_append_left _ hq))
  | .unordered cs _, h =>
    step _ (h _ (mem_nodes_self _))
      (List.forall_mem_singleton.mpr (nodesOf_induct step cs fun q hq => h q (List.mem_append_left _ hq)))

theorem nodesOf_induct (step : ∀ p, P p → (∀ cs ∈ p.childLists, ∀ c ∈ cs, M c) → M p) :
    ∀ cs : List Pattern, (∀ q ∈ nodesOf cs, P q) → ∀ c ∈ cs, M c
  | [], _ => List.forall_mem_nil _
  | c :: cs, h =>
    List.forall_mem_cons.mpr
      ⟨nodes_induct step c fun q hq => h q (List.mem_append_left _ hq),
        nodesOf_induct step cs fun q hq => h q (List.mem_append_right _ hq)⟩

theorem nodesOfEach_induct (step : ∀ p, P p → (∀ cs ∈ p.childLists, ∀ c ∈ cs, M c) → M p) :
    ∀ as : List (List Pattern), (∀ q ∈ nodesOfEach as, P q) → ∀ a ∈ as, ∀ c ∈ a, M c
  | [], _ => List.forall_mem_nil _
  | a :: as, h =>
    List.forall_mem_cons.mpr
      ⟨nodesOf_induct step a fun q hq => h q (List.mem_append_left _ hq),
        nodesOfEach_induct step as fun q hq => h q (List.mem_append_right _ hq)⟩

end

/-- What holds of a node as soon as it holds of the children holds of every pattern. -/
@[elab_as_elim]
theorem children_induct {M : Pattern → Prop} (step : ∀ p, (∀ cs ∈ p.childLists, ∀ c ∈ cs, M c) → M p) (p : Pattern) : M p :=
  nodes_induct (P := fun _ => True) (fun p _ ih => step p ih) p fun _ _ => trivial

end

/-! ## Walks -/

section

variable {β : Type} (enter leave : Pattern → List β)

mutual

/-- What is noted on a walk through the pattern: on entering a node, in its children, and on leaving it. -/
def walk : Pattern → List β
  | .sequence cs => enter (.sequence cs) ++ walkOf cs ++ leave (.sequence cs)
  | .optional cs id => enter (.optional cs id) ++ walkOf cs ++ leave (.optional cs id)
  | .variants as id inherited parenthesized =>
    enter (.variants as id inherited parenthesized) ++ walkOfEach as ++ leave (.variants as id inherited parenthesized)
  | .unordered cs id => enter (.unordered cs id) ++ walkOf cs ++ leave (.unordered cs id)
  | p => enter p ++ leave p

def walkOf : List Pattern → List β
  | [] => []
  | c :: cs => walk c ++ walkOf cs

def walkOfEach : List (List Pattern) → List β
  | [] => []
  | a :: as => walkOf a ++ walkOfEach as

end

theorem walkOf_eq_flatMap (cs : List Pattern) : walkOf enter leave cs = cs.flatMap (walk enter leave) := by
  induction cs with
  | nil => rfl
  | cons c cs ih => rw [walkOf, ih, List.flatMap_cons]

theorem walkOfEach_eq_flatMap (as : List (List Pattern)) : walkOfEach enter leave as = as.flatMap (walkOf enter leave) := by
  induction as with
  | nil => rfl
  | cons a as ih => rw [walkOfEach, ih, List.flatMap_cons]

theorem walk_eq (p : Pattern) : walk enter leave p = enter p ++ walkOfEach enter leave p.childLists ++ leave p := by
  cases p <;> simp [walk, childLists, walkOfEach]

/-- The nodes stand in the order in which a walk leaves them. -/
theorem walk_nodes (p : Pattern) : walk (fun _ => []) leave p = p.nodes.flatMap leave := by
  induction p using children_induct with | step p ih => ?_
  have hchildren : walkOfEach (fun _ => []) leave p.childLists = (nodesOfEach p.childLists).flatMap leave := by
    rw [walkOfEach_eq_flatMap, nodesOfEach_eq_flatMap, List.flatMap_assoc]
    refine List.flatMap_congr fun cs hcs => ?_
    rw [walkOf_eq_flatMap, nodesOf_eq_flatMap, List.flatMap_assoc]
    exact List.flatMap_congr (ih cs hcs)
  rw [walk_eq, nodes_eq, hchildren, List.nil_append, List.flatMap_append, List.flatMap_singleton]

end

/-- The nodes of a node are nodes of the pattern. -/
theorem mem_nodes_trans {p q r : Pattern} (hq : q ∈ p.nodes) (hr : r ∈ q.nodes) : r ∈ p.nodes := by
  induction p using children_induct with | step p ih => ?_
  rw [nodes_eq, List.mem_append, List.mem_singleton] at hq
  rcases hq with hq | rfl
  · obtain ⟨cs, hcs, hq⟩ := mem_nodesOfEach.mp hq
    obtain ⟨c, hc, hq⟩ := mem_nodesOf.mp hq
    rw [nodes_eq]
    exact List.mem_append_left _ (mem_nodesOfEach.mpr ⟨cs, hcs, mem_nodesOf.mpr ⟨c, hc, ih cs hcs c hc hq⟩⟩)
  · exact hr

/-- The name that a node takes: that of a parameter or a tail, or the identifier of a group. -/
def name? : Pattern → Option Bytes
  | .parameter name _ => some name
  | .tail name _ => some name
  | .optional _ id => id
  | .variants _ id _ _ => id
  | .unordered _ id => id
  | _ => none

/-- The type that a parameter is converted by. -/
def type? : Pattern → Option Bytes
  | .parameter _ type => type
  | _ => none

/-- In every list of children only the last one may end in a tail. -/
def TailsLast (p : Pattern) : Prop :=
  ∀ cs ∈ p.childLists, ∀ c ∈ cs.dropLast, c.endsInTail = false

/-- Every list of children has children. -/
def Filled (p : Pattern) : Prop :=
  ∀ cs ∈ p.childLists, cs ≠ []

/-- Every name in the patterns, in the order in which a grammar gives them. -/
def namesOf (cs : List Pattern) : List Bytes :=
  (nodesOf cs).filterMap name?

theorem namesOf_append (cs ds : List Pattern) : namesOf (cs ++ ds) = namesOf cs ++ namesOf ds := by
  rw [namesOf, nodesOf_append, List.filterMap_append]; rfl

/-! ## Equality up to writing -/

theorem sameList_refl {cs : List Pattern} (h : ∀ c ∈ cs, c.same c = true) : sameList cs cs = true := by
  induction cs with
  | nil => rfl
  | cons c cs ih =>
    rw [sameList, h c List.mem_cons_self, ih fun d hd => h d (List.mem_cons_of_mem _ hd)]
    rfl

theorem sameAlternatives_refl (as : List (List Pattern)) (h : ∀ a ∈ as, ∀ c ∈ a, c.same c = true) :
    sameAlternatives as as = true := by
  induction as with
  | nil => rfl
  | cons a as ih =>
    rw [sameAlternatives, sameList_refl (h a List.mem_cons_self), ih fun b hb => h b (List.mem_cons_of_mem _ hb)]
    rfl

theorem same_refl (p : Pattern) : p.same p = true := by
  induction p using children_induct with | step p ih => ?_
  cases p with
  | literal => simp [same]
  | parameter => simp [same]
  | tail => simp [same]
  | sequence cs => rw [same, sameList_refl (ih cs List.mem_cons_self)]
  | optional cs id => rw [same, sameList_refl (ih cs List.mem_cons_self), beq_self_eq_true]; rfl
  | variants as id i e => rw [same, sameAlternatives_refl as ih, beq_self_eq_true]; rfl
  | unordered cs id => rw [same, sameList_refl (ih cs List.mem_cons_self), beq_self_eq_true]; rfl

end CommandGrammar.Pattern
