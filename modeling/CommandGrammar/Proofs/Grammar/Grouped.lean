/-
  CommandGrammar.Proofs.Grammar.Grouped — the rules derive no group out of shape.

  The rules derive nothing for what stands between two brackets, or between a bracket and
  a divider, so that no group is empty; only a whole grammar may be. A variant group takes
  a divider, and it inherits an identifier only as all there is in an optional.
-/

import CommandGrammar.Proofs.Grammar.Groups
import CommandGrammar.Proofs.Pattern.Formed

namespace CommandGrammar.Grammar

open Pattern (Grouped inherits)

/-! ## Brackets -/

/-- Each of the alternatives has patterns, none of which inherits an identifier, and no group in them is out of
    shape. -/
def AlternativesGrouped (as : List (List Pattern)) : Prop :=
  ∀ ps ∈ as, ps ≠ [] ∧ (∀ p ∈ ps, p.inherits = false) ∧ ∀ q ∈ Pattern.nodesOf ps, q.Grouped

theorem grouped_group {p : Pattern} (h : AlternativesGrouped p.childLists)
    (hseveral : ∀ as id inherited parenthesized, p = .variants as id inherited parenthesized → 2 ≤ as.length) :
    ∀ q ∈ p.nodes, q.Grouped :=
  Pattern.forall_mem_nodes.mpr
    ⟨⟨fun ps hps => (h ps hps).1, hseveral, .inr fun ps hps => (h ps hps).2.1⟩, fun ps hps => (h ps hps).2.2⟩

theorem grouped_variants {as : List (List Pattern)} (hlen : 2 ≤ as.length) (h : AlternativesGrouped as)
    (id : Option Bytes) (inherited parenthesized : Bool) :
    ∀ q ∈ (Pattern.variants as id inherited parenthesized).nodes, q.Grouped := by
  refine grouped_group h ?_
  rintro _ _ _ _ heq
  cases heq
  exact hlen

theorem grouped_parenthesized {as : List (List Pattern)} (id : Option Bytes) (hne : as ≠ []) (h : AlternativesGrouped as) :
    ∀ q ∈ (parenthesized as id).nodes, q.Grouped := by
  rcases one_or_two hne with ⟨ps, rfl⟩ | h2
  · exact grouped_group h (by simp [parenthesized])
  · rw [parenthesized_of_two id h2]
    exact grouped_variants h2 h id false true

theorem grouped_bracketed {as : List (List Pattern)} (id : Option Bytes) (hne : as ≠ []) (h : AlternativesGrouped as) :
    ∀ q ∈ (bracketed as id).nodes, q.Grouped := by
  rcases one_or_two hne with ⟨ps, rfl⟩ | h2
  · exact grouped_group h (by simp [bracketed])
  · rw [bracketed_of_two id h2]
    refine Pattern.forall_mem_nodes.mpr ⟨⟨?_, by simp, ?_⟩, List.forall_mem_singleton.mpr ?_⟩
    · exact List.forall_mem_singleton.mpr (List.cons_ne_nil _ _)
    · cases id with
      | none => exact .inr (List.forall_mem_singleton.mpr (List.forall_mem_singleton.mpr rfl))
      | some id => exact .inl ⟨as, id, false, rfl⟩
    · simpa [Pattern.nodesOf] using grouped_variants h2 h id id.isSome false

/-! ## Derivations -/

variable {cs : Bool}

theorem Item.inherits {ts : List Terminal} {p : Pattern} (h : Item cs ts p) : p.inherits = false := by
  cases hp : p with
  | variants as id i e => exact (h.variants_flags hp).1
  | _ => rfl

theorem Items.inherits {ts : List Terminal} {ps : List Pattern} (h : Items cs ts ps) : ∀ p ∈ ps, p.inherits = false := by
  intro p hp
  obtain ⟨us, hi⟩ := h.exists_item p hp
  exact hi.inherits

mutual

theorem Item.grouped {ts : List Terminal} {p : Pattern} (h : Item cs ts p) : ∀ q ∈ p.nodes, q.Grouped := by
  match h with
  | .literal .. => exact grouped_group (List.forall_mem_nil _) (by simp [modified])
  | .parameter .. => exact grouped_group (List.forall_mem_nil _) (by simp)
  | .tail .. => exact grouped_group (List.forall_mem_nil _) (by simp)
  | .parenthesized ha .. => exact grouped_parenthesized _ ha.ne_nil ha.grouped
  | .bracketed ha .. => exact grouped_bracketed _ ha.ne_nil ha.grouped
  | .braced hi .. =>
    exact grouped_group (List.forall_mem_singleton.mpr ⟨hi.ne_nil, hi.inherits, hi.grouped⟩) (by simp)

theorem Items.grouped {ts : List Terminal} {ps : List Pattern} (h : Items cs ts ps) :
    ∀ q ∈ Pattern.nodesOf ps, q.Grouped := by
  match h with
  | .one hi =>
    have hp := hi.grouped
    simpa [Pattern.nodesOf] using hp
  | .more hs hi =>
    rw [Pattern.nodesOf_append, List.forall_mem_append]
    have hp := hi.grouped
    exact ⟨hs.grouped, by simpa [Pattern.nodesOf] using hp⟩

theorem Alternatives.grouped {ts : List Terminal} {as : List (List Pattern)} (h : Alternatives cs ts as) :
    AlternativesGrouped as := by
  match h with
  | .one hi => exact List.forall_mem_singleton.mpr ⟨hi.ne_nil, hi.inherits, hi.grouped⟩
  | .more ha hi =>
    exact List.forall_mem_append.mpr ⟨ha.grouped, List.forall_mem_singleton.mpr ⟨hi.ne_nil, hi.inherits, hi.grouped⟩⟩

end

/-- No item of a whole grammar inherits an identifier, and no group in it is out of shape. -/
theorem Root.grouped {ts : List Terminal} {items : List Pattern} (h : Root cs ts items) :
    (∀ p ∈ items, p.inherits = false) ∧ ∀ q ∈ Pattern.nodesOf items, q.Grouped := by
  cases h with
  | empty => exact ⟨List.forall_mem_nil _, List.forall_mem_nil _⟩
  | @alternatives ts as ha =>
    rcases one_or_two ha.ne_nil with ⟨ps, rfl⟩ | h2
    · exact (ha.grouped ps List.mem_cons_self).2
    · rw [unbracketed_of_two h2]
      refine ⟨List.forall_mem_singleton.mpr rfl, ?_⟩
      simpa [Pattern.nodesOf] using grouped_variants h2 ha.grouped none false false

theorem Root.filled {ts : List Terminal} {items : List Pattern} (h : Root cs ts items) :
    ∀ q ∈ Pattern.nodesOf items, q.Filled :=
  fun q hq => (h.grouped.2 q hq).filled

end CommandGrammar.Grammar
