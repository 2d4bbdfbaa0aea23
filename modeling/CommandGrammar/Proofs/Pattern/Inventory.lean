/-
  CommandGrammar.Proofs.Pattern.Inventory — what flattening keeps, and what it leaves to be flattened.

  What has to be kept is what a match can see of a pattern without its shape: the leaves
  with all their fields, and each identifier with the group that it names, around the
  leaves of that group (`inventory`). What may not be left is a list of children that
  could be shorter or a group that could be taken away (`Compact`). The pass goes through
  the pattern once; that this is enough is read off the canonical form (`normal_flattenIn`).
-/

import CommandGrammar.Pattern.Render
import CommandGrammar.Proofs.Pattern.Canonical
import CommandGrammar.Proofs.Pattern.Required

namespace CommandGrammar.Pattern

/-! ## Inventory -/

/-- A leaf, or one end of a group that has an identifier. -/
inductive Landmark where
  | leaf (p : Pattern)
  | opens (kind : Slot) (id : Bytes)
  | closes (kind : Slot) (id : Bytes)

def beginning : Pattern → List Landmark
  | .optional _ id => id.toList.map (.opens .optional)
  | .variants _ id _ _ => id.toList.map (.opens .variants)
  | .unordered _ id => id.toList.map (.opens .unordered)
  | _ => []

def ending : Pattern → List Landmark
  | .sequence _ => []
  | .optional _ id => id.toList.map (.closes .optional)
  | .variants _ id _ _ => id.toList.map (.closes .variants)
  | .unordered _ id => id.toList.map (.closes .unordered)
  | p => [.leaf p]

/-- The leaves in their order, and around them the groups that have identifiers. -/
def inventory (p : Pattern) : List Landmark :=
  walk beginning ending p

theorem labels_beginning : Labels beginning := by
  constructor <;> intros <;> rfl

theorem labels_ending : Labels ending := by
  constructor <;> intros <;> rfl

/-! ## Compact patterns -/

def Unsequenced (cs : List Pattern) : Prop :=
  ∀ c ∈ cs, c.isSequence = false

/-- Nothing can be flattened at the node. -/
def Compact : Pattern → Prop
  | .sequence cs => 2 ≤ cs.length ∧ Unsequenced cs
  | .optional cs _ => Unsequenced cs
  | .variants as id _ _ =>
    (id = none → 2 ≤ as.length) ∧
      ∀ a ∈ as, Unsequenced a ∧ ∀ bs inherited parenthesized, a ≠ [.variants bs none inherited parenthesized]
  | .unordered cs id => id = none → cs.length ≠ 1
  | _ => True

theorem unsequenced_of_inline {cs : List Pattern} (h : Inline cs) : Unsequenced cs :=
  fun c hc => (h c hc).1

theorem unsequenced_guardSole (id : Option Bytes) {cs : List Pattern} (h : Unsequenced cs) :
    Unsequenced (guardSole id cs) := by
  rcases guardSole_cases id cs with ⟨as, i, e, _, _, hguard⟩ | hguard
  · rw [hguard]
    exact List.forall_mem_singleton.mpr rfl
  · rwa [hguard]

/-- A variant group that is all there is of a variant has no parentheses in its place, so that it has been merged. -/
theorem VariantNormal.ne_group {a : List Pattern} (h : VariantNormal a) (bs : List (List Pattern))
    (inherited parenthesized : Bool) : a ≠ [.variants bs none inherited parenthesized] := by
  intro ha
  have hnodes := h.nodes
  have hinline := h.inline
  have hmerged := h.unmerged
  rw [ha] at hnodes hinline hmerged
  obtain ⟨hlen, -⟩ : Canonical (.variants bs none inherited parenthesized) :=
    hnodes _ (mem_nodesOf.mpr ⟨_, List.mem_cons_self, mem_nodes_self _⟩)
  have hplaced : Placed true true (.variants bs none inherited parenthesized) := (hinline _ List.mem_cons_self).2
  have hparenthesized : parenthesized = false := by simpa [Placed, place] using hplaced.symm
  subst hparenthesized
  have hbs : bs = [[.variants bs none inherited false]] := hmerged
  have hone : bs.length = 1 := congrArg List.length hbs
  have htwo := hlen rfl
  omega

theorem compact_of_canonical {p : Pattern} (h : ∀ q ∈ p.nodes, q.Canonical) : p.Compact := by
  have hp : p.Canonical := h p (mem_nodes_self p)
  cases p with
  | literal => trivial
  | parameter => trivial
  | tail => trivial
  | sequence cs => exact ⟨hp.1, unsequenced_of_inline hp.2⟩
  | optional cs id =>
    obtain ⟨ds, rfl, hinline⟩ := hp
    exact unsequenced_guardSole id (unsequenced_of_inline hinline)
  | variants as id inherited parenthesized =>
    refine ⟨hp.1, fun a ha => ?_⟩
    obtain ⟨hinline, hmerged⟩ := hp.2 a ha
    have hnodes : ∀ q ∈ nodesOf a, q.Canonical := (forall_mem_nodes.mp h).2 a ha
    exact ⟨unsequenced_of_inline hinline, VariantNormal.ne_group ⟨hnodes, hinline, hmerged⟩⟩
  | unordered cs id => exact hp.1

/-! ## Flattening -/

/-- Flattening keeps the leaves and the identified groups around them. Where no sequence and no variant is empty, and
    there are variants in each variant group, it also leaves nothing that could be flattened. -/
theorem flatten_compact (p : Pattern) :
    p.flatten.inventory = p.inventory ∧ ((∀ q ∈ p.nodes, q.Solid) → ∀ q ∈ p.flatten.nodes, q.Compact) := by
  constructor
  · exact labels_beginning.walk_flattenIn labels_ending p false true
  · intro hsolid q hq
    have hnormal := normal_flattenIn hsolid false true
    exact compact_of_canonical fun r hr => hnormal.nodes r (mem_nodes_trans hq hr)

/-- A sequence inside two groups that only wrap it, and a variant group that is all there is of a variant. -/
def wrapped : Pattern :=
  let word (s : String) : Pattern := .literal (ascii s) true false
  .sequence
    [word "a",
      .unordered [.variants [[.sequence [word "b", .unordered [word "c"] none]]] none false true] none,
      .variants [[word "x"], [.unordered [.variants [[word "y"], [word "z"]] none false true] none]] (some (ascii "v"))
        false true]

/-- What the groups are taken away from is unpacked where they stood, or merged with the variants around it. -/
theorem flatten_compact_wrapped :
    (∀ q ∈ wrapped.nodes, q.Solid) ∧ wrapped.flatten.render Specials.standard true = ascii "a b c (x|y|z):v" ∧
      wrapped.flatten.inventory = wrapped.inventory ∧ ∀ q ∈ wrapped.flatten.nodes, q.Compact := by
  have hsolid : ∀ q ∈ wrapped.nodes, q.Solid := by simp [wrapped, nodes, nodesOf, nodesOfEach, Solid]
  exact ⟨hsolid, by decide +kernel, (flatten_compact wrapped).1, (flatten_compact wrapped).2 hsolid⟩

end CommandGrammar.Pattern
