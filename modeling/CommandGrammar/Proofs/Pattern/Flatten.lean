/-
  CommandGrammar.Proofs.Pattern.Flatten — what flattening does at one node.

  A group that only wraps a child gives way to it. A sequence, an optional and the variants
  of a variant group are filled with what their children become, unpacked (`inlined`);
  an unordered group keeps one child for each. There is nothing else that flattening does
  (`Flattens`), and the laws of the pass are proved from this, node by node. The first of
  them is that nothing gets lost on the way (`Labels.walk_flattenIn`).
-/

import CommandGrammar.Pattern.Flatten
import CommandGrammar.Proofs.Pattern.Nodes

namespace CommandGrammar.Pattern

/-! ## Lists of children -/

theorem flattenEach_eq_map (sole : Bool) (cs : List Pattern) : flattenEach sole cs = cs.map (flattenIn true sole) := by
  induction cs with
  | nil => rfl
  | cons c cs ih => rw [flattenEach, ih, List.map_cons]

/-- What a list of children becomes where sequences are unpacked. -/
def inlined (cs : List Pattern) : List Pattern :=
  unpackAll (flattenEach (cs.length == 1) cs)

theorem inlined_eq_flatMap (cs : List Pattern) :
    inlined cs = cs.flatMap fun c => unpacked (flattenIn true (cs.length == 1) c) := by
  rw [inlined, flattenEach_eq_map, unpackAll, List.flatMap_map]

theorem flattenVariants_eq_flatMap (as : List (List Pattern)) :
    flattenVariants as = as.flatMap fun a => mergedVariant (inlined a) := by
  induction as with
  | nil => rfl
  | cons a as ih => rw [flattenVariants, ih, List.flatMap_cons]; rfl

theorem mem_nodes_of_unpacked {p q : Pattern} (h : q ∈ nodesOf (unpacked p)) : q ∈ p.nodes := by
  cases p with
  | sequence cs => exact List.mem_append_left _ h
  | _ => simpa [unpacked, nodesOf] using h

theorem guardSole_cases (id : Option Bytes) (cs : List Pattern) :
    (∃ as i e, id.isSome ∧ cs = [.variants as none i e] ∧ guardSole id cs = [.variants as none i true]) ∨
      guardSole id cs = cs := by
  unfold guardSole
  split
  · exact .inl ⟨_, _, _, rfl, rfl, rfl⟩
  · exact .inr rfl

theorem mergedVariant_cases (cs : List Pattern) :
    (∃ as i, cs = [.variants as none i false] ∧ mergedVariant cs = as) ∨ mergedVariant cs = [cs] := by
  unfold mergedVariant
  split
  · exact .inl ⟨_, _, rfl, rfl⟩
  · exact .inr rfl

theorem length_le_flatMap {α β : Type} {f : α → List β} {xs : List α} (h : ∀ x ∈ xs, f x ≠ []) :
    xs.length ≤ (xs.flatMap f).length := by
  induction xs with
  | nil => exact Nat.le_refl _
  | cons x xs ih =>
    have hx := List.length_pos_iff.mpr (h x List.mem_cons_self)
    have hxs := ih fun y hy => h y (List.mem_cons_of_mem _ hy)
    rw [List.flatMap_cons, List.length_append, List.length_cons]
    omega

/-! ## Cases of one node -/

/-- The group has a single child, and nothing that would tell it from the child. -/
inductive Wraps : Pattern → Pattern → Prop
  | sequence (c : Pattern) : Wraps (.sequence [c]) c
  | variants (c : Pattern) (inherited parenthesized : Bool) : Wraps (.variants [[c]] none inherited parenthesized) c
  | unordered (c : Pattern) : Wraps (.unordered [c] none) c

/-- What flattening makes of a pattern, told from what it makes of the children. -/
inductive Flattens (nested sole : Bool) : Pattern → Pattern → Prop
  | leaf {p : Pattern} : Leaf p → Flattens nested sole p p
  | unwrap {p c : Pattern} : Wraps p c → Flattens nested sole p (flattenIn nested sole c)
  | sequence (cs : List Pattern) : cs.length ≠ 1 → Flattens nested sole (.sequence cs) (.sequence (inlined cs))
  /-- A variant without alternatives to it is a sequence. -/
  | variant (cs : List Pattern) (inherited parenthesized : Bool) : cs.length ≠ 1 →
      Flattens nested sole (.variants [cs] none inherited parenthesized) (.sequence (inlined cs))
  | optional (cs : List Pattern) (id : Option Bytes) :
      Flattens nested sole (.optional cs id) (.optional (guardSole id (inlined cs)) id)
  | variants (as : List (List Pattern)) (id : Option Bytes) (inherited parenthesized : Bool) :
      (id = none → as.length ≠ 1) → Flattens nested sole (.variants as id inherited parenthesized)
        (.variants (as.flatMap fun a => mergedVariant (inlined a)) id inherited
          ((nested && !sole) || (id.isSome && !inherited)))
  | unordered (cs : List Pattern) (id : Option Bytes) : (id = none → cs.length ≠ 1) →
      Flattens nested sole (.unordered cs id) (.unordered (cs.map (flattenIn true (cs.length == 1))) id)

theorem flattenIn_leaf {p : Pattern} (h : Leaf p) (nested sole : Bool) : flattenIn nested sole p = p := by
  cases h <;> simp only [flattenIn]

theorem inlined_of_length {cs : List Pattern} (h : cs.length ≠ 1) : unpackAll (flattenEach false cs) = inlined cs := by
  rw [inlined, beq_false_of_ne h]

theorem Flattens.eq {nested sole : Bool} {p r : Pattern} (h : Flattens nested sole p r) : flattenIn nested sole p = r := by
  cases h with
  | leaf h => exact flattenIn_leaf h nested sole
  | unwrap h => cases h <;> rw [flattenIn]
  | sequence cs hlen =>
    rw [flattenIn, inlined_of_length hlen]
    rintro c rfl
    exact hlen rfl
  | variant cs inherited parenthesized hlen =>
    rw [flattenIn, inlined_of_length hlen]
    rintro c rfl
    exact hlen rfl
  | optional cs id => rw [flattenIn, inlined]
  | variants as id inherited parenthesized hlen =>
    rw [flattenIn, flattenVariants_eq_flatMap]
    · rintro c rfl hid
      exact hlen hid rfl
    · rintro cs rfl hid
      exact hlen hid rfl
  | unordered cs id hlen =>
    rw [flattenIn, flattenEach_eq_map]
    rintro c rfl hid
    exact hlen hid rfl

theorem exists_flattens (nested sole : Bool) (p : Pattern) : ∃ r, Flattens nested sole p r := by
  cases p with
  | literal text caseSensitive tolerant => exact ⟨_, .leaf (.literal text caseSensitive tolerant)⟩
  | parameter name type => exact ⟨_, .leaf (.parameter name type)⟩
  | tail name raw => exact ⟨_, .leaf (.tail name raw)⟩
  | sequence cs =>
    by_cases hlen : cs.length = 1
    · obtain ⟨c, rfl⟩ := List.length_eq_one_iff.mp hlen
      exact ⟨_, .unwrap (.sequence c)⟩
    · exact ⟨_, .sequence cs hlen⟩
  | optional cs id => exact ⟨_, .optional cs id⟩
  | variants as id inherited parenthesized =>
    by_cases hsole : id = none ∧ as.length = 1
    · obtain ⟨rfl, hsole⟩ := hsole
      obtain ⟨cs, rfl⟩ := List.length_eq_one_iff.mp hsole
      by_cases hlen : cs.length = 1
      · obtain ⟨c, rfl⟩ := List.length_eq_one_iff.mp hlen
        exact ⟨_, .unwrap (.variants c inherited parenthesized)⟩
      · exact ⟨_, .variant cs inherited parenthesized hlen⟩
    · exact ⟨_, .variants as id inherited parenthesized fun hid hlen => hsole ⟨hid, hlen⟩⟩
  | unordered cs id =>
    by_cases hsole : id = none ∧ cs.length = 1
    · obtain ⟨rfl, hlen⟩ := hsole
      obtain ⟨c, rfl⟩ := List.length_eq_one_iff.mp hlen
      exact ⟨_, .unwrap (.unordered c)⟩
    · exact ⟨_, .unordered cs id fun hid hlen => hsole ⟨hid, hlen⟩⟩

theorem flattens (nested sole : Bool) (p : Pattern) : Flattens nested sole p (flattenIn nested sole p) := by
  obtain ⟨r, hr⟩ := exists_flattens nested sole p
  rw [hr.eq]
  exact hr

/-! ## Labels -/

/-- Something is read off each node that does not depend on its children or on how it is written, and nothing off a
    node that flattening can do without. -/
structure Labels {β : Type} (f : Pattern → List β) : Prop where
  sequence : ∀ cs, f (.sequence cs) = []
  optional : ∀ cs ds id, f (.optional cs id) = f (.optional ds id)
  variants : ∀ as bs id i e i' e', f (.variants as id i e) = f (.variants bs id i' e')
  variantsNone : ∀ as i e, f (.variants as none i e) = []
  unordered : ∀ cs ds id, f (.unordered cs id) = f (.unordered ds id)
  unorderedNone : ∀ cs, f (.unordered cs none) = []

namespace Labels

variable {β : Type} {enter leave : Pattern → List β} (he : Labels enter) (hl : Labels leave)

section

include he hl

theorem wraps {p c : Pattern} (h : Wraps p c) : walk enter leave p = walk enter leave c := by
  cases h with
  | sequence => simp [walk, walkOf, he.sequence, hl.sequence]
  | variants => simp [walk, walkOf, walkOfEach, he.variantsNone, hl.variantsNone]
  | unordered => simp [walk, walkOf, he.unorderedNone, hl.unorderedNone]

theorem unpacked (p : Pattern) : walkOf enter leave (unpacked p) = walk enter leave p := by
  cases p with
  | sequence cs => simp [Pattern.unpacked, walk, he.sequence, hl.sequence]
  | _ => simp [Pattern.unpacked, walkOf]

theorem guardSole (id : Option Bytes) (cs : List Pattern) :
    walkOf enter leave (guardSole id cs) = walkOf enter leave cs := by
  unfold Pattern.guardSole
  split
  · simp [walkOf, walk, he.variantsNone, hl.variantsNone]
  · rfl

theorem mergedVariant (cs : List Pattern) : walkOfEach enter leave (mergedVariant cs) = walkOf enter leave cs := by
  unfold Pattern.mergedVariant
  split
  · simp [walkOf, walk, he.variantsNone, hl.variantsNone]
  · simp [walkOfEach]

theorem inlined {cs : List Pattern}
    (h : ∀ c ∈ cs, ∀ nested sole, walk enter leave (Pattern.flattenIn nested sole c) = walk enter leave c) :
    walkOf enter leave (inlined cs) = walkOf enter leave cs := by
  rw [inlined_eq_flatMap, walkOf_eq_flatMap, walkOf_eq_flatMap, List.flatMap_assoc]
  refine List.flatMap_congr fun c hc => ?_
  rw [← walkOf_eq_flatMap, unpacked he hl, h c hc]

theorem flattenVariants {as : List (List Pattern)}
    (h : ∀ a ∈ as, ∀ c ∈ a, ∀ nested sole, walk enter leave (Pattern.flattenIn nested sole c) = walk enter leave c) :
    walkOfEach enter leave (as.flatMap fun a => Pattern.mergedVariant (Pattern.inlined a)) = walkOfEach enter leave as := by
  rw [walkOfEach_eq_flatMap, walkOfEach_eq_flatMap, List.flatMap_assoc]
  refine List.flatMap_congr fun a ha => ?_
  rw [← walkOfEach_eq_flatMap, mergedVariant he hl, inlined he hl (h a ha)]

/-- On a walk through the flattened pattern the same labels are met in the same order. -/
theorem walk_flattenIn (p : Pattern) (nested sole : Bool) :
    walk enter leave (flattenIn nested sole p) = walk enter leave p := by
  induction p using children_induct generalizing nested sole with | step p ih => ?_
  have hp := flattens nested sole p
  generalize Pattern.flattenIn nested sole p = r at hp
  cases hp with
  | leaf => rfl
  | unwrap hw =>
    rw [wraps he hl hw]
    cases hw <;> exact ih _ List.mem_cons_self _ List.mem_cons_self nested sole
  | sequence cs =>
    rw [walk, walk, inlined he hl (ih cs List.mem_cons_self)]
    simp only [he.sequence, hl.sequence]
  | variant cs =>
    rw [walk, walk, inlined he hl (ih cs List.mem_cons_self)]
    simp [he.sequence, hl.sequence, he.variantsNone, hl.variantsNone, walkOfEach]
  | optional cs id =>
    rw [walk, walk, guardSole he hl, inlined he hl (ih cs List.mem_cons_self), he.optional _ cs, hl.optional _ cs]
  | variants as id inherited parenthesized =>
    have hwalks : walkOfEach enter leave (as.flatMap fun a => Pattern.mergedVariant (Pattern.inlined a)) =
        walkOfEach enter leave as := flattenVariants he hl ih
    rw [walk, walk, hwalks, he.variants _ as id _ _ inherited parenthesized,
      hl.variants _ as id _ _ inherited parenthesized]
  | unordered cs id =>
    rw [walk, walk, walkOf_eq_flatMap, walkOf_eq_flatMap, List.flatMap_map,
      List.flatMap_congr fun c hc => ih cs List.mem_cons_self c hc true _, he.unordered _ cs, hl.unordered _ cs]

end

theorem nothing : Labels fun _ : Pattern => ([] : List β) := by
  constructor <;> intros <;> rfl

variable {f : Pattern → List β} (hf : Labels f)

include hf

/-- Flattening neither loses a label nor moves one. -/
theorem flattenIn (p : Pattern) (nested sole : Bool) :
    (flattenIn nested sole p).nodes.flatMap f = p.nodes.flatMap f := by
  rw [← walk_nodes, ← walk_nodes, walk_flattenIn nothing hf]

/-- What holds of all labels in a pattern holds of those in the flattened pattern. -/
theorem forall_flattenIn {P : β → Prop} {p : Pattern} (h : ∀ q ∈ p.nodes, ∀ x ∈ f q, P x) (nested sole : Bool) :
    ∀ q ∈ (Pattern.flattenIn nested sole p).nodes, ∀ x ∈ f q, P x := by
  intro q hq x hx
  have hmem : x ∈ (Pattern.flattenIn nested sole p).nodes.flatMap f := List.mem_flatMap.mpr ⟨q, hq, hx⟩
  rw [hf.flattenIn] at hmem
  obtain ⟨q', hq', hx'⟩ := List.mem_flatMap.mp hmem
  exact h q' hq' x hx'

end Labels

end CommandGrammar.Pattern
