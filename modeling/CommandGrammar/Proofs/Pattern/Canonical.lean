/-
  CommandGrammar.Proofs.Pattern.Canonical — the canonical form that flattening brings a pattern into.

  In it no list of children holds a sequence, except in an unordered group, and no group
  wraps a child without need; and a variant group is marked as enclosed exactly where its
  place calls for it (`Canonical`). Flattening yields this form wherever no sequence and
  no variant is empty (`normal_flattenIn`), and it leaves the form as it is but for the
  mark at the top, which depends on where the pattern is put (`flattenIn_of_canonical`).
-/

import CommandGrammar.Proofs.Pattern.Flatten

namespace CommandGrammar.Pattern

/-! ## Marks -/

/-- The pattern with the mark that it gets in its place. -/
def place (nested sole : Bool) : Pattern → Pattern
  | .variants as id inherited _ => .variants as id inherited ((nested && !sole) || (id.isSome && !inherited))
  | p => p

/-- The pattern has the mark of its place. -/
def Placed (nested sole : Bool) (p : Pattern) : Prop :=
  p.place nested sole = p

/-! ## The canonical form -/

def isSequence : Pattern → Bool
  | .sequence _ => true
  | _ => false

theorem unpacked_of_not_sequence {p : Pattern} (h : p.isSequence = false) : unpacked p = [p] := by
  cases p with
  | sequence => cases h
  | _ => rfl

/-- No sequence is among the children, and each of them has the mark of its place. -/
def Inline (cs : List Pattern) : Prop :=
  ∀ c ∈ cs, c.isSequence = false ∧ Placed true (cs.length == 1) c

/-- The form of a flattened pattern at one node. -/
def Canonical : Pattern → Prop
  | .sequence cs => 2 ≤ cs.length ∧ Inline cs
  | .optional cs id => ∃ ds, cs = guardSole id ds ∧ Inline ds
  | .variants as id _ _ => (id = none → 2 ≤ as.length) ∧ ∀ a ∈ as, Inline a ∧ mergedVariant a = [a]
  | .unordered cs id => (id = none → cs.length ≠ 1) ∧ ∀ c ∈ cs, Placed true (cs.length == 1) c
  | _ => True

/-- No sequence and no variant is empty at the node, and there is a variant. -/
def Solid : Pattern → Prop
  | .sequence cs => cs ≠ []
  | .variants as _ _ _ => as ≠ [] ∧ ∀ a ∈ as, a ≠ []
  | _ => True

/-- The pattern is in canonical form, with the mark of its place. -/
structure Normal (nested sole : Bool) (p : Pattern) : Prop where
  nodes : ∀ q ∈ p.nodes, q.Canonical
  placed : Placed nested sole p

/-! ## What a normal pattern is unpacked to -/

namespace Normal

variable {nested sole : Bool} {p : Pattern}

theorem unpacked_ne_nil (h : Normal nested sole p) : unpacked p ≠ [] := by
  cases p with
  | sequence cs =>
    obtain ⟨hlen, _⟩ : Canonical (.sequence cs) := h.nodes _ (mem_nodes_self _)
    rintro rfl
    simp at hlen
  | _ => exact List.cons_ne_nil _ _

/-- In the place of the only child there is one child, or there are several of a sequence. -/
theorem inline_unpacked (h : Normal true true p) : Inline (unpacked p) := by
  cases p with
  | sequence cs =>
    obtain ⟨_, hinline⟩ : Canonical (.sequence cs) := h.nodes _ (mem_nodes_self _)
    exact hinline
  | _ => exact List.forall_mem_singleton.mpr ⟨rfl, h.placed⟩

/-- One of several children, or of those of a sequence among them, is not the only one. -/
theorem placed_unpacked (h : Normal true false p) : ∀ c ∈ unpacked p, c.isSequence = false ∧ Placed true false c := by
  cases p with
  | sequence cs =>
    obtain ⟨hlen, hinline⟩ : Canonical (.sequence cs) := h.nodes _ (mem_nodes_self _)
    have hseveral : (cs.length == 1) = false := beq_false_of_ne (by omega)
    rw [Inline, hseveral] at hinline
    exact hinline
  | _ => exact List.forall_mem_singleton.mpr ⟨rfl, h.placed⟩

end Normal

/-! ## What a list of children becomes -/

section

variable {cs : List Pattern} (h : ∀ c ∈ cs, ∀ nested sole, Normal nested sole (flattenIn nested sole c))

include h

theorem length_le_inlined : cs.length ≤ (inlined cs).length := by
  rw [inlined_eq_flatMap]
  exact length_le_flatMap fun c hc => (h c hc true _).unpacked_ne_nil

theorem inline_inlined : Inline (inlined cs) := by
  by_cases hone : cs.length = 1
  · obtain ⟨c, rfl⟩ := List.length_eq_one_iff.mp hone
    have hinlined : inlined [c] = unpacked (flattenIn true true c) := by
      simp [inlined_eq_flatMap]
    rw [hinlined]
    exact (h c List.mem_cons_self true true).inline_unpacked
  · intro d hd
    have hcs : cs ≠ [] := by
      rintro rfl
      cases hd
    have hseveral : ((inlined cs).length == 1) = false := by
      have hlen := length_le_inlined h
      have hpos := List.length_pos_iff.mpr hcs
      exact beq_false_of_ne (by omega)
    rw [inlined_eq_flatMap, beq_false_of_ne hone] at hd
    obtain ⟨c, hc, hd⟩ := List.mem_flatMap.mp hd
    rw [hseveral]
    exact (h c hc true false).placed_unpacked d hd

theorem canonical_inlined : ∀ q ∈ nodesOf (inlined cs), q.Canonical := by
  rw [forall_mem_nodesOf, inlined_eq_flatMap]
  intro d hd
  obtain ⟨c, hc, hd⟩ := List.mem_flatMap.mp hd
  exact fun q hq => (h c hc true _).nodes q (mem_nodes_of_unpacked (mem_nodesOf.mpr ⟨d, hd, hq⟩))

theorem normal_sequence (hlen : cs.length ≠ 1) (hne : cs ≠ []) (nested sole : Bool) :
    Normal nested sole (.sequence (inlined cs)) := by
  refine ⟨forall_mem_nodes.mpr ⟨⟨?_, inline_inlined h⟩, List.forall_mem_singleton.mpr (canonical_inlined h)⟩, rfl⟩
  have hinlined := length_le_inlined h
  have hpos := List.length_pos_iff.mpr hne
  omega

end

theorem canonical_guardSole (id : Option Bytes) {cs : List Pattern} (h : ∀ q ∈ nodesOf cs, q.Canonical) :
    ∀ q ∈ nodesOf (guardSole id cs), q.Canonical := by
  unfold guardSole
  split
  · simpa [nodesOf, nodes, or_imp, forall_and, Canonical] using h
  · exact h

/-- A variant in canonical form. -/
structure VariantNormal (a : List Pattern) : Prop where
  nodes : ∀ q ∈ nodesOf a, q.Canonical
  inline : Inline a
  unmerged : mergedVariant a = [a]

theorem mergedVariant_normal {cs : List Pattern} (hnodes : ∀ q ∈ nodesOf cs, q.Canonical) (hinline : Inline cs) :
    mergedVariant cs ≠ [] ∧ ∀ a ∈ mergedVariant cs, VariantNormal a := by
  rcases mergedVariant_cases cs with ⟨as, i, rfl, has⟩ | hcs
  · obtain ⟨hlen, hvariants⟩ : Canonical (.variants as none i false) := hnodes _ (by simp [nodesOf, nodes])
    rw [has]
    refine ⟨List.length_pos_iff.mp (Nat.lt_of_lt_of_le Nat.two_pos (hlen rfl)), fun a ha => ?_⟩
    refine ⟨fun q hq => hnodes q ?_, (hvariants a ha).1, (hvariants a ha).2⟩
    simp only [nodesOf, nodes, List.append_nil]
    exact List.mem_append_left _ (mem_nodesOfEach.mpr ⟨a, ha, hq⟩)
  · rw [hcs]
    exact ⟨List.cons_ne_nil _ _, List.forall_mem_singleton.mpr ⟨hnodes, hinline, hcs⟩⟩

/-! ## Flattening -/

/-- Where no sequence and no variant is empty, flattening yields the canonical form. -/
theorem normal_flattenIn {p : Pattern} (h : ∀ q ∈ p.nodes, q.Solid) :
    ∀ nested sole, Normal nested sole (flattenIn nested sole p) := by
  refine nodes_induct (P := Solid) (M := fun p => ∀ nested sole, Normal nested sole (flattenIn nested sole p)) ?_ p h
  intro p hsolid ih nested sole
  have hp := flattens nested sole p
  generalize flattenIn nested sole p = r at hp
  cases hp with
  | leaf hl =>
    refine ⟨?_, by cases hl <;> rfl⟩
    cases hl <;> simp [nodes, Canonical]
  | unwrap hw => cases hw <;> exact ih _ List.mem_cons_self _ List.mem_cons_self nested sole
  | sequence cs hlen => exact normal_sequence (ih cs List.mem_cons_self) hlen hsolid nested sole
  | variant cs i e hlen =>
    exact normal_sequence (ih cs List.mem_cons_self) hlen (hsolid.2 cs List.mem_cons_self) nested sole
  | optional cs id =>
    have hcs := ih cs List.mem_cons_self
    refine ⟨forall_mem_nodes.mpr ⟨⟨inlined cs, rfl, inline_inlined hcs⟩, ?_⟩, rfl⟩
    exact List.forall_mem_singleton.mpr (canonical_guardSole id (canonical_inlined hcs))
  | variants as id i e hlen =>
    have has : ∀ a ∈ as, mergedVariant (inlined a) ≠ [] ∧ ∀ b ∈ mergedVariant (inlined a), VariantNormal b :=
      fun a ha => mergedVariant_normal (canonical_inlined (ih a ha)) (inline_inlined (ih a ha))
    have hmem : ∀ b ∈ as.flatMap fun a => mergedVariant (inlined a), VariantNormal b := by
      intro b hb
      obtain ⟨a, ha, hb⟩ := List.mem_flatMap.mp hb
      exact (has a ha).2 b hb
    refine ⟨forall_mem_nodes.mpr ⟨⟨fun hid => ?_, fun b hb => ?_⟩, fun b hb => (hmem b hb).nodes⟩, rfl⟩
    · have hlen' := length_le_flatMap fun a ha => (has a ha).1
      have hpos := List.length_pos_iff.mpr hsolid.1
      have hone := hlen hid
      omega
    · exact ⟨(hmem b hb).inline, (hmem b hb).unmerged⟩
  | unordered cs id hlen =>
    have hcs : ∀ d ∈ cs.map (flattenIn true (cs.length == 1)), Normal true (cs.length == 1) d :=
      List.forall_mem_map.mpr fun c hc => ih cs List.mem_cons_self c hc true _
    refine ⟨forall_mem_nodes.mpr ⟨⟨?_, ?_⟩, List.forall_mem_singleton.mpr ?_⟩, rfl⟩
    · rwa [List.length_map]
    · rw [List.length_map]
      exact fun d hd => (hcs d hd).placed
    · exact forall_mem_nodesOf.mpr fun d hd => (hcs d hd).nodes

/-! ## Flattening again -/

theorem unpackAll_of_inline {cs : List Pattern} (h : ∀ c ∈ cs, c.isSequence = false) : unpackAll cs = cs := by
  induction cs with
  | nil => rfl
  | cons c cs ih =>
    have hcons : unpackAll (c :: cs) = unpacked c ++ unpackAll cs := List.flatMap_cons
    rw [hcons, unpacked_of_not_sequence (h c List.mem_cons_self), ih fun d hd => h d (List.mem_cons_of_mem _ hd)]
    rfl

theorem map_place {cs : List Pattern} {nested sole : Bool} (h : ∀ c ∈ cs, Placed nested sole c) :
    cs.map (place nested sole) = cs :=
  (List.map_congr_left h).trans (List.map_id cs)

theorem flattenEach_of_fixed {cs : List Pattern} (h : ∀ c ∈ cs, ∀ nested sole, flattenIn nested sole c = c.place nested sole)
    (sole : Bool) : flattenEach sole cs = cs.map (place true sole) := by
  rw [flattenEach_eq_map]
  exact List.map_congr_left fun c hc => h c hc true sole

theorem inlined_of_inline {cs : List Pattern} (h : ∀ c ∈ cs, ∀ nested sole, flattenIn nested sole c = c.place nested sole)
    (hinline : Inline cs) : inlined cs = cs := by
  rw [inlined, flattenEach_of_fixed h, map_place fun c hc => (hinline c hc).2, unpackAll_of_inline fun c hc => (hinline c hc).1]

theorem guardSole_inlined {id : Option Bytes} {cs : List Pattern} (hinline : Inline cs)
    (h : ∀ c ∈ guardSole id cs, ∀ nested sole, flattenIn nested sole c = c.place nested sole) :
    guardSole id (inlined (guardSole id cs)) = guardSole id cs := by
  rcases guardSole_cases id cs with ⟨as, i, e, hid, rfl, hguard⟩ | hguard
  · rw [hguard] at h ⊢
    obtain ⟨x, rfl⟩ := Option.isSome_iff_exists.mp hid
    have hinlined : inlined [.variants as none i true] = [.variants as none i false] := by
      rw [inlined, flattenEach_of_fixed h]
      rfl
    rw [hinlined]
    rfl
  · rw [hguard] at h ⊢
    rw [inlined_of_inline h hinline, hguard]

theorem flatMap_unmerged {as : List (List Pattern)} (h : ∀ a ∈ as, inlined a = a ∧ mergedVariant a = [a]) :
    (as.flatMap fun a => mergedVariant (inlined a)) = as := by
  induction as with
  | nil => rfl
  | cons a as ih =>
    obtain ⟨hinlined, hmerged⟩ := h a List.mem_cons_self
    rw [List.flatMap_cons, hinlined, hmerged, ih fun b hb => h b (List.mem_cons_of_mem _ hb)]
    rfl

/-- A pattern in canonical form stays as it is, except that it gets the mark of the place where it is put. -/
theorem flattenIn_of_canonical {p : Pattern} (h : ∀ q ∈ p.nodes, q.Canonical) :
    ∀ nested sole, flattenIn nested sole p = p.place nested sole := by
  refine nodes_induct (P := Canonical) (M := fun p => ∀ nested sole, flattenIn nested sole p = p.place nested sole) ?_ p h
  intro p hcanonical ih nested sole
  have hp := flattens nested sole p
  generalize flattenIn nested sole p = r at hp
  cases hp with
  | leaf hl => cases hl <;> rfl
  | unwrap hw =>
    cases hw with
    | sequence c => exact absurd hcanonical.1 (by simp)
    | variants c => exact absurd (hcanonical.1 rfl) (by simp)
    | unordered c => exact absurd rfl (hcanonical.1 rfl)
  | sequence cs => rw [inlined_of_inline (ih cs List.mem_cons_self) hcanonical.2, place]; simp
  | variant cs => exact absurd (hcanonical.1 rfl) (by simp)
  | optional cs id =>
    obtain ⟨ds, rfl, hinline⟩ := hcanonical
    rw [guardSole_inlined hinline (ih _ List.mem_cons_self), place]
    simp
  | variants as id i e =>
    have hkept : ∀ a ∈ as, inlined a = a ∧ mergedVariant a = [a] :=
      fun a ha => ⟨inlined_of_inline (ih a ha) (hcanonical.2 a ha).1, (hcanonical.2 a ha).2⟩
    rw [flatMap_unmerged hkept, place]
  | unordered cs id hlen =>
    rw [← flattenEach_eq_map, flattenEach_of_fixed (ih cs List.mem_cons_self), map_place hcanonical.2, place]
    simp

end CommandGrammar.Pattern
