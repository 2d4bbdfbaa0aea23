/-
  CommandGrammar.Proofs.Pattern.Formed — the rules for the groups of a grammar, and that flattening keeps them.

  No group is empty, a variant group has variants to choose from, an inherited identifier
  has an optional that it was inherited from, and nothing follows what ends in a tail
  (`Formed`). Flattening puts children beside each other that were not, and takes groups
  away from around them; it keeps the rules since a pattern still ends in a tail exactly
  if it did before (`forms_flattenIn`).
-/

import CommandGrammar.Proofs.Pattern.Flatten

namespace CommandGrammar.Pattern

/-! ## Rules for groups -/

/-- The pattern is a variant group with an identifier that it has inherited. -/
def inherits : Pattern → Bool
  | .variants _ _ inherited _ => inherited
  | _ => false

/-- The shape that the groups of a grammar have, at one node. -/
structure Grouped (p : Pattern) : Prop where
  filled : p.Filled
  several : ∀ as id inherited parenthesized, p = .variants as id inherited parenthesized → 2 ≤ as.length
  inherited : (∃ as id parenthesized, p = .optional [.variants as (some id) true parenthesized] none) ∨
    ∀ cs ∈ p.childLists, ∀ c ∈ cs, c.inherits = false

/-- The rules that a grammar keeps to, at one node. -/
structure Formed (p : Pattern) : Prop extends Grouped p where
  tailsLast : p.TailsLast

/-- The rules for a list of children. -/
structure ChildrenFormed (cs : List Pattern) : Prop where
  nonempty : cs ≠ []
  tailsLast : ∀ c ∈ cs.dropLast, c.endsInTail = false
  nodes : ∀ q ∈ nodesOf cs, q.Formed

/-- A group keeps to the rules if its lists of children do. -/
theorem formed_group {p : Pattern} (h : ∀ cs ∈ p.childLists, ChildrenFormed cs)
    (hseveral : ∀ as id inherited parenthesized, p = .variants as id inherited parenthesized → 2 ≤ as.length)
    (hinherited : (∃ as id parenthesized, p = .optional [.variants as (some id) true parenthesized] none) ∨
      ∀ cs ∈ p.childLists, ∀ c ∈ cs, c.inherits = false) :
    ∀ q ∈ p.nodes, q.Formed :=
  forall_mem_nodes.mpr
    ⟨⟨⟨fun cs hcs => (h cs hcs).nonempty, hseveral, hinherited⟩, fun cs hcs => (h cs hcs).tailsLast⟩,
      fun cs hcs => (h cs hcs).nodes⟩

theorem inherits_of_childLists {p : Pattern} (hp : p.Formed) (h : ∀ cs id, p ≠ .optional cs id) :
    ∀ cs ∈ p.childLists, ∀ c ∈ cs, c.inherits = false := by
  rcases hp.inherited with ⟨as, id, e, rfl⟩ | hp
  · exact absurd rfl (h _ _)
  · exact hp

theorem formed_leaf {p : Pattern} (h : Leaf p) : ∀ q ∈ p.nodes, q.Formed := by
  have hlists : p.childLists = [] := by cases h <;> rfl
  refine formed_group ?_ ?_ (.inr ?_)
  · rw [hlists]
    exact List.forall_mem_nil _
  · rintro as id i e rfl
    cases h
  · rw [hlists]
    exact List.forall_mem_nil _

theorem childrenFormed_of_nodes {p : Pattern} (h : ∀ q ∈ p.nodes, q.Formed) : ∀ cs ∈ p.childLists, ChildrenFormed cs := by
  obtain ⟨hp, hlists⟩ := forall_mem_nodes.mp h
  exact fun cs hcs => ⟨hp.filled cs hcs, hp.tailsLast cs hcs, hlists cs hcs⟩

/-! ## Tails -/

theorem lastEndsInTail_concat (cs : List Pattern) (c : Pattern) : lastEndsInTail (cs ++ [c]) = c.endsInTail := by
  induction cs with
  | nil => rfl
  | cons d cs ih =>
    cases cs with
    | nil => rfl
    | cons e cs => exact ih

theorem lastEndsInTail_append (cs : List Pattern) {ds : List Pattern} (h : ds ≠ []) :
    lastEndsInTail (cs ++ ds) = lastEndsInTail ds := by
  obtain ⟨init, c, rfl⟩ := (List.eq_nil_or_concat ds).resolve_left h
  rw [List.concat_eq_append, ← List.append_assoc, lastEndsInTail_concat, lastEndsInTail_concat]

/-- No child ends in a tail if those before the last do not and the last does not either. -/
theorem open_of_last {cs : List Pattern} (h : ∀ c ∈ cs.dropLast, c.endsInTail = false) (hlast : lastEndsInTail cs = false) :
    ∀ c ∈ cs, c.endsInTail = false := by
  rcases List.eq_nil_or_concat cs with rfl | ⟨init, c, rfl⟩
  · exact List.forall_mem_nil _
  · rw [List.concat_eq_append] at h hlast ⊢
    rw [List.dropLast_concat] at h
    rw [lastEndsInTail_concat] at hlast
    rw [List.forall_mem_append, List.forall_mem_singleton]
    exact ⟨h, hlast⟩

theorem tailsLast_append {cs ds : List Pattern} (hne : ds ≠ []) (hcs : ∀ c ∈ cs, c.endsInTail = false)
    (hds : ∀ c ∈ ds.dropLast, c.endsInTail = false) : ∀ c ∈ (cs ++ ds).dropLast, c.endsInTail = false := by
  rw [List.dropLast_append_of_ne_nil hne, List.forall_mem_append]
  exact ⟨hcs, hds⟩

/-! ## What a formed pattern is unpacked to -/

/-- The patterns `cs` may stand in the place of `p`. -/
structure Replaces (p : Pattern) (cs : List Pattern) : Prop extends ChildrenFormed cs where
  lastEndsInTail : lastEndsInTail cs = p.endsInTail
  inherits : p.inherits = false → ∀ c ∈ cs, c.inherits = false

theorem replaces_unpacked {p : Pattern} (h : ∀ q ∈ p.nodes, q.Formed) : Replaces p (unpacked p) := by
  have hp : p.Formed := h p (mem_nodes_self p)
  have hnodes : ∀ q ∈ nodesOf (unpacked p), q.Formed := fun q hq => h q (mem_nodes_of_unpacked hq)
  cases p with
  | sequence cs =>
    exact ⟨⟨hp.filled cs List.mem_cons_self, hp.tailsLast cs List.mem_cons_self, hnodes⟩, rfl,
      fun _ => inherits_of_childLists hp (by simp) cs List.mem_cons_self⟩
  | _ =>
    exact ⟨⟨List.cons_ne_nil _ _, List.forall_mem_nil _, hnodes⟩, rfl, fun hi => List.forall_mem_singleton.mpr hi⟩

/-- What stands in the places of several patterns keeps to the rules if the patterns themselves do. -/
theorem childrenFormed_flatMap {g : Pattern → List Pattern} {cs : List Pattern} (h : ∀ c ∈ cs, Replaces c (g c))
    (hne : cs ≠ []) (htails : ∀ c ∈ cs.dropLast, c.endsInTail = false) :
    ChildrenFormed (cs.flatMap g) ∧ lastEndsInTail (cs.flatMap g) = lastEndsInTail cs := by
  induction cs with
  | nil => exact absurd rfl hne
  | cons c cs ih =>
    have hc := h c List.mem_cons_self
    cases cs with
    | nil =>
      rw [List.flatMap_singleton]
      exact ⟨hc.toChildrenFormed, hc.lastEndsInTail⟩
    | cons d ds =>
      rw [List.dropLast_cons_of_ne_nil (List.cons_ne_nil _ _), List.forall_mem_cons] at htails
      obtain ⟨hds, hlast⟩ := ih (fun e he => h e (List.mem_cons_of_mem _ he)) (List.cons_ne_nil _ _) htails.2
      have hopen : ∀ e ∈ g c, e.endsInTail = false := open_of_last hc.tailsLast (hc.lastEndsInTail.trans htails.1)
      rw [List.flatMap_cons]
      refine ⟨⟨?_, tailsLast_append hds.nonempty hopen hds.tailsLast, ?_⟩, ?_⟩
      · exact fun hnil => hds.nonempty (List.append_eq_nil_iff.mp hnil).2
      · rw [nodesOf_append, List.forall_mem_append]
        exact ⟨hc.nodes, hds.nodes⟩
      · rw [lastEndsInTail_append _ hds.nonempty, hlast]
        rfl

/-! ## Flattening -/

/-- The pattern `r` keeps to the rules, and may stand where `p` stood. -/
structure Forms (p r : Pattern) : Prop where
  nodes : ∀ q ∈ r.nodes, q.Formed
  endsInTail : r.endsInTail = p.endsInTail
  inherits : p.inherits = false → r.inherits = false

theorem Forms.replaces {p r : Pattern} (h : Forms p r) : Replaces p (unpacked r) := by
  have hr := replaces_unpacked h.nodes
  exact ⟨hr.toChildrenFormed, hr.lastEndsInTail.trans h.endsInTail, fun hp => hr.inherits (h.inherits hp)⟩

section

variable {cs : List Pattern} (h : ∀ c ∈ cs, ∀ nested sole, Forms c (flattenIn nested sole c))

include h

theorem formed_inlined (hne : cs ≠ []) (htails : ∀ c ∈ cs.dropLast, c.endsInTail = false) :
    ChildrenFormed (inlined cs) ∧ lastEndsInTail (inlined cs) = lastEndsInTail cs := by
  rw [inlined_eq_flatMap]
  exact childrenFormed_flatMap (fun c hc => (h c hc true _).replaces) hne htails

/-- Where sequences are left alone, each child is replaced by one. -/
theorem formed_map (hne : cs ≠ []) (htails : ∀ c ∈ cs.dropLast, c.endsInTail = false) (sole : Bool) :
    ChildrenFormed (cs.map (flattenIn true sole)) ∧ lastEndsInTail (cs.map (flattenIn true sole)) = lastEndsInTail cs := by
  rw [List.map_eq_flatMap]
  refine childrenFormed_flatMap (fun c hc => ?_) hne htails
  have hc := h c hc true sole
  refine ⟨⟨List.cons_ne_nil _ _, List.forall_mem_nil _, ?_⟩, hc.endsInTail, fun hi => List.forall_mem_singleton.mpr (hc.inherits hi)⟩
  simpa [nodesOf] using hc.nodes

theorem inherits_inlined (hi : ∀ c ∈ cs, c.inherits = false) : ∀ d ∈ inlined cs, d.inherits = false := by
  rw [inlined_eq_flatMap]
  intro d hd
  obtain ⟨c, hc, hd⟩ := List.mem_flatMap.mp hd
  exact (h c hc true _).replaces.inherits (hi c hc) d hd

end

/-! ## Marks and merged variants -/

theorem formed_guardSole (id : Option Bytes) {cs : List Pattern} (h : ChildrenFormed cs) : ChildrenFormed (guardSole id cs) := by
  rcases guardSole_cases id cs with ⟨as, i, e, _, rfl, hguard⟩ | hguard
  · have hnode : ∀ q ∈ (Pattern.variants as none i e).nodes, q.Formed := by simpa [nodesOf] using h.nodes
    have hformed : (Pattern.variants as none i e).Formed := hnode _ (mem_nodes_self _)
    have hlists : ∀ a ∈ as, ChildrenFormed a := childrenFormed_of_nodes hnode
    have hi : ∀ a ∈ as, ∀ c ∈ a, c.inherits = false := inherits_of_childLists hformed (by simp)
    have hmarked : ∀ q ∈ (Pattern.variants as none i true).nodes, q.Formed := by
      refine formed_group hlists ?_ (.inr hi)
      rintro _ _ _ _ heq
      cases heq
      exact hformed.several _ _ _ _ rfl
    rw [hguard]
    exact ⟨List.cons_ne_nil _ _, List.forall_mem_nil _, by simpa [nodesOf] using hmarked⟩
  · rw [hguard]
    exact h

theorem inherits_guardSole (id : Option Bytes) {cs : List Pattern} (h : ∀ c ∈ cs, c.inherits = false) :
    ∀ c ∈ guardSole id cs, c.inherits = false := by
  rcases guardSole_cases id cs with ⟨as, i, e, _, rfl, hguard⟩ | hguard
  · have hsole : (Pattern.variants as none i e).inherits = false := h _ List.mem_cons_self
    rw [hguard]
    exact List.forall_mem_singleton.mpr hsole
  · rw [hguard]
    exact h

theorem formed_mergedVariant {cs : List Pattern} (h : ChildrenFormed cs) (hi : ∀ c ∈ cs, c.inherits = false) :
    mergedVariant cs ≠ [] ∧ ∀ a ∈ mergedVariant cs, ChildrenFormed a ∧ ∀ c ∈ a, c.inherits = false := by
  rcases mergedVariant_cases cs with ⟨as, i, rfl, has⟩ | hcs
  · have hnode : ∀ q ∈ (Pattern.variants as none i false).nodes, q.Formed := by simpa [nodesOf] using h.nodes
    have hformed : (Pattern.variants as none i false).Formed := hnode _ (mem_nodes_self _)
    rw [has]
    refine ⟨List.length_pos_iff.mp (Nat.lt_of_lt_of_le Nat.two_pos (hformed.several _ _ _ _ rfl)), fun a ha => ?_⟩
    exact ⟨childrenFormed_of_nodes hnode a ha, inherits_of_childLists hformed (by simp) a ha⟩
  · rw [hcs]
    exact ⟨List.cons_ne_nil _ _, List.forall_mem_singleton.mpr ⟨h, hi⟩⟩

/-- The variant group in an optional that has passed its identifier on stays where it is. -/
theorem inlined_inheriting (as : List (List Pattern)) (id : Bytes) (parenthesized : Bool) :
    ∃ bs id' parenthesized', Pattern.optional (guardSole none (inlined [.variants as (some id) true parenthesized])) none =
      .optional [.variants bs (some id') true parenthesized'] none := by
  have hp := flattens true true (.variants as (some id) true parenthesized)
  have hinlined : inlined [.variants as (some id) true parenthesized] =
      unpacked (flattenIn true true (.variants as (some id) true parenthesized)) := by
    simp [inlined_eq_flatMap]
  rw [hinlined]
  generalize flattenIn true true (.variants as (some id) true parenthesized) = r at hp
  cases hp with
  | leaf hl => cases hl
  | unwrap hw => cases hw
  | variants => exact ⟨_, id, _, rfl⟩

/-! ## Every node -/

/-- A group that wraps a child does not pass an identifier on to it. -/
theorem forms_wraps {p c r : Pattern} (hw : Wraps p c) (hp : p.Formed) (hr : Forms c r) : Forms p r := by
  cases hw with
  | sequence =>
    have hi := inherits_of_childLists hp (by simp) _ List.mem_cons_self c List.mem_cons_self
    exact ⟨hr.nodes, hr.endsInTail, fun _ => hr.inherits hi⟩
  | variants => exact absurd (hp.several _ _ _ _ rfl) (by simp)
  | unordered =>
    have hi := inherits_of_childLists hp (by simp) _ List.mem_cons_self c List.mem_cons_self
    exact ⟨hr.nodes, hr.endsInTail, fun _ => hr.inherits hi⟩

/-- Flattening keeps the rules, and what is around the pattern keeps them too. -/
theorem forms_flattenIn {p : Pattern} (h : ∀ q ∈ p.nodes, q.Formed) : ∀ nested sole, Forms p (flattenIn nested sole p) := by
  refine nodes_induct (P := Formed) (M := fun p => ∀ nested sole, Forms p (flattenIn nested sole p)) ?_ p h
  intro p hformed ih nested sole
  have hp := flattens nested sole p
  generalize flattenIn nested sole p = r at hp
  cases hp with
  | leaf hl => exact ⟨formed_leaf hl, rfl, id⟩
  | unwrap hw =>
    refine forms_wraps hw hformed ?_
    cases hw <;> exact ih _ List.mem_cons_self _ List.mem_cons_self nested sole
  | sequence cs hlen =>
    obtain ⟨hcs, hlast⟩ := formed_inlined (ih cs List.mem_cons_self) (hformed.filled cs List.mem_cons_self)
      (hformed.tailsLast cs List.mem_cons_self)
    have hi := inherits_inlined (ih cs List.mem_cons_self) (inherits_of_childLists hformed (by simp) cs List.mem_cons_self)
    refine ⟨formed_group (List.forall_mem_singleton.mpr hcs) (by simp) (.inr (List.forall_mem_singleton.mpr hi)), hlast, fun _ => rfl⟩
  | variant cs i e => exact absurd (hformed.several _ _ _ _ rfl) (by simp)
  | optional cs id =>
    obtain ⟨hcs, _⟩ := formed_inlined (ih cs List.mem_cons_self) (hformed.filled cs List.mem_cons_self)
      (hformed.tailsLast cs List.mem_cons_self)
    refine ⟨formed_group (List.forall_mem_singleton.mpr (formed_guardSole id hcs)) (by simp) ?_, rfl, fun _ => rfl⟩
    rcases hformed.inherited with ⟨as, x, e, heq⟩ | hi
    · cases heq
      exact .inl (inlined_inheriting as x e)
    · exact .inr (List.forall_mem_singleton.mpr
        (inherits_guardSole id (inherits_inlined (ih cs List.mem_cons_self) (hi cs List.mem_cons_self))))
  | variants as id i e hlen =>
    have hi := inherits_of_childLists hformed (by simp)
    have has : ∀ a ∈ as, mergedVariant (inlined a) ≠ [] ∧
        ∀ b ∈ mergedVariant (inlined a), ChildrenFormed b ∧ ∀ c ∈ b, c.inherits = false :=
      fun a ha => formed_mergedVariant (formed_inlined (ih a ha) (hformed.filled a ha) (hformed.tailsLast a ha)).1
        (inherits_inlined (ih a ha) (hi a ha))
    have hmem : ∀ b ∈ as.flatMap fun a => mergedVariant (inlined a), ChildrenFormed b ∧ ∀ c ∈ b, c.inherits = false := by
      intro b hb
      obtain ⟨a, ha, hb⟩ := List.mem_flatMap.mp hb
      exact (has a ha).2 b hb
    refine ⟨formed_group (fun b hb => (hmem b hb).1) ?_ (.inr fun b hb => (hmem b hb).2), rfl, fun hp => hp⟩
    rintro _ _ _ _ heq
    cases heq
    exact Nat.le_trans (hformed.several _ _ _ _ rfl) (length_le_flatMap fun a ha => (has a ha).1)
  | unordered cs id hlen =>
    have hcs := ih cs List.mem_cons_self
    have hi := inherits_of_childLists hformed (by simp) cs List.mem_cons_self
    obtain ⟨hmap, hlast⟩ := formed_map hcs (hformed.filled cs List.mem_cons_self) (hformed.tailsLast cs List.mem_cons_self) (cs.length == 1)
    refine ⟨formed_group (List.forall_mem_singleton.mpr hmap) (by simp) (.inr (List.forall_mem_singleton.mpr ?_)), hlast,
      fun _ => rfl⟩
    exact List.forall_mem_map.mpr fun c hc => (hcs c hc true _).inherits (hi c hc)

end CommandGrammar.Pattern
