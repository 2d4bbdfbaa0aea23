/-
  CommandGrammar.Proofs.Grammar.Groups — the brackets of the language and the levels of the parser.

  A bracket of the parser makes the pattern that the rules describe from the same
  alternatives (`group_eq`). The nodes and names of a bracketed pattern are those of its
  alternatives and one more, and an identifier that is given afterwards is the same as
  one that was there from the start (`Item.identify`).
-/

import CommandGrammar.Proofs.Grammar.Moves
import Mathlib.Data.List.Basic

namespace CommandGrammar.Grammar

/-! ## Bracketed patterns -/

theorem parenthesized_of_two {as : List (List Pattern)} (id : Option Bytes) (h : 2 ≤ as.length) :
    parenthesized as id = .variants as id false true := by
  match as, h with
  | _ :: _ :: _, _ => rfl

theorem bracketed_of_two {as : List (List Pattern)} (id : Option Bytes) (h : 2 ≤ as.length) :
    bracketed as id = .optional [.variants as id id.isSome false] none := by
  match as, h with
  | _ :: _ :: _, _ => rfl

theorem unbracketed_of_two {as : List (List Pattern)} (h : 2 ≤ as.length) :
    unbracketed as = [.variants as none false false] := by
  match as, h with
  | _ :: _ :: _, _ => rfl

/-- There is one alternative, or there are several. -/
theorem one_or_two {as : List (List Pattern)} (h : as ≠ []) : (∃ ps, as = [ps]) ∨ 2 ≤ as.length := by
  match as, h with
  | [ps], _ => exact .inl ⟨ps, rfl⟩
  | _ :: _ :: _, _ => exact .inr (by simp)

theorem Alternatives.ne_nil {cs : Bool} {ts : List Terminal} {as : List (List Pattern)}
    (h : Alternatives cs ts as) : as ≠ [] := by
  cases h <;> simp

theorem Items.ne_nil {cs : Bool} {ts : List Terminal} {ps : List Pattern} (h : Items cs ts ps) : ps ≠ [] := by
  cases h <;> simp

/-! ## What the nodes of a group give -/

/-- Of a group nothing but its identifier is read. -/
structure Labelled (f : Pattern → List Bytes) : Prop where
  sequence : ∀ cs, f (.sequence cs) = []
  optional : ∀ cs id, f (.optional cs id) = id.toList
  variants : ∀ as id inherited parenthesized, f (.variants as id inherited parenthesized) = id.toList
  unordered : ∀ cs id, f (.unordered cs id) = id.toList

namespace Labelled

variable {f : Pattern → List Bytes} (hf : Labelled f)

include hf

theorem parenthesized (as : List (List Pattern)) (id : Option Bytes) (hid : id.isSome → 2 ≤ as.length) (h : as ≠ []) :
    (Pattern.nodesOf [parenthesized as id]).flatMap f = (Pattern.nodesOf as.flatten).flatMap f ++ id.toList := by
  rw [← Pattern.nodesOfEach_eq_flatten]
  rcases one_or_two h with ⟨ps, rfl⟩ | h2
  · cases id with
    | none => simp [Grammar.parenthesized, Pattern.nodesOf, Pattern.nodes, Pattern.nodesOfEach, hf.sequence]
    | some id => exact absurd (hid rfl) (by simp)
  · rw [parenthesized_of_two id h2]
    simp [Pattern.nodesOf, Pattern.nodes, hf.variants]

theorem bracketed (as : List (List Pattern)) (id : Option Bytes) (h : as ≠ []) :
    (Pattern.nodesOf [bracketed as id]).flatMap f = (Pattern.nodesOf as.flatten).flatMap f ++ id.toList := by
  rw [← Pattern.nodesOfEach_eq_flatten]
  rcases one_or_two h with ⟨ps, rfl⟩ | h2
  · simp [Grammar.bracketed, Pattern.nodesOf, Pattern.nodes, Pattern.nodesOfEach, hf.optional]
  · rw [bracketed_of_two id h2]
    simp [Pattern.nodesOf, Pattern.nodes, hf.optional, hf.variants]

theorem braced (ps : List Pattern) (id : Option Bytes) :
    (Pattern.nodesOf [.unordered ps id]).flatMap f = (Pattern.nodesOf ps).flatMap f ++ id.toList := by
  simp [Pattern.nodesOf, Pattern.nodes, hf.unordered]

theorem unbracketed (as : List (List Pattern)) (h : as ≠ []) :
    (Pattern.nodesOf (unbracketed as)).flatMap f = (Pattern.nodesOf as.flatten).flatMap f := by
  rcases one_or_two h with ⟨ps, rfl⟩ | h2
  · rw [List.flatten_singleton]
    rfl
  · rw [unbracketed_of_two h2, ← Pattern.nodesOfEach_eq_flatten]
    simp [Pattern.nodesOf, Pattern.nodes, hf.variants]

end Labelled

/-! ## Names -/

theorem labelled_names : Labelled fun p => p.name?.toList := by
  constructor <;> intros <;> rfl

theorem namesOf_eq_flatMap (ps : List Pattern) :
    Pattern.namesOf ps = (Pattern.nodesOf ps).flatMap fun p => p.name?.toList :=
  List.filterMap_eq_flatMap_toList _ _

theorem namesOf_parenthesized (as : List (List Pattern)) (id : Option Bytes) (hid : id.isSome → 2 ≤ as.length)
    (h : as ≠ []) : Pattern.namesOf [parenthesized as id] = Pattern.namesOf as.flatten ++ id.toList := by
  rw [namesOf_eq_flatMap, namesOf_eq_flatMap, labelled_names.parenthesized as id hid h]

theorem namesOf_bracketed (as : List (List Pattern)) (id : Option Bytes) (h : as ≠ []) :
    Pattern.namesOf [bracketed as id] = Pattern.namesOf as.flatten ++ id.toList := by
  rw [namesOf_eq_flatMap, namesOf_eq_flatMap, labelled_names.bracketed as id h]

theorem namesOf_braced (ps : List Pattern) (id : Option Bytes) :
    Pattern.namesOf [.unordered ps id] = Pattern.namesOf ps ++ id.toList := by
  rw [namesOf_eq_flatMap, namesOf_eq_flatMap, labelled_names.braced ps id]

theorem namesOf_unbracketed (as : List (List Pattern)) (h : as ≠ []) :
    Pattern.namesOf (unbracketed as) = Pattern.namesOf as.flatten := by
  rw [namesOf_eq_flatMap, namesOf_eq_flatMap, labelled_names.unbracketed as h]

/-! ## Rules for all nodes -/

variable {known : Bytes → Bool}

/-- Each of the alternatives keeps to the rules, and so do the nodes in it. -/
structure AlternativesAdmissible (known : Bytes → Bool) (as : List (List Pattern)) : Prop where
  nodes : ∀ ps ∈ as, ∀ q ∈ Pattern.nodesOf ps, NodeAdmissible known q
  tailsLast : ∀ ps ∈ as, ∀ c ∈ ps.dropLast, c.endsInTail = false

def ItemAdmissible (known : Bytes → Bool) (p : Pattern) : Prop :=
  ∀ q ∈ p.nodes, NodeAdmissible known q

theorem itemAdmissible_leaf {p : Pattern} (hc : p.childLists = []) (ht : ∀ t ∈ p.type?, known t = true) :
    ItemAdmissible known p := by
  rw [ItemAdmissible, Pattern.forall_mem_nodes, hc]
  exact ⟨⟨ht, by simp [Pattern.TailsLast, hc]⟩, List.forall_mem_nil _⟩

/-- A group keeps to the rules exactly when its lists of children do. -/
theorem itemAdmissible_group {p : Pattern} (ht : p.type? = none) :
    ItemAdmissible known p ↔ AlternativesAdmissible known p.childLists := by
  rw [ItemAdmissible, Pattern.forall_mem_nodes]
  constructor
  · rintro ⟨hp, hlists⟩
    exact ⟨hlists, hp.tailsLast⟩
  · intro h
    exact ⟨⟨by simp [ht], h.tailsLast⟩, h.nodes⟩

theorem itemAdmissible_sequence {ps : List Pattern} :
    ItemAdmissible known (.sequence ps) ↔ AlternativesAdmissible known [ps] :=
  itemAdmissible_group rfl

theorem itemAdmissible_optional {ps : List Pattern} {id : Option Bytes} :
    ItemAdmissible known (.optional ps id) ↔ AlternativesAdmissible known [ps] :=
  itemAdmissible_group rfl

theorem itemAdmissible_unordered {ps : List Pattern} {id : Option Bytes} :
    ItemAdmissible known (.unordered ps id) ↔ AlternativesAdmissible known [ps] :=
  itemAdmissible_group rfl

theorem itemAdmissible_variants {as : List (List Pattern)} {id : Option Bytes} {i e : Bool} :
    ItemAdmissible known (.variants as id i e) ↔ AlternativesAdmissible known as :=
  itemAdmissible_group rfl

theorem alternativesAdmissible_append {as bs : List (List Pattern)} :
    AlternativesAdmissible known (as ++ bs) ↔ AlternativesAdmissible known as ∧ AlternativesAdmissible known bs := by
  constructor
  · intro h
    exact ⟨⟨fun ps hps => h.nodes ps (List.mem_append_left _ hps), fun ps hps => h.tailsLast ps (List.mem_append_left _ hps)⟩,
      fun ps hps => h.nodes ps (List.mem_append_right _ hps), fun ps hps => h.tailsLast ps (List.mem_append_right _ hps)⟩
  · rintro ⟨ha, hb⟩
    constructor
    · intro ps hps
      rcases List.mem_append.mp hps with hps | hps
      · exact ha.nodes ps hps
      · exact hb.nodes ps hps
    · intro ps hps
      rcases List.mem_append.mp hps with hps | hps
      · exact ha.tailsLast ps hps
      · exact hb.tailsLast ps hps

theorem alternativesAdmissible_nil : AlternativesAdmissible known [[]] := by
  constructor
  · intro ps hps q hq
    rw [List.mem_singleton.mp hps] at hq
    cases hq
  · intro ps hps c hc
    rw [List.mem_singleton.mp hps] at hc
    cases hc

/-- One more item keeps to the rules behind items that do, none of which ends in a tail. -/
theorem alternativesAdmissible_snoc {ps : List Pattern} {p : Pattern} :
    AlternativesAdmissible known [ps ++ [p]] ↔
      AlternativesAdmissible known [ps] ∧ (∀ c ∈ ps, c.endsInTail = false) ∧ ItemAdmissible known p := by
  constructor
  · intro h
    have hn := h.nodes _ (List.mem_singleton.mpr rfl)
    have ht := h.tailsLast _ (List.mem_singleton.mpr rfl)
    rw [List.dropLast_concat] at ht
    rw [Pattern.nodesOf_append] at hn
    refine ⟨⟨?_, ?_⟩, ht, fun q hq => hn q (List.mem_append_right _ (by simpa [Pattern.nodesOf] using hq))⟩
    · intro qs hqs q hq
      rw [List.mem_singleton.mp hqs] at hq
      exact hn q (List.mem_append_left _ hq)
    · intro qs hqs c hc
      rw [List.mem_singleton.mp hqs] at hc
      exact ht c (List.dropLast_subset _ hc)
  · rintro ⟨hps, ht, hp⟩
    constructor
    · intro qs hqs q hq
      rw [List.mem_singleton.mp hqs, Pattern.nodesOf_append] at hq
      rcases List.mem_append.mp hq with hq | hq
      · exact hps.nodes ps (List.mem_singleton.mpr rfl) q hq
      · exact hp q (by simpa [Pattern.nodesOf] using hq)
    · intro qs hqs c hc
      rw [List.mem_singleton.mp hqs, List.dropLast_concat] at hc
      exact ht c hc

theorem alternativesAdmissible_single {p : Pattern} :
    AlternativesAdmissible known [[p]] ↔ ItemAdmissible known p := by
  have h : AlternativesAdmissible known [[] ++ [p]] ↔ _ := alternativesAdmissible_snoc
  simpa [alternativesAdmissible_nil] using h

theorem itemAdmissible_parenthesized {as : List (List Pattern)} {id : Option Bytes} (h : as ≠ []) :
    ItemAdmissible known (parenthesized as id) ↔ AlternativesAdmissible known as := by
  rcases one_or_two h with ⟨ps, rfl⟩ | h2
  · exact itemAdmissible_sequence
  · rw [parenthesized_of_two id h2]
    exact itemAdmissible_variants

theorem itemAdmissible_bracketed {as : List (List Pattern)} {id : Option Bytes} (h : as ≠ []) :
    ItemAdmissible known (bracketed as id) ↔ AlternativesAdmissible known as := by
  rcases one_or_two h with ⟨ps, rfl⟩ | h2
  · exact itemAdmissible_optional
  · rw [bracketed_of_two id h2, itemAdmissible_optional, alternativesAdmissible_single]
    exact itemAdmissible_variants

/-! ## Brackets of the parser -/

theorem Level.alternatives_eq (l : Level) :
    l.alternatives = l.variants.reverse.map (·.children) ++ [l.children.reverse] := by
  simp [Level.alternatives]

theorem Level.alternatives_of_undivided {l : Level} (h : l.variants = []) : l.alternatives = [l.children.reverse] := by
  rw [l.alternatives_eq, h]; rfl

theorem Level.alternatives_of_divided {l : Level} (h : l.variants ≠ []) : 2 ≤ l.alternatives.length := by
  have := List.length_pos_iff.mpr h
  rw [l.alternatives_eq]
  simp only [List.length_append, List.length_map, List.length_reverse, List.length_singleton]
  omega

theorem Level.contents_eq (l : Level) : l.contents = unbracketed l.alternatives := by
  unfold Level.contents
  by_cases h : l.variants = []
  · rw [Level.alternatives_of_undivided h, h]; rfl
  · rw [unbracketed_of_two (Level.alternatives_of_divided h)]
    simp [h]

theorem group_sequence_eq (l : Level) : group .sequence l = parenthesized l.alternatives none := by
  unfold group
  by_cases h : l.variants = []
  · rw [Level.alternatives_of_undivided h, h]; rfl
  · rw [parenthesized_of_two _ (Level.alternatives_of_divided h)]
    simp [h]

theorem group_optional_eq (l : Level) : group .optional l = bracketed l.alternatives none := by
  unfold group
  rw [l.contents_eq]
  by_cases h : l.variants = []
  · rw [Level.alternatives_of_undivided h]; rfl
  · have h2 := Level.alternatives_of_divided h
    rw [bracketed_of_two _ h2, unbracketed_of_two h2]; rfl

theorem group_unordered_eq {l : Level} (h : l.variants = []) :
    group .unordered l = .unordered l.children.reverse none := by
  simp [group, Level.contents, h]

/-! ## Identifiers -/

section

variable {cs : Bool}

/-- An item that is a variant group stands in parentheses and has inherited nothing. -/
theorem Item.variants_flags {ts : List Terminal} {p : Pattern} (h : Item cs ts p) {as : List (List Pattern)}
    {id : Option Bytes} {i e : Bool} (hp : p = .variants as id i e) : i = false ∧ e = true := by
  cases h with
  | literal => simp [modified] at hp
  | parameter => cases hp
  | tail => cases hp
  | parenthesized ha _ _ =>
    rcases one_or_two ha.ne_nil with ⟨ps, rfl⟩ | h2
    · simp [CommandGrammar.Grammar.parenthesized] at hp
    · rw [parenthesized_of_two _ h2] at hp
      injection hp with _ _ hi he
      exact ⟨hi.symm, he.symm⟩
  | bracketed ha _ =>
    rcases one_or_two ha.ne_nil with ⟨ps, rfl⟩ | h2
    · simp [CommandGrammar.Grammar.bracketed] at hp
    · simp [bracketed_of_two _ h2] at hp
  | braced => cases hp

theorem Items.exists_item {ts : List Terminal} {ps : List Pattern} (h : Items cs ts ps) :
    ∀ p ∈ ps, ∃ us, Item cs us p := by
  match h with
  | .one h =>
    intro p hp
    rw [List.mem_singleton.mp hp]
    exact ⟨_, h⟩
  | .more hs h =>
    intro p hp
    rcases List.mem_append.mp hp with hp | hp
    · exact hs.exists_item p hp
    · rw [List.mem_singleton.mp hp]
      exact ⟨_, h⟩

theorem Items.variants_flags {ts : List Terminal} {as : List (List Pattern)} {id : Option Bytes} {i e : Bool}
    (h : Items cs ts [.variants as id i e]) : i = false ∧ e = true := by
  obtain ⟨us, hp⟩ := h.exists_item _ (List.mem_singleton.mpr rfl)
  exact hp.variants_flags rfl

theorem Alternatives.single {ts : List Terminal} {ps : List Pattern} (h : Alternatives cs ts [ps]) : Items cs ts ps := by
  generalize hq : [ps] = qs at h
  cases h with
  | one h =>
    injection hq with hq _
    rw [hq]
    exact h
  | more ha _ =>
    have hl := congrArg List.length hq
    have := List.length_pos_iff.mpr ha.ne_nil
    simp only [List.length_append, List.length_singleton] at hl
    omega

theorem Items.inherited_eq_none {ts : List Terminal} {ps : List Pattern} (h : Items cs ts ps) :
    Pattern.inherited? ps = none := by
  unfold Pattern.inherited?
  split
  · have := h.variants_flags
    simp at this
  · rfl

theorem identify_optional {ts : List Terminal} {ps : List Pattern} (h : Items cs ts ps) (id : Bytes)
    (own : Option Bytes) : Pattern.identify id (.optional ps own) = .optional ps (some id) := by
  unfold Pattern.identify
  split
  · rename_i hp
    injection hp with hp _
    subst hp
    have := h.variants_flags
    simp at this
  · rename_i hp
    cases hp
    rfl
  · rename_i hp
    cases hp
  · rename_i hp
    cases hp
  · rename_i hp _ _
    exact absurd rfl (hp ps own)

theorem writtenIdentifier_parenthesized {as : List (List Pattern)} {id : Option Bytes} (h : 2 ≤ as.length) :
    (parenthesized as id).writtenIdentifier? = some id := by
  rw [parenthesized_of_two id h]; rfl

theorem writtenIdentifier_bracketed {ts : List Terminal} {as : List (List Pattern)} {id : Option Bytes}
    (h : Alternatives cs ts as) : (bracketed as id).writtenIdentifier? = some id := by
  rcases one_or_two h.ne_nil with ⟨ps, rfl⟩ | h2
  · simp [bracketed, Pattern.writtenIdentifier?, h.single.inherited_eq_none]
  · rw [bracketed_of_two id h2]
    cases id <;> rfl

theorem identify_parenthesized {as : List (List Pattern)} (id : Bytes) (h : 2 ≤ as.length) :
    Pattern.identify id (parenthesized as none) = parenthesized as (some id) := by
  rw [parenthesized_of_two none h, parenthesized_of_two (some id) h]; rfl

theorem identify_bracketed {ts : List Terminal} {as : List (List Pattern)} (id : Bytes) (h : Alternatives cs ts as) :
    Pattern.identify id (bracketed as none) = bracketed as (some id) := by
  rcases one_or_two h.ne_nil with ⟨ps, rfl⟩ | h2
  · exact identify_optional h.single id none
  · rw [bracketed_of_two none h2, bracketed_of_two (some id) h2]; rfl

theorem Suffix.eq_nil {us : List Terminal} (h : Suffix us none) : us = [] := by
  cases h; rfl

/-- What an identifier behind an item without one makes of it. -/
structure Identified (cs : Bool) (ts : List Terminal) (p : Pattern) (id : Bytes) : Prop where
  item : Item cs (ts ++ [.mark .separator, .symbol id]) (p.identify id)
  names : Pattern.namesOf [p.identify id] = Pattern.namesOf [p] ++ [id]
  admissible : ∀ known, ItemAdmissible known p → ItemAdmissible known (p.identify id)

theorem Item.identify {ts : List Terminal} {p : Pattern} (h : Item cs ts p) (hw : p.writtenIdentifier? = some none)
    (id : Bytes) : Identified cs ts p id := by
  cases h with
  | literal => simp [modified, Pattern.writtenIdentifier?] at hw
  | parameter => simp [Pattern.writtenIdentifier?] at hw
  | tail => simp [Pattern.writtenIdentifier?] at hw
  | @parenthesized ts us as own ha hs hid =>
    rcases one_or_two ha.ne_nil with ⟨ps, rfl⟩ | h2
    · simp [CommandGrammar.Grammar.parenthesized, Pattern.writtenIdentifier?] at hw
    · rw [writtenIdentifier_parenthesized h2] at hw
      injection hw with hw
      subst hw
      have hus := hs.eq_nil
      subst hus
      constructor
      · rw [identify_parenthesized id h2]
        simpa using Item.parenthesized ha (.present id) (fun _ => h2)
      · rw [identify_parenthesized id h2, namesOf_parenthesized as _ (fun _ => h2) ha.ne_nil,
          namesOf_parenthesized as _ hid ha.ne_nil]
        simp
      · intro known hk
        rw [identify_parenthesized id h2]
        exact (itemAdmissible_parenthesized ha.ne_nil).mpr ((itemAdmissible_parenthesized ha.ne_nil).mp hk)
  | @bracketed ts us as own ha hs =>
    rw [writtenIdentifier_bracketed ha] at hw
    injection hw with hw
    subst hw
    have hus := hs.eq_nil
    subst hus
    constructor
    · rw [identify_bracketed id ha]
      simpa using Item.bracketed ha (.present id)
    · rw [identify_bracketed id ha, namesOf_bracketed as _ ha.ne_nil, namesOf_bracketed as _ ha.ne_nil]
      simp
    · intro known hk
      rw [identify_bracketed id ha]
      exact (itemAdmissible_bracketed ha.ne_nil).mpr ((itemAdmissible_bracketed ha.ne_nil).mp hk)
  | @braced ts us ps own hi hs =>
    injection hw with hw
    subst hw
    have hus := hs.eq_nil
    subst hus
    constructor
    · simpa [Pattern.identify] using Item.braced hi (.present id)
    · rw [Pattern.identify, namesOf_braced, namesOf_braced]
      simp
    · intro known hk
      exact itemAdmissible_unordered.mpr (itemAdmissible_unordered.mp hk)

end

end CommandGrammar.Grammar
