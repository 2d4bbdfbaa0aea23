/-
  CommandGrammar.Proofs.Grammar.WellFormed — every pattern that a grammar compiles to is well-formed.

  The rules of the language and those that are not context-free make the items of a
  grammar well-formed. Flattening keeps the rules for groups, and as it loses no label,
  names stay distinct and types known. So the configuration decides nothing here.
-/

import CommandGrammar.Proofs.Grammar.Accepts
import CommandGrammar.Proofs.Grammar.Grouped
import CommandGrammar.Proofs.Pattern.Flatten
import Mathlib

namespace CommandGrammar.Grammar

open Pattern (Formed Labels inherits namesOf nodesOf)

/-! ## Well-formed patterns -/

/-- What can be relied on of the pattern of a grammar. -/
structure WellFormed (known : Bytes → Bool) (root : Pattern) : Prop where
  namesNodup : (namesOf [root]).Nodup
  typesKnown : ∀ p ∈ root.nodes, ∀ t ∈ p.type?, known t = true
  /-- Only the root may be empty, and then it is a sequence. -/
  filled : root = .sequence [] ∨ ∀ p ∈ root.nodes, p.Filled
  several : ∀ as id inherited parenthesized, .variants as id inherited parenthesized ∈ root.nodes → 2 ≤ as.length
  rootInherits : root.inherits = false
  /-- A group with an inherited identifier is the only child of an optional without one. -/
  inherited : ∀ p ∈ root.nodes, ∀ cs ∈ p.childLists, ∀ c ∈ cs, c.inherits = true →
    p = .optional [c] none ∧ c.name?.isSome
  tailsLast : ∀ p ∈ root.nodes, p.TailsLast

theorem wellFormed_empty (known : Bytes → Bool) : WellFormed known (.sequence []) where
  namesNodup := List.nodup_nil
  typesKnown := by simp [Pattern.nodes, nodesOf, Pattern.type?]
  filled := .inl rfl
  several := by simp [Pattern.nodes, nodesOf]
  rootInherits := rfl
  inherited := by simp [Pattern.nodes, nodesOf, Pattern.childLists]
  tailsLast := by simp [Pattern.nodes, nodesOf, Pattern.TailsLast, Pattern.childLists]

theorem wellFormed_of_formed {known : Bytes → Bool} {root : Pattern} (hnames : (namesOf [root]).Nodup)
    (htypes : ∀ p ∈ root.nodes, ∀ t ∈ p.type?, known t = true) (hformed : ∀ p ∈ root.nodes, p.Formed)
    (hroot : root.inherits = false) : WellFormed known root where
  namesNodup := hnames
  typesKnown := htypes
  filled := .inr fun p hp => (hformed p hp).filled
  several := fun as id i e hp => (hformed _ hp).several as id i e rfl
  rootInherits := hroot
  inherited := by
    intro p hp cs hcs c hc hi
    rcases (hformed p hp).inherited with ⟨as, id, e, rfl⟩ | hinherited
    · rw [List.mem_singleton.mp hcs, List.mem_singleton] at hc
      subst hc
      exact ⟨rfl, rfl⟩
    · rw [hinherited cs hcs c hc] at hi
      cases hi
  tailsLast := fun p hp => (hformed p hp).tailsLast

/-! ## Labels -/

theorem labels_names : Labels fun p => p.name?.toList := by
  constructor <;> intros <;> rfl

theorem labels_types : Labels fun p => p.type?.toList := by
  constructor <;> intros <;> rfl

theorem namesOf_flatten (p : Pattern) : namesOf [p.flatten] = namesOf [p] := by
  have h := labels_names.flattenIn p false true
  simpa [namesOf_eq_flatMap, nodesOf, Pattern.flatten] using h

theorem types_flatten {p : Pattern} {P : Bytes → Prop} (h : ∀ q ∈ p.nodes, ∀ t ∈ q.type?, P t) :
    ∀ q ∈ p.flatten.nodes, ∀ t ∈ q.type?, P t := by
  have hlabels : ∀ q ∈ p.nodes, ∀ t ∈ q.type?.toList, P t := fun q hq t ht => h q hq t (Option.mem_toList.mp ht)
  exact fun q hq t ht => labels_types.forall_flattenIn hlabels false true q hq t (Option.mem_toList.mpr ht)

/-- A flattened pattern is as well-formed as the pattern. -/
theorem wellFormed_flatten {known : Bytes → Bool} {p : Pattern} (hnames : (namesOf [p]).Nodup)
    (htypes : ∀ q ∈ p.nodes, ∀ t ∈ q.type?, known t = true) (hformed : ∀ q ∈ p.nodes, q.Formed)
    (hp : p.inherits = false) : WellFormed known p.flatten := by
  have hforms := Pattern.forms_flattenIn hformed false true
  refine wellFormed_of_formed ?_ (types_flatten htypes) hforms.nodes (hforms.inherits hp)
  rwa [namesOf_flatten]

/-! ## What is parsed -/

variable {known : Bytes → Bool} {cs : Bool} {ts : List Terminal} {items : List Pattern}

/-- A sequence has no name of its own. -/
theorem namesOf_sequence (items : List Pattern) : namesOf [.sequence items] = namesOf items := by
  simp [namesOf_eq_flatMap, nodesOf, Pattern.nodes, Pattern.name?]

theorem formed_sequence (hr : Root cs ts items) (ha : Admissible known items) (hne : items ≠ []) :
    ∀ p ∈ (Pattern.sequence items).nodes, p.Formed := by
  obtain ⟨hinherits, hgrouped⟩ := hr.grouped
  refine Pattern.formed_group (List.forall_mem_singleton.mpr ⟨hne, ?_, ?_⟩) (by simp)
    (.inr (List.forall_mem_singleton.mpr hinherits))
  · exact (ha.nodes _ (Pattern.mem_nodes_self _)).tailsLast items List.mem_cons_self
  · exact fun q hq => ⟨hgrouped q hq, (ha.nodes q (List.mem_append_left _ hq)).tailsLast⟩

theorem wellFormed_sequence (hr : Root cs ts items) (ha : Admissible known items) : WellFormed known (.sequence items) := by
  by_cases hne : items = []
  · subst hne
    exact wellFormed_empty known
  · refine wellFormed_of_formed ?_ (fun p hp => (ha.nodes p hp).typeKnown) (formed_sequence hr ha hne) rfl
    rw [namesOf_sequence]
    exact ha.namesNodup

theorem wellFormed_rootOf (hr : Root cs ts items) (ha : Admissible known items) : WellFormed known (rootOf items) := by
  unfold rootOf
  split
  · rename_i p
    have hnodes : ∀ q ∈ p.nodes, q ∈ (Pattern.sequence [p]).nodes := by
      intro q hq
      exact List.mem_append_left _ (List.mem_append_left _ hq)
    refine wellFormed_of_formed ha.namesNodup (fun q hq => (ha.nodes q (hnodes q hq)).typeKnown)
      (fun q hq => formed_sequence hr ha (List.cons_ne_nil _ _) q (hnodes q hq)) (hr.grouped.1 p List.mem_cons_self)
  · exact wellFormed_sequence hr ha

theorem wellFormed_flattened (hr : Root cs ts items) (ha : Admissible known items) :
    WellFormed known (Pattern.sequence items).flatten := by
  by_cases hne : items = []
  · subst hne
    exact wellFormed_empty known
  · refine wellFormed_flatten ?_ (fun p hp => (ha.nodes p hp).typeKnown) (formed_sequence hr ha hne) rfl
    rw [namesOf_sequence]
    exact ha.namesNodup

theorem namesOf_simplify (mode : Simplify) (grammar : Bytes) (items : List Pattern) :
    namesOf [(simplify mode grammar items).1] = namesOf items := by
  have hroot : namesOf [rootOf items] = namesOf items := by
    unfold rootOf
    split
    · rfl
    · exact namesOf_sequence items
  cases mode with
  | no => exact namesOf_sequence items
  | warn => exact hroot
  | yes => exact (namesOf_flatten _).trans hroot
  | silently => exact (namesOf_flatten _).trans hroot

/-- In a compiled grammar no name is given twice. -/
theorem namesNodup_of_compile {cfg : Config} {grammar : Bytes} {c : Compiled} (hc : compile cfg known grammar = .ok c) :
    (namesOf [c.root]).Nodup := by
  rw [compile_eq_simplify, map_eq_ok] at hc
  obtain ⟨items, hparse, rfl⟩ := hc
  obtain ⟨-, ha⟩ := parse_eq_ok.mp hparse
  show (namesOf [(simplify cfg.simplify grammar items).1]).Nodup
  rw [namesOf_simplify]
  exact ha.namesNodup

/-- In a compiled grammar every type is one that was known. -/
theorem typesKnown_of_compile {cfg : Config} {grammar : Bytes} {c : Compiled} (hc : compile cfg known grammar = .ok c) :
    ∀ p ∈ c.root.nodes, ∀ t ∈ p.type?, known t = true := by
  rw [compile_eq_simplify, map_eq_ok] at hc
  obtain ⟨items, hparse, rfl⟩ := hc
  obtain ⟨hr, ha⟩ := parse_eq_ok.mp hparse
  have hroot := (wellFormed_rootOf hr ha).typesKnown
  show ∀ p ∈ (simplify cfg.simplify grammar items).1.nodes, ∀ t ∈ p.type?, known t = true
  cases cfg.simplify with
  | no => exact (wellFormed_sequence hr ha).typesKnown
  | warn => exact hroot
  | yes => exact types_flatten hroot
  | silently => exact types_flatten hroot

/-- Whatever is configured, a grammar that compiles has a well-formed pattern. -/
theorem compile_wellFormed (cfg : Config) (known : Bytes → Bool) {grammar : Bytes} {c : Compiled}
    (hc : compile cfg known grammar = .ok c) : WellFormed known c.root := by
  rw [compile_eq_simplify, map_eq_ok] at hc
  obtain ⟨items, hparse, rfl⟩ := hc
  obtain ⟨hr, ha⟩ := parse_eq_ok.mp hparse
  have hflattened : WellFormed known (rootOf items).flatten := by
    rw [flatten_rootOf]
    exact wellFormed_flattened hr ha
  show WellFormed known (simplify cfg.simplify grammar items).1
  cases cfg.simplify with
  | no => exact wellFormed_sequence hr ha
  | warn => exact wellFormed_rootOf hr ha
  | yes => exact hflattened
  | silently => exact hflattened

/-- Merged alternatives that inherit an identifier, and a tail that comes to stand in the list of the root. -/
theorem compile_wellFormed_spliced : ∃ c : Compiled,
    compile {} (· == ascii "int") (ascii "(a [b|(c|d)]:x) \x7b(\x7b<n: int>\x7d <r...>)\x7d") = .ok c ∧
      c.render = ascii "a [b|c|d]:x <n: int> <r...>" ∧ WellFormed (· == ascii "int") c.root := by
  have hc : compile {} (· == ascii "int") (ascii "(a [b|(c|d)]:x) \x7b(\x7b<n: int>\x7d <r...>)\x7d") =
      .ok ⟨.sequence
        [.literal (ascii "a") true false,
          .optional [.variants [[.literal (ascii "b") true false], [.literal (ascii "c") true false],
            [.literal (ascii "d") true false]] (some (ascii "x")) true false] none,
          .parameter (ascii "n") (some (ascii "int")), .tail (ascii "r") false],
        ascii "(a [b|(c|d)]:x) \x7b(\x7b<n: int>\x7d <r...>)\x7d", .standard⟩ := by
    cbv
  exact ⟨_, hc, by cbv, compile_wellFormed {} _ hc⟩

end CommandGrammar.Grammar
