/-
  CommandGrammar.Proofs.Grammar.Flattened — flattening a second time changes nothing.

  One pass brings a pattern without empty sequences and variants into its canonical form,
  and the next one leaves that form as it is, how its groups are written included. The
  pattern of a grammar has no empty list of children unless the grammar is empty, in
  whatever mode it is compiled, so that its canonical form is final (`flatten_idempotent`).
  Nor is any text in it empty (`spellable_of_compile`).
-/

import CommandGrammar.Proofs.Grammar.Recompiling

namespace CommandGrammar.Grammar

open Pattern (Formed Solid)

theorem flatten_flatten {p : Pattern} (h : ∀ q ∈ p.nodes, q.Solid) : p.flatten.flatten = p.flatten := by
  have hnormal := Pattern.normal_flattenIn h false true
  calc p.flatten.flatten
      = p.flatten.place false true := Pattern.flattenIn_of_canonical hnormal.nodes false true
    _ = p.flatten := hnormal.placed

/-! ## The pattern of a grammar -/

variable {known : Bytes → Bool} {cs : Bool} {ts : List Terminal} {items : List Pattern}

theorem nodes_rootOf {q : Pattern} (h : q ∈ (rootOf items).nodes) : q ∈ (Pattern.sequence items).nodes := by
  unfold rootOf at h
  split at h
  · exact List.mem_append_left _ (List.mem_append_left _ h)
  · exact h

/-- Flattened or not, the pattern keeps to the rules for groups that its items keep to. -/
theorem formed_simplify (hr : Root cs ts items) (ha : Admissible known items) (hne : items ≠ []) (mode : Simplify)
    (grammar : Bytes) : ∀ q ∈ (simplify mode grammar items).1.nodes, q.Formed := by
  have hsequence := formed_sequence hr ha hne
  have hroot : ∀ q ∈ (rootOf items).nodes, q.Formed := fun q hq => hsequence q (nodes_rootOf hq)
  have hflat : ∀ q ∈ (rootOf items).flatten.nodes, q.Formed := (Pattern.forms_flattenIn hroot false true).nodes
  cases mode with
  | no => exact hsequence
  | warn => exact hroot
  | yes => exact hflat
  | silently => exact hflat

theorem solid_of_compile {cfg : Config} {grammar : Bytes} {c : Compiled} (hc : compile cfg known grammar = .ok c)
    (hne : c.root ≠ .sequence []) : ∀ q ∈ c.root.nodes, q.Solid := by
  rw [compile_eq_simplify, map_eq_ok] at hc
  obtain ⟨items, hparse, rfl⟩ := hc
  obtain ⟨hr, ha⟩ := parse_eq_ok.mp hparse
  have hitems : items ≠ [] := by
    rintro rfl
    refine hne ?_
    cases cfg.simplify <;> rfl
  exact fun q hq => solid_of_formed (formed_simplify hr ha hitems cfg.simplify grammar q hq)

/-- Every text in the pattern of a grammar is one that a grammar can be written with. -/
theorem spellable_of_compile {cfg : Config} {grammar : Bytes} {c : Compiled} (hc : compile cfg known grammar = .ok c) :
    ∀ q ∈ c.root.nodes, ∀ t ∈ textsAt q, Spellable cfg.specials t := by
  rw [compile_eq_simplify, map_eq_ok] at hc
  obtain ⟨items, hparse, rfl⟩ := hc
  obtain ⟨hr, -⟩ := parse_eq_ok.mp hparse
  have hsequence : ∀ q ∈ (Pattern.sequence items).nodes, ∀ t ∈ textsAt q, Spellable cfg.specials t := by
    intro q hq t ht
    rcases List.mem_append.mp hq with hq | hq
    · exact symbol_spellable (hr.symbol_mem t (List.mem_flatMap.mpr ⟨q, hq, ht⟩))
    · rw [List.mem_singleton.mp hq] at ht
      cases ht
  have hroot : ∀ q ∈ (rootOf items).nodes, ∀ t ∈ textsAt q, Spellable cfg.specials t :=
    fun q hq => hsequence q (nodes_rootOf hq)
  have hflat := labels_texts.forall_flattenIn hroot false true
  show ∀ q ∈ (simplify cfg.simplify grammar items).1.nodes, ∀ t ∈ textsAt q, Spellable cfg.specials t
  cases cfg.simplify with
  | no => exact hsequence
  | warn => exact hroot
  | yes => exact hflat
  | silently => exact hflat

/-- A pattern without empty sequences and variants, and the pattern of every grammar, is in its final form once it is
    flattened, and is written the same from then on. -/
theorem flatten_idempotent :
    (∀ p : Pattern, (∀ q ∈ p.nodes, q.Solid) → p.flatten.flatten = p.flatten ∧
        ∀ sp root, p.flatten.flatten.render sp root = p.flatten.render sp root) ∧
      ∀ (cfg : Config) (known : Bytes → Bool) (grammar : Bytes) (c : Compiled), compile cfg known grammar = .ok c →
        c.flattened.flattened = c.flattened ∧ c.flattened.flattened.render = c.flattened.render := by
  constructor
  · intro p h
    rw [flatten_flatten h]
    exact ⟨rfl, fun _ _ => rfl⟩
  · intro cfg known grammar c hc
    have hroot : c.root.flatten.flatten = c.root.flatten := by
      by_cases hempty : c.root = .sequence []
      · rw [hempty]
        rfl
      · exact flatten_flatten (solid_of_compile hc hempty)
    have hflat : c.flattened.flattened = c.flattened := congrArg (fun root => { c with root }) hroot
    exact ⟨hflat, congrArg Compiled.render hflat⟩

/-- A variant group in two others: the innermost is merged for want of brackets, and what is left gets brackets for the
    sake of the identifier around it. -/
theorem flatten_idempotent_merged :
    let group : Pattern := .variants
      [[.literal (ascii "a") true false],
        [.sequence [.variants [[.literal (ascii "b") true false], [.parameter (ascii "n") none]] none true true]]]
      none false false
    let p : Pattern := .optional [.unordered [group] none] (some (ascii "x"))
    (∀ q ∈ p.nodes, q.Solid) ∧ p.flatten.render Specials.standard true = ascii "[(a|b|<n>)]:x" ∧
      (p.flatten.flatten = p.flatten ∧
        ∀ sp root, p.flatten.flatten.render sp root = p.flatten.render sp root) ∧
      ∃ c, compile { simplify := .no } (fun _ => false) (ascii "\x7b(a|b)\x7d:x (c)") = .ok c ∧
        c.flattened.render = ascii "\x7ba|b\x7d:x c" ∧
        c.flattened.flattened = c.flattened ∧ c.flattened.flattened.render = c.flattened.render := by
  intro group p
  have hsolid : ∀ q ∈ p.nodes, q.Solid := by
    simp [p, group, Pattern.nodes, Pattern.nodesOf, Pattern.nodesOfEach, Solid]
  have hc : compile { simplify := .no } (fun _ => false) (ascii "\x7b(a|b)\x7d:x (c)") =
      .ok ⟨.sequence
        [.unordered
          [.variants [[.literal (ascii "a") true false], [.literal (ascii "b") true false]] none false true]
          (some (ascii "x")),
          .sequence [.literal (ascii "c") true false]],
        ascii "\x7b(a|b)\x7d:x (c)", .standard⟩ := by
    cbv
  exact ⟨hsolid, by cbv, flatten_idempotent.1 p hsolid, _, hc, by cbv, flatten_idempotent.2 _ _ _ _ hc⟩

end CommandGrammar.Grammar
