/-
  CommandGrammar.Proofs.Grammar.Recompiling — when the canonical form of a grammar compiles to itself.

  A flattened pattern is legible, admissible and canonical since the grammar that it comes
  from is. So it is derived from what it is rendered as, and flattening what is derived
  gives it back. There is one exception, an unordered group with an identifier whose only
  child is a variant group without one: `{(a|b)}:x` is flattened to `{a|b}:x`,
  which is no grammar. The exception is the only one (`compile_render_flattened`).
-/

import CommandGrammar.Proofs.Grammar.Canonical
import CommandGrammar.Proofs.Grammar.Rendering
import CommandGrammar.Proofs.Grammar.WellFormed
import Mathlib

namespace CommandGrammar.Grammar

open Pattern (Canonical Formed Labels Normal Placed Solid flattenIn nodesOf unpacked)
open Specials (standard)

/-! ## Roots, written out -/

/-- A root is rendered as the sequence of what it is unpacked to. -/
theorem render_unpacked (sp : Specials) (p : Pattern) :
    (Pattern.sequence (unpacked p)).render sp true = p.render sp true := by
  cases p <;> simp [unpacked, Pattern.render, Pattern.renderEach, Pattern.spaced]

/-- The sequence around a canonical root is flattened away. -/
theorem flatten_unpacked {p : Pattern} (h : Normal false true p) : (Pattern.sequence (unpacked p)).flatten = p := by
  have hfixed : p.flatten = p := (Pattern.flattenIn_of_canonical h.nodes false true).trans h.placed
  cases hseq : p.isSequence with
  | true =>
    cases p with
    | sequence ps => exact hfixed
    | _ => cases hseq
  | false =>
    rw [Pattern.unpacked_of_not_sequence hseq, Pattern.flatten, flattenIn]
    exact hfixed

/-! ## Labels -/

theorem labels_texts : Labels textsAt := by
  constructor <;> intros <;> rfl

/-- The name of a tail. -/
def tailName : Pattern → List Bytes
  | .tail name _ => [name]
  | _ => []

theorem labels_tailName : Labels tailName := by
  constructor <;> intros <;> rfl

/-- Whether a literal is sensitive to case. -/
def sensitivity : Pattern → List Bool
  | .literal _ caseSensitive _ => [caseSensitive]
  | _ => []

theorem labels_sensitivity : Labels sensitivity := by
  constructor <;> intros <;> rfl

theorem legible_iff (p : Pattern) :
    Legible p ↔ (∀ t ∈ textsAt p, Spellable standard t) ∧ ∀ name ∈ tailName p, name.getLast? ≠ some dot := by
  constructor
  · intro h
    refine ⟨h.spellable, ?_⟩
    cases p with
    | tail name raw => exact List.forall_mem_singleton.mpr (h.tailName name raw rfl)
    | _ => exact List.forall_mem_nil _
  · rintro ⟨hs, ht⟩
    refine ⟨hs, ?_⟩
    rintro name raw rfl
    exact ht name (List.mem_singleton_self _)

theorem fits_iff (cs : Bool) (p : Pattern) : Fits cs p ↔ ∀ c ∈ sensitivity p, c = true → cs = true := by
  cases p <;> simp [Fits, sensitivity]

theorem legible_flatten {p : Pattern} (h : ∀ q ∈ p.nodes, Legible q) : ∀ q ∈ p.flatten.nodes, Legible q := by
  intro q hq
  have htexts := labels_texts.forall_flattenIn (fun q hq => ((legible_iff q).mp (h q hq)).1) false true q hq
  have hnames := labels_tailName.forall_flattenIn (fun q hq => ((legible_iff q).mp (h q hq)).2) false true q hq
  exact (legible_iff q).mpr ⟨htexts, hnames⟩

theorem fits_flatten {cs : Bool} {p : Pattern} (h : ∀ q ∈ p.nodes, Fits cs q) : ∀ q ∈ p.flatten.nodes, Fits cs q := by
  intro q hq
  exact (fits_iff cs q).mpr
    (labels_sensitivity.forall_flattenIn (fun q hq => (fits_iff cs q).mp (h q hq)) false true q hq)

/-! ## The canonical form of a grammar -/

theorem solid_of_formed {p : Pattern} (h : Formed p) : Solid p := by
  cases p with
  | sequence ps => exact h.filled ps List.mem_cons_self
  | variants as id i e =>
    have hlen := h.several as id i e rfl
    exact ⟨List.ne_nil_of_length_pos (by omega), h.filled⟩
  | _ => trivial

/-- What makes a root compile to itself: the rules are kept, and all that is missing is a derivation. -/
structure Recompilable (cs : Bool) (known : Bytes → Bool) (p : Pattern) : Prop where
  fixed : (Pattern.sequence (unpacked p)).flatten = p
  legible : ∀ q ∈ nodesOf (unpacked p), Legible q
  admissible : Admissible known (unpacked p)
  derived : (∀ q ∈ p.nodes, ¬ Bare q) → Root cs (spellingOf (unpacked p)) (unpacked p)
  refused : ∀ q ∈ p.nodes, Bare q → ∀ items, ¬ Root cs (spellingOf (unpacked p)) items

variable {known : Bytes → Bool} {cs : Bool} {ts : List Terminal} {items : List Pattern}

/-- A well-formed root has items that keep to the rules of the language. -/
theorem admissible_unpacked {p : Pattern} (h : WellFormed known p) : Admissible known (unpacked p) := by
  have hnode : ∀ q ∈ p.nodes, NodeAdmissible known q := fun q hq => ⟨h.typesKnown q hq, h.tailsLast q hq⟩
  cases p with
  | sequence ps =>
    refine ⟨?_, hnode⟩
    rw [← namesOf_sequence]
    exact h.namesNodup
  | _ =>
    refine ⟨h.namesNodup, List.forall_mem_append.mpr ⟨?_, List.forall_mem_singleton.mpr ⟨?_, ?_⟩⟩⟩
    · simpa [unpacked, nodesOf] using hnode
    · simp [Pattern.type?]
    · simp [Pattern.TailsLast, Pattern.childLists, unpacked]

theorem recompilable_empty : Recompilable cs known (.sequence []) where
  fixed := rfl
  legible := List.forall_mem_nil _
  admissible := admissible_unpacked (wellFormed_empty known)
  derived := fun _ => .empty
  refused := by
    rintro q hq ⟨as, i, e, id, rfl⟩
    simp [Pattern.nodes, nodesOf] at hq

theorem recompilable_flatten (hr : Root cs ts items) (ha : Admissible known items) (hl : ∀ q ∈ nodesOf items, Legible q) :
    Recompilable cs known (Pattern.sequence items).flatten := by
  by_cases hne : items = []
  · subst hne
    exact recompilable_empty
  · have hformed := formed_sequence hr ha hne
    have hwell : WellFormed known (Pattern.sequence items).flatten := wellFormed_flattened hr ha
    have hforms := Pattern.forms_flattenIn hformed false true
    have hnormal := Pattern.normal_flattenIn (fun q hq => solid_of_formed (hformed q hq)) false true
    have hlegible : ∀ q ∈ (Pattern.sequence items).nodes, Legible q := by
      refine List.forall_mem_append.mpr ⟨hl, List.forall_mem_singleton.mpr ⟨List.forall_mem_nil _, by simp⟩⟩
    have hfits : ∀ q ∈ (Pattern.sequence items).nodes, Fits cs q :=
      List.forall_mem_append.mpr ⟨hr.fits, List.forall_mem_singleton.mpr trivial⟩
    refine ⟨flatten_unpacked hnormal, ?_, admissible_unpacked hwell, ?_, ?_⟩
    · exact fun q hq => legible_flatten hlegible q (Pattern.mem_nodes_of_unpacked hq)
    · intro hbare
      refine root_of_derivable (fun q hq => ?_) hnormal.placed (hforms.inherits rfl)
      exact ⟨hnormal.nodes q hq, hforms.nodes q hq, fits_flatten hfits q hq, hbare q hq⟩
    · exact fun q hq hbare =>
        not_root_of_bare (hnormal.nodes q hq) (fun r hr => hforms.nodes r (Pattern.mem_nodes_trans hq hr)) hbare hq

/-! ## Compiling the canonical form -/

section

variable (cfg : Config) {grammar : Bytes} {c : Compiled}

/-- The canonical form of a grammar that compiles can be compiled again, as far as there is a derivation. -/
theorem recompilable_of_compile (known : Bytes → Bool)
    (hc : compile { cfg with specials := .standard, simplify := .no } known grammar = .ok c)
    (hdots : ∀ name raw, .tail name raw ∈ c.root.nodes → name.getLast? ≠ some dot) :
    c.specials = .standard ∧ Recompilable cfg.caseSensitive known c.flattened.root := by
  rw [compile_eq_simplify, map_eq_ok] at hc
  obtain ⟨items, hparse, rfl⟩ := hc
  obtain ⟨hr, ha⟩ := parse_eq_ok.mp hparse
  have hlegible : ∀ q ∈ nodesOf items, Legible q :=
    legible_of_root hr fun name raw hq => hdots name raw (List.mem_append_left _ hq)
  exact ⟨rfl, recompilable_flatten hr ha hlegible⟩

theorem tokens_render_root {p : Pattern} (h : Recompilable cs known p) :
    (tokens standard (p.render standard true)).map Token.terminal = spellingOf (unpacked p) := by
  rw [← render_unpacked]
  exact tokens_render h.legible

/-- Where there is a derivation, a root compiles to itself, how its groups are written included. -/
theorem compile_render_root {p : Pattern} (h : Recompilable cfg.caseSensitive known p) (hbare : ∀ q ∈ p.nodes, ¬ Bare q) :
    compile { cfg with specials := .standard, simplify := .silently } known (p.render standard true) =
      .ok ⟨p, p.render standard true, .standard⟩ := by
  have hparse : parse ⟨cfg.caseSensitive, known⟩ (tokens standard (p.render standard true)) = .ok (unpacked p) := by
    refine parse_eq_ok.mpr ⟨?_, h.admissible⟩
    rw [tokens_render_root h]
    exact h.derived hbare
  have hflatten : (rootOf (unpacked p)).flatten = p := (flatten_rootOf _).trans h.fixed
  rw [compile_eq_simplify, map_eq_ok]
  exact ⟨unpacked p, hparse, by rw [simplify, hflatten]⟩

/-- Where there is none, it does not compile. -/
theorem not_compile_render_root {p q : Pattern} (h : Recompilable cfg.caseSensitive known p) (hq : q ∈ p.nodes)
    (hbare : Bare q) : compile { cfg with specials := .standard, simplify := .silently } known (p.render standard true) ≠ .ok c := by
  intro hc
  rw [compile_eq_simplify, map_eq_ok] at hc
  obtain ⟨items, hparse, _⟩ := hc
  have hroot := (parse_eq_ok.mp hparse).1
  rw [tokens_render_root h] at hroot
  exact h.refused q hq hbare items hroot

end

/-- The canonical form of a grammar that compiles is rendered as a grammar that compiles to the same form, up to how it
    is written, exactly if alternatives nowhere stand alone between braces. -/
theorem compile_render_flattened (cfg : Config) (known : Bytes → Bool) {grammar : Bytes} {c : Compiled}
    (hc : compile { cfg with specials := .standard, simplify := .no } known grammar = .ok c)
    (hdots : ∀ name raw, .tail name raw ∈ c.root.nodes → name.getLast? ≠ some dot) :
    (∃ c', compile { cfg with specials := .standard, simplify := .silently } known c.flattened.render = .ok c' ∧
      c'.root.same c.flattened.root = true) ↔
        ∀ as inherited parenthesized id, .unordered [.variants as none inherited parenthesized] id ∉ c.flattened.root.nodes := by
  obtain ⟨hspecials, hrec⟩ := recompilable_of_compile cfg known hc hdots
  have hrender : c.flattened.render = c.flattened.root.render standard true :=
    congrArg (fun sp => c.flattened.root.render sp true) hspecials
  rw [hrender]
  constructor
  · rintro ⟨c', hc', _⟩ as i e id hq
    exact not_compile_render_root cfg hrec hq ⟨as, i, e, id, rfl⟩ hc'
  · intro h
    have hbare : ∀ q ∈ c.flattened.root.nodes, ¬ Bare q := by
      rintro q hq ⟨as, i, e, id, rfl⟩
      exact h as i e id hq
    exact ⟨_, compile_render_root cfg hrec hbare, Pattern.same_refl _⟩

/-- Two children between the braces, one of which is a variant group, and alternatives that are merged. -/
theorem compile_render_flattened_merged : ∃ c : Compiled,
    compile { simplify := .no } (fun _ => false) (ascii "\x7b(a|b) c\x7d:x [(d)|(e|f)]:y") = .ok c ∧
      (∀ name raw, .tail name raw ∈ c.root.nodes → name.getLast? ≠ some dot) ∧
      c.flattened.render = ascii "\x7b(a|b) c\x7d:x [d|e|f]:y" ∧
      ((∃ c', compile { simplify := .silently } (fun _ => false) c.flattened.render = .ok c' ∧
          c'.root.same c.flattened.root = true) ↔
        ∀ as inherited parenthesized id,
          .unordered [.variants as none inherited parenthesized] id ∉ c.flattened.root.nodes) := by
  have hc : compile { simplify := .no } (fun _ => false) (ascii "\x7b(a|b) c\x7d:x [(d)|(e|f)]:y") =
      .ok ⟨.sequence
        [.unordered
          [.variants [[.literal (ascii "a") true false], [.literal (ascii "b") true false]] none false true,
            .literal (ascii "c") true false] (some (ascii "x")),
          .optional [.variants [[.sequence [.literal (ascii "d") true false]],
            [.variants [[.literal (ascii "e") true false], [.literal (ascii "f") true false]] none false true]]
            (some (ascii "y")) true false] none],
        ascii "\x7b(a|b) c\x7d:x [(d)|(e|f)]:y", .standard⟩ := by
    cbv
  refine ⟨_, hc, ?dots, by cbv, compile_render_flattened {} _ hc ?dots⟩
  simp [Pattern.nodes, Pattern.nodesOf, Pattern.nodesOfEach]

/-- Alternatives that stand alone between braces lose their brackets there, and what is rendered does not compile. -/
theorem compile_render_bare : ∃ c : Compiled,
    compile { simplify := .no } (fun _ => false) (ascii "\x7b(a|b)\x7d:x") = .ok c ∧
      (∀ name raw, .tail name raw ∈ c.root.nodes → name.getLast? ≠ some dot) ∧
      c.flattened.render = ascii "\x7ba|b\x7d:x" ∧
      ∀ c', compile { simplify := .silently } (fun _ => false) c.flattened.render ≠ .ok c' := by
  have hc : compile { simplify := .no } (fun _ => false) (ascii "\x7b(a|b)\x7d:x") =
      .ok ⟨.sequence
        [.unordered
          [.variants [[.literal (ascii "a") true false], [.literal (ascii "b") true false]] none false true]
          (some (ascii "x"))],
        ascii "\x7b(a|b)\x7d:x", .standard⟩ := by
    cbv
  have hfails : (compile { simplify := .silently } (fun _ => false) (ascii "\x7ba|b\x7d:x")).isOk = false := by
    cbv
  have hrendered : ∀ text, text = ascii "\x7ba|b\x7d:x" → text = ascii "\x7ba|b\x7d:x" ∧
      ∀ c', compile { simplify := .silently } (fun _ => false) text ≠ .ok c' := by
    rintro _ rfl
    refine ⟨rfl, fun c' hc' => ?_⟩
    rw [hc'] at hfails
    cases hfails
  refine ⟨_, hc, ?_, hrendered _ (by cbv)⟩
  simp [Pattern.nodes, Pattern.nodesOf, Pattern.nodesOfEach]

end CommandGrammar.Grammar
