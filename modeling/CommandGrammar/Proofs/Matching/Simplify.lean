/-
  CommandGrammar.Proofs.Matching.Simplify — how a grammar is simplified decides no match.

  No group of a grammar is empty, so that flattening changes no verdict of what is parsed
  from it. What the configurations make of the same grammar differs in no more than that,
  and in a sequence around a single item.
-/

import CommandGrammar.Proofs.Grammar.Accepts
import CommandGrammar.Proofs.Grammar.Grouped
import CommandGrammar.Proofs.Matching.Flatten
import Mathlib

namespace CommandGrammar

open Grammar

variable {policy : Policy Rat}

theorem rootOf_alike (policy : Policy Rat) (items : List Pattern) :
    Alike ((rootOf items).attempt policy) ((Pattern.sequence items).attempt policy) := by
  unfold rootOf
  split
  · exact (sequence_single _).symm
  · exact Alike.refl _

/-- The sequence of what is parsed from a grammar may be empty itself, and then stays so. -/
theorem flatten_alike (hp : policy.Nonneg) {items : List Pattern} (h : ∀ q ∈ Pattern.nodesOf items, q.Filled) :
    Alike ((Pattern.sequence items).flatten.attempt policy) ((Pattern.sequence items).attempt policy) := by
  by_cases hne : items = []
  · subst hne
    exact Alike.refl _
  · have hfilled : ∀ q ∈ (Pattern.sequence items).nodes, q.Filled :=
      Pattern.forall_mem_nodes.mpr ⟨List.forall_mem_singleton.mpr hne, List.forall_mem_singleton.mpr h⟩
    exact (preserves_flattenIn hp hfilled false true).alike

theorem simplify_alike (hp : policy.Nonneg) {items : List Pattern} (h : ∀ q ∈ Pattern.nodesOf items, q.Filled)
    (mode : Simplify) (grammar : Bytes) :
    Alike ((simplify mode grammar items).1.attempt policy) ((Pattern.sequence items).attempt policy) := by
  have hflatten : Alike ((rootOf items).flatten.attempt policy) ((Pattern.sequence items).attempt policy) := by
    rw [flatten_rootOf]
    exact flatten_alike hp h
  cases mode with
  | no => exact Alike.refl _
  | warn => exact rootOf_alike policy items
  | yes => exact hflatten
  | silently => exact hflatten

/-- Whatever a call is matched with, the grammar as it was written, its canonical form, or what any configuration makes
    of it: the verdict is the same. -/
theorem compile_simplify_alike (hp : policy.Nonneg) (cfg : Config) (known : Bytes → Bool) {grammar : Bytes} {c : Compiled}
    (hc : compile cfg known grammar = .ok c) :
    ∃ written, compile { cfg with simplify := .no } known grammar = .ok written ∧
      (∀ m, (written.root.flatten.attempt policy m).verdict = (written.root.attempt policy m).verdict) ∧
      ∀ mode, ∃ simplified, compile { cfg with simplify := mode } known grammar = .ok simplified ∧
        ∀ m, (simplified.root.attempt policy m).verdict = (written.root.attempt policy m).verdict := by
  rw [compile_eq_simplify, map_eq_ok] at hc
  obtain ⟨items, hparse, _⟩ := hc
  have hfilled : ∀ q ∈ Pattern.nodesOf items, q.Filled := (parse_eq_ok.mp hparse).1.filled
  have hcompile : ∀ mode, compile { cfg with simplify := mode } known grammar =
      .ok ⟨(simplify mode grammar items).1, grammar, cfg.specials⟩ := by
    intro mode
    rw [compile_eq_simplify, map_eq_ok]
    exact ⟨items, hparse, rfl⟩
  exact ⟨_, hcompile .no, flatten_alike hp hfilled,
    fun mode => ⟨_, hcompile mode, simplify_alike hp hfilled mode grammar⟩⟩

/-- A group of a single child, alternatives in an alternative and sequences in a sequence, all of which are unwrapped. -/
theorem compile_simplify_alike_unwrapped :
    ∃ c, compile {} (fun _ => false) (ascii "\x7b(a|(b|(c) <n>))\x7d [(d (e))]:o") = .ok c ∧
      c.render = ascii "(a|b|c <n>) [d e]:o" ∧ (Policy.standard : Policy Rat).Nonneg ∧
      ∃ written, compile { simplify := .no } (fun _ => false) (ascii "\x7b(a|(b|(c) <n>))\x7d [(d (e))]:o") = .ok written ∧
        (∀ m, (written.root.flatten.attempt (Policy.standard : Policy Rat) m).verdict =
          (written.root.attempt .standard m).verdict) ∧
        ∀ mode, ∃ simplified,
          compile { simplify := mode } (fun _ => false) (ascii "\x7b(a|(b|(c) <n>))\x7d [(d (e))]:o") = .ok simplified ∧
            ∀ m, (simplified.root.attempt (Policy.standard : Policy Rat) m).verdict =
              (written.root.attempt .standard m).verdict := by
  have hc : compile {} (fun _ => false) (ascii "\x7b(a|(b|(c) <n>))\x7d [(d (e))]:o") =
      .ok ⟨.sequence
        [.variants [[.literal (ascii "a") true false], [.literal (ascii "b") true false],
            [.literal (ascii "c") true false, .parameter (ascii "n") none]] none false true,
          .optional [.literal (ascii "d") true false, .literal (ascii "e") true false] (some (ascii "o"))],
        ascii "\x7b(a|(b|(c) <n>))\x7d [(d (e))]:o", .standard⟩ := by
    cbv
  have hp : (Policy.standard : Policy Rat).Nonneg := ⟨by decide +kernel, by decide +kernel, by decide +kernel⟩
  exact ⟨_, hc, by cbv, hp, compile_simplify_alike hp {} _ hc⟩

end CommandGrammar
