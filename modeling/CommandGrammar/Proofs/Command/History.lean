/-
  CommandGrammar.Proofs.Command.History — what holds of a dispatcher whatever was done with it before.

  Commands are added, types are registered and calls are answered, in any order. Commands
  are only ever added behind the others, and a command is added only if every type that it
  names is registered at that moment (`perform_changes`). A type may be registered anew,
  but none is ever taken away, so at any later time each command still finds all of its
  types: no match asks for a type that is not there (`after_usable`).
-/

import CommandGrammar.Command.Dispatcher
import CommandGrammar.Proofs.Grammar.WellFormed
import CommandGrammar.Proofs.Matching.Course
import CommandGrammar.Proofs.Matching.Types

namespace CommandGrammar

/-! ## Histories -/

/-- What can be done with a dispatcher. -/
inductive Operation (α : Type) where
  | add (grammar : Bytes) (result : α) (description : Bytes)
  | registerType (name : Bytes) (convert : Converter)
  | call (text : Bytes)

/-- What is said in return. -/
inductive Response (σ α : Type) where
  | added (note : Option Grammar.Note)
  | refused (e : Grammar.SyntaxError)
  | registered
  | answered (a : Except (Refusal σ) (Answer σ α))

namespace Dispatcher

variable {σ α : Type} [Score σ]

def perform (d : Dispatcher σ α) : Operation α → Response σ α × Dispatcher σ α
  | .add grammar result description =>
    match d.add grammar result description with
    | .ok (d', note) => (.added note, d')
    | .error e => (.refused e, d)
  | .registerType name convert => (.registered, d.registerType name convert)
  | .call text => (.answered (d.dispatch text), d)

def after (d : Dispatcher σ α) (ops : List (Operation α)) : Dispatcher σ α :=
  ops.foldl (fun d op => (d.perform op).2) d

/-- What an operation does to a dispatcher. -/
inductive Changes (d : Dispatcher σ α) : Operation α → Response σ α → Dispatcher σ α → Prop
  /-- One command more, the last one. -/
  | added {grammar : Bytes} {compiled : Grammar.Compiled} {note : Option Grammar.Note} (result : α) (description : Bytes) :
      Grammar.compileNoted d.grammar d.policy.types.contains grammar = .ok (compiled, note) →
      Changes d (.add grammar result description) (.added note)
        { d with commands := d.commands ++ [⟨compiled, result, description⟩] }
  | refused {grammar : Bytes} {e : Grammar.SyntaxError} (result : α) (description : Bytes) :
      Grammar.compileNoted d.grammar d.policy.types.contains grammar = .error e →
      Changes d (.add grammar result description) (.refused e) d
  | registered (name : Bytes) (convert : Converter) :
      Changes d (.registerType name convert) .registered
        { d with policy := { d.policy with types := d.policy.types.insert name convert } }
  | answered (text : Bytes) : Changes d (.call text) (.answered (d.dispatch text)) d

theorem perform_changes (d : Dispatcher σ α) (op : Operation α) : Changes d op (d.perform op).1 (d.perform op).2 := by
  cases op with
  | add grammar result description =>
    cases hc : Grammar.compileNoted d.grammar d.policy.types.contains grammar with
    | error e =>
      have hadd : d.add grammar result description = .error e := by
        rw [add, hc]
        rfl
      simp only [perform, hadd]
      exact .refused result description hc
    | ok r =>
      have hadd : d.add grammar result description =
          .ok ({ d with commands := d.commands ++ [⟨r.1, result, description⟩] }, r.2) := by
        rw [add, hc]
        rfl
      simp only [perform, hadd]
      exact .added result description hc
  | registerType name convert => exact .registered name convert
  | call text => exact .answered text

/-! ## Commands stay -/

theorem Changes.commands {d d' : Dispatcher σ α} {op : Operation α} {r : Response σ α} (h : Changes d op r d') :
    d.commands <+: d'.commands := by
  cases h with
  | added => exact List.prefix_append _ _
  | refused => exact List.prefix_refl _
  | registered => exact List.prefix_refl _
  | answered => exact List.prefix_refl _

theorem commands_after (d : Dispatcher σ α) (ops : List (Operation α)) : d.commands <+: (d.after ops).commands := by
  induction ops generalizing d with
  | nil => exact List.prefix_refl _
  | cons op ops ih => exact (d.perform_changes op).commands.trans (ih _)

/-! ## Types stay registered -/

/-- Every type that a command names is registered. -/
def TypesKnown (d : Dispatcher σ α) : Prop :=
  ∀ c ∈ d.commands, ∀ p ∈ c.compiled.root.nodes, ∀ t ∈ p.type?, d.policy.types.contains t = true

theorem contains_insert {types : Types} {t : Bytes} (h : types.contains t = true) (name : Bytes) (convert : Converter) :
    (types.insert name convert).contains t = true := by
  rw [Table.insert_eq_merge]
  exact Table.contains_merge h _

theorem compile_of_noted {cfg : Grammar.Config} {known : Bytes → Bool} {grammar : Bytes} {c : Grammar.Compiled}
    {note : Option Grammar.Note} (h : Grammar.compileNoted cfg known grammar = .ok (c, note)) :
    Grammar.compile cfg known grammar = .ok c := by
  rw [Grammar.compile, h]
  rfl

theorem Changes.typesKnown {d d' : Dispatcher σ α} {op : Operation α} {r : Response σ α} (h : Changes d op r d')
    (hd : d.TypesKnown) : d'.TypesKnown := by
  cases h with
  | added result description hc =>
    intro c hmem
    rcases List.mem_append.mp hmem with hmem | hmem
    · exact hd c hmem
    · rw [List.mem_singleton.mp hmem]
      exact Grammar.typesKnown_of_compile (compile_of_noted hc)
  | refused => exact hd
  | registered name convert => exact fun c hc p hp t ht => contains_insert (hd c hc p hp t ht) name convert
  | answered => exact hd

theorem typesKnown_after {d : Dispatcher σ α} (hd : d.TypesKnown) (ops : List (Operation α)) : (d.after ops).TypesKnown := by
  induction ops generalizing d with
  | nil => exact hd
  | cons op ops ih => exact ih ((d.perform_changes op).typesKnown hd)

/-! ## Usable commands -/

/-- Every type that a command asks for is there. -/
structure Usable (d : Dispatcher σ α) : Prop where
  typesKnown : d.TypesKnown
  /-- Wherever a match comes to a parameter with a type, the word is given to the converter of that type. -/
  converts : ∀ c ∈ d.commands, ∀ (m x : Progress σ) (name type : Bytes),
    Tries d.policy c.compiled.root m (.parameter name (some type)) x →
      ∃ convert, d.policy.types.get? type = some convert ∧ d.policy.types.construct type = convert
  /-- What would be made of a type that is not registered does not matter to any call. -/
  indifferent : ∀ types : Types, (∀ t, d.policy.types.contains t = true → types.get? t = d.policy.types.get? t) →
    ∀ call, ({ d with policy := { d.policy with types } } : Dispatcher σ α).dispatch call = d.dispatch call

theorem TypesKnown.usable {d : Dispatcher σ α} (h : d.TypesKnown) : d.Usable where
  typesKnown := h
  converts := by
    intro c hc m x name type htries
    have hknown := h c hc _ htries.mem_nodes type rfl
    obtain ⟨convert, hconvert⟩ := Option.isSome_iff_exists.mp hknown
    refine ⟨convert, hconvert, ?_⟩
    funext word
    rw [Types.construct, hconvert]
  indifferent := by
    intro types htypes call
    have houtcomes : ({ d with policy := { d.policy with types } } : Dispatcher σ α).outcomes call = d.outcomes call := by
      funext tokens
      refine List.map_congr_left fun c hc => ?_
      have hagrees : ∀ q ∈ c.1.compiled.root.nodes, Agrees d.policy types q := fun q hq t ht =>
        htypes t (h c.1 (List.fst_mem_of_mem_zipIdx hc) q hq t ht)
      exact congrArg (fun a : Attempt σ => (c.2, c.1, a (.start call tokens))) (matchCall_agrees hagrees)
    unfold dispatch
    dsimp only
    rw [houtcomes]

/-- Whatever was done with a dispatcher since it was new: the next operation changes its commands and its types only as
    operations of that kind do, no operation takes a command away, and every command is usable. -/
theorem after_usable (cfg : Grammar.Config) (policy : Policy σ) (ops : List (Operation α)) :
    let d : Dispatcher σ α := after { grammar := cfg, policy } ops
    (∀ op, Changes d op (d.perform op).1 (d.perform op).2) ∧ (∀ later, d.commands <+: (d.after later).commands) ∧
      Usable d := by
  intro d
  have hnew : TypesKnown ({ grammar := cfg, policy } : Dispatcher σ α) := by
    intro c hc
    cases hc
  exact ⟨d.perform_changes, d.commands_after, (typesKnown_after hnew ops).usable⟩

end Dispatcher

end CommandGrammar
