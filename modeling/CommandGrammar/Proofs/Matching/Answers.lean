/-
  CommandGrammar.Proofs.Matching.Answers — what can be looked up once a call is matched.

  Whoever handles a command looks up by name what the call gave for it, and a lookup that
  finds nothing is an error. After a match of a compiled grammar there is no such error
  for what every call of the command must give (`matchCall_answers`).
-/

import CommandGrammar.Proofs.Grammar.WellFormed
import CommandGrammar.Proofs.Matching.Accounts

namespace CommandGrammar

open Pattern (namesOf nodesOf)

variable {types : Types} {tokens : List Call.Token} {root : Pattern} {f : Findings}

/-! ## Lookups -/

/-- Every lookup of what is required of a call is answered, and there is nothing else to be looked up but what the
    pattern names. -/
structure Answered (types : Types) (tokens : List Call.Token) (root : Pattern) (f : Findings) : Prop where
  word : ∀ name, .parameter name none ∈ root.required → ∃ t ∈ tokens, f.value name = .ok (.str t.value)
  typed : ∀ name type, .parameter name (some type) ∈ root.required →
    ∃ convert t v, types.get? type = some convert ∧ t ∈ tokens ∧ convert t.value = .ok v ∧ f.value name = .ok v
  list : ∀ name, .tail name false ∈ root.required → ∃ texts, texts ≠ [] ∧ f.value name = .ok (.list texts)
  text : ∀ name, .tail name true ∈ root.required → ∃ text, text ≠ [] ∧ f.value name = .ok (.str text)
  optional : ∀ cs id, .optional cs (some id) ∈ root.required → ∃ present, f.optional id = .ok present
  variant : ∀ as id inherited parenthesized, .variants as (some id) inherited parenthesized ∈ root.required →
    ∃ index < as.length, f.variant id = .ok index
  order : ∀ cs id, .unordered cs (some id) ∈ root.required →
    ∃ order, order.Perm (List.range cs.length) ∧ f.order id = .ok order
  optionals : root.required.countP Pattern.isUnnamedOptional ≤ f.optionals.length
  variants : root.required.countP Pattern.isUnnamedVariants ≤ f.variants.length
  onlyValues : ∀ name v, f.value name = .ok v →
    (∃ type, .parameter name type ∈ root.nodes) ∨ ∃ raw, .tail name raw ∈ root.nodes
  onlyOptionals : ∀ id present, f.optional id = .ok present → ∃ cs, .optional cs (some id) ∈ root.nodes
  onlyVariants : ∀ id index, f.variant id = .ok index →
    ∃ as inherited parenthesized, .variants as (some id) inherited parenthesized ∈ root.nodes
  onlyOrders : ∀ id order, f.order id = .ok order → ∃ cs, .unordered cs (some id) ∈ root.nodes

/-- What is accounted for can be looked up. -/
theorem Accounts.answered (h : Accounts types tokens root.nodes root.required f) : Answered types tokens root f where
  word name hp := by
    obtain ⟨e, he, hsuits⟩ := h.found _ hp _ rfl
    cases hsuits with | word _ ht => exact ⟨_, ht, Findings.value_eq_ok.mpr he⟩
  typed name type hp := by
    obtain ⟨e, he, hsuits⟩ := h.found _ hp _ rfl
    cases hsuits with | typed _ hconvert ht hv => exact ⟨_, _, _, hconvert, ht, hv, Findings.value_eq_ok.mpr he⟩
  list name hp := by
    obtain ⟨e, he, hsuits⟩ := h.found _ hp _ rfl
    cases hsuits with | list _ hne => exact ⟨_, hne, Findings.value_eq_ok.mpr he⟩
  text name hp := by
    obtain ⟨e, he, hsuits⟩ := h.found _ hp _ rfl
    cases hsuits with | text _ hne => exact ⟨_, hne, Findings.value_eq_ok.mpr he⟩
  optional cs id hp := by
    obtain ⟨e, he, hsuits⟩ := h.found _ hp _ rfl
    cases hsuits with | optional _ _ present => exact ⟨present, Findings.optional_eq_ok.mpr he⟩
  variant as id inherited parenthesized hp := by
    obtain ⟨e, he, hsuits⟩ := h.found _ hp _ rfl
    cases hsuits with | variant _ _ _ hindex => exact ⟨_, hindex, Findings.variant_eq_ok.mpr he⟩
  order cs id hp := by
    obtain ⟨e, he, hsuits⟩ := h.found _ hp _ rfl
    cases hsuits with | order _ horder => exact ⟨_, horder, Findings.order_eq_ok.mpr he⟩
  optionals := h.optionals
  variants := h.variants
  onlyValues name v hv := by
    obtain ⟨q, hq, hs⟩ := h.known _ _ (Findings.value_eq_ok.mp hv)
    rcases Pattern.slot?_eq_some hs with ⟨type, rfl⟩ | ⟨raw, rfl⟩
    · exact .inl ⟨type, hq⟩
    · exact .inr ⟨raw, hq⟩
  onlyOptionals id present hv := by
    obtain ⟨q, hq, hs⟩ := h.known _ _ (Findings.optional_eq_ok.mp hv)
    obtain ⟨cs, rfl⟩ := Pattern.slot?_eq_some hs
    exact ⟨cs, hq⟩
  onlyVariants id index hv := by
    obtain ⟨q, hq, hs⟩ := h.known _ _ (Findings.variant_eq_ok.mp hv)
    obtain ⟨as, inherited, parenthesized, rfl⟩ := Pattern.slot?_eq_some hs
    exact ⟨as, inherited, parenthesized, hq⟩
  onlyOrders id order hv := by
    obtain ⟨q, hq, hs⟩ := h.known _ _ (Findings.order_eq_ok.mp hv)
    obtain ⟨cs, rfl⟩ := Pattern.slot?_eq_some hs
    exact ⟨cs, hq⟩

/-! ## Calls -/

variable {σ : Type} [Score σ] {policy : Policy σ} {c : Grammar.Compiled}

/-- A call is matched if the pattern is, with no token left over. -/
theorem matchCall_eq_matched {m m' : Progress σ} :
    c.matchCall policy m = .matched m' ↔ c.root.attempt policy m = .matched m' ∧ m'.tokens = [] := by
  unfold Grammar.Compiled.matchCall Grammar.Compiled.matchPart
  cases c.root.attempt policy m with
  | failed f m₁ => simp
  | matched m₁ =>
    by_cases hleft : m₁.tokens = []
    · simp only [hleft, List.isEmpty_nil, if_true, Outcome.matched.injEq]
      constructor
      · rintro rfl
        exact ⟨rfl, hleft⟩
      · exact And.left
    · have hleft' : m₁.tokens.isEmpty = false := by simpa using hleft
      simp only [hleft', Outcome.matched.injEq]
      constructor
      · intro h
        cases h
      · rintro ⟨rfl, hnil⟩
        exact absurd hnil hleft

/-- After a call is matched with a compiled grammar, every lookup of what the grammar requires is answered. -/
theorem matchCall_answers (policy : Policy σ) (q : Quoting) {cfg : Grammar.Config} {grammar call : Bytes}
    {c : Grammar.Compiled} {m : Progress σ} (hc : Grammar.compile cfg policy.types.contains grammar = .ok c)
    (hm : c.matchCall policy (.start call (Call.tokens q call)) = .matched m) :
    Answered policy.types (Call.tokens q call) c.root m.found := by
  obtain ⟨hroot, -⟩ := matchCall_eq_matched.mp hm
  obtain ⟨f, hf, he⟩ := sound c.root _ m hroot
  have hfound : m.found = f := by
    rw [he.found]
    exact Findings.nothing_merge f
  have hspans : Call.Spans call.length 0 (Call.tokens q call) := Call.tokens_spans q call
  rw [hfound]
  exact (hf.accounts hspans (List.suffix_refl _) (Grammar.namesNodup_of_compile hc)).answered

/-- The children of the unordered group come the other way round, one of them a variant with a parameter. -/
theorem matchCall_answers_swapped :
    let grammar := ascii "set \x7b<n: int> (on|<w>):v\x7d:o [now] <rest...>"
    let call := ascii "set 'a b' 7 x"
    ∃ (c : Grammar.Compiled) (m : Progress Rat),
      Grammar.compile {} (Policy.standard : Policy Rat).types.contains grammar = .ok c ∧
        c.matchCall .standard (.start call (Call.tokens c.specials.quoting call)) = .matched m ∧
        m.found.optionals = [false] ∧ m.found.namedVariants.entries = [(ascii "v", 1)] ∧
        m.found.namedOrders.entries = [(ascii "o", [1, 0])] ∧
        Answered (Policy.standard : Policy Rat).types (Call.tokens c.specials.quoting call) c.root m.found := by
  intro grammar call
  let root : Pattern := .sequence
    [.literal (ascii "set") true false,
      .unordered [.parameter (ascii "n") (some (ascii "int")),
        .variants [[.literal (ascii "on") true false], [.parameter (ascii "w") none]] (some (ascii "v")) false true]
        (some (ascii "o")),
      .optional [.literal (ascii "now") true false] none, .tail (ascii "rest") false]
  let c : Grammar.Compiled := ⟨root, grammar, .standard⟩
  have hc : Grammar.compile {} (Policy.standard : Policy Rat).types.contains grammar = .ok c := by
    subst c root grammar
    cbv
  let o : Outcome Rat := c.matchCall .standard (.start call (Call.tokens c.specials.quoting call))
  have hmatched : o.failure?.isNone = true := by decide +kernel
  have hfound : o.progress.found.optionals = [false] ∧ o.progress.found.namedVariants.entries = [(ascii "v", 1)] ∧
      o.progress.found.namedOrders.entries = [(ascii "o", [1, 0])] := by decide +kernel
  obtain ⟨m, hm⟩ : ∃ m, o = .matched m := by
    cases h : o with
    | matched m => exact ⟨m, rfl⟩
    | failed f m =>
      rw [h] at hmatched
      cases hmatched
  rw [hm] at hfound
  exact ⟨c, m, hc, hm, hfound.1, hfound.2.1, hfound.2.2, matchCall_answers .standard _ hc hm⟩

end CommandGrammar
