/-
  CommandGrammar.Proofs.Grammar.Moves — the steps of the parser that succeed, one rule for each.

  `Moves r s t s'` says that the token `t` takes the state `s` to `s'`, with all that the
  parser checks on the way; it holds exactly when the parser takes that step
  (`step_eq_ok`). What is proved of a run is proved from these rules.
-/

import CommandGrammar.Proofs.Grammar.Language

namespace CommandGrammar.Grammar

/-- The parameter or tail that a closing mark completes in this phase, with the token of its name. -/
def Phase.complete? : Phase → Option (Token × Pattern)
  | .named _ name => some (name, .parameter name.text none)
  | .typed _ name type => some (name, .parameter name.text (some type.text))
  | .tail _ name raw => some (name, .tail name.text raw)
  | _ => none

/-- What a modifier makes of a literal. -/
def Modifier.change (m : Modifier) (text : Bytes) (caseSensitive tolerant : Bool) : Pattern :=
  match m with
  | .caseInsensitive => .literal text false tolerant
  | .tolerant => .literal text caseSensitive true

/-- The innermost bracket, if any, is not that of an unordered group. -/
def Divisible (opened : List Opened) : Prop :=
  ∀ o ∈ opened.head?, o.bracket ≠ .unordered

inductive Moves (r : Reading) (s : State) (t : Token) : State → Prop
  | literal {fresh : Bool} : t.kind = .symbol → s.phase = .between fresh → s.level.full = false →
      Moves r s t (s.append (.literal t.text r.caseSensitive false))
  | name {opener : Token} : t.kind = .symbol → s.phase = .parameter opener →
      Moves r s t { s with phase := .named opener t }
  | type {opener name : Token} : t.kind = .symbol → s.phase = .awaitingType opener name →
      Moves r s t { s with phase := .typed opener name t }
  | identifier {separator : Token} {s₁ : State} : t.kind = .symbol → s.phase = .identifier separator →
      s.declare t = .ok s₁ →
      Moves r s t { s₁ with level := s₁.level.amend (Pattern.identify t.text), phase := .between true }
  | openParameter {fresh : Bool} : t.kind = .mark .parameterOpening → s.phase = .between fresh →
      s.level.full = false → Moves r s t { s with phase := .parameter t }
  | closeParameter {name : Token} {p : Pattern} {s₁ : State} : t.kind = .mark .parameterClosing →
      s.phase.complete? = some (name, p) → s.declare name = .ok s₁ → (∀ type ∈ p.type?, r.knownType type = true) →
      Moves r s t (s₁.append p)
  | awaitType {opener name : Token} : t.kind = .mark .separator → s.phase = .named opener name →
      Moves r s t { s with phase := .awaitingType opener name }
  | awaitIdentifier {p : Pattern} {rest : List Pattern} : t.kind = .mark .separator → s.phase = .between true →
      s.level.children = p :: rest → p.writtenIdentifier? = some none →
      Moves r s t { s with phase := .identifier t }
  | markTail {opener name : Token} : t.kind = .mark .tail → s.phase = .named opener name →
      Moves r s t { s with phase := .tail opener name false }
  | markRaw {opener name : Token} : t.kind = .mark .raw → s.phase = .tail opener name false →
      Moves r s t { s with phase := .tail opener name true }
  | modify {m : Modifier} {text : Bytes} {caseSensitive tolerant : Bool} {rest : List Pattern} :
      t.kind = .mark m.mark → s.phase = .between true → s.level.children = .literal text caseSensitive tolerant :: rest →
      Moves r s t { s with level.children := m.change text caseSensitive tolerant :: rest }
  | divide {fresh : Bool} : t.kind = .mark .divider → s.phase = .between fresh → Divisible s.opened →
      s.level.children ≠ [] → Moves r s t { s with level := s.level.divide t, phase := .between false }
  | openGroup {b : Bracket} {fresh : Bool} : t.kind = .mark (.opening b) → s.phase = .between fresh →
      s.level.full = false →
      Moves r s t { s with level := {}, opened := ⟨b, t, s.level⟩ :: s.opened, phase := .between false }
  | closeGroup {o : Opened} {rest : List Opened} {fresh : Bool} : t.kind = .mark (.closing o.bracket) →
      s.phase = .between fresh → s.opened = o :: rest → s.level.children ≠ [] →
      Moves r s t ({ s with level := o.outside, opened := rest }.append (group o.bracket s.level))

/-! ## Names -/

theorem declare_eq_ok {s s₁ : State} {name : Token} (h : s.declare name = .ok s₁) :
    name.text ∉ s.symbols.names ∧ s₁.level = s.level ∧ s₁.opened = s.opened ∧ s₁.phase = s.phase ∧
      s₁.symbols.names = name.text :: s.symbols.names := by
  unfold State.declare Symbols.add? at h
  by_cases hm : name.text ∈ s.symbols.names
  · simp [hm, fail] at h
  · simp only [hm, dite_false, Except.ok.injEq] at h
    subst h
    exact ⟨hm, rfl, rfl, rfl, rfl⟩

theorem declare_fresh {s : State} {name : Token} (h : name.text ∉ s.symbols.names) : ∃ s₁, s.declare name = .ok s₁ := by
  unfold State.declare Symbols.add?
  simp [h]

/-! ## Steps -/

theorem bind_eq_ok {ε α β : Type} {x : Except ε α} {f : α → Except ε β} {b : β} :
    (x >>= f) = .ok b ↔ ∃ a, x = .ok a ∧ f a = .ok b := by
  cases x with
  | error e => simp [bind, Except.bind]
  | ok a => simp [bind, Except.bind]

section

variable {r : Reading} {s s' : State} {t : Token}

theorem symbol_moves (hk : t.kind = .symbol) (h : s.symbol r t = .ok s') : Moves r s t s' := by
  unfold State.symbol at h
  split at h
  · rename_i fresh hp
    split at h
    · cases h
    · rename_i hf
      cases h
      exact .literal hk hp (by simpa using hf)
  · rename_i opener hp
    cases h
    exact .name hk hp
  · rename_i opener name hp
    cases h
    exact .type hk hp
  · rename_i separator hp
    obtain ⟨s₁, hd, h⟩ := bind_eq_ok.mp h
    cases h
    exact .identifier hk hp hd
  · cases h

theorem openParameter_moves (hk : t.kind = .mark .parameterOpening) (h : s.openParameter t = .ok s') :
    Moves r s t s' := by
  unfold State.openParameter at h
  split at h
  · rename_i fresh hp
    split at h
    · cases h
    · rename_i hf
      cases h
      exact .openParameter hk hp (by simpa using hf)
  · cases h

theorem closeParameter_moves (hk : t.kind = .mark .parameterClosing) (h : s.closeParameter r t = .ok s') :
    Moves r s t s' := by
  unfold State.closeParameter at h
  split at h
  · cases h
  · rename_i opener name hp
    obtain ⟨s₁, hd, h⟩ := bind_eq_ok.mp h
    cases h
    exact .closeParameter hk (by rw [hp]; rfl) hd (by simp [Pattern.type?])
  · rename_i opener name type hp
    obtain ⟨s₁, hd, h⟩ := bind_eq_ok.mp h
    split at h
    · rename_i hty
      cases h
      exact .closeParameter hk (by rw [hp]; rfl) hd (by simpa [Pattern.type?] using hty)
    · cases h
  · rename_i opener name raw hp
    obtain ⟨s₁, hd, h⟩ := bind_eq_ok.mp h
    cases h
    exact .closeParameter hk (by rw [hp]; rfl) hd (by simp [Pattern.type?])
  · cases h

theorem latest_eq_some {p : Pattern} (h : s.latest? = some p) :
    s.phase = .between true ∧ ∃ rest, s.level.children = p :: rest := by
  unfold State.latest? at h
  split at h
  · rename_i hp
    exact ⟨hp, List.head?_eq_some_iff.mp h⟩
  · cases h

theorem separate_moves (hk : t.kind = .mark .separator) (h : s.separate t = .ok s') : Moves r s t s' := by
  unfold State.separate at h
  split at h
  · rename_i opener name hp
    cases h
    exact .awaitType hk hp
  · split at h
    · cases h
    · rename_i p hl
      obtain ⟨hp, rest, hc⟩ := latest_eq_some hl
      split at h
      · cases h
      · cases h
      · rename_i hw
        cases h
        exact .awaitIdentifier hk hp hc hw
  · cases h

theorem modify_moves {m : Modifier} (hk : t.kind = .mark m.mark) (h : s.modify t m.change = .ok s') :
    Moves r s t s' := by
  unfold State.modify at h
  split at h
  · split at h
    · rename_i text caseSensitive tolerant hl
      obtain ⟨hp, rest, hc⟩ := latest_eq_some hl
      cases h
      have : s.level.amend (fun _ => m.change text caseSensitive tolerant)
          = { s.level with children := m.change text caseSensitive tolerant :: rest } := by
        simp [Level.amend, hc]
      rw [this]
      exact .modify hk hp hc
    · cases h
  · cases h

theorem divide_moves (hk : t.kind = .mark .divider) (h : s.divide t = .ok s') : Moves r s t s' := by
  unfold State.divide at h
  split at h
  · rename_i fresh hp
    split at h
    · cases h
    · rename_i hb
      split at h
      · cases h
      · rename_i hc
        cases h
        refine .divide hk hp ?_ (by simpa using hc)
        intro o ho
        simp only [Option.mem_def] at ho
        simpa [ho] using hb
  · cases h

theorem openGroup_moves {b : Bracket} (hk : t.kind = .mark (.opening b)) (h : s.openGroup b t = .ok s') :
    Moves r s t s' := by
  unfold State.openGroup at h
  split at h
  · rename_i fresh hp
    split at h
    · cases h
    · rename_i hf
      cases h
      exact .openGroup hk hp (by simpa using hf)
  · cases h

theorem closeGroup_moves {b : Bracket} (hk : t.kind = .mark (.closing b)) (h : s.closeGroup b t = .ok s') :
    Moves r s t s' := by
  unfold State.closeGroup at h
  split at h
  · rename_i fresh o rest hp ho
    split at h
    · cases h
    · rename_i hb
      split at h
      · cases h
      · rename_i hc
        have hb : o.bracket = b := by simpa using hb
        subst hb
        cases h
        exact .closeGroup hk hp ho (by simpa using hc)
  · cases h

theorem step_moves (h : s.step r t = .ok s') : Moves r s t s' := by
  unfold State.step at h
  split at h <;> rename_i hk
  · exact symbol_moves hk h
  · exact openParameter_moves hk h
  · exact closeParameter_moves hk h
  · exact separate_moves hk h
  · exact divide_moves hk h
  · exact openGroup_moves hk h
  · exact closeGroup_moves hk h
  · unfold State.markTail at h
    split at h
    · cases h; exact .markTail hk ‹_›
    · cases h
  · unfold State.markRaw at h
    split at h
    · cases h; exact .markRaw hk ‹_›
    · cases h
  · exact modify_moves (m := .caseInsensitive) hk h
  · exact modify_moves (m := .tolerant) hk h

theorem closeParameter_of_complete {name : Token} {p : Pattern} {s₁ : State}
    (hc : s.phase.complete? = some (name, p)) (hd : s.declare name = .ok s₁)
    (hty : ∀ type ∈ p.type?, r.knownType type = true) : s.closeParameter r t = .ok (s₁.append p) := by
  unfold Phase.complete? at hc
  unfold State.closeParameter
  split at hc <;> rename_i hp
  · cases hc
    simp [hp, hd, bind, Except.bind, pure, Except.pure]
  · cases hc
    have hty := hty _ rfl
    simp [hp, hd, hty, bind, Except.bind, pure, Except.pure]
  · cases hc
    simp [hp, hd, bind, Except.bind, pure, Except.pure]
  · cases hc

theorem moves_step (h : Moves r s t s') : s.step r t = .ok s' := by
  cases h with
  | literal hk hp hf => simp [State.step, hk, State.symbol, hp, hf]
  | name hk hp => simp [State.step, hk, State.symbol, hp]
  | type hk hp => simp [State.step, hk, State.symbol, hp]
  | identifier hk hp hd => simp [State.step, hk, State.symbol, hp, hd, bind, Except.bind, pure, Except.pure]
  | openParameter hk hp hf => simp [State.step, hk, State.openParameter, hp, hf]
  | closeParameter hk hc hd hty =>
    simp only [State.step, hk]
    exact closeParameter_of_complete hc hd hty
  | awaitType hk hp => simp [State.step, hk, State.separate, hp]
  | awaitIdentifier hk hp hc hw => simp [State.step, hk, State.separate, hp, State.latest?, hc, hw]
  | markTail hk hp => simp [State.step, hk, State.markTail, hp]
  | markRaw hk hp => simp [State.step, hk, State.markRaw, hp]
  | @modify m text caseSensitive tolerant rest hk hp hc =>
    cases m <;>
      simp [State.step, hk, Modifier.mark, State.modify, hp, State.latest?, hc, Level.amend, Modifier.change]
  | divide hk hp hb hc =>
    have hb : s.opened.head?.any (·.bracket == .unordered) = false := by
      cases ho : s.opened.head? with
      | none => rfl
      | some o => simpa [ho] using hb o ho
    simp [State.step, hk, State.divide, hp, hb, hc]
  | openGroup hk hp hf => simp [State.step, hk, State.openGroup, hp, hf]
  | closeGroup hk hp ho hc => simp [State.step, hk, State.closeGroup, hp, ho, hc]

theorem step_eq_ok : s.step r t = .ok s' ↔ Moves r s t s' :=
  ⟨step_moves, moves_step⟩

end

end CommandGrammar.Grammar
