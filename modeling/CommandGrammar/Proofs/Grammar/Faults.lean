/-
  CommandGrammar.Proofs.Grammar.Faults — where a grammar is at fault.

  Most faults are those of the token being read (`Fails.direct`). The others point back to
  what the parser remembers: the name or the type of a parameter, an opening mark, a
  separator, a bracket or a divider. Either way the error points at one of the tokens, and
  the fault can be seen in the tokens around it, without the parser (`Fault.Founded`,
  `compile_error`).
-/

import CommandGrammar.Proofs.Grammar.Accepts
import CommandGrammar.Proofs.Grammar.Partition
import CommandGrammar.Proofs.Grammar.Remembered

namespace CommandGrammar.Grammar

variable {r : Reading}

/-! ## Faults that can be seen in the tokens -/

/-- A fault that is reported at the token `t` is there in the tokens. -/
def Fault.Founded (known : Bytes → Bool) (ts : List Token) (t : Token) : Fault → Prop
  | .unterminatedExpression path =>
    ∃ innermost outer, unclosed ts = innermost :: outer ∧ t = innermost.token ∧
      t.kind = .mark (.opening innermost.group.bracket) ∧ path = ((unclosed ts).map (·.group)).reverse
  | .unterminatedParameter =>
    t.kind = .mark .parameterOpening ∧
      ∃ before after, ts = before ++ t :: after ∧ ∀ u ∈ after, u.kind ≠ .mark .parameterClosing
  | .duplicateSymbol =>
    t.kind = .symbol ∧
      ∃ before after, ts = before ++ t :: after ∧ NameNext before ∧ ∃ u, Declares before u ∧ u.text = t.text
  | .undefinedType => t.kind = .symbol ∧ known t.text = false
  | _ => True

/-- A fault of the token being read, whatever else is in the grammar. -/
def Fault.Direct (fault : Fault) : Prop :=
  ∀ known ts t, fault.Founded known ts t

/-! ## Tokens that cannot be read -/

/-- The ways in which the token `t` cannot be read in the state `s`. -/
inductive Fails (r : Reading) (s : State) (t : Token) : SyntaxError → Prop
  | direct {fault : Fault} : fault.Direct → Fails r s t ⟨fault, t⟩
  | duplicateIdentifier {separator : Token} : t.kind = .symbol → s.phase = .identifier separator →
      t.text ∈ s.symbols.names → Fails r s t ⟨.duplicateSymbol, t⟩
  | duplicateName {name : Token} : s.phase.name? = some name → name.text ∈ s.symbols.names →
      Fails r s t ⟨.duplicateSymbol, name⟩
  | undefinedType {opener name type : Token} : s.phase = .typed opener name type → r.knownType type.text = false →
      Fails r s t ⟨.undefinedType, type⟩

section

variable {s : State} {t : Token} {e : SyntaxError}

theorem declare_eq_error {name : Token} (h : s.declare name = .error e) :
    e = ⟨.duplicateSymbol, name⟩ ∧ name.text ∈ s.symbols.names := by
  unfold State.declare Symbols.add? at h
  by_cases hm : name.text ∈ s.symbols.names
  · simp only [hm, dite_true] at h
    cases h
    exact ⟨rfl, hm⟩
  · simp [hm] at h

/-- A name that is declared and then leads to a state fails only if it is in use. -/
theorem declare_bind_fails {name : Token} {f : State → Except SyntaxError State} (hn : s.phase.name? = some name)
    (hf : ∀ s₁, f s₁ = .error e → Fails r s t e) (h : (s.declare name >>= f) = .error e) : Fails r s t e := by
  rcases bind_eq_error.mp h with hd | ⟨s₁, _, h⟩
  · obtain ⟨rfl, hm⟩ := declare_eq_error hd
    exact .duplicateName hn hm
  · exact hf s₁ h

theorem symbol_fails (hk : t.kind = .symbol) (h : s.symbol r t = .error e) : Fails r s t e := by
  unfold State.symbol at h
  split at h
  · split at h <;> cases h
    exact .direct fun _ _ _ => trivial
  · cases h
  · cases h
  · rename_i hp
    rcases bind_eq_error.mp h with hd | ⟨_, _, h⟩
    · obtain ⟨rfl, hm⟩ := declare_eq_error hd
      exact .duplicateIdentifier hk hp hm
    · cases h
  · cases h
    exact .direct fun _ _ _ => trivial

theorem openParameter_fails (h : s.openParameter t = .error e) : Fails r s t e := by
  unfold State.openParameter at h
  split at h
  · split at h <;> cases h
    exact .direct fun _ _ _ => trivial
  · cases h
    exact .direct fun _ _ _ => trivial

theorem closeParameter_fails (h : s.closeParameter r t = .error e) : Fails r s t e := by
  unfold State.closeParameter at h
  split at h
  · cases h
    exact .direct fun _ _ _ => trivial
  · rename_i hp
    exact declare_bind_fails (by rw [hp]; rfl) (fun _ h => by cases h) h
  · rename_i hp
    refine declare_bind_fails (by rw [hp]; rfl) (fun s₁ h => ?_) h
    split at h
    · cases h
    · rename_i hunknown
      cases h
      exact .undefinedType hp (by simpa using hunknown)
  · rename_i hp
    exact declare_bind_fails (by rw [hp]; rfl) (fun _ h => by cases h) h
  · cases h
    exact .direct fun _ _ _ => trivial

theorem separate_fails (h : s.separate t = .error e) : Fails r s t e := by
  unfold State.separate at h
  split at h
  · cases h
  · split at h
    · cases h
      exact .direct fun _ _ _ => trivial
    · split at h <;> cases h <;> exact .direct fun _ _ _ => trivial
  · cases h
    exact .direct fun _ _ _ => trivial

theorem modify_fails {change : Bytes → Bool → Bool → Pattern} (h : s.modify t change = .error e) : Fails r s t e := by
  unfold State.modify at h
  split at h
  · split at h <;> cases h
    exact .direct fun _ _ _ => trivial
  · cases h
    exact .direct fun _ _ _ => trivial

theorem divide_fails (h : s.divide t = .error e) : Fails r s t e := by
  unfold State.divide at h
  split at h
  · split at h
    · cases h
      exact .direct fun _ _ _ => trivial
    · split at h <;> cases h
      exact .direct fun _ _ _ => trivial
  · cases h
    exact .direct fun _ _ _ => trivial

theorem openGroup_fails {b : Bracket} (h : s.openGroup b t = .error e) : Fails r s t e := by
  unfold State.openGroup at h
  split at h
  · split at h <;> cases h
    exact .direct fun _ _ _ => trivial
  · cases h
    exact .direct fun _ _ _ => trivial

theorem closeGroup_fails {b : Bracket} (h : s.closeGroup b t = .error e) : Fails r s t e := by
  unfold State.closeGroup at h
  split at h
  · split at h
    · cases h
      exact .direct fun _ _ _ => trivial
    · split at h
      · cases h
        refine .direct fun _ _ _ => ?_
        split <;> trivial
      · cases h
  · cases h
    exact .direct fun _ _ _ => trivial

theorem step_fails (h : s.step r t = .error e) : Fails r s t e := by
  unfold State.step at h
  split at h
  · rename_i hk
    exact symbol_fails hk h
  · exact openParameter_fails h
  · exact closeParameter_fails h
  · exact separate_fails h
  · exact divide_fails h
  · exact openGroup_fails h
  · exact closeGroup_fails h
  · unfold State.markTail at h
    split at h <;> cases h
    exact .direct fun _ _ _ => trivial
  · unfold State.markRaw at h
    split at h <;> cases h
    exact .direct fun _ _ _ => trivial
  · exact modify_fails h
  · exact modify_fails h

end

/-! ## Ends that are none -/

/-- The ways in which a grammar cannot end in the state `s`. -/
inductive Stops (s : State) : SyntaxError → Prop
  | identifier {separator : Token} : s.phase = .identifier separator → Stops s ⟨.illegalIdentifier .missing, separator⟩
  | parameter {opener : Token} : s.phase.opener? = some opener → Stops s ⟨.unterminatedParameter, opener⟩
  | bracket {innermost : Opened} {rest : List Opened} : s.opened = innermost :: rest →
      Stops s ⟨.unterminatedExpression (openPath s.level s.opened), innermost.token⟩
  | variant {latest : Variant} {rest : List Variant} : s.level.variants = latest :: rest →
      Stops s ⟨.emptyVariant, latest.divider⟩

theorem finish_stops {s : State} {e : SyntaxError} (h : s.finish = .error e) : Stops s e := by
  unfold State.finish at h
  split at h
  case h_1 hp =>
    cases h
    exact .identifier hp
  case h_2 hp | h_3 hp | h_4 hp | h_5 hp | h_6 hp =>
    -- A parameter that is not closed, however much of it is read.
    cases h
    exact .parameter (by rw [hp]; rfl)
  · split at h
    case h_1 ho =>
      cases h
      exact .bracket ho
    case h_2 =>
      split at h
      case h_1 hv =>
        cases h
        exact .variant hv
      case h_2 => cases h

/-! ## Errors of a grammar -/

/-- The error points at one of the tokens, and the fault is there. -/
structure SyntaxError.Founded (known : Bytes → Bool) (ts : List Token) (e : SyntaxError) : Prop where
  token : e.token ∈ ts
  fault : e.fault.Founded known ts e.token

theorem Fails.founded {read : List Token} {s : State} {t : Token} {e : SyntaxError} (h : Fails r s t e)
    (hr : Reached r read s) (rest : List Token) : e.Founded r.knownType (read ++ t :: rest) := by
  obtain ⟨base, begun, rfl, hs⟩ := hr.remembers
  cases h with
  | direct hf => exact ⟨by simp, hf _ _ _⟩
  | duplicateIdentifier hk hp hm =>
    obtain ⟨u, hu, htext⟩ := hs.names _ hm
    exact ⟨by simp, hk, base ++ begun, rest, rfl, hs.identifier hp, u, hu.append begun, htext⟩
  | duplicateName hn hm =>
    obtain ⟨opener, more, hts, hnext, hk⟩ := hs.name hn
    obtain ⟨u, hu, htext⟩ := hs.names _ hm
    rw [hts]
    exact ⟨by simp, hk, base ++ [opener], more ++ t :: rest, by simp, hnext, u, hu.append [opener], htext⟩
  | undefinedType hp hunknown =>
    have hbegun := hs.begun
    rw [hp] at hbegun
    cases hbegun with
    | typed _ _ _ hk => exact ⟨by simp, hk, hunknown⟩

theorem Stops.founded {ts : List Token} {s : State} {e : SyntaxError} (h : Stops s e) (hr : Reached r ts s)
    (known : Bytes → Bool) : e.Founded known ts := by
  have hopen := hr.unclosed
  have hdividers := hr.dividers
  obtain ⟨base, begun, rfl, hs⟩ := hr.remembers
  cases h with
  | identifier hp =>
    have hbegun := hs.begun
    rw [hp] at hbegun
    cases hbegun
    exact ⟨by simp, trivial⟩
  | parameter ho =>
    obtain ⟨hk, more, rfl⟩ := hs.begun.opener ho
    exact ⟨by simp, hk, base, more, rfl, fun u hu => hs.begun.not_closed u (List.mem_cons_of_mem _ hu)⟩
  | bracket ho =>
    rw [ho, unclosedAround] at hopen
    obtain ⟨hmem, hk⟩ := mem_unclosed (hopen ▸ List.mem_cons_self)
    exact ⟨hmem, _, _, hopen.symm, rfl, hk, by rw [openPath_eq, ho, unclosedAround, hopen]⟩
  | variant hv =>
    refine ⟨hdividers ?_, trivial⟩
    simp [dividersAround, hv]

theorem founded_of_parse {ts : List Token} {e : SyntaxError} (h : parse r ts = .error e) : e.Founded r.knownType ts := by
  rcases parse_error h with ⟨read, t, rest, s, rfl, hr, hs⟩ | ⟨s, hr, hs⟩
  · exact (step_fails hs).founded hr rest
  · exact (finish_stops hs).founded hr r.knownType

/-- Behind its wording the message names the text of the token and its place, or for an unterminated expression the
    brackets and no text. -/
def SyntaxError.Names (w : Wording) (e : SyntaxError) : Prop :=
  (∃ path, e.fault = .unterminatedExpression path ∧
      e.message w = w .unterminatedExpression ++ ascii ": " ++ (ascii " > ").intercalate (path.flatMap OpenGroup.names)) ∨
    ∃ detail, (detail = [] ∨ ∃ why : IdentifierFault, detail = ascii ", " ++ why.text) ∧
      e.message w = w e.fault.kind ++ ascii ": " ++ e.token.text.quoted ++ ascii " at " ++ decimal e.location ++ detail

/-- The error is placed in the grammar, and a text that its message names is the one that stands there. -/
structure SyntaxError.Located (w : Wording) (grammar : Bytes) (e : SyntaxError) : Prop where
  inside : e.location < grammar.length
  text : e.token.text = grammar.slice e.location e.token.stop
  message : e.Names w

theorem message_names (w : Wording) (e : SyntaxError) : e.Names w := by
  obtain ⟨fault, token⟩ := e
  cases fault with
  | unterminatedExpression path =>
    refine .inl ⟨path, rfl, ?_⟩
    simp [SyntaxError.message, Fault.kind]
  | illegalIdentifier why =>
    refine .inr ⟨_, .inr ⟨why, rfl⟩, ?_⟩
    simp [SyntaxError.message, SyntaxError.place]
  | _ =>
    refine .inr ⟨[], .inl rfl, ?_⟩
    simp [SyntaxError.message, SyntaxError.place]

theorem located_of_mem {cfg : Config} {grammar : Bytes} {e : SyntaxError} (h : e.token ∈ tokens cfg.specials grammar) :
    e.Located cfg.wording grammar := by
  have hpieces : Partition grammar ((tokens cfg.specials grammar).map Token.piece) :=
    (scan_pieces grammar { start := 0 }).partition
  have hmem : e.token.piece ∈ (tokens cfg.specials grammar).map Token.piece := List.mem_map_of_mem h
  obtain ⟨hstart, hstop⟩ := hpieces.spans _ hmem
  exact ⟨Nat.lt_of_lt_of_le hstart hstop, hpieces.slices _ hmem, message_names _ _⟩

/-- A grammar that does not compile is reported at one of its tokens. An expression is unterminated at the innermost
    bracket that is open, a parameter at its opening mark; a duplicate symbol is the name of something before, and an
    undefined type is not known. -/
theorem compile_error (cfg : Config) (known : Bytes → Bool) {grammar : Bytes} {e : SyntaxError}
    (h : compile cfg known grammar = .error e) :
    e.Located cfg.wording grammar ∧ e.Founded known (tokens cfg.specials grammar) := by
  have hparse : parse ⟨cfg.caseSensitive, known⟩ (tokens cfg.specials grammar) = .error e := by
    rw [compile_eq_simplify] at h
    cases hp : parse ⟨cfg.caseSensitive, known⟩ (tokens cfg.specials grammar) with
    | error e' =>
      rw [hp] at h
      cases h
      rfl
    | ok items =>
      rw [hp] at h
      cases h
  have hfounded := founded_of_parse hparse
  exact ⟨located_of_mem hfounded.token, hfounded⟩

/-- Brackets that are divided and brackets that are not, open in each other; and an identifier that is used as a name. -/
theorem compile_error_nested :
    (∃ e, compile {} (fun _ => false) (ascii "a (b|[c|\x7bd") = .error e ∧ e.location = 8 ∧
      e.message Wording.standard =
        ascii "Unterminated expression: variant_group > optional_sequence > variant_group > unordered_group" ∧
      e.Located Wording.standard (ascii "a (b|[c|\x7bd") ∧
      e.Founded (fun _ => false) (tokens Specials.standard (ascii "a (b|[c|\x7bd"))) ∧
    ∃ e, compile {} (fun _ => false) (ascii "[a|b]:n <n>") = .error e ∧ e.location = 9 ∧
      e.message Wording.standard = ascii "Symbol used more than once: 'n' at 9" ∧
      e.Located Wording.standard (ascii "[a|b]:n <n>") ∧
      e.Founded (fun _ => false) (tokens Specials.standard (ascii "[a|b]:n <n>")) := by
  have hopen : compile {} (fun _ => false) (ascii "a (b|[c|\x7bd") =
      .error ⟨.unterminatedExpression [⟨.sequence, true⟩, ⟨.optional, true⟩, ⟨.unordered, false⟩],
        ⟨.mark (.opening .unordered), ascii "\x7b", 8⟩⟩ := by
    rfl
  have htwice : compile {} (fun _ => false) (ascii "[a|b]:n <n>") = .error ⟨.duplicateSymbol, ⟨.symbol, ascii "n", 9⟩⟩ := by
    rfl
  exact ⟨⟨_, hopen, rfl, by decide +kernel, compile_error {} _ hopen⟩,
    ⟨_, htwice, rfl, by decide +kernel, compile_error {} _ htwice⟩⟩

end CommandGrammar.Grammar
