/-
  CommandGrammar.Proofs.Grammar.Remembered — what the parser remembers of the tokens.

  Inside a parameter the parser remembers the opening mark, the name and the type, behind
  a separator the separator, and all along the names in use. In every reached state these
  tokens stand where they are taken to stand: the name behind the opening mark, the
  separator of an identifier behind a closing bracket, and each name in use in front of
  what is being read (`Reached.remembers`).
-/

import CommandGrammar.Proofs.Grammar.Follows
import CommandGrammar.Proofs.Grammar.Reached

namespace CommandGrammar.Grammar

variable {r : Reading}

/-! ## Names in the tokens -/

/-- What comes next is a name: the tokens end in the opening mark of a parameter, or in the separator behind a bracket. -/
inductive NameNext : List Token → Prop
  | parameter {before : List Token} {opener : Token} : opener.kind = .mark .parameterOpening → NameNext (before ++ [opener])
  | identifier {before : List Token} {b : Bracket} {closing separator : Token} : closing.kind = .mark (.closing b) →
      separator.kind = .mark .separator → NameNext (before ++ [closing, separator])

/-- Among the tokens, the symbol stands as the name of a parameter or tail, or as an identifier. -/
def Declares (ts : List Token) (name : Token) : Prop :=
  name.kind = .symbol ∧ ∃ before after, ts = before ++ name :: after ∧ NameNext before

theorem Declares.append {ts : List Token} {name : Token} (h : Declares ts name) (us : List Token) :
    Declares (ts ++ us) name := by
  obtain ⟨hk, before, after, rfl, hnext⟩ := h
  exact ⟨hk, before, after ++ us, by simp, hnext⟩

/-! ## Items that are not complete -/

def Phase.opener? : Phase → Option Token
  | .parameter opener => some opener
  | .named opener _ => some opener
  | .awaitingType opener _ => some opener
  | .typed opener _ _ => some opener
  | .tail opener _ _ => some opener
  | _ => none

def Phase.name? : Phase → Option Token
  | .named _ name => some name
  | .awaitingType _ name => some name
  | .typed _ name _ => some name
  | .tail _ name _ => some name
  | _ => none

/-- The tokens of an item, or of an identifier, that is not complete. -/
inductive Begun : Phase → List Token → Prop
  | between (fresh : Bool) : Begun (.between fresh) []
  | identifier {separator : Token} : separator.kind = .mark .separator → Begun (.identifier separator) [separator]
  | parameter {opener : Token} : opener.kind = .mark .parameterOpening → Begun (.parameter opener) [opener]
  | named {opener name : Token} : opener.kind = .mark .parameterOpening → name.kind = .symbol →
      Begun (.named opener name) [opener, name]
  | awaitingType {opener name separator : Token} : opener.kind = .mark .parameterOpening → name.kind = .symbol →
      separator.kind = .mark .separator → Begun (.awaitingType opener name) [opener, name, separator]
  | typed {opener name separator type : Token} : opener.kind = .mark .parameterOpening → name.kind = .symbol →
      separator.kind = .mark .separator → type.kind = .symbol → Begun (.typed opener name type) [opener, name, separator, type]
  | tail {opener name mark : Token} : opener.kind = .mark .parameterOpening → name.kind = .symbol →
      mark.kind = .mark .tail → Begun (.tail opener name false) [opener, name, mark]
  | raw {opener name mark rawMark : Token} : opener.kind = .mark .parameterOpening → name.kind = .symbol →
      mark.kind = .mark .tail → rawMark.kind = .mark .raw → Begun (.tail opener name true) [opener, name, mark, rawMark]

namespace Begun

variable {phase : Phase} {ts : List Token}

theorem not_closed (h : Begun phase ts) : ∀ t ∈ ts, t.kind ≠ .mark .parameterClosing := by
  cases h <;> simp [*]

theorem opener (h : Begun phase ts) {opener : Token} (ho : phase.opener? = some opener) :
    opener.kind = .mark .parameterOpening ∧ ∃ rest, ts = opener :: rest := by
  cases h <;> cases ho <;> exact ⟨‹_›, _, rfl⟩

theorem name (h : Begun phase ts) {name : Token} (hn : phase.name? = some name) :
    ∃ opener rest, ts = opener :: name :: rest ∧ opener.kind = .mark .parameterOpening ∧ name.kind = .symbol := by
  cases h <;> cases hn <;> exact ⟨_, _, rfl, ‹_›, ‹_›⟩

end Begun

/-! ## The invariant -/

/-- The latest item waits for an identifier, or may still be given one. -/
def State.Identifiable (s : State) : Prop :=
  (∃ separator, s.phase = .identifier separator) ∨
    s.phase = .between true ∧ ∃ p rest, s.level.children = p :: rest ∧ p.writtenIdentifier? = some none

/-- Behind the complete items in `base` the tokens of one that is not complete are `begun`. The names in use are those
    of complete items, and only a bracket can be given an identifier. -/
structure Remembered (s : State) (base begun : List Token) : Prop where
  begun : Begun s.phase begun
  names : ∀ n ∈ s.symbols.names, ∃ u, Declares base u ∧ u.text = n
  bracket : s.Identifiable → ∃ before closing b, base = before ++ [closing] ∧ closing.kind = .mark (.closing b)

/-- What the parser remembers is found in the tokens. -/
def Remembers (s : State) (ts : List Token) : Prop :=
  ∃ base begun, base ++ begun = ts ∧ Remembered s base begun

theorem remembers_start : Remembers {} [] := by
  refine ⟨[], [], rfl, .between false, List.forall_mem_nil _, ?_⟩
  rintro (⟨_, h⟩ | ⟨h, _⟩) <;> cases h

namespace Remembered

variable {s : State} {base begun : List Token} {t : Token}

/-- A token of a parameter that is not complete by it. -/
theorem enter {phase : Phase} (h : Remembered s base begun) (hin : phase.inParameter = true)
    (hb : Begun phase (begun ++ [t])) : Remembers { s with phase } (base ++ begun ++ [t]) := by
  refine ⟨base, begun ++ [t], (List.append_assoc _ _ _).symm, hb, h.names, ?_⟩
  rintro (⟨_, hp⟩ | ⟨hp, _⟩) <;> cases hp <;> cases hin

/-- A token that completes what has been begun. -/
theorem complete {s' : State} {fresh : Bool} (h : Remembered s base begun) (hp : s'.phase = .between fresh)
    (hn : ∀ n ∈ s'.symbols.names, n ∈ s.symbols.names ∨ ∃ u, Declares (base ++ begun ++ [t]) u ∧ u.text = n)
    (hb : s'.Identifiable → ∃ b, t.kind = .mark (.closing b)) : Remembers s' (base ++ begun ++ [t]) := by
  refine ⟨base ++ begun ++ [t], [], List.append_nil _, hp ▸ .between fresh, fun n hmem => ?_, fun hs => ?_⟩
  · rcases hn n hmem with hold | hnew
    · obtain ⟨u, hu, htext⟩ := h.names n hold
      rw [List.append_assoc]
      exact ⟨u, hu.append _, htext⟩
    · exact hnew
  · obtain ⟨b, hk⟩ := hb hs
    exact ⟨base ++ begun, t, b, rfl, hk⟩

/-- The name that is remembered stands behind the opening mark of a parameter, and that behind the complete items. -/
theorem name (h : Remembered s base begun) {name : Token} (hn : s.phase.name? = some name) :
    ∃ opener rest, base ++ begun = base ++ [opener] ++ name :: rest ∧ NameNext (base ++ [opener]) ∧ name.kind = .symbol := by
  obtain ⟨opener, rest, hbegun, hopener, hk⟩ := h.begun.name hn
  exact ⟨opener, rest, by simp [hbegun], .parameter hopener, hk⟩

/-- The symbol behind the separator of an identifier stands behind a bracket, too. -/
theorem identifier (h : Remembered s base begun) {separator : Token} (hp : s.phase = .identifier separator) :
    NameNext (base ++ begun) := by
  obtain ⟨before, closing, b, rfl, hclosing⟩ := h.bracket (.inl ⟨separator, hp⟩)
  have hbegun := h.begun
  rw [hp] at hbegun
  cases hbegun with
  | identifier hk =>
    rw [List.append_assoc]
    exact .identifier hclosing hk

end Remembered

/-! ## Items that cannot be given an identifier -/

/-- Whatever can be given an identifier has one afterwards. -/
theorem writtenIdentifier_identify (id : Bytes) (p : Pattern) : (p.identify id).writtenIdentifier? ≠ some none := by
  unfold Pattern.identify
  split
  · simp [Pattern.writtenIdentifier?, Pattern.inherited?]
  · simp [Pattern.writtenIdentifier?]
  · simp [Pattern.writtenIdentifier?]
  · simp [Pattern.writtenIdentifier?]
  · rename_i hoptional hvariants hunordered
    cases p with
    | optional cs own => exact absurd rfl (hoptional cs own)
    | variants as own inherited parenthesized => exact absurd rfl (hvariants as own inherited parenthesized)
    | unordered cs own => exact absurd rfl (hunordered cs own)
    | _ => simp [Pattern.writtenIdentifier?]

theorem amend_children {l : Level} {f : Pattern → Pattern} {p : Pattern} {rest : List Pattern}
    (h : (l.amend f).children = p :: rest) : ∃ q, p = f q := by
  unfold Level.amend at h
  split at h
  · rename_i hc
    rw [hc] at h
    cases h
  · cases h
    exact ⟨_, rfl⟩

theorem not_identifiable_of_latest {s : State} (hp : ∀ separator, s.phase ≠ .identifier separator)
    (hc : ∀ p rest, s.level.children = p :: rest → p.writtenIdentifier? ≠ some none) : ¬ s.Identifiable := by
  rintro (⟨separator, h⟩ | ⟨_, p, rest, hchildren, hw⟩)
  · exact hp separator h
  · exact hc p rest hchildren hw

theorem not_identifiable_append {s : State} {p : Pattern} (hp : p.writtenIdentifier? ≠ some none) :
    ¬ (s.append p).Identifiable := by
  refine not_identifiable_of_latest (fun _ h => by cases h) fun q rest hc => ?_
  cases hc
  exact hp

theorem not_identifiable_between {s : State} (hp : s.phase = .between false) : ¬ s.Identifiable := by
  rintro (⟨_, h⟩ | ⟨h, _⟩) <;> rw [hp] at h <;> cases h

theorem name_of_complete {phase : Phase} {name : Token} {p : Pattern} (h : phase.complete? = some (name, p)) :
    phase.name? = some name ∧ p.writtenIdentifier? = none := by
  cases phase <;> cases h <;> exact ⟨rfl, rfl⟩

/-! ## Steps -/

/-- Every step keeps what is remembered. -/
theorem Moves.remembers {s s' : State} {t : Token} {ts : List Token} (hm : Moves r s t s') (h : Remembers s ts) :
    Remembers s' (ts ++ [t]) := by
  obtain ⟨base, begun, rfl, h⟩ := h
  have hbegun := h.begun
  cases hm with
  | literal hk hp hf =>
    refine h.complete rfl (fun n hn => .inl hn) fun hs => ?_
    exact absurd hs (not_identifiable_append (by simp [Pattern.writtenIdentifier?]))
  | name hk hp =>
    rw [hp] at hbegun
    cases hbegun with
    | parameter ho => exact h.enter rfl (.named ho hk)
  | type hk hp =>
    rw [hp] at hbegun
    cases hbegun with
    | awaitingType ho hn hc => exact h.enter rfl (.typed ho hn hc hk)
  | @identifier separator s₁ hk hp hd =>
    obtain ⟨_, _, _, _, hnames⟩ := declare_eq_ok hd
    refine h.complete rfl (fun n hn => ?_) fun hs => absurd hs (not_identifiable_of_latest (fun _ h => by cases h) ?_)
    · rw [hnames] at hn
      rcases List.mem_cons.mp hn with rfl | hn
      · exact .inr ⟨t, ⟨hk, base ++ begun, [], rfl, h.identifier hp⟩, rfl⟩
      · exact .inl hn
    · intro p rest hc
      obtain ⟨q, rfl⟩ := amend_children hc
      exact writtenIdentifier_identify t.text q
  | openParameter hk hp hf =>
    rw [hp] at hbegun
    cases hbegun
    exact h.enter rfl (.parameter hk)
  | @closeParameter name p s₁ hk hc hd =>
    obtain ⟨_, _, _, _, hnames⟩ := declare_eq_ok hd
    obtain ⟨hname, hw⟩ := name_of_complete hc
    refine h.complete rfl (fun n hn => ?_) fun hs => absurd hs (not_identifiable_append (by simp [hw]))
    rw [State.append, hnames] at hn
    rcases List.mem_cons.mp hn with rfl | hn
    · obtain ⟨opener, rest, hts, hnext, hsymbol⟩ := h.name hname
      rw [hts]
      exact .inr ⟨name, Declares.append ⟨hsymbol, _, rest, rfl, hnext⟩ _, rfl⟩
    · exact .inl hn
  | awaitType hk hp =>
    rw [hp] at hbegun
    cases hbegun with
    | named ho hn => exact h.enter rfl (.awaitingType ho hn hk)
  | awaitIdentifier hk hp hc hw =>
    rw [hp] at hbegun
    cases hbegun
    refine ⟨base, [t], by simp, .identifier hk, h.names, fun _ => h.bracket (.inr ⟨hp, _, _, hc, hw⟩)⟩
  | markTail hk hp =>
    rw [hp] at hbegun
    cases hbegun with
    | named ho hn => exact h.enter rfl (.tail ho hn hk)
  | markRaw hk hp =>
    rw [hp] at hbegun
    cases hbegun with
    | tail ho hn hm => exact h.enter rfl (.raw ho hn hm hk)
  | @modify m _ _ _ _ hk hp hc =>
    refine h.complete hp (fun n hn => .inl hn) fun hs => absurd hs (not_identifiable_of_latest ?_ ?_)
    · intro separator hi
      rw [show s.phase = _ from hi] at hp
      cases hp
    · intro p rest hc
      cases hc
      cases m <;> simp [Modifier.change, Pattern.writtenIdentifier?]
  | divide hk hp => exact h.complete rfl (fun n hn => .inl hn) fun hs => absurd hs (not_identifiable_between rfl)
  | openGroup hk hp => exact h.complete rfl (fun n hn => .inl hn) fun hs => absurd hs (not_identifiable_between rfl)
  | closeGroup hk hp ho hc => exact h.complete rfl (fun n hn => .inl hn) fun _ => ⟨_, hk⟩

theorem Reached.remembers {ts : List Token} {s : State} (h : Reached r ts s) : Remembers s ts := by
  induction h with
  | start => exact remembers_start
  | step _ hm ih => exact hm.remembers ih

end CommandGrammar.Grammar
