/-
  CommandGrammar.Proofs.Grammar.Follows — the invariant of the parser, and what it gives at the end.

  The tokens read so far are those in front of the innermost open bracket, those of the
  level inside it, and those of an item that is not complete (`pending`). The invariant
  `Follows` holds of the first state, every step keeps it (`Moves.follows`), and where
  the grammar may end it gives a derivation of the whole (`root_of_parse`).
-/

import CommandGrammar.Proofs.Grammar.Reads

namespace CommandGrammar.Grammar

variable (r : Reading)

/-! ## The invariant -/

/-- The terminals of an item, or of an identifier, that is not complete. -/
def pending : Phase → List Terminal
  | .between _ => []
  | .parameter _ => [.mark .parameterOpening]
  | .named _ name => [.mark .parameterOpening, .symbol name.text]
  | .awaitingType _ name => [.mark .parameterOpening, .symbol name.text, .mark .separator]
  | .typed _ name type => [.mark .parameterOpening, .symbol name.text, .mark .separator, .symbol type.text]
  | .tail _ name raw => .mark .parameterOpening :: .symbol name.text :: .mark .tail :: rawMark raw
  | .identifier _ => [.mark .separator]

def Phase.inParameter : Phase → Bool
  | .between _ => false
  | .identifier _ => false
  | _ => true

/-- Inside the brackets of an unordered group there are no variants. -/
def Undivided (opened : List Opened) (l : Level) : Prop :=
  ∀ o ∈ opened.head?, o.bracket = .unordered → l.variants = []

/-- The terminals in front of a level: each open bracket, and what its outside holds. -/
inductive Context : List Opened → List Terminal → Prop
  | bottom : Context [] []
  | inside {o : Opened} {rest : List Opened} {before inside : List Terminal} : Context rest before →
      Reads r o.outside inside → o.outside.full = false → Undivided rest o.outside →
      Context (o :: rest) (before ++ inside ++ [.mark (.opening o.bracket)])

def namesBefore : List Opened → List Bytes
  | [] => []
  | o :: rest => namesBefore rest ++ o.outside.names

structure Follows (s : State) (before inside : List Terminal) : Prop where
  context : Context r s.opened before
  level : Reads r s.level inside
  undivided : Undivided s.opened s.level
  names : s.symbols.names.reverse = namesBefore s.opened ++ s.level.names
  /-- A parameter is only begun where there is room for it. -/
  room : s.phase.inParameter = true → s.level.full = false
  /-- An identifier is only begun behind a group that has none. -/
  awaited : ∀ separator, s.phase = .identifier separator →
    ∃ p rest, s.level.children = p :: rest ∧ p.writtenIdentifier? = some none

theorem follows_start : Follows r {} [] [] where
  context := .bottom
  level := .start
  undivided := by intro o ho; cases ho
  names := rfl
  room := by intro h; cases h
  awaited := by intro separator h; cases h

variable {r}

/-! ## Steps -/

theorem itemAdmissible_complete {known : Bytes → Bool} {phase : Phase} {name : Token} {p : Pattern}
    (hc : phase.complete? = some (name, p)) (hty : ∀ type ∈ p.type?, known type = true) : ItemAdmissible known p := by
  unfold Phase.complete? at hc
  split at hc
  all_goals cases hc
  all_goals exact itemAdmissible_leaf rfl hty

theorem item_complete {cs : Bool} {phase : Phase} {name : Token} {p : Pattern} (hc : phase.complete? = some (name, p)) :
    Item cs (pending phase ++ [.mark .parameterClosing]) p ∧ Pattern.namesOf [p] = [name.text] ∧
      phase.inParameter = true := by
  unfold Phase.complete? at hc
  split at hc
  · cases hc
    exact ⟨Item.parameter _ none .absent, rfl, rfl⟩
  · cases hc
    exact ⟨Item.parameter _ (some _) (.present _), rfl, rfl⟩
  · cases hc
    exact ⟨Item.tail _ _, rfl, rfl⟩
  · cases hc

theorem item_modify {cs : Bool} {text : Bytes} {c o : Bool} (m : Modifier) {us : List Terminal}
    (h : Item cs us (.literal text c o)) : Item cs (us ++ [.mark m.mark]) (m.change text c o) := by
  generalize hp : Pattern.literal text c o = p at h
  cases h with
  | literal text' ms =>
    unfold modified at hp
    injection hp with ht hc ho
    subst ht hc ho
    have := @Item.literal cs text (ms ++ [m])
    cases m <;> simpa [modified, Modifier.change, List.contains_eq_mem] using this
  | parameter => cases hp
  | tail => cases hp
  | parenthesized ha _ _ =>
    rcases one_or_two ha.ne_nil with ⟨ps, rfl⟩ | h2
    · simp [parenthesized] at hp
    · simp [parenthesized_of_two _ h2] at hp
  | bracketed ha _ =>
    rcases one_or_two ha.ne_nil with ⟨ps, rfl⟩ | h2
    · simp [bracketed] at hp
    · simp [bracketed_of_two _ h2] at hp
  | braced => cases hp

theorem undivided_add {opened : List Opened} {l : Level} (h : Undivided opened l) (p : Pattern) :
    Undivided opened (l.add p) := h

/-- An item that is complete. -/
theorem Follows.append {s s₁ : State} {before inside us : List Terminal} {p : Pattern} (h : Follows r s before inside)
    (hf : s.level.full = false) (hi : Item r.caseSensitive us p) (hp : ItemAdmissible r.knownType p)
    (hl : s₁.level = s.level) (ho : s₁.opened = s.opened)
    (hn : s₁.symbols.names = (Pattern.namesOf [p]).reverse ++ s.symbols.names) :
    Follows r (s₁.append p) before (inside ++ us) where
  context := by
    show Context r s₁.opened before
    rw [ho]; exact h.context
  level := by
    show Reads r (s₁.level.add p) (inside ++ us)
    rw [hl]; exact .item h.level hf hi hp
  undivided := by
    show Undivided s₁.opened (s₁.level.add p)
    rw [ho, hl]; exact undivided_add h.undivided p
  names := by
    show s₁.symbols.names.reverse = namesBefore s₁.opened ++ (s₁.level.add p).names
    rw [hn, ho, hl, Level.names_add, List.reverse_append, List.reverse_reverse, h.names, List.append_assoc]
  room := by intro h; cases h
  awaited := by intro separator h; cases h

/-- The latest child, changed. -/
theorem Follows.amend {s s₁ : State} {before inside vs : List Terminal} {p p' : Pattern} {rest : List Pattern}
    {ns : List Bytes} (h : Follows r s before inside) (hc : s.level.children = p :: rest)
    (hi : ∀ us, Item r.caseSensitive us p → Item r.caseSensitive (us ++ vs) p')
    (hp : ItemAdmissible r.knownType p → ItemAdmissible r.knownType p')
    (hnames : Pattern.namesOf [p'] = Pattern.namesOf [p] ++ ns)
    (ho : s₁.opened = s.opened) (hn : s₁.symbols.names = ns.reverse ++ s.symbols.names)
    (hl : s₁.level = { s.level with children := p' :: rest }) (hph : s₁.phase = .between true) :
    Follows r s₁ before (inside ++ vs) where
  context := by rw [ho]; exact h.context
  level := by rw [hl]; exact h.level.amend hc hi hp
  undivided := by rw [ho, hl]; exact h.undivided
  names := by
    rw [hn, ho, hl, Level.names_amend hc hnames, List.reverse_append, List.reverse_reverse, h.names, List.append_assoc]
  room := by intro h; rw [hph] at h; cases h
  awaited := by intro separator h; rw [hph] at h; cases h

/-- The same level in another phase. -/
theorem Follows.enter {s : State} {before inside : List Terminal} {phase : Phase} (h : Follows r s before inside)
    (hr : phase.inParameter = true → s.level.full = false)
    (ha : ∀ separator, phase = .identifier separator →
      ∃ p rest, s.level.children = p :: rest ∧ p.writtenIdentifier? = some none) :
    Follows r { s with phase } before inside :=
  ⟨h.context, h.level, h.undivided, h.names, hr, ha⟩

theorem Follows.divide {s : State} {before inside : List Terminal} (t : Token) (h : Follows r s before inside)
    (hb : Divisible s.opened) (hc : s.level.children ≠ []) :
    Follows r { s with level := s.level.divide t, phase := .between false } before (inside ++ [.mark .divider]) where
  context := h.context
  level := .divide t h.level hc
  undivided := fun o ho hu => absurd hu (hb o ho)
  names := by rw [Level.names_divide]; exact h.names
  room := by intro h; cases h
  awaited := by intro separator h; cases h

theorem Follows.openGroup {s : State} {before inside : List Terminal} (b : Bracket) (t : Token)
    (h : Follows r s before inside) (hf : s.level.full = false) :
    Follows r { s with level := {}, opened := ⟨b, t, s.level⟩ :: s.opened, phase := .between false }
      (before ++ inside ++ [.mark (.opening b)]) [] where
  context := .inside h.context h.level hf h.undivided
  level := .start
  undivided := fun o ho hu => rfl
  names := by
    show s.symbols.names.reverse = namesBefore s.opened ++ s.level.names ++ ({} : Level).names
    rw [show ({} : Level).names = [] from rfl, List.append_nil]
    exact h.names
  room := by intro h; cases h
  awaited := by intro separator h; cases h

theorem Follows.closeGroup {s : State} {before inside : List Terminal} {o : Opened} {rest : List Opened}
    (h : Follows r s before inside) (ho : s.opened = o :: rest) (hc : s.level.children ≠ []) :
    ∃ before' inside', Follows r ({ s with level := o.outside, opened := rest }.append (group o.bracket s.level))
        before' inside' ∧
      before' ++ inside' = before ++ inside ++ [.mark (.closing o.bracket)] := by
  have hctx := h.context
  rw [ho] at hctx
  cases hctx with
  | @inside _ _ b₀ i₀ hctx hout hf hu =>
    have hb : o.bracket = .unordered → s.level.variants = [] :=
      h.undivided o (by rw [ho]; rfl)
    have hi := item_group h.level hc hb
    have hnames := h.names
    rw [ho] at hnames
    refine ⟨b₀, i₀ ++ (.mark (.opening o.bracket) :: inside ++ [.mark (.closing o.bracket)]), ?_, by simp⟩
    constructor
    · exact hctx
    · exact .item hout hf hi (admissible_group h.level hb)
    · exact undivided_add hu _
    · show s.symbols.names.reverse = namesBefore rest ++ (o.outside.add (group o.bracket s.level)).names
      rw [Level.names_add, names_group hb, hnames, namesBefore, List.append_assoc]
    · intro h; cases h
    · intro separator h; cases h

/-- Every step keeps the invariant, and the token that was read is the next one. -/
theorem Moves.follows {s s' : State} {t : Token} {before inside : List Terminal} (hm : Moves r s t s')
    (h : Follows r s before inside) :
    ∃ before' inside', Follows r s' before' inside' ∧
      before' ++ inside' ++ pending s'.phase = before ++ inside ++ pending s.phase ++ [t.terminal] := by
  cases hm with
  | literal hk hp hf =>
    have hi : Item r.caseSensitive [.symbol t.text] (.literal t.text r.caseSensitive false) := by
      simpa [modified] using @Item.literal r.caseSensitive t.text []
    refine ⟨before, inside ++ [.symbol t.text], h.append hf hi (itemAdmissible_leaf rfl (by simp [Pattern.type?]))
      rfl rfl rfl, ?_⟩
    simp [State.append, pending, hp, Token.terminal_of_symbol hk]
  | name hk hp =>
    exact ⟨before, inside, h.enter (fun _ => h.room (by rw [hp]; rfl)) (by intro separator h; cases h),
      by simp [pending, hp, Token.terminal_of_symbol hk]⟩
  | type hk hp =>
    exact ⟨before, inside, h.enter (fun _ => h.room (by rw [hp]; rfl)) (by intro separator h; cases h),
      by simp [pending, hp, Token.terminal_of_symbol hk]⟩
  | @identifier separator s₁ hk hp hd =>
    obtain ⟨p, rest, hc, hw⟩ := h.awaited separator hp
    obtain ⟨us, hu⟩ := h.level.latest_item hc
    have hid := hu.identify hw t.text
    obtain ⟨_, hl, ho, _, hn⟩ := declare_eq_ok hd
    refine ⟨before, inside ++ [.mark .separator, .symbol t.text],
      h.amend hc (fun us hu => (hu.identify hw t.text).item) (hid.admissible _) hid.names ho hn ?_ rfl, ?_⟩
    · show s₁.level.amend _ = _
      rw [hl, Level.amend, hc]
    · simp [pending, hp, Token.terminal_of_symbol hk]
  | openParameter hk hp hf =>
    exact ⟨before, inside, h.enter (fun _ => hf) (by intro separator h; cases h),
      by simp [pending, hp, Token.terminal_of_mark hk]⟩
  | @closeParameter name p s₁ hk hc hd hty =>
    obtain ⟨hi, hnames, hin⟩ := @item_complete r.caseSensitive _ _ _ hc
    obtain ⟨_, hl, ho, _, hn⟩ := declare_eq_ok hd
    refine ⟨before, inside ++ (pending s.phase ++ [.mark .parameterClosing]),
      h.append (h.room hin) hi (itemAdmissible_complete hc hty) hl ho (by rw [hnames, hn]; rfl), ?_⟩
    simp [State.append, pending, Token.terminal_of_mark hk]
  | awaitType hk hp =>
    exact ⟨before, inside, h.enter (fun _ => h.room (by rw [hp]; rfl)) (by intro separator h; cases h),
      by simp [pending, hp, Token.terminal_of_mark hk]⟩
  | @awaitIdentifier p rest hk hp hc hw =>
    exact ⟨before, inside, h.enter (by intro h; cases h) (fun _ _ => ⟨p, rest, hc, hw⟩),
      by simp [pending, hp, Token.terminal_of_mark hk]⟩
  | markTail hk hp =>
    exact ⟨before, inside, h.enter (fun _ => h.room (by rw [hp]; rfl)) (by intro separator h; cases h),
      by simp [pending, hp, rawMark, Token.terminal_of_mark hk]⟩
  | markRaw hk hp =>
    exact ⟨before, inside, h.enter (fun _ => h.room (by rw [hp]; rfl)) (by intro separator h; cases h),
      by simp [pending, hp, rawMark, Token.terminal_of_mark hk]⟩
  | @modify m text c o rest hk hp hc =>
    have hnames : Pattern.namesOf [m.change text c o] = Pattern.namesOf [.literal text c o] ++ [] := by cases m <;> rfl
    refine ⟨before, inside ++ [.mark m.mark],
      h.amend hc (fun us hu => item_modify m hu) (fun _ => ?_) hnames rfl rfl rfl hp, ?_⟩
    · cases m <;> exact itemAdmissible_leaf rfl (by simp [Modifier.change, Pattern.type?])
    · simp [pending, hp, Token.terminal_of_mark hk]
  | divide hk hp hb hc =>
    exact ⟨before, inside ++ [.mark .divider], h.divide t hb hc, by simp [pending, hp, Token.terminal_of_mark hk]⟩
  | @openGroup b _ hk hp hf =>
    exact ⟨before ++ inside ++ [.mark (.opening b)], [], h.openGroup b t hf,
      by simp [pending, hp, Token.terminal_of_mark hk]⟩
  | @closeGroup o rest _ hk hp ho hc =>
    obtain ⟨before', inside', hf, he⟩ := h.closeGroup ho hc
    exact ⟨before', inside', hf, by simp [State.append, pending, hp, Token.terminal_of_mark hk, he]⟩

theorem run_follows {ts : List Token} {s s' : State} {before inside : List Terminal} (h : Follows r s before inside)
    (hr : ts.foldlM (State.step r) s = .ok s') :
    ∃ before' inside', Follows r s' before' inside' ∧
      before' ++ inside' ++ pending s'.phase = before ++ inside ++ pending s.phase ++ ts.map Token.terminal := by
  induction ts generalizing s before inside with
  | nil =>
    cases hr
    exact ⟨before, inside, h, by simp⟩
  | cons t ts ih =>
    rw [List.foldlM_cons] at hr
    obtain ⟨s₁, h₁, hr⟩ := bind_eq_ok.mp hr
    obtain ⟨b₁, i₁, hf₁, he₁⟩ := (step_eq_ok.mp h₁).follows h
    obtain ⟨b₂, i₂, hf₂, he₂⟩ := ih hf₁ hr
    exact ⟨b₂, i₂, hf₂, by simp [he₂, he₁]⟩

/-! ## The end -/

theorem finish_eq_ok {s : State} {items : List Pattern} (h : s.finish = .ok items) :
    (∃ fresh, s.phase = .between fresh) ∧ s.opened = [] ∧ items = s.level.contents ∧
      (s.level.children = [] → s.level.variants = []) := by
  unfold State.finish at h
  split at h
  · cases h
  · cases h
  · cases h
  · cases h
  · cases h
  · cases h
  · rename_i fresh hp
    split at h
    · cases h
    · rename_i ho
      split at h
      · cases h
      · rename_i hne
        cases h
        refine ⟨⟨fresh, hp⟩, ho, rfl, fun hc => ?_⟩
        cases hv : s.level.variants with
        | nil => rfl
        | cons latest rest => exact absurd hv (hne latest rest hc)

/-- The items that are returned are described by a derivation of the tokens, and keep to the other rules. -/
theorem root_of_parse {ts : List Token} {items : List Pattern} (h : parse r ts = .ok items) :
    Root r.caseSensitive (ts.map Token.terminal) items ∧ Admissible r.knownType items := by
  obtain ⟨s, hr, hfin⟩ := bind_eq_ok.mp h
  obtain ⟨before, inside, hf, he⟩ := run_follows (follows_start r) hr
  obtain ⟨⟨fresh, hp⟩, ho, rfl, hempty⟩ := finish_eq_ok hfin
  have hnames := hf.names
  have hctx := hf.context
  rw [ho] at hnames hctx
  cases hctx
  have hts : ts.map Token.terminal = inside := by simpa [hp, pending] using he.symm
  have hnodup : (Pattern.namesOf s.level.contents).Nodup := by
    have hne : s.level.alternatives ≠ [] := by rw [s.level.alternatives_eq]; simp
    rw [s.level.contents_eq, namesOf_unbracketed _ hne]
    have hrev : s.level.names = s.symbols.names.reverse := by simpa [namesBefore] using hnames.symm
    show s.level.names.Nodup
    rw [hrev]
    exact (List.reverse_perm _).nodup_iff.mpr s.symbols.nodup
  have hadm := hf.level.admissible
  by_cases hc : s.level.children = []
  · have hv := hempty hc
    have hnil := hf.level.eq_nil hc hv
    have hcont : s.level.contents = [] := by simp [Level.contents, hv, hc]
    rw [hts, hnil, hcont]
    refine ⟨.empty, List.nodup_nil, ?_⟩
    exact itemAdmissible_sequence.mpr alternativesAdmissible_nil
  · rw [hts, s.level.contents_eq]
    refine ⟨.alternatives (hf.level.derives hc), by rw [← s.level.contents_eq]; exact hnodup, ?_⟩
    refine itemAdmissible_sequence.mpr ?_
    rcases one_or_two (hf.level.derives hc).ne_nil with ⟨ps, hps⟩ | h2
    · rw [hps] at hadm ⊢
      exact hadm
    · rw [unbracketed_of_two h2, alternativesAdmissible_single]
      exact itemAdmissible_variants.mpr hadm

end CommandGrammar.Grammar
