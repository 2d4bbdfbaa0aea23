/-
  CommandGrammar.Proofs.Grammar.Mirrors — a machine with registers reads tokens as the parser does.

  A machine mirrors a state of the parser if its stack holds the level and those around
  it, and its registers hold at least what the phase holds (`Mirrors`). From there both
  read a token in the same way, or reject it with the same error (`Mirrors.step`), and both
  end the grammar in the same way (`Holds.finish`). The machine relies on what the parser
  keeps to in the states that it can reach (`Ready`).
-/

import CommandGrammar.Proofs.Grammar.Registers
import CommandGrammar.Proofs.Grammar.Remembered
import CommandGrammar.Proofs.Pattern.Formed

namespace CommandGrammar.Grammar

variable {r : Reading}

/-! ## Stacks -/

def frameOf (scope : Scope) (l : Level) : Frame where
  scope
  children := l.children.reverse
  choice :=
    if l.variants.isEmpty then none
    else some ⟨(l.variants.map (·.children)).reverse, scope.bracket? == some .sequence⟩
  tailClosed := l.full

/-- The scope inside the innermost bracket. -/
def scopeOf : List Opened → Scope
  | [] => .root
  | o :: _ => .group o.bracket o.token

/-- The frames around the innermost bracket. -/
def outerFrames : List Opened → List Frame
  | [] => []
  | o :: rest => frameOf (scopeOf rest) o.outside :: outerFrames rest

theorem length_outerFrames (os : List Opened) : (outerFrames os).length = os.length := by
  induction os with
  | nil => rfl
  | cons o rest ih => rw [outerFrames, List.length_cons, ih, List.length_cons]

def Phase.mode : Phase → Mode
  | .between _ => .normal
  | .parameter _ => .beforeName
  | .named _ _ => .afterName
  | .awaitingType _ _ => .beforeType
  | .typed _ _ _ => .afterType
  | .tail _ _ false => .afterTail
  | .tail _ _ true => .afterRawTail
  | .identifier _ => .beforeIdentifier

def Phase.type? : Phase → Option Token
  | .typed _ _ type => some type
  | _ => none

/-- The place on the stack of the child that a modifier or an identifier applies to. -/
def State.place? (s : State) : Option Place :=
  match s.phase with
  | .between true => some ⟨s.opened.length, s.level.children.length - 1⟩
  | .identifier _ => some ⟨s.opened.length, s.level.children.length - 1⟩
  | _ => none

/-- The machine holds what the state holds. Registers that the phase does not need may hold anything. -/
structure Holds (m : Machine) (s : State) : Prop where
  frames : m.frames = frameOf (scopeOf s.opened) s.level :: outerFrames s.opened
  mode : m.mode = s.phase.mode
  opener : ∀ t ∈ s.phase.opener?, m.opener = some t
  name : ∀ t ∈ s.phase.name?, m.name = some t
  type : s.phase.inParameter = true → m.type = s.phase.type?
  separator : ∀ t, s.phase = .identifier t → m.separator = some t
  symbols : m.symbols = s.symbols

/-- The machine also knows which node is the latest, where that matters. -/
structure Mirrors (m : Machine) (s : State) : Prop extends Holds m s where
  last : m.last = s.place?

theorem mirrors_start : Mirrors {} {} where
  frames := rfl
  mode := rfl
  opener := by intro t ht; cases ht
  name := by intro t ht; cases ht
  type := by intro h; cases h
  separator := by intro t h; cases h
  symbols := rfl
  last := rfl

/-- The same outcome of a step on both sides. -/
inductive Agree : Except Stop Machine → Except SyntaxError State → Prop
  | ok {m : Machine} {s : State} : Mirrors m s → Agree (.ok m) (.ok s)
  | fault (e : SyntaxError) : Agree (.error (.fault e)) (.error e)

/-! ## Nodes -/

theorem set_concat {α : Type} (l : List α) (x y : α) : (l ++ [x]).set l.length y = l ++ [y] := by
  rw [List.set_append_right _ _ (Nat.le_refl _), Nat.sub_self, List.set_cons_zero]

theorem modify_concat {α : Type} (l : List α) (x : α) (f : α → α) : (l ++ [x]).modify l.length f = l ++ [f x] := by
  rw [List.modify_eq_set_getElem?, List.getElem?_concat_length]
  exact set_concat l x (f x)

theorem frameOf_amend (scope : Scope) {l : Level} {p q : Pattern} {rest : List Pattern} (hc : l.children = p :: rest)
    (hq : q.endsInTail = p.endsInTail) :
    frameOf scope { l with children := q :: rest } =
      { frameOf scope l with children := (frameOf scope l).children.set (l.children.length - 1) q } := by
  have hchildren : (q :: rest).reverse = l.children.reverse.set (l.children.length - 1) q := by
    rw [hc, List.reverse_cons, List.reverse_cons, List.length_cons, Nat.add_sub_cancel, ← List.length_reverse, set_concat]
  have hfull : ({ l with children := q :: rest } : Level).full = l.full := by
    simp only [Level.full, hc, hq]
  rw [frameOf, hfull, hchildren]
  rfl

section

variable {m : Machine} {s : State} {p : Pattern} {rest : List Pattern}

theorem node_latest (hframes : m.frames = frameOf (scopeOf s.opened) s.level :: outerFrames s.opened)
    (hc : s.level.children = p :: rest) : m.node ⟨s.opened.length, s.level.children.length - 1⟩ = .ok p := by
  have htop : m.frames.reverse[s.opened.length]? = some (frameOf (scopeOf s.opened) s.level) := by
    rw [hframes, List.reverse_cons, ← length_outerFrames, ← List.length_reverse, List.getElem?_concat_length]
  have hchild : (frameOf (scopeOf s.opened) s.level).children[s.level.children.length - 1]? = some p := by
    rw [frameOf, hc, List.reverse_cons, List.length_cons, Nat.add_sub_cancel, ← List.length_reverse,
      List.getElem?_concat_length]
  simp only [Machine.node, htop, held, hchild, bind, Except.bind]

theorem write_latest (hframes : m.frames = frameOf (scopeOf s.opened) s.level :: outerFrames s.opened)
    (hc : s.level.children = p :: rest) {q : Pattern} (hq : q.endsInTail = p.endsInTail) :
    (m.write ⟨s.opened.length, s.level.children.length - 1⟩ q).frames =
      frameOf (scopeOf s.opened) { s.level with children := q :: rest } :: outerFrames s.opened := by
  rw [Machine.write, hframes, List.reverse_cons, ← length_outerFrames, ← List.length_reverse, modify_concat,
    List.reverse_concat, List.reverse_reverse, frameOf_amend _ hc hq]

end

theorem endsInTail_identify (id : Bytes) (p : Pattern) : (p.identify id).endsInTail = p.endsInTail := by
  unfold Pattern.identify
  split <;> rfl

/-! ## Children -/

theorem frameOf_divide (scope : Scope) (l : Level) (t : Token) : (frameOf scope l).divide = frameOf scope (l.divide t) := by
  unfold Frame.divide frameOf Level.divide
  cases l.variants <;> simp [Level.full]

theorem frameOf_add (scope : Scope) {l : Level} (hl : l.full = false) {p : Pattern} (hp : p.endsInTail = false) :
    { frameOf scope l with children := (frameOf scope l).children ++ [p] } = frameOf scope (l.add p) := by
  have hfull : l.full = (l.add p).full := by rw [hl, ← hp]; rfl
  rw [frameOf, frameOf, hfull, Level.add, List.reverse_cons]

theorem frameOf_addTail (scope : Scope) (l : Level) {p : Pattern} (hp : p.endsInTail = true) :
    { frameOf scope l with children := (frameOf scope l).children ++ [p], tailClosed := true } = frameOf scope (l.add p) := by
  have hfull : true = (l.add p).full := by rw [← hp]; rfl
  rw [frameOf, frameOf, hfull, Level.add, List.reverse_cons]

theorem lastEndsInTail_reverse (l : Level) : Pattern.lastEndsInTail l.children.reverse = l.full := by
  unfold Level.full
  cases l.children with
  | nil => rfl
  | cons p rest => rw [List.reverse_cons, Pattern.lastEndsInTail_concat]

/-- A tail is the end of the group that it is in, unless the group is optional or has variants. -/
theorem endsInTail_group (b : Bracket) (l : Level) :
    (group b l).endsInTail = (l.full && b != .optional && l.variants.isEmpty) := by
  rw [← lastEndsInTail_reverse]
  cases b <;> cases hv : l.variants <;>
    simp [group, Level.contents, hv, Pattern.endsInTail, Pattern.lastEndsInTail]

section

variable {scope : Scope} {l : Level} {t : Token}

theorem collect_empty (hc : l.children = []) :
    (frameOf scope l).collect t = if l.variants.isEmpty then .ok [] else reject t .emptyVariant := by
  cases hv : l.variants <;> simp [Frame.collect, frameOf, hc, hv]

/-- What a scope holds that is not empty. -/
def contentsOf (scope : Scope) (l : Level) : List Pattern :=
  if l.variants.isEmpty then l.children.reverse
  else [.variants l.alternatives none false (scope.bracket? == some .sequence)]

theorem collect_filled (hc : l.children ≠ []) : (frameOf scope l).collect t = .ok (contentsOf scope l) := by
  cases hv : l.variants <;> simp [Frame.collect, frameOf, contentsOf, hc, hv, Level.alternatives]

theorem isEmpty_contentsOf (hc : l.children ≠ []) : (contentsOf scope l).isEmpty = false := by
  unfold contentsOf
  split <;> simp [hc]

theorem closed_contentsOf (b : Bracket) (opening : Token) (l : Level) :
    (frameOf (.group b opening) l).closed b (contentsOf (.group b opening) l) = .ok (group b l) := by
  cases b <;> cases hv : l.variants <;>
    simp [Frame.closed, frameOf, contentsOf, hv, group, Level.contents, Scope.bracket?, held]

end

section

variable {m : Machine} {scope : Scope} {l : Level} {outer : List Frame} {p : Pattern}

theorem append_eq (hframes : m.frames = frameOf scope l :: outer) (p : Pattern) :
    m.append p = .ok { m with
      frames := { frameOf scope l with children := (frameOf scope l).children ++ [p] } :: outer
      last := some ⟨outer.length, l.children.length⟩ } := by
  rw [Machine.append, hframes]
  simp only [frameOf, List.length_reverse]

/-- A new child that leaves the scope open. -/
theorem append_open (hframes : m.frames = frameOf scope l :: outer) (hl : l.full = false) (hp : p.endsInTail = false) :
    m.append p = .ok { m with
      frames := frameOf scope (l.add p) :: outer
      last := some ⟨outer.length, l.children.length⟩ } := by
  rw [append_eq hframes, frameOf_add scope hl hp]

/-- A new child that closes the scope. -/
theorem append_closing {α : Type} (hframes : m.frames = frameOf scope l :: outer) (hp : p.endsInTail = true)
    (k : Machine → Except Stop α) :
    (m.append p >>= fun m => (m.onTop fun f => { f with tailClosed := true }) >>= k) = k { m with
      frames := frameOf scope (l.add p) :: outer
      last := some ⟨outer.length, l.children.length⟩ } := by
  rw [append_eq hframes, ← frameOf_addTail scope l hp]
  rfl

end

/-- Between items no register but that of the latest node matters. -/
theorem mirrors_between {m : Machine} {s : State} {fresh : Bool} (hp : s.phase = .between fresh)
    (hframes : m.frames = frameOf (scopeOf s.opened) s.level :: outerFrames s.opened) (hmode : m.mode = .normal)
    (hlast : m.last = s.place?) (hsymbols : m.symbols = s.symbols) : Mirrors m s where
  frames := hframes
  mode := by rw [hmode, hp]; rfl
  opener := by rw [hp]; intro t ht; cases ht
  name := by rw [hp]; intro t ht; cases ht
  type := by rw [hp]; intro h; cases h
  separator := by rw [hp]; intro t h; cases h
  last := hlast
  symbols := hsymbols

/-! ## One token -/

/-- What the parser keeps to in the states that it can reach, as far as the machine relies on it. -/
structure Ready (s : State) : Prop where
  room : s.phase.inParameter = true → s.level.full = false
  latest : s.phase = .between true → s.level.children ≠ []
  awaited : ∀ separator, s.phase = .identifier separator →
    ∃ p rest, s.level.children = p :: rest ∧ p.writtenIdentifier? = some none
  outside : ∀ o ∈ s.opened, o.outside.full = false

section

variable {m : Machine} {s : State} {t : Token}

/-- A name that is in use is refused on both sides. -/
theorem declare_agrees (h : m.symbols = s.symbols) (name : Token) {f : Machine → Except Stop Machine}
    {g : State → Except SyntaxError State} (hfg : ∀ symbols, Agree (f { m with symbols }) (g { s with symbols })) :
    Agree (m.declare name >>= f) (s.declare name >>= g) := by
  unfold State.declare Machine.declare
  rw [h]
  cases s.symbols.add? name.text with
  | none => exact .fault _
  | some symbols => exact hfg symbols

theorem Holds.mode_eq {phase : Phase} (h : Holds m s) (hp : s.phase = phase) : m.mode = phase.mode := by
  rw [h.mode, hp]

/-- The machine goes on with a parameter. -/
theorem Holds.enter {m' : Machine} {phase : Phase} (h : Holds m s) (hphase : phase.inParameter = true)
    (hframes : m'.frames = m.frames) (hmode : m'.mode = phase.mode) (hopener : ∀ t ∈ phase.opener?, m'.opener = some t)
    (hname : ∀ t ∈ phase.name?, m'.name = some t) (htype : m'.type = phase.type?) (hlast : m'.last = none)
    (hsymbols : m'.symbols = m.symbols) : Mirrors m' { s with phase } where
  frames := hframes.trans h.frames
  mode := hmode
  opener := hopener
  name := hname
  type := fun _ => htype
  separator := by
    rintro t rfl
    cases hphase
  symbols := hsymbols.trans h.symbols
  last := by
    rw [hlast]
    cases phase <;> first | rfl | cases hphase

/-- The parameter goes on with all that is known of it. -/
theorem Holds.proceed {before : Phase} (h : Holds m s) (hp : s.phase = before) (hbefore : before.inParameter = true)
    (phase : Phase) (hphase : phase.inParameter = true) (hopener : phase.opener? = before.opener?)
    (hname : phase.name? = before.name?) (htype : phase.type? = before.type?) (hlast : m.last = none) :
    Mirrors { m with mode := phase.mode } { s with phase } := by
  subst hp
  refine h.enter hphase rfl rfl ?_ ?_ ?_ hlast rfl
  · rw [hopener]
    exact h.opener
  · rw [hname]
    exact h.name
  · rw [htype]
    exact h.type hbefore

/-- The latest child is changed, and what may follow it stays the same. -/
theorem Holds.amend {m' : Machine} {s' : State} {p q : Pattern} {rest : List Pattern} (h : Holds m s)
    (hc : s.level.children = p :: rest) (hq : q.endsInTail = p.endsInTail)
    (hframes : m'.frames = (m.write ⟨s.opened.length, s.level.children.length - 1⟩ q).frames) (hmode : m'.mode = .normal)
    (hlast : m'.last = some ⟨s.opened.length, s.level.children.length - 1⟩) (hsymbols : m'.symbols = s'.symbols)
    (hphase : s'.phase = .between true) (hopened : s'.opened = s.opened)
    (hlevel : s'.level = { s.level with children := q :: rest }) : Mirrors m' s' := by
  refine mirrors_between hphase ?_ hmode ?_ hsymbols
  · rw [hframes, write_latest h.frames hc hq, hopened, hlevel]
  · rw [hlast, State.place?, hphase, hopened, hlevel, hc]
    rfl

/-- Either there is nothing to modify or identify, or both sides find the same node. -/
theorem Holds.latest_cases {fresh : Bool} (h : Holds m s) (hs : Ready s) (hp : s.phase = .between fresh) :
    (s.latest? = none ∧ s.place? = none) ∨
      ∃ p rest, fresh = true ∧ s.level.children = p :: rest ∧ s.latest? = some p ∧
        s.place? = some ⟨s.opened.length, s.level.children.length - 1⟩ ∧
        m.node ⟨s.opened.length, s.level.children.length - 1⟩ = .ok p := by
  cases fresh with
  | false => exact .inl ⟨by rw [State.latest?, hp], by rw [State.place?, hp]⟩
  | true =>
    obtain ⟨p, rest, hc⟩ := List.exists_cons_of_ne_nil (hs.latest hp)
    refine .inr ⟨p, rest, rfl, hc, ?_, ?_, node_latest h.frames hc⟩
    · rw [State.latest?, hp, hc]
      rfl
    · rw [State.place?, hp]

/-- What only stands between items. -/
theorem between_agrees (h : Holds m s) {x : Except Stop Machine} {y : Bool → Except SyntaxError State}
    (hbetween : ∀ fresh, s.phase = .between fresh → m.mode = .normal → Agree x (y fresh)) :
    Agree (match m.mode with | .normal => x | _ => reject t .unexpectedToken)
      (match s.phase with | .between fresh => y fresh | _ => fail t .unexpectedToken) := by
  have hmode := h.mode
  cases hp : s.phase with
  | between fresh =>
    rw [hp] at hmode
    rw [hmode]
    exact hbetween fresh hp hmode
  | tail opener name raw =>
    rw [hmode, hp]
    cases raw <;> exact .fault _
  | _ =>
    rw [hmode, hp]
    exact .fault _

theorem unlessFull_agrees {x : Except Stop Machine} {y : Except SyntaxError State}
    (h : s.level.full = false → Agree x y) :
    Agree (if s.level.full then reject t .tailNotLast else x) (if s.level.full then fail t .tailNotLast else y) := by
  cases hf : s.level.full with
  | true => exact .fault _
  | false => exact h hf

/-- A new child of the level. -/
theorem mirrors_append {m' : Machine} {s' : State} {p : Pattern} (hmode : m'.mode = .normal)
    (hframes : m'.frames = frameOf (scopeOf s.opened) (s.level.add p) :: outerFrames s.opened)
    (hlast : m'.last = some ⟨(outerFrames s.opened).length, s.level.children.length⟩) (hsymbols : m'.symbols = s'.symbols)
    (hopened : s'.opened = s.opened) (hlevel : s'.level = s.level) : Mirrors m' (s'.append p) := by
  refine mirrors_between rfl ?_ hmode ?_ hsymbols
  · rw [hframes]
    show _ = frameOf (scopeOf s'.opened) (s'.level.add p) :: outerFrames s'.opened
    rw [hopened, hlevel]
  · rw [hlast, length_outerFrames, ← hopened, ← hlevel]
    rfl

variable (h : Holds m s)

include h

theorem symbol_agrees (hlast : m.last = none) (hs : Ready s) :
    Agree (m.symbol r (frameOf (scopeOf s.opened) s.level) s.place? t) (s.symbol r t) := by
  have hopener := h.opener
  have hname := h.name
  have htype := h.type
  unfold State.symbol Machine.symbol
  cases hp : s.phase with
  | between fresh =>
    simp only [h.mode_eq hp, Phase.mode]
    refine unlessFull_agrees fun hopen => ?_
    rw [append_open h.frames hopen rfl]
    exact .ok (mirrors_append (h.mode_eq hp) rfl rfl h.symbols rfl rfl)
  | parameter opener =>
    rw [hp] at hopener htype
    simp only [h.mode_eq hp, Phase.mode]
    exact .ok (h.enter rfl rfl rfl hopener (by rintro t ⟨⟩; rfl) (htype rfl) hlast rfl)
  | awaitingType opener name =>
    rw [hp] at hopener hname
    simp only [h.mode_eq hp, Phase.mode]
    exact .ok (h.enter rfl rfl rfl hopener hname rfl hlast rfl)
  | identifier separator =>
    obtain ⟨p, rest, hc, -⟩ := hs.awaited separator hp
    have hplace : s.place? = some ⟨s.opened.length, s.level.children.length - 1⟩ := by rw [State.place?, hp]
    simp only [h.mode_eq hp, Phase.mode]
    refine declare_agrees h.symbols t fun symbols => ?_
    have hnode := node_latest (m := { m with symbols }) h.frames hc
    rw [hplace]
    simp only [bind, Except.bind, held, hnode]
    refine .ok (h.amend hc (endsInTail_identify t.text p) rfl rfl rfl rfl rfl rfl ?_)
    rw [Level.amend, hc]
  | named opener name | typed opener name type =>
    simp only [h.mode_eq hp, Phase.mode]
    exact .fault _
  | tail opener name raw =>
    cases raw <;> simp only [h.mode_eq hp, Phase.mode] <;> exact .fault _

theorem openParameter_agrees (hlast : m.last = none) :
    Agree (m.openParameter (frameOf (scopeOf s.opened) s.level) t) (s.openParameter t) := by
  refine between_agrees h fun fresh hp hmode => unlessFull_agrees fun _ => ?_
  exact .ok (h.enter rfl rfl rfl (by rintro t ⟨⟩; rfl) (by rintro t ⟨⟩) rfl hlast rfl)

theorem separate_agrees (hlast : m.last = none) (hs : Ready s) : Agree (m.separate s.place? t) (s.separate t) := by
  unfold State.separate Machine.separate
  cases hp : s.phase with
  | between fresh =>
    simp only [h.mode_eq hp, Phase.mode]
    rcases h.latest_cases hs hp with ⟨hlatest, hplace⟩ | ⟨p, rest, rfl, hc, hlatest, hplace, hnode⟩
    · rw [hlatest, hplace]
      exact .fault _
    · rw [hlatest, hplace]
      simp only [hnode, bind, Except.bind]
      cases p.writtenIdentifier? with
      | none => exact .fault _
      | some id =>
        cases id with
        | some id => exact .fault _
        | none =>
          refine .ok { h with mode := rfl, opener := ?_, name := ?_, type := ?_, separator := ?_, last := rfl }
          · rintro _ ⟨⟩
          · rintro _ ⟨⟩
          · rintro ⟨⟩
          · rintro _ ⟨⟩
            rfl
  | named opener name =>
    simp only [h.mode_eq hp, Phase.mode]
    exact .ok (h.proceed hp rfl (.awaitingType opener name) rfl rfl rfl rfl hlast)
  | tail opener name raw =>
    cases raw <;> simp only [h.mode_eq hp, Phase.mode] <;> exact .fault _
  | _ =>
    simp only [h.mode_eq hp, Phase.mode]
    exact .fault _

theorem markTail_agrees (hlast : m.last = none) : Agree (m.markTail t) (s.markTail t) := by
  unfold State.markTail Machine.markTail
  cases hp : s.phase with
  | named opener name =>
    simp only [h.mode_eq hp, Phase.mode]
    exact .ok (h.proceed hp rfl (.tail opener name false) rfl rfl rfl rfl hlast)
  | tail opener name raw =>
    cases raw <;> simp only [h.mode_eq hp, Phase.mode] <;> exact .fault _
  | _ =>
    simp only [h.mode_eq hp, Phase.mode]
    exact .fault _

theorem markRaw_agrees (hlast : m.last = none) : Agree (m.markRaw t) (s.markRaw t) := by
  unfold State.markRaw Machine.markRaw
  cases hp : s.phase with
  | tail opener name raw =>
    cases raw with
    | true =>
      simp only [h.mode_eq hp, Phase.mode]
      exact .fault _
    | false =>
      simp only [h.mode_eq hp, Phase.mode]
      exact .ok (h.proceed hp rfl (.tail opener name true) rfl rfl rfl rfl hlast)
  | _ =>
    simp only [h.mode_eq hp, Phase.mode]
    exact .fault _

theorem modify_agrees (hs : Ready s) {change : Bytes → Bool → Bool → Pattern}
    (hchange : ∀ text caseSensitive tolerant, (change text caseSensitive tolerant).endsInTail = false) :
    Agree (m.modify s.place? t change) (s.modify t change) := by
  refine between_agrees h fun fresh hp hmode => ?_
  rcases h.latest_cases hs hp with ⟨hlatest, hplace⟩ | ⟨p, rest, rfl, hc, hlatest, hplace, hnode⟩
  · rw [hlatest, hplace]
    exact .fault _
  · rw [hlatest, hplace]
    simp only [hnode, bind, Except.bind]
    cases p with
    | literal text caseSensitive tolerant =>
      refine .ok (h.amend hc (hchange text caseSensitive tolerant) rfl hmode rfl h.symbols hp rfl ?_)
      rw [Level.amend, hc]
    | _ => exact .fault _

omit h in
theorem parameter_untyped {name : Token} (htype : m.type = none) :
    m.parameter r name = .ok (.parameter name.text none) := by
  rw [Machine.parameter, htype]

omit h in
theorem parameter_typed {name type : Token} (htype : m.type = some type) : m.parameter r name =
    if r.knownType type.text then .ok (.parameter name.text (some type.text)) else reject type .undefinedType := by
  rw [Machine.parameter, htype]

omit h in
/-- A parameter that is complete. -/
theorem append_agrees (hframes : m.frames = frameOf (scopeOf s.opened) s.level :: outerFrames s.opened)
    (hsymbols : m.symbols = s.symbols) (hl : s.level.full = false) {p : Pattern} (hp : p.endsInTail = false) :
    Agree (m.append p >>= fun m => .ok { m with mode := .normal }) (.ok (s.append p)) := by
  rw [append_open hframes hl hp]
  exact .ok (mirrors_append rfl rfl rfl hsymbols rfl rfl)

theorem closeParameter_agrees (hs : Ready s) : Agree (m.closeParameter r t) (s.closeParameter r t) := by
  have hname := h.name
  have htype := h.type
  have hroom := hs.room
  unfold State.closeParameter Machine.closeParameter
  cases hp : s.phase with
  | parameter opener =>
    simp only [h.mode_eq hp, Phase.mode]
    exact .fault _
  | named opener name =>
    rw [hp] at hname htype hroom
    simp only [h.mode_eq hp, Phase.mode, hname name rfl]
    refine declare_agrees h.symbols name fun symbols => ?_
    rw [parameter_untyped (m := { m with symbols }) (htype rfl)]
    exact append_agrees (m := { m with symbols }) (s := { s with symbols }) h.frames rfl (hroom rfl)
      (p := .parameter name.text none) rfl
  | typed opener name type =>
    rw [hp] at hname htype hroom
    simp only [h.mode_eq hp, Phase.mode, hname name rfl]
    refine declare_agrees h.symbols name fun symbols => ?_
    rw [parameter_typed (m := { m with symbols }) (htype rfl)]
    split
    · exact append_agrees (m := { m with symbols }) (s := { s with symbols }) h.frames rfl (hroom rfl)
        (p := .parameter name.text (some type.text)) rfl
    · exact .fault _
  | tail opener name raw =>
    rw [hp] at hname
    cases raw <;>
    · simp only [h.mode_eq hp, Phase.mode, hname name rfl]
      refine declare_agrees h.symbols name fun symbols => ?_
      rw [append_closing (m := { m with symbols }) h.frames rfl]
      exact .ok (mirrors_append rfl rfl rfl rfl rfl rfl)
  | _ =>
    simp only [h.mode_eq hp, Phase.mode]
    exact .fault _

theorem divide_agrees (hlast : m.last = none) : Agree (m.divide (frameOf (scopeOf s.opened) s.level) t) (s.divide t) := by
  have hscope : s.opened.head?.any (·.bracket == .unordered) = true ↔ (scopeOf s.opened).bracket? = some .unordered := by
    cases s.opened <;> simp [scopeOf, Scope.bracket?]
  have hdivide : m.onTop Frame.divide =
      .ok { m with frames := frameOf (scopeOf s.opened) (s.level.divide t) :: outerFrames s.opened } := by
    rw [Machine.onTop, h.frames, ← frameOf_divide]
  refine between_agrees h fun fresh hp hmode => ?_
  simp only [hdivide, hscope, frameOf, List.isEmpty_reverse]
  split
  · exact .fault _
  · split
    · exact .fault _
    · exact .ok (mirrors_between rfl rfl hmode hlast h.symbols)

theorem openGroup_agrees (hlast : m.last = none) {b : Bracket} :
    Agree (m.openGroup (frameOf (scopeOf s.opened) s.level) b t) (s.openGroup b t) := by
  refine between_agrees h fun fresh hp hmode => unlessFull_agrees fun _ => ?_
  refine .ok (mirrors_between rfl ?_ hmode hlast h.symbols)
  show Frame.mk _ _ _ _ :: m.frames = _
  rw [h.frames]
  rfl

omit h in
/-- A group that is complete closes the scope that it is put into if it ends in a tail. -/
theorem appendGroup_agrees (hframes : m.frames = frameOf (scopeOf s.opened) s.level :: outerFrames s.opened)
    (hmode : m.mode = .normal) (hsymbols : m.symbols = s.symbols) (hl : s.level.full = false) (p : Pattern) :
    Agree (m.append p >>= fun m => if p.endsInTail then m.onTop fun f => { f with tailClosed := true } else .ok m)
      (.ok (s.append p)) := by
  cases hp : p.endsInTail with
  | false =>
    rw [append_open hframes hl hp]
    exact .ok (mirrors_append hmode rfl rfl hsymbols rfl rfl)
  | true =>
    have hclosing := append_closing hframes hp pure
    simp only [bind_pure] at hclosing
    simp only [if_true, hclosing]
    exact .ok (mirrors_append hmode rfl rfl hsymbols rfl rfl)

theorem closeInto_agrees (hs : Ready s) (hmode : m.mode = .normal) {o : Opened} {rest : List Opened}
    (ho : s.opened = o :: rest) :
    Agree (m.closeInto (frameOf (.group o.bracket o.token) s.level) o.bracket (group o.bracket s.level) t)
      (.ok ({ s with level := o.outside, opened := rest }.append (group o.bracket s.level))) := by
  have hframes : m.frames.tail = frameOf (scopeOf rest) o.outside :: outerFrames rest := by
    rw [h.frames, ho]
    rfl
  have hopen : o.outside.full = false := hs.outside o (by rw [ho]; exact List.mem_cons_self)
  have hcloses : ((frameOf (.group o.bracket o.token) s.level).tailClosed && o.bracket != .optional &&
      (frameOf (.group o.bracket o.token) s.level).choice.isNone) = (group o.bracket s.level).endsInTail := by
    rw [endsInTail_group]
    cases hv : s.level.variants <;> simp [frameOf, hv]
  have hclosed : (frameOf (scopeOf rest) o.outside).tailClosed = false := hopen
  have htop : held m.frames.tail.head? = .ok (frameOf (scopeOf rest) o.outside) := by
    rw [hframes]
    rfl
  unfold Machine.closeInto
  dsimp only
  rw [htop, hcloses]
  show Agree (if (frameOf (scopeOf rest) o.outside).tailClosed = true then _ else _) _
  rw [hclosed]
  exact appendGroup_agrees (m := { m with frames := m.frames.tail })
    (s := { s with level := o.outside, opened := rest }) hframes hmode h.symbols hopen _

theorem closeGroup_agrees (hs : Ready s) {b : Bracket} :
    Agree (m.closeGroup (frameOf (scopeOf s.opened) s.level) b t) (s.closeGroup b t) := by
  unfold State.closeGroup Machine.closeGroup
  cases hp : s.phase with
  | between fresh =>
    simp only [h.mode_eq hp, Phase.mode]
    cases ho : s.opened with
    | nil => exact .fault _
    | cons o rest =>
      have hscope : (frameOf (scopeOf (o :: rest)) s.level).scope.bracket? = some o.bracket := rfl
      rw [hscope]
      by_cases hb : o.bracket = b
      · subst hb
        rw [if_neg (not_not_intro rfl)]
        dsimp only
        rw [if_neg (not_not_intro rfl)]
        by_cases hc : s.level.children = []
        · rw [collect_empty hc, hc]
          cases s.level.variants <;> exact .fault _
        · have hchildren : s.level.children.isEmpty = false := by simpa using hc
          rw [collect_filled hc, hchildren]
          simp only [bind, Except.bind, isEmpty_contentsOf hc, scopeOf, closed_contentsOf, Bool.false_eq_true, if_false]
          exact closeInto_agrees h hs (h.mode_eq hp) ho
      · dsimp only
        rw [if_pos (by simpa using hb), if_pos hb]
        exact .fault _
  | tail opener name raw =>
    cases raw <;> simp only [h.mode_eq hp, Phase.mode] <;> exact .fault _
  | _ =>
    simp only [h.mode_eq hp, Phase.mode]
    exact .fault _

end

/-- From where the machine mirrors the state, both read the token in the same way. -/
theorem Mirrors.step {m : Machine} {s : State} (h : Mirrors m s) (hs : Ready s) (t : Token) :
    Agree (m.step r t) (s.step r t) := by
  let m' : Machine := { m with last := none }
  have h' : Holds m' s := { h with }
  have htop : m'.frames.head? = some (frameOf (scopeOf s.opened) s.level) := by
    rw [h'.frames]
    rfl
  unfold Machine.step State.step
  rw [h.last]
  simp only [m'] at htop
  simp only [htop, held, bind, Except.bind]
  cases t.kind with
  | symbol => exact symbol_agrees h' rfl hs
  | mark k =>
    cases k with
    | parameterOpening => exact openParameter_agrees h' rfl
    | parameterClosing => exact closeParameter_agrees h' hs
    | separator => exact separate_agrees h' rfl hs
    | divider => exact divide_agrees h' rfl
    | opening b => exact openGroup_agrees h' rfl
    | closing b => exact closeGroup_agrees h' hs
    | tail => exact markTail_agrees h' rfl
    | raw => exact markRaw_agrees h' rfl
    | caseInsensitive => exact modify_agrees h' hs fun _ _ _ => rfl
    | tolerant => exact modify_agrees h' hs fun _ _ _ => rfl

/-! ## The end of the grammar -/

theorem openPath_eq_frames (l : Level) (os : List Opened) :
    openPath l os = (frameOf (scopeOf os) l :: outerFrames os).reverse.filterMap Frame.open? := by
  induction os generalizing l with
  | nil => rfl
  | cons o rest ih =>
    have hopen : (frameOf (scopeOf (o :: rest)) l).open? = some ⟨o.bracket, !l.variants.isEmpty⟩ := by
      cases hv : l.variants <;> simp [Frame.open?, frameOf, scopeOf, Scope.bracket?, hv]
    rw [openPath, outerFrames, List.reverse_cons, List.filterMap_append, ← ih, List.filterMap_cons_some hopen]
    rfl

/-- Both sides end the grammar in the same way, if an empty variant at its end is reported at the divider. -/
theorem Holds.finish {m : Machine} {s : State} (h : Holds m s) {t : Token}
    (hdivider : ∀ fresh, s.phase = .between fresh → s.level.children = [] → ∀ v ∈ s.level.variants.head?, t = v.divider) :
    m.finish t = s.finish.mapError .fault := by
  have hopener := h.opener
  have hseparator := h.separator
  unfold Machine.finish State.finish
  cases hp : s.phase with
  | between fresh =>
    simp only [h.mode_eq hp, Phase.mode]
    rw [h.frames]
    cases ho : s.opened with
    | nil =>
      show (frameOf .root s.level).collect t = _
      cases hc : s.level.children with
      | nil =>
        rw [collect_empty hc]
        cases hv : s.level.variants with
        | nil =>
          rw [Level.contents, hv, hc]
          rfl
        | cons v rest =>
          rw [hdivider fresh hp hc v (by rw [hv]; rfl)]
          rfl
      | cons p rest =>
        rw [collect_filled (by rw [hc]; exact List.cons_ne_nil p rest)]
        cases s.level.variants <;> rfl
    | cons o rest =>
      rw [openPath_eq_frames]
      rfl
  | identifier separator =>
    simp only [h.mode_eq hp, Phase.mode, hseparator separator hp]
    rfl
  | tail opener name raw =>
    rw [hp] at hopener
    cases raw <;> simp only [h.mode_eq hp, Phase.mode, hopener opener rfl] <;> rfl
  | _ =>
    rw [hp] at hopener
    simp only [h.mode_eq hp, Phase.mode, hopener _ rfl]
    rfl

end CommandGrammar.Grammar
