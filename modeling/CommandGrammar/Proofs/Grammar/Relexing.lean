/-
  CommandGrammar.Proofs.Grammar.Relexing — when a rendered grammar is cut into the tokens that it was written with.

  A pattern is rendered with the texts of its grammar, and where two of them stand side by
  side the lexer has to cut between them. It does so everywhere but in front of the dots
  of a tail: a name that ends in dots itself is cut short by as many, and these come to
  stand behind the mark. So the tokens stay what they were, and the rendering is a grammar
  at all, exactly if no name of a tail ends in a dot (`tokens_render_iff`).
-/

import CommandGrammar.Proofs.Grammar.Rendering
import Mathlib

namespace CommandGrammar.Grammar

open Specials (standard)

variable {sp : Specials}

/-! ## What tokens say -/

/-- A token, wherever it stands. -/
def Token.said (t : Token) : Kind × Bytes :=
  (t.kind, t.text)

def Terminal.said (sp : Specials) : Terminal → Kind × Bytes
  | .symbol text => (.symbol, text)
  | .mark m => (.mark m, sp.text m)

theorem Terminal.said_injective : Function.Injective (Terminal.said sp) := by
  intro t u h
  cases t <;> cases u <;> cases h <;> rfl

theorem Run.symbol?_said (r : Run) : ∀ t ∈ r.symbol?.toList, t.said = t.terminal.said sp := by
  intro t ht
  obtain ⟨rfl, -⟩ := Run.symbol?_eq_some (Option.mem_toList.mp ht)
  rfl

theorem Run.step_said (r : Run) (c : UInt8) : ∀ t ∈ (r.step sp c).1, t.said = t.terminal.said sp := by
  intro t ht
  unfold Run.step at ht
  split at ht
  · exact r.symbol?_said t ht
  · dsimp only at ht
    split at ht
    · cases ht
    · rcases List.mem_append.mp ht with ht | ht
      · exact Run.symbol?_said _ t ht
      · rw [List.mem_singleton.mp ht]
        rfl

/-- The text of a mark is the one that the specials give it. -/
theorem scan_said (input : Bytes) : ∀ (r : Run), ∀ t ∈ scan sp r input, t.said = t.terminal.said sp := by
  induction input with
  | nil => exact fun r => r.symbol?_said
  | cons c rest ih =>
    intro r t ht
    rcases List.mem_append.mp ht with ht | ht
    · exact r.step_said c t ht
    · exact ih _ t ht

theorem tokens_said (grammar : Bytes) :
    (tokens sp grammar).map Token.said = ((tokens sp grammar).map Token.terminal).map (Terminal.said sp) := by
  rw [List.map_map]
  exact List.map_congr_left (scan_said grammar _)

/-! ## Modifiers in order -/

/-- Puts every run of modifiers in order: the case-insensitive one comes first, and none comes twice. The first two
    arguments are the modifiers of the run that are met already. -/
def tidyFrom (insensitive tolerant : Option (Kind × Bytes)) : List (Kind × Bytes) → List (Kind × Bytes)
  | [] => insensitive.toList ++ tolerant.toList
  | t :: ts =>
    if t.1 = .mark .caseInsensitive then tidyFrom (some t) tolerant ts
    else if t.1 = .mark .tolerant then tidyFrom insensitive (some t) ts
    else insensitive.toList ++ tolerant.toList ++ t :: tidyFrom none none ts

def tidied (ts : List (Kind × Bytes)) : List (Kind × Bytes) :=
  tidyFrom none none ts

def IsModifier (t : Kind × Bytes) : Prop :=
  t.1 = .mark .caseInsensitive ∨ t.1 = .mark .tolerant

/-- The run of modifiers before these tokens does not go on in them. -/
def EndsRun (ts : List (Kind × Bytes)) : Prop :=
  ∀ t ∈ ts.head?, ¬ IsModifier t

theorem EndsRun.cons {t : Kind × Bytes} (h : ¬ IsModifier t) (ts : List (Kind × Bytes)) : EndsRun (t :: ts) := by
  intro u hu
  cases hu
  exact h

theorem tidyFrom_cons {t : Kind × Bytes} (h : ¬ IsModifier t) (insensitive tolerant : Option (Kind × Bytes))
    (ts : List (Kind × Bytes)) :
    tidyFrom insensitive tolerant (t :: ts) = insensitive.toList ++ tolerant.toList ++ t :: tidied ts := by
  obtain ⟨hi, ht⟩ := not_or.mp h
  rw [tidyFrom, if_neg hi, if_neg ht, tidied]

theorem tidied_cons {t : Kind × Bytes} (h : ¬ IsModifier t) (ts : List (Kind × Bytes)) :
    tidied (t :: ts) = t :: tidied ts :=
  tidyFrom_cons h none none ts

theorem tidyFrom_of_endsRun {ts : List (Kind × Bytes)} (h : EndsRun ts) (insensitive tolerant : Option (Kind × Bytes)) :
    tidyFrom insensitive tolerant ts = insensitive.toList ++ tolerant.toList ++ tidied ts := by
  cases ts with
  | nil => simp [tidyFrom, tidied]
  | cons t ts =>
    have ht := h t rfl
    rw [tidyFrom_cons ht, tidied_cons ht]

theorem tidyFrom_append (ts : List (Kind × Bytes)) {us : List (Kind × Bytes)} (h : EndsRun us) :
    ∀ insensitive tolerant, tidyFrom insensitive tolerant (ts ++ us) = tidyFrom insensitive tolerant ts ++ tidied us := by
  induction ts with
  | nil => exact fun i o => tidyFrom_of_endsRun h i o
  | cons t ts ih =>
    intro i o
    rw [List.cons_append, tidyFrom, tidyFrom, ih, ih, ih]
    split
    · rfl
    · split
      · rfl
      · simp

/-- What comes behind a run is put in order on its own. -/
theorem tidied_append (ts : List (Kind × Bytes)) {us : List (Kind × Bytes)} (h : EndsRun us) :
    tidied (ts ++ us) = tidied ts ++ tidied us :=
  tidyFrom_append ts h none none

/-- The modifiers behind a literal are put in the order in which its spelling has them. -/
theorem tidyFrom_modifiers (sp : Specials) (ms : List Modifier) : ∀ insensitive tolerant : Bool,
    tidyFrom (if insensitive then some (Terminal.said sp (.mark .caseInsensitive)) else none)
        (if tolerant then some (Terminal.said sp (.mark .tolerant)) else none)
        (ms.map fun m => Terminal.said sp (.mark m.mark)) =
      (modifiers (!(insensitive || ms.contains .caseInsensitive)) (tolerant || ms.contains .tolerant)).map
        fun m => Terminal.said sp (.mark m.mark) := by
  induction ms with
  | nil =>
    intro i o
    cases i <;> cases o <;> rfl
  | cons m ms ih =>
    intro i o
    cases m with
    | caseInsensitive =>
      have := ih true o
      simpa [tidyFrom, Terminal.said, Modifier.mark] using this
    | tolerant =>
      have := ih i true
      simpa [tidyFrom, Terminal.said, Modifier.mark] using this

/-! ## Tokens of a derivation -/

variable {cs : Bool}

/-- Terminals that a run of modifiers does not go on in. -/
def Leading (ts : List Terminal) : Prop :=
  EndsRun (ts.map (Terminal.said standard))

theorem Leading.cons {t : Terminal} (h : ¬ IsModifier (t.said standard)) (ts : List Terminal) : Leading (t :: ts) :=
  EndsRun.cons h _

theorem Item.leading {ts : List Terminal} {p : Pattern} (h : Item cs ts p) : Leading ts := by
  -- an item starts with its text or with an opening mark
  cases h <;> exact .cons (by simp [IsModifier, Terminal.said]) _

/-- The tokens of `ts`, with their modifiers in order, are those of `us`. -/
def Tidies (ts us : List Terminal) : Prop :=
  tidied (ts.map (Terminal.said standard)) = us.map (Terminal.said standard)

theorem Tidies.append {ts us ts' us' : List Terminal} (h : Tidies ts us) (h' : Tidies ts' us') (hl : Leading ts') :
    Tidies (ts ++ ts') (us ++ us') := by
  rw [Tidies, List.map_append, tidied_append _ hl, h, h', List.map_append]

/-- Where there are no modifiers there is nothing to put in order. -/
theorem Tidies.plain {ts : List Terminal} (h : ∀ t ∈ ts, ¬ IsModifier (t.said standard)) : Tidies ts ts := by
  induction ts with
  | nil => rfl
  | cons t ts ih =>
    obtain ⟨ht, hts⟩ := List.forall_mem_cons.mp h
    rw [Tidies, List.map_cons, tidied_cons ht, ih hts]

theorem Tidies.mark {m : Mark} (h : ¬ IsModifier (Terminal.said standard (.mark m))) {ts us : List Terminal}
    (hts : Tidies ts us) : Tidies (.mark m :: ts) (.mark m :: us) := by
  rw [Tidies, List.map_cons, tidied_cons h, hts, List.map_cons]

theorem Tidies.suffix {us : List Terminal} {id : Option Bytes} (h : Suffix us id) : Tidies us (suffix id) := by
  cases h with
  | absent => rfl
  | present text => rfl

theorem Tidies.enclosed {ts ts' us : List Terminal} {id : Option Bytes} (b : Bracket) (h : Tidies ts ts')
    (hs : Suffix us id) :
    Tidies (.mark (.opening b) :: ts ++ .mark (.closing b) :: us) (enclosed b ts' ++ Grammar.suffix id) := by
  have hopen : ¬ IsModifier (Terminal.said standard (.mark (.opening b))) := by simp [IsModifier, Terminal.said]
  have hclose : ¬ IsModifier (Terminal.said standard (.mark (.closing b))) := by simp [IsModifier, Terminal.said]
  rw [enclosed_append]
  exact (h.mark hopen).append ((Tidies.suffix hs).mark hclose) (.cons hclose _)

theorem literal_tidies (text : Bytes) (ms : List Modifier) :
    Tidies (.symbol text :: ms.map fun m => .mark m.mark) (spelling (modified true text ms)) := by
  have hsymbol : ¬ IsModifier (Terminal.said standard (.symbol text)) := by simp [IsModifier, Terminal.said]
  have := tidyFrom_modifiers standard ms false false
  rw [Tidies, List.map_cons, tidied_cons hsymbol, List.map_map, tidied, modified, spelling, List.map_cons, List.map_map]
  simpa [Function.comp_def] using this

mutual

theorem Item.tidies {ts : List Terminal} {p : Pattern} (h : Item true ts p) : Tidies ts (spelling p) := by
  match h with
  | .literal text ms => exact literal_tidies text ms
  | .parameter name type hs =>
    cases hs with
    | absent => exact .plain (by simp [IsModifier, Terminal.said])
    | present t => exact .plain (by simp [IsModifier, Terminal.said])
  | .tail name raw => exact .plain (by cases raw <;> simp [IsModifier, Terminal.said, rawMark])
  | .parenthesized ha hs hid =>
    rw [spelling_parenthesized ha.ne_nil hid]
    exact ha.tidies.enclosed .sequence hs
  | .bracketed ha hs =>
    rw [spelling_bracketed ha.ne_nil ha.sole_inherited_eq_none]
    exact ha.tidies.enclosed .optional hs
  | .braced hi hs =>
    rw [spelling]
    exact hi.tidies.enclosed .unordered hs

theorem Items.tidies {ts : List Terminal} {ps : List Pattern} (h : Items true ts ps) : Tidies ts (spellingOf ps) := by
  match h with
  | .one hi =>
    rw [spellingOf_single]
    exact hi.tidies
  | .more hs hi =>
    rw [spellingOf_snoc]
    exact hs.tidies.append hi.tidies hi.leading

theorem Alternatives.tidies {ts : List Terminal} {as : List (List Pattern)} (h : Alternatives true ts as) :
    Tidies ts (divided (spellingOfEach as)) := by
  match h with
  | .one hs =>
    rw [spellingOfEach, spellingOfEach, divided_single]
    exact hs.tidies
  | .more ha hs =>
    have hdivider : ¬ IsModifier (Terminal.said standard (.mark .divider)) := by simp [IsModifier, Terminal.said]
    rw [spellingOfEach_snoc, divided_snoc (spellingOfEach_ne_nil ha.ne_nil)]
    exact ha.tidies.append (hs.tidies.mark hdivider) (.cons hdivider _)

end

/-- The tokens of a grammar, with their modifiers in order, are the spelling of what it describes. -/
theorem Root.tidies {ts : List Terminal} {items : List Pattern} (h : Root true ts items) : Tidies ts (spellingOf items) := by
  cases h with
  | empty => rfl
  | alternatives ha =>
    rw [spellingOf_unbracketed ha.ne_nil]
    exact ha.tidies

/-! ## Names that end in dots -/

/-- No name of a tail in the pattern ends in a dot. -/
def Undotted (p : Pattern) : Prop :=
  ∀ name raw, .tail name raw ∈ p.nodes → name.getLast? ≠ some dot

/-- A name, taken apart into what is before its last dots and how many these are. -/
theorem split_dots (name : Bytes) : ∃ front n, name = front ++ List.replicate n dot ∧ front.getLast? ≠ some dot := by
  induction name using List.reverseRecOn with
  | nil => exact ⟨[], 0, rfl, by simp⟩
  | append_singleton name c ih =>
    by_cases hc : c = dot
    · obtain ⟨front, n, rfl, hfront⟩ := ih
      refine ⟨front, n + 1, ?_, hfront⟩
      rw [hc, List.replicate_succ', List.append_assoc]
    · refine ⟨name ++ [c], 0, by simp, ?_⟩
      rw [List.getLast?_concat]
      simpa using hc

/-- The dots that a name ends in are read behind the mark of the tail. -/
theorem read_dotted {name : Bytes} (h : Plain standard name) (hdot : name.getLast? = some dot) {rest : Bytes}
    (hrest : Delimited rest) :
    ∃ before dots, read standard [] (name ++ standard.text .tail ++ rest) =
      before ++ .mark .tail :: .symbol dots :: read standard [] rest := by
  obtain ⟨front, n, rfl, hfront⟩ := split_dots name
  have hn : List.replicate n dot ≠ [] := by
    intro hnil
    rw [hnil, List.append_nil] at hdot
    exact hfront hdot
  have hplain : Plain standard front := h.infix List.infix_append_left
  have hdots : Spellable standard (List.replicate n dot) :=
    { h.infix (List.suffix_append _ _).isInfix with ne_nil := hn }
  -- the mark is made of the first three of the dots, not of the last three
  have hshift : List.replicate n dot ++ standard.text .tail = standard.text .tail ++ List.replicate n dot := by
    have hmark : standard.text .tail = List.replicate 3 dot := rfl
    rw [hmark, List.replicate_append_replicate, List.replicate_append_replicate, Nat.add_comm]
  refine ⟨word front, List.replicate n dot, ?_⟩
  calc read standard [] (front ++ List.replicate n dot ++ standard.text .tail ++ rest)
      = read standard [] (front ++ (standard.text .tail ++ (List.replicate n dot ++ rest))) := by
        rw [List.append_assoc front, hshift]
        simp only [List.append_assoc]
    _ = read standard front (standard.text .tail ++ (List.replicate n dot ++ rest)) := read_plain front hplain _
    _ = word front ++ .mark .tail :: read standard [] (List.replicate n dot ++ rest) := read_tail hplain hfront _
    _ = word front ++ .mark .tail :: .symbol (List.replicate n dot) :: read standard [] rest := by
        rw [Spelled.symbol hdots rest hrest]
        rfl

/-- Whatever stands in front of it, a mark of one byte is read as that mark. -/
theorem read_upto {m : Mark} (hm : m ≠ .tail) (text : Bytes) : ∀ {run : Bytes}, Plain standard run → ∀ rest,
    ∃ before, read standard run (text ++ (standard.text m ++ rest)) = before ++ .mark m :: read standard [] rest := by
  induction text with
  | nil => exact fun h rest => ⟨_, read_single hm h rest⟩
  | cons c text ih =>
    intro run h rest
    obtain ⟨before, hbefore⟩ := ih (Run.step_spellable (r := ⟨0, run⟩) h c).2 rest
    rw [List.cons_append, read_cons, hbefore, ← List.append_assoc]
    exact ⟨_, rfl⟩

/-! ## What is rendered of a tail -/

theorem infix_intercalate (sep : Bytes) {x : Bytes} {xs : List Bytes} (h : x ∈ xs) : x <:+: sep.intercalate xs := by
  induction xs with
  | nil => cases h
  | cons y ys ih =>
    cases ys with
    | nil =>
      rw [List.mem_singleton.mp h, List.intercalate_singleton]
    | cons z zs =>
      rw [List.intercalate_cons_cons]
      rcases List.mem_cons.mp h with rfl | h
      · exact ((List.prefix_append _ _).trans (List.prefix_append _ _)).isInfix
      · exact (ih h).trans (List.suffix_append _ _).isInfix

theorem renderEach_eq_map (sp : Specials) (cs : List Pattern) : Pattern.renderEach sp cs = cs.map (Pattern.render sp false) := by
  induction cs with
  | nil => rfl
  | cons c cs ih => rw [Pattern.renderEach, ih, List.map_cons]

theorem renderAlternatives_eq_map (sp : Specials) (as : List (List Pattern)) :
    Pattern.renderAlternatives sp as = as.map fun a => Pattern.spaced (Pattern.renderEach sp a) := by
  induction as with
  | nil => rfl
  | cons a as ih => rw [Pattern.renderAlternatives, ih, List.map_cons]

/-- Every list of children is in what the pattern is rendered as. -/
theorem spaced_infix_render (sp : Specials) {p : Pattern} {cs : List Pattern} (h : cs ∈ p.childLists) (root : Bool) :
    Pattern.spaced (Pattern.renderEach sp cs) <:+: p.render sp root := by
  have henclose : ∀ (b : Bracket) (text : Bytes), text <:+: Pattern.enclose sp b text := fun b text =>
    (List.suffix_append _ _).isInfix.trans (List.prefix_append _ _).isInfix
  cases p with
  | literal => cases h
  | parameter => cases h
  | tail => cases h
  | sequence ds =>
    rw [List.mem_singleton.mp h, Pattern.render]
    cases root with
    | true => exact List.infix_refl _
    | false => exact henclose _ _
  | optional ds id =>
    rw [List.mem_singleton.mp h, Pattern.render]
    exact (henclose _ _).trans (List.prefix_append _ _).isInfix
  | unordered ds id =>
    rw [List.mem_singleton.mp h, Pattern.render]
    exact (henclose _ _).trans (List.prefix_append _ _).isInfix
  | variants as id inherited parenthesized =>
    have hin : Pattern.spaced (Pattern.renderEach sp cs) <:+:
        (sp.text .divider).intercalate (Pattern.renderAlternatives sp as) := by
      refine infix_intercalate _ ?_
      rw [renderAlternatives_eq_map]
      exact List.mem_map.mpr ⟨cs, h, rfl⟩
    rw [Pattern.render]
    generalize (if inherited then none else id) = own
    refine List.IsInfix.trans ?_ (List.prefix_append _ _).isInfix
    split
    · exact hin.trans (henclose _ _)
    · exact hin

/-- Every tail of a pattern is in what the pattern is rendered as. -/
theorem tail_infix_render (sp : Specials) {p : Pattern} {name : Bytes} {raw : Bool} (hq : .tail name raw ∈ p.nodes)
    (root : Bool) : (Pattern.tail name raw).render sp false <:+: p.render sp root := by
  induction p using Pattern.children_induct generalizing root with | step p ih => ?_
  rw [Pattern.nodes_eq, List.mem_append, List.mem_singleton] at hq
  rcases hq with hq | rfl
  · obtain ⟨cs, hcs, hq⟩ := Pattern.mem_nodesOfEach.mp hq
    obtain ⟨c, hc, hq⟩ := Pattern.mem_nodesOf.mp hq
    have hchild : c.render sp false <:+: Pattern.spaced (Pattern.renderEach sp cs) := by
      refine infix_intercalate _ ?_
      rw [renderEach_eq_map]
      exact List.mem_map.mpr ⟨c, hc, rfl⟩
    exact ((ih cs hcs c hc hq false).trans hchild).trans (spaced_infix_render sp hcs root)
  · exact List.infix_refl _

/-! ## Rendering a name that ends in a dot -/

/-- With a tail whose name ends in a dot, the dots behind the mark are a symbol. -/
theorem tokens_render_dotted {p : Pattern} {name : Bytes} {raw : Bool} (hq : .tail name raw ∈ p.nodes)
    (hname : Plain standard name) (hdot : name.getLast? = some dot) :
    ∃ before dots after, (tokens standard (p.render standard true)).map Token.terminal =
      before ++ .mark .tail :: .symbol dots :: after := by
  obtain ⟨front, back, htext⟩ := tail_infix_render standard hq true
  have hclose : Delimited ((if raw then standard.text .raw else []) ++ standard.text .parameterClosing ++ back) := by
    cases raw with
    | true => exact Delimited.single (m := .raw) (by decide) _
    | false => exact Delimited.single (m := .parameterClosing) (by decide) _
  obtain ⟨before, hbefore⟩ := read_upto (m := .parameterOpening) (by decide) front Plain.nil
    (name ++ standard.text .tail ++
      ((if raw then standard.text .raw else []) ++ standard.text .parameterClosing ++ back))
  obtain ⟨inside, dots, hdots⟩ := read_dotted hname hdot hclose
  have hsplit : p.render standard true = front ++ (standard.text .parameterOpening ++
      (name ++ standard.text .tail ++
        ((if raw then standard.text .raw else []) ++ standard.text .parameterClosing ++ back))) := by
    rw [← htext, Pattern.render]
    simp only [List.append_assoc]
  rw [tokens_terminals, hsplit, hbefore, hdots, ← List.cons_append, ← List.append_assoc]
  exact ⟨before ++ .mark .parameterOpening :: inside, dots, _, rfl⟩

/-- Behind the mark of a tail the parser takes no symbol. -/
theorem symbol_behind_tail (r : Reading) {s s₁ : State} {t u : Token} (ht : t.kind = .mark .tail) (hu : u.kind = .symbol)
    (h : s.step r t = .ok s₁) : s₁.step r u = fail u .unexpectedToken := by
  simp only [State.step, ht] at h
  unfold State.markTail at h
  split at h
  · cases h
    simp only [State.step, hu, State.symbol]
  · cases h

theorem parse_ne_ok_of_symbol_behind_tail (r : Reading) {ts : List Token} {before after : List Terminal} {text : Bytes}
    (h : ts.map Token.terminal = before ++ .mark .tail :: .symbol text :: after) (items : List Pattern) :
    parse r ts ≠ .ok items := by
  intro hparse
  obtain ⟨us, vs, rfl, -, hvs⟩ := List.map_eq_append_iff.mp h
  obtain ⟨t, ws, rfl, ht, hws⟩ := List.map_eq_cons_iff.mp hvs
  obtain ⟨u, xs, rfl, hu, -⟩ := List.map_eq_cons_iff.mp hws
  obtain ⟨s, hrun, -⟩ := bind_eq_ok.mp hparse
  rw [List.foldlM_append] at hrun
  obtain ⟨s₁, -, hrun⟩ := bind_eq_ok.mp hrun
  obtain ⟨s₂, hstep, hrun⟩ := bind_eq_ok.mp hrun
  obtain ⟨s₃, hstep', -⟩ := bind_eq_ok.mp hrun
  rw [symbol_behind_tail r (Token.kind_eq_mark ht) (Token.kind_eq_symbol hu).1 hstep] at hstep'
  cases hstep'

/-! ## Rendering a compiled grammar -/

/-- A pattern that was read from a grammar compiles again as it is rendered exactly if the names of its tails allow. -/
theorem parse_render_iff {cs : Bool} {known : Bytes → Bool} {grammar : Bytes} {items : List Pattern}
    (hr : Root cs ((tokens standard grammar).map Token.terminal) items) (ha : Admissible known items) :
    (∃ items', parse ⟨cs, known⟩ (tokens standard ((Pattern.sequence items).render standard true)) = .ok items') ↔
      Undotted (.sequence items) := by
  constructor
  · rintro ⟨items', hparse⟩ name raw hq hdot
    have hmem : .tail name raw ∈ Pattern.nodesOf items := by
      rcases List.mem_append.mp hq with hq | hq
      · exact hq
      · cases List.mem_singleton.mp hq
    have htext : name ∈ textsOf items := List.mem_flatMap.mpr ⟨_, hmem, List.mem_singleton_self _⟩
    have hname : Plain standard name := (symbol_spellable (hr.symbol_mem name htext)).toPlain
    obtain ⟨before, dots, after, hrendered⟩ := tokens_render_dotted hq hname hdot
    exact parse_ne_ok_of_symbol_behind_tail _ hrendered items' hparse
  · intro hdots
    have hlegible := legible_of_root hr fun name raw hq => hdots name raw (List.mem_append_left _ hq)
    refine ⟨items, parse_eq_ok.mpr ⟨?_, ha⟩⟩
    rw [tokens_render hlegible]
    exact hr.spelled

theorem said_render_iff {known : Bytes → Bool} {grammar : Bytes} {items : List Pattern}
    (hr : Root true ((tokens standard grammar).map Token.terminal) items) (ha : Admissible known items) :
    (tokens standard ((Pattern.sequence items).render standard true)).map Token.said =
        tidied ((tokens standard grammar).map Token.said) ↔
      Undotted (.sequence items) := by
  have htidied : tidied ((tokens standard grammar).map Token.said) = (spellingOf items).map (Terminal.said standard) := by
    rw [tokens_said]
    exact hr.tidies
  rw [htidied, tokens_said, List.map_inj_right fun _ _ h => Terminal.said_injective h]
  constructor
  · intro hterminals
    refine (parse_render_iff hr ha).mp ⟨items, parse_eq_ok.mpr ⟨?_, ha⟩⟩
    rw [hterminals]
    exact hr.spelled
  · intro hdots
    exact tokens_render (legible_of_root hr fun name raw hq => hdots name raw (List.mem_append_left _ hq))

/-- The rendering of a compiled grammar has the tokens of the grammar, with their modifiers in order, exactly if no name
    of a tail ends in a dot; and exactly then it is a grammar that compiles. -/
theorem tokens_render_iff (cfg : Config) (known : Bytes → Bool) {grammar : Bytes} {c : Compiled}
    (hc : compile { cfg with specials := .standard, caseSensitive := true, simplify := .no } known grammar = .ok c) :
    ((tokens standard c.render).map Token.said = tidied ((tokens standard grammar).map Token.said) ↔ Undotted c.root) ∧
      ((∃ c', compile { cfg with specials := .standard, caseSensitive := true, simplify := .no } known c.render = .ok c') ↔
        Undotted c.root) := by
  rw [compile_eq_simplify, map_eq_ok] at hc
  obtain ⟨items, hp, rfl⟩ := hc
  obtain ⟨hr, ha⟩ := parse_eq_ok.mp hp
  refine ⟨said_render_iff hr ha, Iff.trans ?_ (parse_render_iff hr ha)⟩
  simp only [compile_eq_simplify, map_eq_ok]
  constructor
  · rintro ⟨_, items', hparse, _⟩
    exact ⟨items', hparse⟩
  · rintro ⟨items', hparse⟩
    exact ⟨_, items', hparse, rfl⟩

/-- Modifiers in the other order and twice, spaces in odd places, and names that end in dots without being tails. -/
theorem tokens_render_iff_modified : ∃ c : Compiled,
    compile { simplify := .no } (· == ascii "int") (ascii "..~^~^[ (a^|b .)]:x.<t..:int> < .r ... * >") = .ok c ∧
      Undotted c.root ∧ c.render = ascii "..^~ [(a^|b .)]:x. <t..: int> <.r...*>" ∧
      ((tokens standard c.render).map Token.said =
          tidied ((tokens standard (ascii "..~^~^[ (a^|b .)]:x.<t..:int> < .r ... * >")).map Token.said) ↔
        Undotted c.root) ∧
      ((∃ c', compile { simplify := .no } (· == ascii "int") c.render = .ok c') ↔ Undotted c.root) := by
  have hc : compile { simplify := .no } (· == ascii "int") (ascii "..~^~^[ (a^|b .)]:x.<t..:int> < .r ... * >") =
      .ok ⟨.sequence
        [.literal (ascii "..") false true,
          .optional [.variants [[.literal (ascii "a") false false],
            [.literal (ascii "b") true false, .literal (ascii ".") true false]] none false true] (some (ascii "x.")),
          .parameter (ascii "t..") (some (ascii "int")), .tail (ascii ".r") true],
        ascii "..~^~^[ (a^|b .)]:x.<t..:int> < .r ... * >", .standard⟩ := by
    cbv
  refine ⟨_, hc, ?_, by cbv, tokens_render_iff {} _ hc⟩
  simp [Undotted, Pattern.nodes, Pattern.nodesOf, Pattern.nodesOfEach, ascii, dot]

/-- The dot of the name is read behind the mark, and what is rendered does not compile. -/
theorem tokens_render_dot : ∃ c : Compiled,
    compile { simplify := .no } (fun _ => false) (ascii "<a. ...>") = .ok c ∧ c.render = ascii "<a....>" ∧
      (tokens standard c.render).map Token.said ≠ tidied ((tokens standard (ascii "<a. ...>")).map Token.said) ∧
      ∀ c', compile { simplify := .no } (fun _ => false) c.render ≠ .ok c' := by
  have hc : compile { simplify := .no } (fun _ => false) (ascii "<a. ...>") =
      .ok ⟨.sequence [.tail (ascii "a.") false], ascii "<a. ...>", .standard⟩ := by
    cbv
  have hfails : (compile { simplify := .no } (fun _ => false) (ascii "<a....>")).isOk = false := by
    cbv
  have hrendered : ∀ text, text = ascii "<a....>" → text = ascii "<a....>" ∧
      (tokens standard text).map Token.said ≠ tidied ((tokens standard (ascii "<a. ...>")).map Token.said) ∧
      ∀ c', compile { simplify := .no } (fun _ => false) text ≠ .ok c' := by
    rintro _ rfl
    refine ⟨rfl, by decide, fun c' hc' => ?_⟩
    rw [hc'] at hfails
    cases hfails
  exact ⟨_, hc, hrendered _ (by cbv)⟩

end CommandGrammar.Grammar
