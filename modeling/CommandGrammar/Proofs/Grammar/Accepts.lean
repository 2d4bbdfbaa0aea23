/-
  CommandGrammar.Proofs.Grammar.Accepts — the parser accepts exactly its language.

  A derivation is read from left to right: the tokens of an item take any state in which
  there is room for it to the state with that item as the latest child (`ItemRuns`), and
  those of alternatives fill an empty level with them (`AlternativesRun`). With
  `root_of_parse` for the other direction, a grammar compiles to a pattern exactly when
  the rules derive its tokens with that pattern and the pattern keeps to the rules that
  are not context-free (`compile_eq_ok_iff`).
-/

import CommandGrammar.Grammar.Compile
import CommandGrammar.Proofs.Grammar.Follows

namespace CommandGrammar.Grammar

variable {r : Reading}

/-! ## Runs -/

/-- Reading the tokens takes `s` to `s'`. -/
def Runs (r : Reading) (s : State) (ts : List Token) (s' : State) : Prop :=
  ts.foldlM (State.step r) s = .ok s'

theorem Runs.nil (s : State) : Runs r s [] s := rfl

theorem Runs.cons {s s₁ s₂ : State} {t : Token} {ts : List Token} (h : Moves r s t s₁) (hr : Runs r s₁ ts s₂) :
    Runs r s (t :: ts) s₂ := by
  unfold Runs
  rw [List.foldlM_cons]
  exact bind_eq_ok.mpr ⟨s₁, step_eq_ok.mpr h, hr⟩

theorem Runs.append {s s₁ s₂ : State} {ts us : List Token} (h : Runs r s ts s₁) (hr : Runs r s₁ us s₂) :
    Runs r s (ts ++ us) s₂ := by
  unfold Runs
  rw [List.foldlM_append]
  exact bind_eq_ok.mpr ⟨s₁, h, hr⟩

/-- The state with another level, in which the latest child is fresh and `ns` are the names that are new. -/
structure Leads (s s' : State) (level : Level) (ns : List Bytes) : Prop where
  level : s'.level = level
  opened : s'.opened = s.opened
  phase : s'.phase = .between true
  names : s'.symbols.names = ns.reverse ++ s.symbols.names

/-- Names that may be used, each of them once. -/
def Unused (s : State) (ns : List Bytes) : Prop :=
  ns.Nodup ∧ ∀ n ∈ ns, n ∉ s.symbols.names

theorem Unused.left {s : State} {ns ms : List Bytes} (h : Unused s (ns ++ ms)) : Unused s ns :=
  ⟨(List.nodup_append.mp h.1).1, fun n hn => h.2 n (List.mem_append_left _ hn)⟩

theorem Unused.right {s s' : State} {ns ms : List Bytes} (h : Unused s (ns ++ ms))
    (hs : s'.symbols.names = ns.reverse ++ s.symbols.names) : Unused s' ms := by
  obtain ⟨_, hms, hdisj⟩ := List.nodup_append.mp h.1
  refine ⟨hms, fun n hn hmem => ?_⟩
  rw [hs] at hmem
  rcases List.mem_append.mp hmem with hmem | hmem
  · exact hdisj n (List.mem_reverse.mp hmem) n hn rfl
  · exact h.2 n (List.mem_append_right _ hn) hmem

theorem exists_declare {s : State} {name : Token} {ns : List Bytes} (h : Unused s (name.text :: ns)) :
    ∃ s₁, s.declare name = .ok s₁ ∧ s₁.level = s.level ∧ s₁.opened = s.opened ∧ s₁.phase = s.phase ∧
      s₁.symbols.names = name.text :: s.symbols.names := by
  obtain ⟨s₁, hd⟩ := declare_fresh (h.2 name.text (by simp))
  exact ⟨s₁, hd, (declare_eq_ok hd).2⟩

/-! ## What the tokens of a derivation do -/

def ItemRuns (r : Reading) (ts : List Terminal) (p : Pattern) : Prop :=
  ItemAdmissible r.knownType p → ∀ (toks : List Token) (s : State) (fresh : Bool), toks.map Token.terminal = ts →
    s.phase = .between fresh → s.level.full = false → Unused s (Pattern.namesOf [p]) →
    ∃ s', Runs r s toks s' ∧ Leads s s' (s.level.add p) (Pattern.namesOf [p])

def ItemsRun (r : Reading) (ts : List Terminal) (ps : List Pattern) : Prop :=
  AlternativesAdmissible r.knownType [ps] → ∀ (toks : List Token) (s : State) (fresh : Bool),
    toks.map Token.terminal = ts → s.phase = .between fresh → s.level.children = [] → Unused s (Pattern.namesOf ps) →
    ∃ s', Runs r s toks s' ∧ Leads s s' { s.level with children := ps.reverse } (Pattern.namesOf ps)

def AlternativesRun (r : Reading) (ts : List Terminal) (as : List (List Pattern)) : Prop :=
  AlternativesAdmissible r.knownType as → ∀ (toks : List Token) (s : State) (fresh : Bool),
    toks.map Token.terminal = ts → s.phase = .between fresh → s.level = {} → Divisible s.opened →
    Unused s (Pattern.namesOf as.flatten) →
    ∃ s' level, Runs r s toks s' ∧ Leads s s' level (Pattern.namesOf as.flatten) ∧
      level.alternatives = as ∧ level.children ≠ []

/-! ## Leaves -/

theorem run_modifiers {ms : List Modifier} {toks : List Token} {s : State} {text : Bytes} {c o : Bool}
    {rest : List Pattern} (hm : toks.map Token.terminal = ms.map fun m => .mark m.mark) (hp : s.phase = .between true)
    (hc : s.level.children = .literal text c o :: rest) :
    Runs r s toks { s with
      level.children := .literal text (c && !ms.contains .caseInsensitive) (o || ms.contains .tolerant) :: rest } := by
  induction ms generalizing toks s c o with
  | nil =>
    rw [List.map_nil, List.map_eq_nil_iff] at hm
    subst hm
    obtain ⟨⟨variants, children⟩, opened, phase, symbols⟩ := s
    simp only at hc
    subst hc
    simpa using Runs.nil _
  | cons m ms ih =>
    obtain ⟨t, toks, rfl, ht, hms⟩ := List.map_eq_cons_iff.mp hm
    have h₁ := Moves.modify (r := r) (Token.kind_eq_mark ht) hp hc
    cases m with
    | caseInsensitive =>
      have h₂ := ih (s := { s with level.children := .literal text false o :: rest }) hms hp rfl
      simpa [List.contains_cons] using Runs.cons h₁ h₂
    | tolerant =>
      have h₂ := ih (s := { s with level.children := .literal text c true :: rest }) hms hp rfl
      simpa [List.contains_cons] using Runs.cons h₁ h₂

theorem run_literal (text : Bytes) (ms : List Modifier) :
    ItemRuns r (.symbol text :: ms.map fun m => .mark m.mark) (modified r.caseSensitive text ms) := by
  intro _ toks s fresh hts hp hf _
  obtain ⟨t, toks, rfl, ht, hm⟩ := List.map_eq_cons_iff.mp hts
  obtain ⟨hk, rfl⟩ := Token.kind_eq_symbol ht
  have h₁ := Moves.literal (r := r) hk hp hf
  have h₂ := run_modifiers (r := r) (s := s.append (.literal t.text r.caseSensitive false)) hm rfl rfl
  refine ⟨_, Runs.cons h₁ h₂, ?_, rfl, rfl, rfl⟩
  simp [State.append, Level.add, modified]

/-- The closing mark of a parameter or a tail. -/
theorem run_close {s : State} {t name : Token} {p : Pattern} (hk : t.kind = .mark .parameterClosing)
    (hc : s.phase.complete? = some (name, p)) (ha : ItemAdmissible r.knownType p)
    (hn : Pattern.namesOf [p] = [name.text]) (hu : Unused s (Pattern.namesOf [p])) :
    ∃ s', Runs r s [t] s' ∧ Leads s s' (s.level.add p) (Pattern.namesOf [p]) := by
  rw [hn] at hu ⊢
  obtain ⟨s₁, hd, hl, ho, _, hns⟩ := exists_declare hu
  have hty : ∀ type ∈ p.type?, r.knownType type = true := by
    refine (ha p ?_).typeKnown
    cases p <;> simp [Pattern.nodes]
  exact ⟨s₁.append p, .cons (.closeParameter hk hc hd hty) (.nil _), by simp [State.append, hl], ho, rfl, hns⟩

theorem run_parameter {us : List Terminal} (name : Bytes) (type : Option Bytes) (hs : Suffix us type) :
    ItemRuns r (.mark .parameterOpening :: .symbol name :: us ++ [.mark .parameterClosing]) (.parameter name type) := by
  intro ha toks s fresh hts hp hf hu
  obtain ⟨t₀, toks₀, rfl, ht₀, hts₀⟩ := List.map_eq_cons_iff.mp hts
  obtain ⟨t₁, toks₁, rfl, ht₁, hts₁⟩ := List.map_eq_cons_iff.mp hts₀
  obtain ⟨hk₁, rfl⟩ := Token.kind_eq_symbol ht₁
  have h₀ : Moves r s t₀ { s with phase := .parameter t₀ } := .openParameter (Token.kind_eq_mark ht₀) hp hf
  have h₁ : Moves r { s with phase := .parameter t₀ } t₁ { s with phase := .named t₀ t₁ } := .name hk₁ rfl
  cases hs with
  | absent =>
    obtain ⟨t₂, rfl, ht₂⟩ := List.map_eq_singleton_iff.mp hts₁
    obtain ⟨s', hr, hl⟩ := run_close (r := r) (s := { s with phase := .named t₀ t₁ }) (Token.kind_eq_mark ht₂) rfl ha rfl hu
    exact ⟨s', .cons h₀ (.cons h₁ hr), hl.level, hl.opened, hl.phase, hl.names⟩
  | present text =>
    obtain ⟨t₂, toks₂, rfl, ht₂, hts₂⟩ := List.map_eq_cons_iff.mp hts₁
    obtain ⟨t₃, toks₃, rfl, ht₃, hts₃⟩ := List.map_eq_cons_iff.mp hts₂
    obtain ⟨t₄, rfl, ht₄⟩ := List.map_eq_singleton_iff.mp hts₃
    obtain ⟨hk₃, rfl⟩ := Token.kind_eq_symbol ht₃
    have h₂ : Moves r { s with phase := .named t₀ t₁ } t₂ { s with phase := .awaitingType t₀ t₁ } :=
      .awaitType (Token.kind_eq_mark ht₂) rfl
    have h₃ : Moves r { s with phase := .awaitingType t₀ t₁ } t₃ { s with phase := .typed t₀ t₁ t₃ } := .type hk₃ rfl
    obtain ⟨s', hr, hl⟩ := run_close (r := r) (s := { s with phase := .typed t₀ t₁ t₃ }) (Token.kind_eq_mark ht₄) rfl ha
      rfl hu
    exact ⟨s', .cons h₀ (.cons h₁ (.cons h₂ (.cons h₃ hr))), hl.level, hl.opened, hl.phase, hl.names⟩

theorem run_tail (name : Bytes) (raw : Bool) :
    ItemRuns r (.mark .parameterOpening :: .symbol name :: .mark .tail :: rawMark raw ++ [.mark .parameterClosing])
      (.tail name raw) := by
  intro ha toks s fresh hts hp hf hu
  obtain ⟨t₀, toks₀, rfl, ht₀, hts₀⟩ := List.map_eq_cons_iff.mp hts
  obtain ⟨t₁, toks₁, rfl, ht₁, hts₁⟩ := List.map_eq_cons_iff.mp hts₀
  obtain ⟨t₂, toks₂, rfl, ht₂, hts₂⟩ := List.map_eq_cons_iff.mp hts₁
  obtain ⟨hk₁, rfl⟩ := Token.kind_eq_symbol ht₁
  have h₀ : Moves r s t₀ { s with phase := .parameter t₀ } := .openParameter (Token.kind_eq_mark ht₀) hp hf
  have h₁ : Moves r { s with phase := .parameter t₀ } t₁ { s with phase := .named t₀ t₁ } := .name hk₁ rfl
  have h₂ : Moves r { s with phase := .named t₀ t₁ } t₂ { s with phase := .tail t₀ t₁ false } :=
    .markTail (Token.kind_eq_mark ht₂) rfl
  cases raw with
  | false =>
    obtain ⟨t₃, rfl, ht₃⟩ := List.map_eq_singleton_iff.mp hts₂
    obtain ⟨s', hr, hl⟩ := run_close (r := r) (s := { s with phase := .tail t₀ t₁ false }) (Token.kind_eq_mark ht₃) rfl ha
      rfl hu
    exact ⟨s', .cons h₀ (.cons h₁ (.cons h₂ hr)), hl.level, hl.opened, hl.phase, hl.names⟩
  | true =>
    obtain ⟨t₃, toks₃, rfl, ht₃, hts₃⟩ := List.map_eq_cons_iff.mp hts₂
    obtain ⟨t₄, rfl, ht₄⟩ := List.map_eq_singleton_iff.mp hts₃
    have h₃ : Moves r { s with phase := .tail t₀ t₁ false } t₃ { s with phase := .tail t₀ t₁ true } :=
      .markRaw (Token.kind_eq_mark ht₃) rfl
    obtain ⟨s', hr, hl⟩ := run_close (r := r) (s := { s with phase := .tail t₀ t₁ true }) (Token.kind_eq_mark ht₄) rfl ha
      rfl hu
    exact ⟨s', .cons h₀ (.cons h₁ (.cons h₂ (.cons h₃ hr))), hl.level, hl.opened, hl.phase, hl.names⟩

/-! ## Lists -/

theorem run_one {ts : List Terminal} {p : Pattern} (h : ItemRuns r ts p) : ItemsRun r ts [p] := by
  intro ha toks s fresh hts hp hc hu
  obtain ⟨s', hr, hl⟩ := h (alternativesAdmissible_single.mp ha) toks s fresh hts hp (by simp [Level.full, hc]) hu
  exact ⟨s', hr, by simp [hl.level, Level.add, hc], hl.opened, hl.phase, hl.names⟩

theorem run_more {ts us : List Terminal} {ps : List Pattern} {p : Pattern} (hs : ItemsRun r ts ps)
    (h : ItemRuns r us p) : ItemsRun r (ts ++ us) (ps ++ [p]) := by
  intro ha toks s fresh hts hp hc hu
  obtain ⟨toks₁, toks₂, rfl, hts₁, hts₂⟩ := List.map_eq_append_iff.mp hts
  obtain ⟨hps, hlast, hip⟩ := alternativesAdmissible_snoc.mp ha
  rw [Pattern.namesOf_append] at hu
  obtain ⟨s₁, hr₁, hl₁⟩ := hs hps toks₁ s fresh hts₁ hp hc hu.left
  have hf : s₁.level.full = false := by
    rw [Level.not_full_iff, hl₁.level]
    intro c hc
    exact hlast c (List.mem_reverse.mp (List.mem_of_mem_head? hc))
  obtain ⟨s₂, hr₂, hl₂⟩ := h hip toks₂ s₁ true hts₂ hl₁.phase hf (hu.right hl₁.names)
  refine ⟨s₂, hr₁.append hr₂, ?_, hl₂.opened.trans hl₁.opened, hl₂.phase, ?_⟩
  · simp [hl₂.level, hl₁.level, Level.add]
  · simp [hl₂.names, hl₁.names, Pattern.namesOf_append]

theorem run_one_alternative {ts : List Terminal} {ps : List Pattern} (h : ItemsRun r ts ps) (hne : ps ≠ []) :
    AlternativesRun r ts [ps] := by
  intro ha toks s fresh hts hp hl hb hu
  obtain ⟨s', hr, hl'⟩ := h ha toks s fresh hts hp (by rw [hl]) (by simpa using hu)
  refine ⟨s', { s.level with children := ps.reverse }, hr, ⟨hl'.level, hl'.opened, hl'.phase, by simpa using hl'.names⟩, ?_, ?_⟩
  · rw [hl, Level.alternatives_of_undivided rfl, List.reverse_reverse]
  · simpa using hne

theorem run_more_alternatives {ts us : List Terminal} {as : List (List Pattern)} {ps : List Pattern}
    (hs : AlternativesRun r ts as) (h : ItemsRun r us ps) (hne : ps ≠ []) :
    AlternativesRun r (ts ++ .mark .divider :: us) (as ++ [ps]) := by
  intro ha toks s fresh hts hp hl hb hu
  obtain ⟨toks₁, toks₂, rfl, hts₁, hts₂⟩ := List.map_eq_append_iff.mp hts
  obtain ⟨t, toks₂, rfl, ht, hts₃⟩ := List.map_eq_cons_iff.mp hts₂
  rw [alternativesAdmissible_append] at ha
  rw [List.flatten_append, Pattern.namesOf_append] at hu
  obtain ⟨s₁, level, hr₁, hl₁, hal, hch⟩ := hs ha.1 toks₁ s fresh hts₁ hp hl hb hu.left
  have hd : Moves r s₁ t { s₁ with level := s₁.level.divide t, phase := .between false } :=
    .divide (Token.kind_eq_mark ht) hl₁.phase (by rw [hl₁.opened]; exact hb) (by rw [hl₁.level]; exact hch)
  have hu₂ : Unused s₁ (Pattern.namesOf ps) := by simpa using hu.right hl₁.names
  obtain ⟨s₂, hr₂, hl₂⟩ :=
    h ha.2 toks₂ { s₁ with level := s₁.level.divide t, phase := .between false } false hts₃ rfl rfl hu₂
  refine ⟨s₂, _, hr₁.append (.cons hd hr₂), ⟨hl₂.level, hl₂.opened.trans hl₁.opened, hl₂.phase, ?_⟩, ?_, ?_⟩
  · simp [hl₂.names, hl₁.names, Pattern.namesOf_append]
  · have hal' : s₁.level.alternatives = as := by rw [hl₁.level]; exact hal
    rw [Level.alternatives_eq] at hal' ⊢
    simp [Level.divide, ← hal']
  · simpa using hne

/-! ## Brackets -/

/-- A bracket with its identifier: `p` is the pattern of the bracket for each identifier. -/
theorem run_bracket {b : Bracket} {ts us : List Terminal} {id : Option Bytes} {ns : List Bytes}
    {p : Option Bytes → Pattern} (hs : Suffix us id)
    (inside : ∀ (toks : List Token) (s : State), toks.map Token.terminal = ts → s.phase = .between false →
      s.level = {} → (∀ o ∈ s.opened.head?, o.bracket = b) → Unused s ns →
      ∃ s' level, Runs r s toks s' ∧ Leads s s' level ns ∧ group b level = p none ∧ level.children ≠ [])
    (hw : id.isSome → (p none).writtenIdentifier? = some none) (hid : ∀ x ∈ id, (p none).identify x = p (some x))
    {toks : List Token} {s : State} {fresh : Bool}
    (hts : toks.map Token.terminal = .mark (.opening b) :: ts ++ .mark (.closing b) :: us)
    (hp : s.phase = .between fresh) (hf : s.level.full = false) (hu : Unused s (ns ++ id.toList)) :
    ∃ s', Runs r s toks s' ∧ Leads s s' (s.level.add (p id)) (ns ++ id.toList) := by
  obtain ⟨t₀, toks₀, rfl, ht₀, hts₀⟩ := List.map_eq_cons_iff.mp hts
  obtain ⟨toks₁, toks₂, rfl, hts₁, hts₂⟩ := List.map_eq_append_iff.mp hts₀
  obtain ⟨t₁, toks₃, rfl, ht₁, hts₃⟩ := List.map_eq_cons_iff.mp hts₂
  let s₀ : State := { s with level := {}, opened := ⟨b, t₀, s.level⟩ :: s.opened, phase := .between false }
  have h₀ : Moves r s t₀ s₀ := .openGroup (Token.kind_eq_mark ht₀) hp hf
  obtain ⟨s₁, level, hr₁, hl₁, hg, hch⟩ := inside toks₁ s₀ hts₁ rfl rfl (by intro o ho; cases ho; rfl) hu.left
  have h₁ : Moves r s₁ t₁ ({ s₁ with level := s.level, opened := s.opened }.append (group b s₁.level)) :=
    .closeGroup (o := ⟨b, t₀, s.level⟩) (Token.kind_eq_mark ht₁) hl₁.phase hl₁.opened (by rw [hl₁.level]; exact hch)
  rw [hl₁.level, hg] at h₁
  let s₂ : State := { s₁ with level := s.level, opened := s.opened }.append (p none)
  have hclosed : Runs r s (t₀ :: (toks₁ ++ [t₁])) s₂ := .cons h₀ (hr₁.append (.cons h₁ (.nil _)))
  have hn₂ : s₂.symbols.names = ns.reverse ++ s.symbols.names := hl₁.names
  cases hs with
  | absent =>
    rw [List.map_eq_nil_iff] at hts₃
    subst hts₃
    exact ⟨s₂, hclosed, rfl, rfl, rfl, by simpa using hn₂⟩
  | present x =>
    obtain ⟨t₂, toks₄, rfl, ht₂, hts₄⟩ := List.map_eq_cons_iff.mp hts₃
    obtain ⟨t₃, rfl, ht₃⟩ := List.map_eq_singleton_iff.mp hts₄
    obtain ⟨hk₃, rfl⟩ := Token.kind_eq_symbol ht₃
    -- the closed bracket is fresh and has no identifier, so that this one is its own
    have h₂ : Moves r s₂ t₂ { s₂ with phase := .identifier t₂ } :=
      .awaitIdentifier (Token.kind_eq_mark ht₂) rfl rfl (hw rfl)
    have hu₃ : Unused { s₂ with phase := .identifier t₂ } [t₃.text] := hu.right hl₁.names
    obtain ⟨s₃, hd, hl, ho, _, hns⟩ := exists_declare hu₃
    have h₃ := Moves.identifier (r := r) hk₃ (s := { s₂ with phase := .identifier t₂ }) rfl hd
    have hall := hclosed.append (.cons h₂ (.cons h₃ (.nil _)))
    simp only [List.cons_append, List.append_assoc, List.nil_append] at hall
    refine ⟨_, hall, ?_, ho, rfl, ?_⟩
    · show s₃.level.amend _ = _
      rw [hl]
      show (s.level.add (p none)).amend _ = _
      simp [Level.amend, Level.add, hid _ rfl]
    · show s₃.symbols.names = _
      rw [hns, hn₂]
      simp

theorem run_parenthesized {ts us : List Terminal} {as : List (List Pattern)} {id : Option Bytes}
    (h : AlternativesRun r ts as) (hne : as ≠ []) (hs : Suffix us id) (hid : id.isSome → 2 ≤ as.length) :
    ItemRuns r (.mark (.opening .sequence) :: ts ++ .mark (.closing .sequence) :: us) (parenthesized as id) := by
  intro ha toks s fresh hts hp hf hu
  rw [namesOf_parenthesized as id hid hne] at hu ⊢
  refine run_bracket (p := parenthesized as) hs ?_ (fun h => writtenIdentifier_parenthesized (hid h)) ?_ hts hp hf hu
  · intro toks s hts hp hl hb hu
    obtain ⟨s', level, hr, hl', hal, hch⟩ := h ((itemAdmissible_parenthesized hne).mp ha) toks s false hts hp hl
      (fun o ho => by simp [hb o ho]) hu
    exact ⟨s', level, hr, hl', by rw [group_sequence_eq, hal], hch⟩
  · intro x hx
    exact identify_parenthesized x (hid (by rw [Option.mem_def.mp hx]; rfl))

theorem run_bracketed {ts us ws : List Terminal} {as : List (List Pattern)} {id : Option Bytes}
    (h : AlternativesRun r ts as) (hd : Alternatives r.caseSensitive ws as) (hs : Suffix us id) :
    ItemRuns r (.mark (.opening .optional) :: ts ++ .mark (.closing .optional) :: us) (bracketed as id) := by
  intro ha toks s fresh hts hp hf hu
  rw [namesOf_bracketed as id hd.ne_nil] at hu ⊢
  refine run_bracket (p := bracketed as) hs ?_ (fun _ => writtenIdentifier_bracketed hd)
    (fun x _ => identify_bracketed x hd) hts hp hf hu
  intro toks s hts hp hl hb hu
  obtain ⟨s', level, hr, hl', hal, hch⟩ := h ((itemAdmissible_bracketed hd.ne_nil).mp ha) toks s false hts hp hl
    (fun o ho => by simp [hb o ho]) hu
  exact ⟨s', level, hr, hl', by rw [group_optional_eq, hal], hch⟩

theorem run_braced {ts us : List Terminal} {ps : List Pattern} {id : Option Bytes} (h : ItemsRun r ts ps)
    (hne : ps ≠ []) (hs : Suffix us id) :
    ItemRuns r (.mark (.opening .unordered) :: ts ++ .mark (.closing .unordered) :: us) (.unordered ps id) := by
  intro ha toks s fresh hts hp hf hu
  rw [namesOf_braced ps id] at hu ⊢
  refine run_bracket (p := .unordered ps) hs ?_ (fun _ => rfl) (fun x _ => rfl) hts hp hf hu
  intro toks s hts hp hl hb hu
  obtain ⟨s', hr, hl'⟩ := h (itemAdmissible_unordered.mp ha) toks s false hts hp (by rw [hl]) hu
  refine ⟨s', _, hr, hl', ?_, by simpa using hne⟩
  rw [group_unordered_eq (by rw [hl])]
  simp

/-! ## Derivations -/

mutual

theorem Item.runs {ts : List Terminal} {p : Pattern} (h : Item r.caseSensitive ts p) : ItemRuns r ts p := by
  match h with
  | .literal text ms => exact run_literal text ms
  | .parameter name type hs => exact run_parameter name type hs
  | .tail name raw => exact run_tail name raw
  | .parenthesized ha hs hid => exact run_parenthesized ha.runs ha.ne_nil hs hid
  | .bracketed ha hs => exact run_bracketed ha.runs ha hs
  | .braced hi hs => exact run_braced hi.runs hi.ne_nil hs

theorem Items.runs {ts : List Terminal} {ps : List Pattern} (h : Items r.caseSensitive ts ps) : ItemsRun r ts ps := by
  match h with
  | .one hi => exact run_one hi.runs
  | .more hs hi => exact run_more hs.runs hi.runs

theorem Alternatives.runs {ts : List Terminal} {as : List (List Pattern)} (h : Alternatives r.caseSensitive ts as) :
    AlternativesRun r ts as := by
  match h with
  | .one hi => exact run_one_alternative hi.runs hi.ne_nil
  | .more hs hi => exact run_more_alternatives hs.runs hi.runs hi.ne_nil

end

theorem admissible_unbracketed {known : Bytes → Bool} {as : List (List Pattern)} (hne : as ≠ []) :
    ItemAdmissible known (.sequence (unbracketed as)) ↔ AlternativesAdmissible known as := by
  rw [itemAdmissible_sequence]
  rcases one_or_two hne with ⟨ps, rfl⟩ | h2
  · rfl
  · rw [unbracketed_of_two h2, alternativesAdmissible_single]
    exact itemAdmissible_variants

theorem parse_of_root {ts : List Token} {items : List Pattern}
    (h : Root r.caseSensitive (ts.map Token.terminal) items) (ha : Admissible r.knownType items) :
    parse r ts = .ok items := by
  refine bind_eq_ok.mpr ?_
  generalize hts : ts.map Token.terminal = us at h
  cases h with
  | empty =>
    rw [List.map_eq_nil_iff] at hts
    subst hts
    exact ⟨{}, rfl, rfl⟩
  | @alternatives us as hd =>
    have hu : Unused {} (Pattern.namesOf as.flatten) := by
      rw [← namesOf_unbracketed as hd.ne_nil]
      exact ⟨ha.namesNodup, by simp⟩
    obtain ⟨s, level, hr, hl, hal, hch⟩ := hd.runs ((admissible_unbracketed hd.ne_nil).mp ha.nodes) ts {} false hts rfl rfl
      (by intro o ho; cases ho) hu
    refine ⟨s, hr, ?_⟩
    have ho : s.opened = [] := hl.opened
    have hc : s.level.contents = unbracketed as := by rw [s.level.contents_eq, hl.level, hal]
    unfold State.finish
    simp only [hl.phase, ho]
    split
    · rename_i hnil _
      exact absurd hnil (by rw [hl.level]; exact hch)
    · rw [hc]

theorem parse_eq_ok {ts : List Token} {items : List Pattern} :
    parse r ts = .ok items ↔
      Root r.caseSensitive (ts.map Token.terminal) items ∧ Admissible r.knownType items :=
  ⟨root_of_parse, fun h => parse_of_root h.1 h.2⟩

/-! ## Compiling -/

/-- Whether a grammar compiles does not depend on how it is simplified, only what the items become does. -/
theorem compile_eq_simplify (cfg : Config) (known : Bytes → Bool) (grammar : Bytes) :
    compile cfg known grammar = (parse ⟨cfg.caseSensitive, known⟩ (tokens cfg.specials grammar)).map
      fun items => ⟨(simplify cfg.simplify grammar items).1, grammar, cfg.specials⟩ := by
  simp only [compile, compileNoted]
  cases parse ⟨cfg.caseSensitive, known⟩ (tokens cfg.specials grammar) <;> rfl

theorem map_eq_ok {ε α β : Type} {x : Except ε α} {f : α → β} {b : β} :
    x.map f = .ok b ↔ ∃ a, x = .ok a ∧ b = f a := by
  cases x with
  | error e => simp [Except.map]
  | ok a => simp [Except.map, eq_comm]

theorem flatten_rootOf (items : List Pattern) : (rootOf items).flatten = (Pattern.sequence items).flatten := by
  unfold rootOf
  split
  · rw [Pattern.flatten, Pattern.flatten, Pattern.flattenIn]
  · rfl

/-- A grammar compiles exactly when the rules derive its tokens and what they describe keeps to the other rules;
    the result is the pattern of the derivation. -/
theorem compile_eq_ok_iff (cfg : Config) (known : Bytes → Bool) (grammar : Bytes) (c : Compiled) :
    compile { cfg with simplify := .no } known grammar = .ok c ↔
      ∃ items, Root cfg.caseSensitive ((tokens cfg.specials grammar).map Token.terminal) items ∧
        Admissible known items ∧ c = ⟨.sequence items, grammar, cfg.specials⟩ := by
  rw [compile_eq_simplify, map_eq_ok]
  constructor
  · rintro ⟨items, hp, hc⟩
    obtain ⟨hr, ha⟩ := parse_eq_ok.mp hp
    exact ⟨items, hr, ha, hc⟩
  · rintro ⟨items, hr, ha, hc⟩
    exact ⟨items, parse_eq_ok.mpr ⟨hr, ha⟩, hc⟩

end CommandGrammar.Grammar
