/-
  CommandGrammar.Proofs.Matching.Literals — grammars of nothing but literals.

  A grammar without marks compiles to one literal for each of its words, and a call
  matches it exactly if the tokens of the call say these words, one by one. So the text
  of the grammar, taken for a call, matches the grammar exactly if it stands for itself
  (`compile_accepts_own_text`): in a call a quote or two escapes may stand for something
  else, as they never do in a grammar.
-/

import CommandGrammar.Proofs.Call.Faithful
import CommandGrammar.Proofs.Grammar.Accepts
import CommandGrammar.Proofs.Grammar.Lexing
import CommandGrammar.Proofs.Matching.Answers
import CommandGrammar.Proofs.Pattern.Canonical
import Mathlib

namespace CommandGrammar

namespace Grammar

/-! ## Compiling -/

variable {sp : Specials}

/-- A text without marks is cut at its blanks. -/
theorem read_words (rest : Bytes) : ∀ {run : Bytes}, (∀ b ∈ run, isBlank b = false) →
    (∀ m, sp.text m ≠ [] → ¬ sp.text m <:+: run ++ rest) →
      read sp run rest = (Bytes.wordsFrom run rest).map .symbol := by
  induction rest with
  | nil =>
    intro run _ _
    rw [read_nil, Bytes.wordsFrom_nil, word, Bytes.word]
    split <;> rfl
  | cons c rest ih =>
    intro run hrun hmark
    cases hc : isBlank c with
    | true =>
      have hrest := ih (List.forall_mem_nil _) fun m hm h => hmark m hm (h.trans ⟨run ++ [c], [], by simp⟩)
      rw [read_blank hc, Bytes.wordsFrom_blank run hc, List.map_append, hrest, word, Bytes.word]
      split <;> rfl
    | false =>
      have hgrown : Plain sp (run ++ [c]) := {
        noBlank := List.forall_mem_append.mpr ⟨hrun, by simpa using hc⟩
        noMark := fun m hm h => hmark m hm (h.trans ⟨[], rest, by simp⟩) }
      have hstep := read_plain [c] hgrown rest
      rw [List.singleton_append] at hstep
      rw [hstep, Bytes.wordsFrom_other run hc]
      exact ih hgrown.noBlank fun m hm h => hmark m hm (by simpa using h)

/-- Literals without modifiers. -/
def literals (texts : List Bytes) : List Pattern :=
  texts.map fun text => .literal text true false

theorem items_literals {texts : List Bytes} (h : texts ≠ []) : Items true (texts.map .symbol) (literals texts) := by
  induction texts using List.reverseRecOn with
  | nil => exact absurd rfl h
  | append_singleton texts text ih =>
    have hitem : Item true [.symbol text] (.literal text true false) := .literal text []
    by_cases htexts : texts = []
    · rw [htexts]
      exact .one hitem
    · rw [literals, List.map_append, List.map_append]
      exact .more (ih htexts) hitem

theorem root_literals (texts : List Bytes) : Root true (texts.map .symbol) (literals texts) := by
  by_cases h : texts = []
  · rw [h]
    exact .empty
  · exact .alternatives (.one (items_literals h))

theorem nodesOf_literals (texts : List Bytes) : Pattern.nodesOf (literals texts) = literals texts := by
  rw [Pattern.nodesOf_eq_flatMap, literals, List.flatMap_map]
  exact List.flatMap_pure_eq_map _ texts

theorem forall_mem_literals {P : Pattern → Prop} (h : ∀ text, P (.literal text true false)) (texts : List Bytes) :
    ∀ p ∈ literals texts, P p := by
  intro p hp
  obtain ⟨text, -, rfl⟩ := List.mem_map.mp hp
  exact h text

theorem forall_mem_nodes_literals {P : Pattern → Prop} {texts : List Bytes} (h : ∀ text, P (.literal text true false))
    (hroot : P (.sequence (literals texts))) : ∀ q ∈ (Pattern.sequence (literals texts)).nodes, P q := by
  refine Pattern.forall_mem_nodes.mpr ⟨hroot, fun cs hcs => ?_⟩
  rw [List.mem_singleton.mp hcs, nodesOf_literals]
  exact forall_mem_literals h texts

theorem admissible_literals (known : Bytes → Bool) (texts : List Bytes) : Admissible known (literals texts) where
  namesNodup := by
    have hnone : Pattern.namesOf (literals texts) = [] := by
      rw [Pattern.namesOf, nodesOf_literals, List.filterMap_eq_nil_iff]
      exact forall_mem_literals (fun _ => rfl) texts
    rw [hnone]
    exact List.nodup_nil
  nodes := by
    have hliteral : ∀ text, NodeAdmissible known (.literal text true false) := fun text =>
      ⟨by simp [Pattern.type?], by simp [Pattern.TailsLast, Pattern.childLists]⟩
    refine forall_mem_nodes_literals hliteral ⟨by simp [Pattern.type?], ?_⟩
    have hends : ∀ p ∈ literals texts, p.endsInTail = false := forall_mem_literals (fun _ => rfl) texts
    intro cs hcs p hp
    rw [List.mem_singleton.mp hcs] at hp
    exact hends p (List.mem_of_mem_dropLast hp)

/-- There is nothing to be simplified about literals. -/
theorem flatten_literals (texts : List Bytes) : (rootOf (literals texts)).flatten = rootOf (literals texts) := by
  match texts with
  | [] => rfl
  | [text] => exact Pattern.flattenIn_leaf (.literal text true false) false true
  | text :: next :: texts =>
    have hroot : rootOf (literals (text :: next :: texts)) = .sequence (literals (text :: next :: texts)) := rfl
    have hinline : Pattern.Inline (literals (text :: next :: texts)) := forall_mem_literals (fun _ => ⟨rfl, rfl⟩) _
    have hlen : 2 ≤ (literals (text :: next :: texts)).length := by simp [literals]
    rw [hroot]
    exact Pattern.flattenIn_of_canonical (forall_mem_nodes_literals (fun _ => trivial) ⟨hlen, hinline⟩) false true

/-- A text without marks compiles to its words. -/
theorem compile_words (known : Bytes → Bool) {text : Bytes} (h : ∀ m, ¬ Specials.standard.text m <:+: text) :
    compile {} known text = .ok ⟨rootOf (literals text.words), text, .standard⟩ := by
  have hread : (tokens .standard text).map Token.terminal = text.words.map .symbol := by
    rw [tokens_terminals, Bytes.words_eq]
    exact read_words text (by simp) fun m _ => h m
  have hparse : parse ⟨true, known⟩ (tokens .standard text) = .ok (literals text.words) :=
    parse_eq_ok.mpr ⟨hread ▸ root_literals text.words, admissible_literals known text.words⟩
  rw [compile_eq_simplify, hparse]
  simp only [Except.map, simplify, flatten_literals]

end Grammar

/-! ## Matching -/

open Grammar (literals rootOf)

variable {policy : Policy Rat} {m m' : Progress Rat}

/-- A literal takes the word that is equal to it. -/
theorem literal_taken {text : Bytes} {caseSensitive : Bool} (tolerant : Bool) {t : Call.Token} {left : List Call.Token}
    (hopen : m.terminated = false) (htokens : m.tokens = t :: left)
    (hequal : policy.equal text t.value caseSensitive = true) :
    (Pattern.literal text caseSensitive tolerant).attempt policy m =
      .matched { m with tokens := left, score := m.score + policy.literalScore } := by
  rw [Pattern.attempt, unlessTerminated_open hopen]
  unfold attemptLiteral
  simp only [htokens]
  rw [if_pos hequal]
  simp [Progress.consume, Progress.addScore, htokens]

/-- A literal takes no word that is neither equal to it nor, if it is tolerant, close to it. -/
theorem literal_declined {text : Bytes} {caseSensitive tolerant : Bool} {t : Call.Token} {left : List Call.Token}
    (htokens : m.tokens = t :: left) (hequal : policy.equal text t.value caseSensitive = false)
    (hclose : tolerant = true → policy.similarity text t.value caseSensitive < policy.literalThreshold) :
    (Pattern.literal text caseSensitive tolerant).attempt policy m ≠ .matched m' := by
  intro h
  obtain ⟨-, h⟩ := unlessTerminated_eq_matched.mp h
  unfold attemptLiteral at h
  simp only [htokens, hequal, Bool.false_eq_true, if_false] at h
  split at h
  · rename_i hle
    split at h
    · rename_i htolerant
      exact not_le.mpr (hclose htolerant) hle
    · cases h
  · cases h

theorem literal_eq_matched {text : Bytes} :
    (Pattern.literal text true false).attempt policy m = .matched m' ↔
      m.terminated = false ∧ ∃ t left, m.tokens = t :: left ∧ policy.equal text t.value true = true ∧
        m' = { m with tokens := left, score := m.score + policy.literalScore } := by
  constructor
  · intro h
    have hopen : m.terminated = false := (unlessTerminated_eq_matched.mp h).1
    cases htokens : m.tokens with
    | nil =>
      rw [Pattern.attempt, unlessTerminated_open hopen, attemptLiteral, htokens] at h
      cases h
    | cons t left =>
      cases hequal : policy.equal text t.value true with
      | false => exact absurd h (literal_declined htokens hequal (by simp))
      | true =>
        rw [literal_taken false hopen htokens hequal] at h
        cases h
        exact ⟨hopen, t, left, rfl, hequal, rfl⟩
  · rintro ⟨hopen, t, left, htokens, hequal, rfl⟩
    exact literal_taken false hopen htokens hequal

/-- One word more scores once more. -/
theorem score_cons {α : Type} (s d : Rat) (x : α) (xs : List α) : s + d + xs.length * d = s + (x :: xs).length * d := by
  rw [List.length_cons, Nat.cast_add, Nat.cast_one]
  ring

/-- Literals take one token each, and all of them score the same. -/
theorem literals_eq_matched (texts : List Bytes) : ∀ {m : Progress Rat}, m.terminated = false →
    (inOrder (Pattern.attemptEach policy (literals texts)) m = .matched m' ↔
      ∃ taken left, m.tokens = taken ++ left ∧
        List.Forall₂ (fun text value => policy.equal text value true = true) texts (taken.map (·.value)) ∧
        m' = { m with tokens := left, score := m.score + texts.length * policy.literalScore }) := by
  induction texts with
  | nil =>
    intro m _
    have hscore : m.score + ((([] : List Bytes).length : Nat) : Rat) * policy.literalScore = m.score := by simp
    constructor
    · intro h
      cases h
      exact ⟨[], _, rfl, .nil, by rw [hscore]⟩
    · rintro ⟨taken, left, htokens, hall, rfl⟩
      have htaken : taken = [] := List.map_eq_nil_iff.mp (List.forall₂_nil_left_iff.mp hall)
      rw [htaken, List.nil_append] at htokens
      rw [hscore, ← htokens]
      rfl
  | cons text texts ih =>
    intro m hopen
    have hnext : ∀ left, ({ m with tokens := left, score := m.score + policy.literalScore } : Progress Rat).terminated =
        false := fun _ => hopen
    have hscore := score_cons m.score policy.literalScore text texts
    have hcons : Pattern.attemptEach policy (literals (text :: texts)) =
      (Pattern.literal text true false).attempt policy :: Pattern.attemptEach policy (literals texts) := rfl
    rw [hcons, inOrder_cons_eq_matched]
    constructor
    · rintro ⟨m₁, hm₁, hm'⟩
      obtain ⟨-, t, rest, htokens, hequal, rfl⟩ := literal_eq_matched.mp hm₁
      obtain ⟨taken, left, hrest, hall, rfl⟩ := (ih (hnext rest)).mp hm'
      refine ⟨t :: taken, left, ?_, .cons hequal hall, ?_⟩
      · rw [htokens, List.cons_append, ← hrest]
      · rw [hscore]
    · rintro ⟨taken, left, htokens, hall, rfl⟩
      cases taken with
      | nil => cases hall
      | cons t taken =>
        obtain ⟨hequal, hall⟩ := List.forall₂_cons.mp hall
        refine ⟨_, literal_eq_matched.mpr ⟨hopen, t, taken ++ left, htokens, hequal, rfl⟩, ?_⟩
        exact (ih (hnext _)).mpr ⟨taken, left, rfl, hall, by rw [hscore]⟩

theorem rootOf_literals_attempt (texts : List Bytes) (h : m.terminated = false) :
    (rootOf (literals texts)).attempt policy m = inOrder (Pattern.attemptEach policy (literals texts)) m := by
  match texts with
  | [] => exact unlessTerminated_open h
  | [text] => exact (inOrder_single _ m).symm
  | text :: next :: texts => exact unlessTerminated_open h

/-- A whole call matches literals exactly if its tokens are taken one by one. -/
theorem literals_matchCall {texts : List Bytes} {grammar call : Bytes} {sp : Specials} {ts : List Call.Token} :
    (⟨rootOf (literals texts), grammar, sp⟩ : Grammar.Compiled).matchCall policy (.start call ts) = .matched m ↔
      List.Forall₂ (fun text value => policy.equal text value true = true) texts (ts.map (·.value)) ∧
        m = { raw := call, score := texts.length * policy.literalScore } := by
  have hstart : (Progress.start call ts : Progress Rat).score + texts.length * policy.literalScore =
      texts.length * policy.literalScore := zero_add _
  rw [matchCall_eq_matched, rootOf_literals_attempt texts rfl, literals_eq_matched texts rfl]
  constructor
  · rintro ⟨⟨taken, left, htokens, hall, rfl⟩, hleft⟩
    dsimp only at hleft
    have htaken : ts = taken := by rwa [hleft, List.append_nil] at htokens
    rw [hleft, hstart, htaken]
    exact ⟨hall, rfl⟩
  · rintro ⟨hall, rfl⟩
    exact ⟨⟨ts, [], (List.append_nil ts).symm, hall, by rw [hstart]; rfl⟩, rfl⟩

theorem Policy.equal_refl (policy : Policy Rat) {caseSensitive : Bool} (text : Bytes) :
    policy.equal text text caseSensitive = true := by
  unfold Policy.equal Bytes.sameFolded
  split <;> exact beq_self_eq_true _

/-- What counts as equal is equal up to the case of letters. -/
theorem Policy.lower_of_equal {text value : Bytes} (h : policy.equal text value true = true) : text.lower = value.lower := by
  unfold Policy.equal Bytes.sameFolded at h
  split at h
  · rw [eq_of_beq h]
  · exact eq_of_beq h

/-! ## A grammar as a call -/

/-- A grammar in which no mark occurs compiles, and its own text is a call that it matches exactly if the text stands for
    itself in a call; then no token is left over, and each word scores once. -/
theorem compile_accepts_own_text (policy : Policy Rat) (known : Bytes → Bool) {text : Bytes}
    (h : ∀ m, ¬ Specials.standard.text m <:+: text) :
    ∃ c, Grammar.compile {} known text = .ok c ∧
      let call := Progress.start text (Call.tokens Specials.standard.quoting text)
      ((∃ m, c.matchCall policy call = .matched m) ↔ Specials.standard.quoting.Verbatim text) ∧
        ∀ m, c.matchCall policy call = .matched m →
          m.tokens = [] ∧ m.score = text.words.length * policy.literalScore := by
  refine ⟨_, Grammar.compile_words known h, ?_, ?_⟩
  · rw [← Call.tokens_words_iff policy.equal_refl Policy.lower_of_equal Quoting.distinct_standard text]
    constructor
    · rintro ⟨m, hm⟩
      exact (literals_matchCall.mp hm).1
    · intro hall
      exact ⟨_, literals_matchCall.mpr ⟨hall, rfl⟩⟩
  · intro m hm
    obtain ⟨-, rfl⟩ := literals_matchCall.mp hm
    exact ⟨rfl, rfl⟩

/-- Escaped quotes, and one that is never closed. -/
theorem compile_accepts_own_text_quoted :
    let text := ascii "say \\'hi\\' 'now"
    let policy : Policy Rat := .standard
    (∀ m, ¬ Specials.standard.text m <:+: text) ∧ Specials.standard.quoting.Verbatim text ∧
      ∃ c, Grammar.compile {} policy.types.contains text = .ok c ∧
        ∃ m, c.matchCall policy (.start text (Call.tokens Specials.standard.quoting text)) = .matched m ∧
          m.tokens = [] ∧ m.score = 3 := by
  intro text policy
  have hmarks : ∀ m ∈ Mark.all, ¬ Specials.standard.text m <:+: text := by decide
  let c : Grammar.Compiled :=
    ⟨rootOf (literals [ascii "say", ascii "\\'hi\\'", ascii "'now"]), text, .standard⟩
  have hc : Grammar.compile {} policy.types.contains text = .ok c := by
    subst c text policy
    cbv
  let o : Outcome Rat := c.matchCall policy (.start text (Call.tokens Specials.standard.quoting text))
  have hmatched : o.failure?.isNone = true := by decide +kernel
  obtain ⟨m, hm⟩ : ∃ m, o = .matched m := by
    cases h : o with
    | matched m => exact ⟨m, rfl⟩
    | failed f m =>
      rw [h] at hmatched
      cases hmatched
  obtain ⟨c', hc', hverbatim, hall⟩ :=
    compile_accepts_own_text policy policy.types.contains fun m => hmarks m (Grammar.Mark.mem_all m)
  obtain rfl : c = c' := Except.ok.inj (hc.symm.trans hc')
  obtain ⟨htokens, hscore⟩ := hall m hm
  have hwords : text.words.length = 3 := by decide
  refine ⟨fun m => hmarks m (Grammar.Mark.mem_all m), hverbatim.mp ⟨m, hm⟩, c, hc, m, hm, htokens, ?_⟩
  rw [hscore, hwords]
  decide +kernel

/-- The apostrophe ends one word of the call and begins another. -/
theorem compile_rejects_own_apostrophe :
    let text := ascii "don't"
    let policy : Policy Rat := .standard
    (∀ m, ¬ Specials.standard.text m <:+: text) ∧
      ∃ c, Grammar.compile {} policy.types.contains text = .ok c ∧
        ∀ m, c.matchCall policy (.start text (Call.tokens Specials.standard.quoting text)) ≠ .matched m := by
  intro text policy
  have hmarks : ∀ m ∈ Mark.all, ¬ Specials.standard.text m <:+: text := by decide
  let c : Grammar.Compiled := ⟨.literal text true false, text, .standard⟩
  have hc : Grammar.compile {} policy.types.contains text = .ok c := by
    subst c text policy
    cbv
  let o : Outcome Rat := c.matchCall policy (.start text (Call.tokens Specials.standard.quoting text))
  have hfailed : o.failure?.isSome = true := by decide +kernel
  refine ⟨fun m => hmarks m (Grammar.Mark.mem_all m), c, hc, fun m hm => ?_⟩
  have ho : o = .matched m := hm
  rw [ho] at hfailed
  cases hfailed

end CommandGrammar
