/-
  CommandGrammar.Proofs.Matching.Coherence — what a failure says fits together.

  A failure is raised where one pattern fails by itself, from a state of the match
  (`Raises`). Groups pass it on, pick it among others and give it another score, but change
  nothing of what it says: the failure of a match is one that a pattern in it raised further
  on in the call (`attempt_failsIn`). So its kind, its source, its token and its suggestion
  belong together, also where several children were committed before (`matchCall_coherent`).
-/

import CommandGrammar.Proofs.Grammar.Flattened
import CommandGrammar.Proofs.Matching.Tails

namespace CommandGrammar

open Pattern (attemptEach child nodesOf)

/-! ## Kinds -/

namespace Failure.Kind

/-- The call has run out of tokens, or of what a tail has left of them. -/
def atEnd : Kind → Bool
  | missingLiteral | missingParameter | missingTail | missingVariant | missingUnordered | terminated => true
  | _ => false

/-- Whether a failure of this kind can have the pattern as its source. -/
def fits : Kind → Pattern → Bool
  | missingLiteral, .literal .. | mismatchedLiteral, .literal .. | suggestedLiteral, .literal .. => true
  | missingParameter, .parameter .. | mismatchedType, .parameter .. => true
  | missingTail, .tail .. => true
  | missingVariant, .variants .. | noMatchedVariant, .variants .. => true
  | missingUnordered, .unordered .. | unmatchedUnordered, .unordered .. => true
  | terminated, _ | tooManyArguments, _ => true
  | _, _ => false

end Failure.Kind

variable {σ : Type} [Score σ]

/-- What a failure says about a call with the given tokens fits together. -/
structure Failure.Coherent (policy : Policy σ) (root : Pattern) (tokens : List Call.Token) (f : Failure σ) : Prop where
  source : ∃ p ∈ root.nodes, f.source = some p ∧ f.kind.fits p = true ∧ (f.kind = .tooManyArguments → p = root)
  absent : f.actual = none ↔ f.kind.atEnd = true
  actual : ∀ t, f.actual = some t → t ∈ tokens
  suggestion : f.suggestion ≠ [] ↔ f.kind = .suggestedLiteral
  suggested : f.kind = .suggestedLiteral → ∃ t caseSensitive, f.actual = some t ∧
    f.source = some (.literal f.suggestion caseSensitive false) ∧
    policy.equal f.suggestion t.value caseSensitive = false ∧
    policy.literalThreshold ≤ policy.similarity f.suggestion t.value caseSensitive
  mismatched : f.kind = .mismatchedType → ∃ name type t, f.source = some (.parameter name (some type)) ∧
    f.actual = some t ∧ policy.types.construct type t.value = .error f.reason

/-- The score does not matter to it. -/
theorem Failure.Coherent.scored {policy : Policy σ} {root : Pattern} {tokens : List Call.Token} {f : Failure σ}
    (h : f.Coherent policy root tokens) (score : σ) : ({ f with score } : Failure σ).Coherent policy root tokens :=
  ⟨h.source, h.absent, h.actual, h.suggestion, h.suggested, h.mismatched⟩

/-! ## Where a failure is raised -/

/-- A pattern fails by itself in the state `x`, and not because of one of its children. -/
inductive Raises (policy : Policy σ) (x : Progress σ) : Pattern → Failure σ → Prop
  | terminated (p : Pattern) : Raises policy x p { failedAt p .terminated [] x with actual := none }
  | missingLiteral (text : Bytes) (caseSensitive tolerant : Bool) : x.tokens = [] →
      Raises policy x (.literal text caseSensitive tolerant)
        (failedAt (.literal text caseSensitive tolerant) .missingLiteral text.quoted x)
  | mismatchedLiteral (text : Bytes) (caseSensitive tolerant : Bool) {t : Call.Token} {ts : List Call.Token} :
      x.tokens = t :: ts → Raises policy x (.literal text caseSensitive tolerant)
        (failedAt (.literal text caseSensitive tolerant) .mismatchedLiteral text.quoted x)
  | suggestedLiteral {text : Bytes} {caseSensitive : Bool} {t : Call.Token} {ts : List Call.Token} :
      x.tokens = t :: ts → policy.equal text t.value caseSensitive = false →
      policy.literalThreshold ≤ policy.similarity text t.value caseSensitive →
      Raises policy x (.literal text caseSensitive false)
        { failedAt (.literal text caseSensitive false) .suggestedLiteral text.quoted x with suggestion := text }
  | missingParameter (name : Bytes) (type : Option Bytes) : x.tokens = [] →
      Raises policy x (.parameter name type)
        (failedAt (.parameter name type) .missingParameter (Pattern.parameter name type).shown x)
  | mismatchedType (name : Bytes) {type reason : Bytes} {t : Call.Token} {ts : List Call.Token} :
      x.tokens = t :: ts → policy.types.construct type t.value = .error reason →
      Raises policy x (.parameter name (some type))
        { failedAt (.parameter name (some type)) .mismatchedType (Pattern.parameter name (some type)).shown x with reason }
  | missingTail (name : Bytes) (raw : Bool) : x.remainingText = [] →
      Raises policy x (.tail name raw) (failedAt (.tail name raw) .missingTail (Pattern.tail name raw).shown x)
  | missingVariant (as : List (List Pattern)) (id : Option Bytes) (inherited parenthesized : Bool) (expected : Bytes) :
      x.tokens = [] → Raises policy x (.variants as id inherited parenthesized)
        (failedAt (.variants as id inherited parenthesized) .missingVariant expected x)
  | noMatchedVariant (as : List (List Pattern)) (id : Option Bytes) (inherited parenthesized : Bool) (expected : Bytes)
      {t : Call.Token} {ts : List Call.Token} : x.tokens = t :: ts →
      Raises policy x (.variants as id inherited parenthesized)
        (failedAt (.variants as id inherited parenthesized) .noMatchedVariant expected x)
  | missingUnordered (cs : List Pattern) (id : Option Bytes) (expected : Bytes) : x.tokens = [] →
      Raises policy x (.unordered cs id) (failedAt (.unordered cs id) .missingUnordered expected x)
  | unmatchedUnordered (cs : List Pattern) (id : Option Bytes) (expected : Bytes) {t : Call.Token} {ts : List Call.Token} :
      x.tokens = t :: ts → Raises policy x (.unordered cs id) (failedAt (.unordered cs id) .unmatchedUnordered expected x)

namespace Raises

variable {policy : Policy σ} {x : Progress σ} {p : Pattern} {f : Failure σ}

theorem source (h : Raises policy x p f) : f.source = some p ∧ f.kind.fits p = true ∧ f.kind ≠ .tooManyArguments := by
  cases h <;> exact ⟨rfl, rfl, Failure.Kind.noConfusion⟩

/-- A failure names the next token, unless it says that there is none. -/
theorem absent {lo : Nat} (hspans : Call.Spans x.raw.length lo x.tokens) (h : Raises policy x p f) :
    f.actual = none ↔ f.kind.atEnd = true := by
  cases h with
  | terminated p => exact ⟨fun _ => rfl, fun _ => rfl⟩
  | missingTail _ _ htext =>
    -- every token stands on a byte of the call, so without text there is none
    have hnil : x.tokens.isEmpty = true := by rw [← Progress.remainingText_isEmpty hspans, htext, List.isEmpty_nil]
    simp [failedAt, List.isEmpty_iff.mp hnil, Failure.Kind.atEnd]
  | _ => simp [failedAt, Failure.Kind.atEnd, *]

theorem actual (h : Raises policy x p f) {t : Call.Token} (ht : f.actual = some t) : t ∈ x.tokens := by
  cases h with
  | terminated => cases ht
  | _ => exact List.mem_of_head? ht

/-- Only a suggestion suggests anything. -/
theorem suggestion (h : Raises policy x p f) (hp : ∀ text caseSensitive tolerant, p = .literal text caseSensitive tolerant →
    text ≠ []) : f.suggestion ≠ [] ↔ f.kind = .suggestedLiteral := by
  cases h with
  | suggestedLiteral => exact ⟨fun _ => rfl, fun _ => hp _ _ _ rfl⟩
  | _ => simp [failedAt]

theorem suggested (h : Raises policy x p f) (hkind : f.kind = .suggestedLiteral) : ∃ t caseSensitive, f.actual = some t ∧
    f.source = some (.literal f.suggestion caseSensitive false) ∧
    policy.equal f.suggestion t.value caseSensitive = false ∧
    policy.literalThreshold ≤ policy.similarity f.suggestion t.value caseSensitive := by
  cases h with
  | suggestedLiteral htokens hne hsimilar => exact ⟨_, _, by simp [failedAt, htokens], rfl, hne, hsimilar⟩
  | _ => cases hkind

theorem mismatched (h : Raises policy x p f) (hkind : f.kind = .mismatchedType) : ∃ name type t,
    f.source = some (.parameter name (some type)) ∧ f.actual = some t ∧
      policy.types.construct type t.value = .error f.reason := by
  cases h with
  | mismatchedType name htokens hreason => exact ⟨name, _, _, rfl, by simp [failedAt, htokens], hreason⟩
  | _ => cases hkind

/-- What is raised in the course of a match of the call. -/
theorem coherent {root : Pattern} {call : Bytes} {tokens : List Call.Token} (hspans : Call.Spans call.length 0 tokens)
    (htexts : ∀ text caseSensitive tolerant, .literal text caseSensitive tolerant ∈ root.nodes → text ≠ [])
    (hx : Further (.start call tokens) x) (hp : p ∈ root.nodes) (h : Raises policy x p f) :
    f.Coherent policy root tokens where
  source := by
    obtain ⟨hsource, hfits, hkind⟩ := h.source
    exact ⟨p, hp, hsource, hfits, fun hmany => absurd hmany hkind⟩
  absent := by
    have hraw : x.raw = call := hx.raw
    have hleft : Call.Spans x.raw.length 0 x.tokens := by
      rw [hraw]
      exact hspans.suffix hx.tokens
    exact h.absent hleft
  actual t ht := hx.tokens.subset (h.actual ht)
  suggestion := h.suggestion fun text caseSensitive tolerant heq => htexts text caseSensitive tolerant (heq ▸ hp)
  suggested := h.suggested
  mismatched := h.mismatched

end Raises

/-! ## How it is passed on -/

/-- One of the patterns has raised the failure further on in the call, whatever it scores now. -/
def Raised (policy : Policy σ) (nodes : List Pattern) (m : Progress σ) (f : Failure σ) : Prop :=
  ∃ q ∈ nodes, ∃ (x : Progress σ) (g : Failure σ) (s : σ), Further m x ∧ Raises policy x q g ∧ f = { g with score := s }

/-- The attempt fails only with what one of the patterns raises. -/
def FailsIn (policy : Policy σ) (nodes : List Pattern) (a : Attempt σ) : Prop :=
  ∀ m f m', a m = .failed f m' → Raised policy nodes m f

section

variable {policy : Policy σ} {nodes : List Pattern}

namespace Raised

variable {m x : Progress σ} {f : Failure σ}

theorem own {p : Pattern} (hp : p ∈ nodes) (h : Raises policy m p f) : Raised policy nodes m f :=
  ⟨p, hp, m, f, f.score, .refl m, h, rfl⟩

theorem further (hx : Further m x) (h : Raised policy nodes x f) : Raised policy nodes m f := by
  obtain ⟨q, hq, y, g, s, hy, hg, hf⟩ := h
  exact ⟨q, hq, y, g, s, hx.trans hy, hg, hf⟩

theorem of_fork (h : Raised policy nodes m.fork f) : Raised policy nodes m f :=
  h.further (.of_fork (.refl m.fork))

theorem scored (h : Raised policy nodes m f) (score : σ) : Raised policy nodes m { f with score } := by
  obtain ⟨q, hq, y, g, s, hy, hg, rfl⟩ := h
  exact ⟨q, hq, y, g, score, hy, hg, rfl⟩

/-- What is conceded was raised in a branch, or by the group. -/
theorem of_concede {α : Type} {attempts : List (α × Attempt σ)} {otherwise : Failure σ} {m' : Progress σ}
    (hattempts : ∀ a ∈ attempts, FailsIn policy nodes a.2) (hown : Raised policy nodes m otherwise)
    (h : concede (tryEach m attempts) otherwise m = .failed f m') : Raised policy nodes m f := by
  rcases concede_eq_failed h with ⟨b, hb, e, y, hout, rfl⟩ | rfl
  · obtain ⟨a, ha, rfl⟩ := List.mem_map.mp hb
    exact ((hattempts a ha m.fork e y hout).of_fork).scored y.score
  · exact hown

end Raised

/-! ## Words -/

theorem unlessTerminated_failsIn {p : Pattern} {a : Attempt σ} (hp : p ∈ nodes) (ha : FailsIn policy nodes a) :
    FailsIn policy nodes (unlessTerminated p a) := by
  intro m f m' h
  unfold unlessTerminated at h
  split at h
  · cases h
    exact .own hp (.terminated p)
  · exact ha m f m' h

theorem literal_failsIn {text : Bytes} {caseSensitive tolerant : Bool}
    (hp : .literal text caseSensitive tolerant ∈ nodes) :
    FailsIn policy nodes (attemptLiteral policy text caseSensitive tolerant) := by
  intro m f m' h
  unfold attemptLiteral at h
  dsimp only at h
  split at h
  · rename_i hnil
    cases h
    exact .own hp (.missingLiteral text caseSensitive tolerant hnil)
  · rename_i t ts htokens
    split at h
    · cases h
    · rename_i hne
      split at h
      · rename_i hsimilar
        split at h
        · cases h
        · rename_i hstrict
          cases h
          rw [Bool.not_eq_true] at hne hstrict
          subst hstrict
          exact .own hp (.suggestedLiteral htokens hne hsimilar)
      · cases h
        exact .own hp (.mismatchedLiteral text caseSensitive tolerant htokens)

theorem parameter_failsIn {name : Bytes} {type : Option Bytes} (hp : .parameter name type ∈ nodes) :
    FailsIn policy nodes (attemptParameter policy name type) := by
  intro m f m' h
  unfold attemptParameter at h
  dsimp only at h
  split at h
  · rename_i hnil
    cases h
    exact .own hp (.missingParameter name type hnil)
  · rename_i t ts htokens
    split at h
    · cases h
    · rename_i reason hreason
      cases h
      cases type with
      | none => cases hreason
      | some type => exact .own hp (.mismatchedType name htokens hreason)

theorem tail_failsIn {name : Bytes} {raw : Bool} (hp : .tail name raw ∈ nodes) :
    FailsIn policy nodes (attemptTail policy name raw) := by
  intro m f m' h
  unfold attemptTail at h
  dsimp only at h
  split at h
  · rename_i htext
    cases h
    exact .own hp (.missingTail name raw (List.isEmpty_iff.mp htext))
  · cases h

/-! ## Groups -/

theorem each_failsIn {cs : List Pattern} (h : ∀ c ∈ cs, FailsIn policy nodes (c.attempt policy)) :
    FailsIn policy nodes (inOrder (attemptEach policy cs)) := by
  induction cs with
  | nil => exact fun m f m' hm => nomatch hm
  | cons c cs ih =>
    intro m f m' hm
    rw [attemptEach, inOrder_cons] at hm
    cases hc : c.attempt policy m with
    | matched m₁ =>
      rw [hc] at hm
      exact (ih (fun d hd => h d (List.mem_cons_of_mem _ hd)) m₁ f m' hm).further (attempt_further hc)
    | failed e m₁ =>
      rw [hc] at hm
      cases hm
      exact h c List.mem_cons_self m f m' hc

theorem optional_failsIn (id : Option Bytes) {a : Attempt σ} (ha : FailsIn policy nodes a) :
    FailsIn policy nodes (attemptOptional id a) := by
  intro m f m' h
  unfold attemptOptional at h
  split at h
  · cases h
  · rename_i e x hx
    split at h
    · cases h
      exact (ha m.fork f x hx).of_fork
    · cases h

theorem variants_failsIn {as : List (List Pattern)} {id : Option Bytes} {inherited parenthesized : Bool}
    (hp : .variants as id inherited parenthesized ∈ nodes) (h : ∀ a ∈ as, ∀ c ∈ a, FailsIn policy nodes (c.attempt policy)) :
    FailsIn policy nodes
      (attemptVariants (.variants as id inherited parenthesized) id (Pattern.attemptAlternatives policy as)) := by
  intro m f m' hm
  unfold attemptVariants at hm
  dsimp only at hm
  split at hm
  · cases hm
  · refine Raised.of_concede ?_ ?_ hm
    · rintro ⟨i, a⟩ ha
      obtain ⟨variant, hvariant, rfl⟩ := (Pattern.getElem?_attemptAlternatives policy).mp (mem_numbered.mp ha)
      exact each_failsIn (h variant (List.mem_of_getElem? hvariant))
    · refine .own hp ?_
      cases hx : m.tokens with
      | nil => exact .missingVariant as id inherited parenthesized _ hx
      | cons t ts => exact .noMatchedVariant as id inherited parenthesized _ hx

section

variable {cs : List Pattern} {id : Option Bytes} (hp : .unordered cs id ∈ nodes)

include hp

theorem unordered_raised (m : Progress σ) (expected : Bytes) :
    Raised policy nodes m (failedAt (.unordered cs id) (unorderedKind m) expected m) := by
  refine .own hp ?_
  rw [unorderedKind]
  cases hx : m.tokens with
  | nil => exact .missingUnordered cs id expected hx
  | cons t ts => exact .unmatchedUnordered cs id expected hx

/-- In each round the failures are those of the children that are left. -/
theorem rounds_failsIn (n : Nat) : ∀ {left : List (Pattern × Nat)} (order : List Nat),
    (∀ x ∈ left, FailsIn policy nodes (x.1.attempt policy)) →
    FailsIn policy nodes (attemptRounds (.unordered cs id) id n (left.map (child policy)) order) := by
  induction n with
  | zero => exact fun order _ m f m' hm => nomatch hm
  | succ n ih =>
    intro left order h m f m' hm
    unfold attemptRounds at hm
    dsimp only at hm
    split at hm
    · rename_i x i hbest
      obtain ⟨c, -, hx⟩ := bestSuccess_round hbest
      rw [filter_child] at hm
      exact (ih _ (fun y hy => h y (List.mem_filter.mp hy).1) (m.join x) f m' hm).further (attempt_further hx).of_fork.join
    · refine Raised.of_concede ?_ (unordered_raised hp m _) hm
      rw [List.map_map]
      exact List.forall_mem_map.mpr h

theorem orders_failsIn {placed : List (Pattern × Nat)} (h : ∀ x ∈ placed, FailsIn policy nodes (x.1.attempt policy)) :
    FailsIn policy nodes (attemptOrders (.unordered cs id) id (placed.map (child policy))) := by
  intro m f m' hm
  unfold attemptOrders at hm
  dsimp only at hm
  split at hm
  · cases hm
  · refine Raised.of_concede ?_ (unordered_raised hp m _) hm
    rw [arrangements_map, List.map_map]
    refine List.forall_mem_map.mpr fun order horder => ?_
    show FailsIn policy nodes (inOrder ((order.map (child policy)).map (·.attempt)))
    rw [Pattern.attempts_child]
    exact each_failsIn (List.forall_mem_map.mpr fun x hx => h x ((perm_of_mem_arrangements horder).subset hx))

theorem unordered_failsIn (h : ∀ c ∈ cs, FailsIn policy nodes (c.attempt policy)) :
    FailsIn policy nodes (attemptUnordered policy.strategy (.unordered cs id) id (Pattern.childrenFrom policy 0 cs)) := by
  have hplaced : ∀ x ∈ cs.zipIdx, FailsIn policy nodes (x.1.attempt policy) :=
    fun x hx => h x.1 (List.fst_mem_of_mem_zipIdx hx)
  rw [Pattern.childrenFrom_eq_map]
  cases policy.strategy with
  | greedy => exact rounds_failsIn hp _ [] hplaced
  | permutation => exact orders_failsIn hp hplaced

end

/-! ## All patterns -/

/-- A pattern fails only with what it or a pattern in it raises further on in the call. -/
theorem attempt_failsIn {p : Pattern} (h : ∀ q ∈ p.nodes, q ∈ nodes) : FailsIn policy nodes (p.attempt policy) := by
  refine Pattern.nodes_induct (P := (· ∈ nodes)) (M := fun p => FailsIn policy nodes (p.attempt policy)) ?_ p h
  intro p hp ih
  cases p with
  | literal text caseSensitive tolerant => exact unlessTerminated_failsIn hp (literal_failsIn hp)
  | parameter name type => exact unlessTerminated_failsIn hp (parameter_failsIn hp)
  | tail name raw => exact unlessTerminated_failsIn hp (tail_failsIn hp)
  | sequence cs => exact unlessTerminated_failsIn hp (each_failsIn (ih cs List.mem_cons_self))
  | optional cs id => exact unlessTerminated_failsIn hp (optional_failsIn id (each_failsIn (ih cs List.mem_cons_self)))
  | variants as id inherited parenthesized => exact unlessTerminated_failsIn hp (variants_failsIn hp ih)
  | unordered cs id => exact unlessTerminated_failsIn hp (unordered_failsIn hp (ih cs List.mem_cons_self))

end

theorem Raised.coherent {policy : Policy σ} {root : Pattern} {call : Bytes} {tokens : List Call.Token} {f : Failure σ}
    (hspans : Call.Spans call.length 0 tokens)
    (htexts : ∀ text caseSensitive tolerant, .literal text caseSensitive tolerant ∈ root.nodes → text ≠ [])
    (h : Raised policy root.nodes (.start call tokens) f) : f.Coherent policy root tokens := by
  obtain ⟨q, hq, x, g, s, hx, hg, rfl⟩ := h
  exact (hg.coherent hspans htexts hx hq).scored s

/-! ## Calls -/

/-- A call fails where the pattern does, or with tokens left over behind it. -/
theorem matchCall_eq_failed {policy : Policy σ} {c : Grammar.Compiled} {m m' : Progress σ} {f : Failure σ}
    (h : c.matchCall policy m = .failed f m') :
    (∃ e, c.root.attempt policy m = .failed e m' ∧ f = { e with score := m'.score }) ∨
      c.root.attempt policy m = .matched m' ∧
        ∃ t ts, m'.tokens = t :: ts ∧ f = { failedAt c.root .tooManyArguments [] m' with score := m'.score } := by
  unfold Grammar.Compiled.matchCall Grammar.Compiled.matchPart at h
  cases hroot : c.root.attempt policy m with
  | failed e m₁ =>
    simp only [hroot] at h
    cases h
    exact .inl ⟨e, rfl, rfl⟩
  | matched m₁ =>
    simp only [hroot] at h
    split at h
    · cases h
    · rename_i hleft
      cases h
      obtain ⟨t, ts, htokens⟩ := List.exists_cons_of_ne_nil fun hnil => hleft (List.isEmpty_iff.mpr hnil)
      exact .inr ⟨rfl, t, ts, htokens, rfl⟩

theorem tooMany_coherent (policy : Policy σ) {root : Pattern} {tokens : List Call.Token} {m : Progress σ} {t : Call.Token}
    {ts : List Call.Token} (htokens : m.tokens = t :: ts) (hsuffix : m.tokens <:+ tokens) :
    (failedAt root .tooManyArguments [] m).Coherent policy root tokens where
  source := ⟨root, Pattern.mem_nodes_self root, rfl, rfl, fun _ => rfl⟩
  absent := by simp [failedAt, htokens, Failure.Kind.atEnd]
  actual _ hu := hsuffix.subset (List.mem_of_head? hu)
  suggestion := by simp [failedAt]
  suggested hkind := by cases hkind
  mismatched hkind := by cases hkind

/-- Whatever a call fails with when it is matched with a compiled grammar, its kind, source, token and suggestion fit
    together, and it has the score that the match has reached. -/
theorem matchCall_coherent (policy : Policy σ) (q : Quoting) {cfg : Grammar.Config} {known : Bytes → Bool}
    {grammar call : Bytes} {c : Grammar.Compiled} {f : Failure σ} {m : Progress σ}
    (hc : Grammar.compile cfg known grammar = .ok c)
    (hf : c.matchCall policy (.start call (Call.tokens q call)) = .failed f m) :
    f.Coherent policy c.root (Call.tokens q call) ∧ f.score = m.score := by
  rcases matchCall_eq_failed hf with ⟨e, hroot, rfl⟩ | ⟨hroot, t, ts, htokens, rfl⟩
  · have htexts : ∀ text caseSensitive tolerant, .literal text caseSensitive tolerant ∈ c.root.nodes → text ≠ [] :=
      fun text _ _ hq => (Grammar.spellable_of_compile hc _ hq text (List.mem_singleton_self text)).ne_nil
    have hraised : Raised policy c.root.nodes (.start call (Call.tokens q call)) e :=
      attempt_failsIn (fun _ => id) _ e m hroot
    exact ⟨(hraised.coherent (Call.tokens_spans q call) htexts).scored m.score, rfl⟩
  · exact ⟨(tooMany_coherent policy htokens (attempt_further hroot).tokens).scored m.score, rfl⟩

/-- Two children of the group are committed, one of them optional, before the last word is found to be misspelt. -/
theorem matchCall_coherent_misspelt :
    let grammar := ascii "set \x7b<n: int> (start|reset <w>) [now]\x7d:o"
    let call := ascii "set 5 strat"
    let q := Specials.standard.quoting
    ∃ c f m, Grammar.compile {} (Policy.standard : Policy Rat).types.contains grammar = .ok c ∧
      c.matchCall (Policy.standard : Policy Rat) (.start call (Call.tokens q call)) = .failed f m ∧
      f.kind = .suggestedLiteral ∧ f.suggestion = ascii "start" ∧ m.tokens = (Call.tokens q call).drop 2 ∧
      f.Coherent .standard c.root (Call.tokens q call) ∧ f.score = m.score := by
  intro grammar call q
  let root : Pattern := .sequence
    [.literal (ascii "set") true false,
      .unordered [.parameter (ascii "n") (some (ascii "int")),
        .variants [[.literal (ascii "start") true false],
          [.literal (ascii "reset") true false, .parameter (ascii "w") none]] none false true,
        .optional [.literal (ascii "now") true false] none] (some (ascii "o"))]
  let c : Grammar.Compiled := ⟨root, grammar, .standard⟩
  have hc : Grammar.compile {} (Policy.standard : Policy Rat).types.contains grammar = .ok c := by
    subst c root grammar
    cbv
  let o : Outcome Rat := c.matchCall .standard (.start call (Call.tokens q call))
  have hfailed : o.failure?.map (fun f => (f.kind, f.suggestion)) = some (.suggestedLiteral, ascii "start") := by
    decide +kernel
  have htokens : o.progress.tokens = (Call.tokens q call).drop 2 := by decide +kernel
  cases h : o with
  | matched m =>
    rw [h] at hfailed
    cases hfailed
  | failed f m =>
    rw [h] at hfailed htokens
    obtain ⟨hkind, hsuggestion⟩ := Prod.mk.inj (Option.some.inj hfailed)
    exact ⟨c, f, m, hc, h, hkind, hsuggestion, htokens, matchCall_coherent .standard q hc h⟩

end CommandGrammar
