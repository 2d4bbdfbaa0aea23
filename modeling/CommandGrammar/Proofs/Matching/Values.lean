/-
  CommandGrammar.Proofs.Matching.Values — only what the words say matters.

  Two calls that are written differently and say the same, word by word, are matched in
  the same way (`matchCall_values`): a match reads what a token says and nothing else of
  it. A raw tail is the exception, as it keeps the text of the call. Any other tail looks
  at that text only to see whether there is any, and there is where tokens are left.
-/

import CommandGrammar.Proofs.Matching.Parallel
import CommandGrammar.Proofs.Matching.Tails
import CommandGrammar.Proofs.Pattern.Nodes

namespace CommandGrammar

/-- A call and the same call in another writing. -/
structure Rewording where
  call : Bytes
  call' : Bytes
  tokens : List Call.Token
  tokens' : List Call.Token
  spans : Call.Spans call.length 0 tokens
  spans' : Call.Spans call'.length 0 tokens'
  values : tokens.map (·.value) = tokens'.map (·.value)

variable {σ : Type}

namespace Rewording

variable (w : Rewording)

theorem length_eq : w.tokens.length = w.tokens'.length := by
  simpa using congrArg List.length w.values

/-! ## States -/

/-- The same state of a match, at the same token in both writings. -/
structure Abreast (x y : Progress σ) : Prop where
  raw : x.raw = w.call
  raw' : y.raw = w.call'
  place : ∃ k, x.tokens = w.tokens.drop k ∧ y.tokens = w.tokens'.drop k
  score : x.score = y.score
  terminated : x.terminated = y.terminated
  found : x.found = y.found

namespace Abreast

variable {w} {x y x' y' : Progress σ}

theorem values (h : w.Abreast x y) : x.tokens.map (·.value) = y.tokens.map (·.value) := by
  obtain ⟨k, hx, hy⟩ := h.place
  rw [hx, hy, List.map_drop, List.map_drop, w.values]

theorem isEmpty (h : w.Abreast x y) : x.tokens.isEmpty = y.tokens.isEmpty := by
  have hvalues := congrArg List.isEmpty h.values
  rwa [List.isEmpty_map, List.isEmpty_map] at hvalues

theorem tokens_cases (h : w.Abreast x y) : (x.tokens = [] ∧ y.tokens = []) ∨
    ∃ t ts t' ts', x.tokens = t :: ts ∧ y.tokens = t' :: ts' ∧ t.value = t'.value := by
  have hvalues := h.values
  generalize x.tokens = us, y.tokens = vs at hvalues
  cases us with
  | nil => exact .inl ⟨rfl, List.map_eq_nil_iff.mp hvalues.symm⟩
  | cons t ts =>
    cases vs with
    | nil => cases hvalues
    | cons t' ts' => exact .inr ⟨t, ts, t', ts', rfl, rfl, (List.cons.inj hvalues).1⟩

/-- A tail looks at the text of the call, but sees there only whether tokens are left. -/
theorem remainingText_isEmpty (h : w.Abreast x y) : x.remainingText.isEmpty = y.remainingText.isEmpty := by
  obtain ⟨k, hx, hy⟩ := h.place
  have hspans : Call.Spans x.raw.length 0 x.tokens := by
    rw [h.raw, hx]
    exact w.spans.suffix (List.drop_suffix k _)
  have hspans' : Call.Spans y.raw.length 0 y.tokens := by
    rw [h.raw', hy]
    exact w.spans'.suffix (List.drop_suffix k _)
  rw [Progress.remainingText_isEmpty hspans, Progress.remainingText_isEmpty hspans', h.isEmpty]

/-- What is found on both sides may be added to in the same way. -/
theorem record (h : w.Abreast x y) (f : Findings → Findings) :
    w.Abreast { x with found := f x.found } { y with found := f y.found } :=
  { h with found := congrArg f h.found }

theorem consume (h : w.Abreast x y) (n : Nat) : w.Abreast (x.consume n) (y.consume n) := by
  obtain ⟨k, hx, hy⟩ := h.place
  refine { h with place := ⟨k + n, ?_, ?_⟩ }
  · rw [Progress.consume, hx, List.drop_drop]
  · rw [Progress.consume, hy, List.drop_drop]

theorem terminate (h : w.Abreast x y) : w.Abreast x.terminate y.terminate := by
  refine { h with place := ⟨w.tokens.length, ?_, ?_⟩, terminated := rfl }
  · exact (List.drop_length).symm
  · rw [w.length_eq]
    exact (List.drop_length).symm

variable [Score σ]

theorem join (h : w.Abreast x y) (h' : w.Abreast x' y') : w.Abreast (x.join x') (y.join y') where
  raw := h.raw
  raw' := h.raw'
  place := h'.place
  score := congrArg₂ (· + ·) h.score h'.score
  terminated := congrArg₂ (· || ·) h.terminated h'.terminated
  found := congrArg₂ Findings.merge h.found h'.found

theorem addScore (h : w.Abreast x y) (s : σ) : w.Abreast (x.addScore s) (y.addScore s) :=
  { h with score := congrArg (· + s) h.score }

end Abreast

/-! ## Failures -/

/-- The same failure, at the same token in both writings. -/
structure SameFailure (f g : Failure σ) : Prop where
  kind : f.kind = g.kind
  expected : f.expected = g.expected
  source : f.source = g.source
  suggestion : f.suggestion = g.suggestion
  reason : f.reason = g.reason
  score : f.score = g.score
  actual : ∃ i : Nat, f.actual = w.tokens[i]? ∧ g.actual = w.tokens'[i]?

variable {w}

theorem SameFailure.message {f g : Failure σ} (h : w.SameFailure f g) (wording : Failure.Wording) :
    f.message wording = g.message wording := by
  obtain ⟨i, hf, hg⟩ := h.actual
  have hvalue : f.actual.map (·.value.quoted) = g.actual.map (·.value.quoted) := by
    have hvalues := congrArg (fun vs => vs[i]?.map Bytes.quoted) w.values
    simpa [hf, hg, Function.comp_def] using hvalues
  unfold Failure.message
  rw [hvalue, h.kind, h.expected, h.reason]

/-- A failure for which no token is to blame. -/
theorem SameFailure.withoutActual {f g : Failure σ} (h : w.SameFailure f g) :
    w.SameFailure { f with actual := none } { g with actual := none } := by
  refine { h with actual := ⟨w.tokens.length, ?_, ?_⟩ }
  · rw [List.getElem?_length]
  · rw [w.length_eq, List.getElem?_length]

variable [Score σ]

theorem failedAt_same {x y : Progress σ} (h : w.Abreast x y) (p : Pattern) (kind : Failure.Kind) (expected : Bytes) :
    w.SameFailure (failedAt p kind expected x) (failedAt p kind expected y) where
  kind := rfl
  expected := rfl
  source := rfl
  suggestion := rfl
  reason := rfl
  score := rfl
  actual := by
    obtain ⟨k, hx, hy⟩ := h.place
    refine ⟨k, ?_, ?_⟩
    · rw [failedAt, hx, List.head?_drop]
    · rw [failedAt, hy, List.head?_drop]

/-! ## Attempts -/

variable (w) in
/-- Both writings, matched side by side. -/
def parallel : Parallel σ where
  state := w.Abreast
  left := w.Abreast
  failure := w.SameFailure
  left_of_state h := h
  score h := h.score
  terminated h := h.terminated
  isEmpty h := h.isEmpty
  fork h := { h with score := rfl, found := rfl }
  join h h' := h.join h'
  addScore s h := h.addScore s
  recordOptional id present h := h.record (·.recordOptional id present)
  recordVariant id index h := h.record (·.recordVariant id index)
  recordOrder id order h := h.record (·.recordOrder id order)
  rescored _ h := { h with score := rfl }

theorem unlessTerminated_same {a : Attempt σ} (p : Pattern) (h : w.parallel.Alongside a a) :
    w.parallel.Alongside (unlessTerminated p a) (unlessTerminated p a) :=
  Parallel.unlessTerminated_alongside h fun _ _ hxy => (failedAt_same hxy p .terminated []).withoutActual

theorem failsAs (p : Pattern) (expected : Bytes) : (w.parallel : Parallel σ).FailsAs p p expected expected :=
  fun kind _ _ hxy => failedAt_same hxy p kind expected

variable (policy : Policy σ)

theorem literal_same (text : Bytes) (caseSensitive tolerant : Bool) :
    w.parallel.Alongside (attemptLiteral policy text caseSensitive tolerant)
      (attemptLiteral policy text caseSensitive tolerant) := by
  intro x y h
  unfold attemptLiteral
  dsimp only
  rcases h.tokens_cases with ⟨hx, hy⟩ | ⟨t, ts, t', ts', hx, hy, hvalue⟩
  · rw [hx, hy]
    exact .failed (failedAt_same h _ _ _) h
  · rw [hx, hy]
    dsimp only
    rw [hvalue]
    split
    · exact .matched ((h.addScore _).consume 1)
    · split
      · split
        · exact .matched ((h.addScore _).consume 1)
        · exact .failed { failedAt_same h _ _ _ with suggestion := rfl } (h.addScore _)
      · exact .failed (failedAt_same h _ _ _) h

theorem parameter_same (name : Bytes) (type : Option Bytes) :
    w.parallel.Alongside (attemptParameter policy name type) (attemptParameter policy name type) := by
  intro x y h
  unfold attemptParameter
  dsimp only
  rcases h.tokens_cases with ⟨hx, hy⟩ | ⟨t, ts, t', ts', hx, hy, hvalue⟩
  · rw [hx, hy]
    exact .failed (failedAt_same h _ _ _) h
  · rw [hx, hy]
    dsimp only
    rw [hvalue]
    split
    · rename_i v _
      exact .matched (((h.record (·.bind name v)).addScore _).consume 1)
    · exact .failed { failedAt_same h _ _ _ with reason := rfl } h

theorem tail_same (name : Bytes) :
    w.parallel.Alongside (attemptTail policy name false) (attemptTail policy name false) := by
  intro x y h
  unfold attemptTail
  dsimp only
  rw [h.remainingText_isEmpty, h.values]
  split
  · exact .failed (failedAt_same h _ _ _) h
  · exact .matched ((h.record (·.bind name _)).addScore _).terminate

/-- Without raw tails every pattern is matched in the same way in both writings. -/
theorem attempt_same {p : Pattern} (hp : ∀ q ∈ p.nodes, ∀ name, q ≠ .tail name true) :
    w.parallel.Alongside (p.attempt policy) (p.attempt policy) := by
  refine Pattern.nodes_induct (M := fun p => w.parallel.Alongside (p.attempt policy) (p.attempt policy)) ?_ p hp
  intro p hp ih
  have hall : ∀ cs ∈ p.childLists, w.parallel.Alongside (inOrder (Pattern.attemptEach policy cs))
      (inOrder (Pattern.attemptEach policy cs)) := by
    intro cs hcs
    rw [Pattern.attemptEach_eq_map]
    exact Parallel.inOrder_alongside (ih cs hcs)
  cases p with
  | literal text caseSensitive tolerant => exact unlessTerminated_same _ (literal_same policy text caseSensitive tolerant)
  | parameter name type => exact unlessTerminated_same _ (parameter_same policy name type)
  | tail name raw =>
    cases raw with
    | true => exact absurd rfl (hp name)
    | false => exact unlessTerminated_same _ (tail_same policy name)
  | sequence cs => exact unlessTerminated_same _ (hall cs List.mem_cons_self)
  | optional cs id => exact unlessTerminated_same _ (Parallel.optional_alongside id (hall cs List.mem_cons_self))
  | variants as id inherited parenthesized =>
    rw [Pattern.attempt, Pattern.attemptAlternatives_eq_map]
    exact unlessTerminated_same _ (Parallel.variants_alongside id hall (failsAs _ _))
  | unordered cs id =>
    rw [Pattern.attempt, Pattern.childrenFrom_eq_map]
    refine unlessTerminated_same _ (Parallel.unordered_alongside _ id (fun c hc => ⟨rfl, ?_⟩) (failsAs _ _)
      fun _ => failsAs _ _)
    exact ih cs List.mem_cons_self c.1 (List.fst_mem_of_mem_zipIdx hc)

theorem matchCall_same {c : Grammar.Compiled} (hc : ∀ name, .tail name true ∉ c.root.nodes) :
    w.parallel.Alongside (c.matchCall policy) (c.matchCall policy) := by
  intro x y h
  have hroot := attempt_same (w := w) policy (fun q hq name heq => hc name (heq ▸ hq)) h
  unfold Grammar.Compiled.matchCall Grammar.Compiled.matchPart
  generalize c.root.attempt policy x = o, c.root.attempt policy y = o' at hroot
  cases hroot with
  | failed hfg hxy => exact .failed { hfg with score := hxy.score } hxy
  | matched hxy =>
    dsimp only
    rw [hxy.isEmpty]
    split
    · exact .matched hxy
    · exact .failed { failedAt_same hxy _ _ _ with score := hxy.score } hxy

end Rewording

/-! ## Calls -/

/-- The results for two calls, with the tokens of each, that cannot be told apart but by where the tokens stand. -/
inductive SameResult (ts ts' : List Call.Token) : Outcome σ → Outcome σ → Prop
  | matched {x y : Progress σ} : x.score = y.score → x.terminated = y.terminated → x.found = y.found →
      SameResult ts ts' (.matched x) (.matched y)
  | failed {f g : Failure σ} {x y : Progress σ} {i : Nat} : f.kind = g.kind → (∀ w, f.message w = g.message w) →
      f.expected = g.expected → f.suggestion = g.suggestion → f.score = g.score → f.actual = ts[i]? → g.actual = ts'[i]? →
      SameResult ts ts' (.failed f x) (.failed g y)

/-- Without a raw tail, calls whose tokens say the same have the same result, however they are spaced and quoted. -/
theorem matchCall_values [Score σ] (policy : Policy σ) {c : Grammar.Compiled} {q q' : Quoting} {call call' : Bytes}
    (hc : ∀ name, .tail name true ∉ c.root.nodes)
    (hvalues : (Call.tokens q call).map (·.value) = (Call.tokens q' call').map (·.value)) :
    SameResult (Call.tokens q call) (Call.tokens q' call') (c.matchCall policy (.start call (Call.tokens q call)))
      (c.matchCall policy (.start call' (Call.tokens q' call'))) := by
  let w : Rewording :=
    ⟨call, call', Call.tokens q call, Call.tokens q' call', Call.tokens_spans q call, Call.tokens_spans q' call', hvalues⟩
  have hstart : w.Abreast (Progress.start call (Call.tokens q call) : Progress σ) (.start call' (Call.tokens q' call')) :=
    ⟨rfl, rfl, ⟨0, rfl, rfl⟩, rfl, rfl, rfl⟩
  have hsame := Rewording.matchCall_same policy hc hstart
  generalize c.matchCall policy (.start call (Call.tokens q call)) = o,
    c.matchCall policy (.start call' (Call.tokens q' call')) = o' at hsame
  cases hsame with
  | matched hxy => exact .matched hxy.score hxy.terminated hxy.found
  | failed hfg hxy =>
    obtain ⟨i, hf, hg⟩ := hfg.actual
    exact .failed hfg.kind hfg.message hfg.expected hfg.suggestion hfg.score hf hg

/-- Another spacing, other quotes, and an escape: the tail is the same list. -/
theorem matchCall_values_requoted :
    let q := Specials.standard.quoting
    let call := ascii "set 'a b' x\"y"
    let call' := ascii "  \"set\"\"a b\"   'x' '\\\"y'"
    let c : Grammar.Compiled := ⟨.sequence
      [.literal (ascii "set") true false, .optional [.parameter (ascii "n") none] none, .tail (ascii "rest") false],
      [], .standard⟩
    (∀ name, .tail name true ∉ c.root.nodes) ∧
      (Call.tokens q call).map (·.value) = [ascii "set", ascii "a b", ascii "x", ascii "\"y"] ∧
      (Call.tokens q call).map (·.value) = (Call.tokens q call').map (·.value) ∧
      (c.matchCall (Policy.standard : Policy Rat) (.start call (Call.tokens q call))).failure?.isNone = true ∧
      SameResult (Call.tokens q call) (Call.tokens q call')
        (c.matchCall (Policy.standard : Policy Rat) (.start call (Call.tokens q call)))
        (c.matchCall (Policy.standard : Policy Rat) (.start call' (Call.tokens q call'))) := by
  intro q call call' c
  have hc : ∀ name, .tail name true ∉ c.root.nodes := by
    intro name
    simp [c, Pattern.nodes, Pattern.nodesOf]
  have hvalues : (Call.tokens q call).map (·.value) = (Call.tokens q call').map (·.value) := by decide
  exact ⟨hc, by decide, hvalues, by decide +kernel, matchCall_values .standard hc hvalues⟩

end CommandGrammar
