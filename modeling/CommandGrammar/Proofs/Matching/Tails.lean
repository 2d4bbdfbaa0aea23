/-
  CommandGrammar.Proofs.Matching.Tails — what a tail takes.

  A tail takes the tokens that are left as a list of what they say, or raw as the text
  that they span. As every token stands on at least one byte of the call, there is such a
  text wherever tokens are left (`remainingText_isEmpty`), and cut into words again it
  gives the list (`tail_rescanned`).
-/

import CommandGrammar.Matching.Lookup
import CommandGrammar.Proofs.Call.Slices
import CommandGrammar.Proofs.Matching.Course

namespace CommandGrammar

variable {σ : Type}

/-! ## The text that is left -/

theorem Progress.remainingText_of_spans {m : Progress σ} {lo : Nat} (h : Call.Spans m.raw.length lo m.tokens)
    {first last : Call.Token} (hfirst : m.tokens.head? = some first) (hlast : m.tokens.getLast? = some last) :
    m.remainingText = m.raw.slice first.start last.stop ∧ m.remainingText ≠ [] := by
  obtain ⟨rest, hts⟩ := List.head?_eq_some_iff.mp hfirst
  have hspan : first.start < last.stop ∧ last.stop ≤ m.raw.length := by
    rw [hts] at h hlast
    exact h.first_last hlast
  have htext : m.remainingText = m.raw.slice first.start last.stop := by
    rw [remainingText, hfirst, hlast]
    exact if_pos hspan
  rw [htext]
  exact ⟨rfl, Call.slice_ne_nil hspan.1 hspan.2⟩

/-- There is text left exactly where there are tokens left. -/
theorem Progress.remainingText_isEmpty {m : Progress σ} {lo : Nat} (h : Call.Spans m.raw.length lo m.tokens) :
    m.remainingText.isEmpty = m.tokens.isEmpty := by
  cases hts : m.tokens with
  | nil => simp [remainingText, hts]
  | cons first rest =>
    have hlast : m.tokens.getLast? = some ((first :: rest).getLast (List.cons_ne_nil _ _)) := by
      rw [hts, List.getLast?_eq_some_getLast]
    have hne := (remainingText_of_spans h (by rw [hts]; rfl) hlast).2
    simpa using hne

/-- Cut into words, the text that is left says what the tokens do that are left. -/
theorem Progress.tokens_remainingText {q : Quoting} {m : Progress σ} (h : m.tokens <:+ Call.tokens q m.raw)
    (hne : m.tokens ≠ []) : (Call.tokens q m.remainingText).map (·.value) = m.tokens.map (·.value) := by
  have hspans := (Call.tokens_spans q m.raw).suffix h
  obtain ⟨before, hbefore⟩ := h
  have hlast : m.tokens.getLast? = some (m.tokens.getLast hne) := List.getLast?_eq_some_getLast hne
  have hfirst : m.tokens.head? = some (m.tokens.head hne) := List.head?_eq_some_head hne
  have hcut : Call.tokens q m.raw = before ++ m.tokens ++ [] := by rw [List.append_nil, hbefore]
  have hslice := Call.tokens_slice hcut hfirst hlast
  rw [(remainingText_of_spans hspans hfirst hlast).1]
  calc (Call.tokens q (m.raw.slice (m.tokens.head hne).start (m.tokens.getLast hne).stop)).map (·.value)
      = ((Call.tokens q (m.raw.slice (m.tokens.head hne).start (m.tokens.getLast hne).stop)).map
          (Call.Token.shift (m.tokens.head hne).start)).map (·.value) := by
        rw [List.map_map]
        rfl
    _ = m.tokens.map (·.value) := by rw [hslice]

/-! ## The tail -/

variable [Score σ] (policy : Policy σ)

/-- What a tail is bound to. -/
def Progress.rest (m : Progress σ) (raw : Bool) : Value :=
  if raw then .str m.remainingText else .list (m.tokens.map (·.value))

/-- The state behind a tail. -/
def Policy.behindTail (name : Bytes) (raw : Bool) (m : Progress σ) : Progress σ :=
  ((m.bind name (m.rest raw)).addScore policy.parameterScore).terminate

theorem Policy.value_behindTail (name : Bytes) (raw : Bool) (m : Progress σ) :
    (policy.behindTail name raw m).found.value name = .ok (m.rest raw) := by
  have hget : (policy.behindTail name raw m).found.params.get? name = some (m.rest raw) := Table.get?_insert_self _ _ _
  rw [Findings.value, hget]
  rfl

theorem tail_refused (name : Bytes) (raw : Bool) {m : Progress σ} (h : m.terminated = true ∨ m.tokens = []) :
    ∃ f, (Pattern.tail name raw).attempt policy m = .failed f m := by
  rw [Pattern.attempt, unlessTerminated]
  split
  · exact ⟨_, rfl⟩
  · rename_i hopen
    have hnil : m.tokens = [] := h.resolve_left hopen
    have htext : m.remainingText = [] := by simp [Progress.remainingText, hnil]
    simp only [attemptTail, htext]
    exact ⟨_, rfl⟩

theorem tail_taken (name : Bytes) (raw : Bool) {m : Progress σ} {lo : Nat} (hspans : Call.Spans m.raw.length lo m.tokens)
    (hopen : m.terminated = false) (hne : m.tokens ≠ []) :
    (Pattern.tail name raw).attempt policy m = .matched (policy.behindTail name raw m) := by
  have htext : m.remainingText.isEmpty = false := by
    rw [Progress.remainingText_isEmpty hspans]
    simpa using hne
  rw [Pattern.attempt, unlessTerminated_open hopen]
  simp only [attemptTail, htext]
  rfl

/-- The tokens of a piece of a call are those of the call, so wherever a match comes to a tail, the text that it
    binds raw is cut into the words that it binds as a list. -/
theorem tail_rescanned (q : Quoting) (call : Bytes) :
    (∀ {i j : Nat} {first last : Call.Token}, i ≤ j → (Call.tokens q call)[i]? = some first →
        (Call.tokens q call)[j]? = some last →
        (Call.tokens q (call.slice first.start last.stop)).map (Call.Token.shift first.start) =
          ((Call.tokens q call).take (j + 1)).drop i) ∧
      ∀ {σ : Type} [Score σ] (policy : Policy σ) {p : Pattern} {name : Bytes} {raw : Bool} {m : Progress σ},
        Tries policy p (.start call (Call.tokens q call)) (.tail name raw) m →
        ((m.terminated = true ∨ m.tokens = []) ∧ ∀ raw, ∃ f, (Pattern.tail name raw).attempt policy m = .failed f m) ∨
          ∃ x y text texts, (Pattern.tail name true).attempt policy m = .matched x ∧
            (Pattern.tail name false).attempt policy m = .matched y ∧ x.found.value name = .ok (.str text) ∧
            y.found.value name = .ok (.list texts) ∧ (Call.tokens q text).map (·.value) = texts := by
  refine ⟨Call.tokens_slice_range, ?_⟩
  intro σ _ policy p name raw m htries
  have hraw : m.raw = call := htries.further.raw
  have hsuffix : m.tokens <:+ Call.tokens q m.raw := by
    rw [hraw]
    exact htries.further.tokens
  by_cases h : m.terminated = true ∨ m.tokens = []
  · exact .inl ⟨h, fun raw => tail_refused policy name raw h⟩
  · obtain ⟨hopen, hne⟩ := not_or.mp h
    have htaken := fun raw => tail_taken policy name raw ((Call.tokens_spans q m.raw).suffix hsuffix)
      (by simpa using hopen) hne
    exact .inr ⟨_, _, m.remainingText, _, htaken true, htaken false, policy.value_behindTail name true m,
      policy.value_behindTail name false m, Progress.tokens_remainingText hsuffix hne⟩

/-- A raw tail on a fork, before a quoted word, a plain one that ends at a quote, and a word that is not closed. -/
theorem tail_rescanned_quoted :
    let q := Specials.standard.quoting
    let call := ascii "say 'a b'c \"d"
    let p : Pattern := .sequence [.literal (ascii "say") true false, .optional [.tail (ascii "x") true] none]
    (1 ≤ 2 ∧ (Call.tokens q call)[1]? = some ⟨.quoted, ascii "'a b'", 4, 9, ascii "a b"⟩ ∧
        (Call.tokens q call)[2]? = some ⟨.plain, ascii "c", 9, 10, ascii "c"⟩ ∧
        (Call.tokens q (call.slice 4 10)).map (Call.Token.shift 4) = ((Call.tokens q call).take 3).drop 1) ∧
      ∃ m : Progress Rat, Tries .standard p (.start call (Call.tokens q call)) (.tail (ascii "x") true) m ∧
        ¬ (m.terminated = true ∨ m.tokens = []) ∧
        (((m.terminated = true ∨ m.tokens = []) ∧
            ∀ raw, ∃ f, (Pattern.tail (ascii "x") raw).attempt .standard m = .failed f m) ∨
          ∃ x y text texts, (Pattern.tail (ascii "x") true).attempt .standard m = .matched x ∧
            (Pattern.tail (ascii "x") false).attempt .standard m = .matched y ∧
            x.found.value (ascii "x") = .ok (.str text) ∧ y.found.value (ascii "x") = .ok (.list texts) ∧
            (Call.tokens q text).map (·.value) = texts) := by
  intro q call p
  have hfirst : (Call.tokens q call)[1]? = some ⟨.quoted, ascii "'a b'", 4, 9, ascii "a b"⟩ := by decide
  have hlast : (Call.tokens q call)[2]? = some ⟨.plain, ascii "c", 9, 10, ascii "c"⟩ := by decide
  let m : Progress Rat :=
    ((Progress.start call (Call.tokens q call)).addScore (Policy.standard : Policy Rat).literalScore).consume 1
  have hsay : (Pattern.literal (ascii "say") true false).attempt .standard (.start call (Call.tokens q call)) = .matched m := rfl
  have htries : Tries .standard p (.start call (Call.tokens q call)) (.tail (ascii "x") true) m.fork :=
    .sequence rfl (.behind hsay (.head _ (.optional none rfl (.head _ (.self _ _)))))
  refine ⟨⟨by decide, hfirst, hlast, (tail_rescanned q call).1 (by decide) hfirst hlast⟩, m.fork, htries, ?_,
    (tail_rescanned q call).2 .standard htries⟩
  decide

end CommandGrammar
