/-
  CommandGrammar.Proofs.Call.Verbatim — texts that quoting leaves as they are.

  A grammar knows blanks only, while a call also knows quotes and escapes. A text stands
  for itself in a call too if each quote is kept by an escape before it and no escape
  takes another one for itself; one more quote may begin the last word, if it is never
  closed (`Quoting.Verbatim`). What that allows of each byte is told from what stands
  before it (`Plain.here`, `Unclosed.here`, `Verbatim.here`).
-/

import CommandGrammar.Specials
import Mathlib.Data.List.Forall2

namespace CommandGrammar

/-! ## Words -/

namespace Bytes

/-- The pieces of a text between blanks. -/
def words (text : Bytes) : List Bytes :=
  (text.splitOnP isBlank).filter (!·.isEmpty)

/-- The words of a text, the first of which has begun before it. -/
def wordsFrom (run text : Bytes) : List Bytes :=
  ((text.splitOnP isBlank).modifyHead (run ++ ·)).filter (!·.isEmpty)

theorem words_eq (text : Bytes) : text.words = wordsFrom [] text := by
  have hid : (fun piece : Bytes => [] ++ piece) = id := rfl
  rw [words, wordsFrom, hid, List.modifyHead_id]
  rfl

/-- A run is a word if there is anything of it. -/
def word (run : Bytes) : List Bytes :=
  if run.isEmpty then [] else [run]

theorem wordsFrom_nil (run : Bytes) : wordsFrom run [] = run.word := by
  cases run <;> simp [wordsFrom, word]

theorem wordsFrom_blank (run : Bytes) {c : UInt8} (hc : isBlank c = true) (rest : Bytes) :
    wordsFrom run (c :: rest) = run.word ++ wordsFrom [] rest := by
  rw [← words_eq, words, wordsFrom, List.splitOnP_cons_eq_if_modifyHead, if_pos hc]
  cases run <;> simp [word]

theorem wordsFrom_other (run : Bytes) {c : UInt8} (hc : isBlank c = false) (rest : Bytes) :
    wordsFrom run (c :: rest) = wordsFrom (run ++ [c]) rest := by
  rw [wordsFrom, wordsFrom, List.splitOnP_cons_eq_if_modifyHead, if_neg (by simp [hc]), List.modifyHead_modifyHead]
  simp [Function.comp_def]

/-- What has begun belongs to the first word, with all that stands before the next blank. -/
theorem wordsFrom_of_ne_nil (text : Bytes) : ∀ {run : Bytes}, run ≠ [] →
    ∃ later, wordsFrom run text = (run ++ text.takeWhile (!isBlank ·)) :: later := by
  induction text with
  | nil =>
    intro run hrun
    exact ⟨[], by simp [wordsFrom_nil, word, hrun]⟩
  | cons c rest ih =>
    intro run hrun
    cases hc : isBlank c with
    | true => exact ⟨wordsFrom [] rest, by simp [wordsFrom_blank run hc, word, hrun, hc]⟩
    | false =>
      obtain ⟨later, hlater⟩ := ih (List.append_ne_nil_of_right_ne_nil run (List.cons_ne_nil c []))
      exact ⟨later, by simp [wordsFrom_other run hc, hlater, hc]⟩

end Bytes

/-! ## Texts that stand for themselves -/

namespace Quoting

/-- No byte is more than one of a quote, the escape and a blank. -/
structure Distinct (q : Quoting) : Prop where
  quote_not_blank : ∀ c, q.isQuote c = true → isBlank c = false
  escape_not_blank : isBlank q.escape = false
  escape_not_quote : q.isQuote q.escape = false

theorem distinct_standard : Specials.standard.quoting.Distinct where
  quote_not_blank c hc := by
    have hquotes : c = 34 ∨ c = 39 := by simpa [isQuote, Specials.standard, ascii] using hc
    rcases hquotes with rfl | rfl <;> decide
  escape_not_blank := by decide
  escape_not_quote := by decide

theorem Distinct.quote_ne_escape {q : Quoting} (h : q.Distinct) {c : UInt8} (hc : q.isQuote c = true) :
    c ≠ q.escape := by
  rintro rfl
  rw [h.escape_not_quote] at hc
  cases hc

variable (q : Quoting)

/-- Outside of quotes: each quote stands behind an escape, and no escape behind another. -/
structure Plain (text : Bytes) : Prop where
  quotes : ∀ before c after, text = before ++ c :: after → q.isQuote c = true → before.getLast? = some q.escape
  escapes : ¬ [q.escape, q.escape] <:+: text

/-- Behind the quote `c`, which is never closed: no blank is quoted, and no escape is taken for what is behind it. -/
structure Unclosed (c : UInt8) (text : Bytes) : Prop where
  quote : q.isQuote c = true
  unclosed : c ∉ text
  blanks : ∀ b ∈ text, isBlank b = false
  escapes : ∀ b, q.isQuote b = true ∨ b = q.escape → ¬ [q.escape, b] <:+: text

/-- Between two words, or before the first one. -/
def Parted (text : Bytes) : Prop :=
  ∀ b ∈ text.getLast?, isBlank b = true

/-- No byte is taken for anything but itself. The last word may begin with a quote, which is then part of it. -/
def Verbatim (text : Bytes) : Prop :=
  q.Plain text ∨ ∃ front c behind, text = front ++ c :: behind ∧ q.Plain front ∧ Parted front ∧ q.Unclosed c behind

variable {q} {c b : UInt8} {text front behind : Bytes}

/-! ### One byte more -/

theorem pair_infix_snoc {a : UInt8} (text : Bytes) :
    [a, b] <:+: text ++ [c] ↔ (b = c ∧ text.getLast? = some a) ∨ [a, b] <:+: text := by
  rw [List.infix_concat_iff]
  refine or_congr_left ?_
  constructor
  · rintro ⟨before, h⟩
    have hsplit : before ++ [a] ++ [b] = text ++ [c] := by rw [← h, List.append_assoc]; rfl
    obtain ⟨rfl, hb⟩ := List.append_inj' hsplit rfl
    cases hb
    exact ⟨rfl, List.getLast?_concat⟩
  · rintro ⟨rfl, hlast⟩
    obtain ⟨before, rfl⟩ := List.getLast?_eq_some_iff.mp hlast
    exact ⟨before, by simp⟩

theorem plain_nil : q.Plain [] where
  quotes before c after h := by simp at h
  escapes h := by simpa using h.length_le

theorem Plain.snoc (h : q.Plain text) (hquote : q.isQuote c = true → text.getLast? = some q.escape)
    (hescape : c = q.escape → text.getLast? ≠ some q.escape) : q.Plain (text ++ [c]) where
  quotes before c' after heq hc' := by
    rcases List.eq_nil_or_concat after with rfl | ⟨after, d, rfl⟩
    · obtain ⟨rfl, hlast⟩ := List.append_inj' heq rfl
      cases hlast
      exact hquote hc'
    · rw [List.concat_eq_append, ← List.cons_append, ← List.append_assoc] at heq
      exact h.quotes before c' after (List.append_inj' heq rfl).1 hc'
  escapes hpair := by
    rcases (pair_infix_snoc text).mp hpair with ⟨hc, hlast⟩ | hpair
    · exact hescape hc.symm hlast
    · exact h.escapes hpair

/-- What a plain text allows of each of its bytes. -/
theorem Plain.here {rest : Bytes} (h : q.Plain (text ++ c :: rest)) :
    (q.isQuote c = true → text.getLast? = some q.escape) ∧ (c = q.escape → text.getLast? ≠ some q.escape) := by
  refine ⟨h.quotes text c rest rfl, ?_⟩
  rintro rfl hlast
  obtain ⟨before, rfl⟩ := List.getLast?_eq_some_iff.mp hlast
  exact h.escapes ⟨before, rest, by simp⟩

theorem unclosed_nil (hc : q.isQuote c = true) : q.Unclosed c [] where
  quote := hc
  unclosed := by simp
  blanks := by simp
  escapes b _ h := by simpa using h.length_le

theorem Unclosed.snoc (h : q.Unclosed c text) (hne : b ≠ c) (hblank : isBlank b = false)
    (hescape : q.isQuote b = true ∨ b = q.escape → text.getLast? ≠ some q.escape) : q.Unclosed c (text ++ [b]) where
  quote := h.quote
  unclosed := by simp [h.unclosed, hne.symm]
  blanks := by
    intro d hd
    rcases List.mem_append.mp hd with hd | hd
    · exact h.blanks d hd
    · rwa [List.mem_singleton.mp hd]
  escapes d hd hpair := by
    rcases (pair_infix_snoc text).mp hpair with ⟨rfl, hlast⟩ | hpair
    · exact hescape hd hlast
    · exact h.escapes d hd hpair

theorem Unclosed.here {rest : Bytes} (h : q.Unclosed c (text ++ b :: rest)) :
    b ≠ c ∧ isBlank b = false ∧ (q.isQuote b = true ∨ b = q.escape → text.getLast? ≠ some q.escape) := by
  refine ⟨?_, h.blanks b (by simp), ?_⟩
  · rintro rfl
    exact h.unclosed (by simp)
  · intro hb hlast
    obtain ⟨before, rfl⟩ := List.getLast?_eq_some_iff.mp hlast
    exact h.escapes b hb ⟨before, rest, by simp⟩

/-! ### Where the open quote stands -/

/-- It is behind all that is known to be plain. -/
theorem exists_behind_of_open (hq : q.Distinct) {done rest : Bytes} (hdone : q.Plain done) (hfront : Parted front)
    (hc : q.isQuote c = true) (h : done ++ rest = front ++ c :: behind) :
    ∃ more, front = done ++ more ∧ rest = more ++ c :: behind := by
  rcases List.append_eq_append_iff.mp h with hmore | ⟨inside, rfl, hinside⟩
  · exact hmore
  · cases inside with
    | nil => exact ⟨[], by simp, by simpa using hinside.symm⟩
    | cons d inside =>
      obtain ⟨rfl, -⟩ := List.cons.inj hinside
      -- an escape would have to stand before the quote, where a word begins
      have hblank := hfront q.escape (hdone.here.1 hc)
      rw [hq.escape_not_blank] at hblank
      cases hblank

/-- What a verbatim text allows of the byte behind a plain beginning. -/
theorem Verbatim.here (hq : q.Distinct) {done rest : Bytes} (hdone : q.Plain done) (h : q.Verbatim (done ++ c :: rest)) :
    (q.isQuote c = true → done.getLast? = some q.escape ∨ Parted done ∧ q.Unclosed c rest) ∧
      (c = q.escape → done.getLast? ≠ some q.escape) := by
  rcases h with h | ⟨front, d, behind, heq, hplain, hparted, hunclosed⟩
  · exact ⟨fun hc => .inl (h.here.1 hc), h.here.2⟩
  · obtain ⟨more, rfl, hmore⟩ := exists_behind_of_open hq hdone hparted hunclosed.quote heq
    cases more with
    | nil =>
      rw [List.append_nil] at hparted
      obtain ⟨rfl, rfl⟩ := List.cons.inj hmore
      refine ⟨fun _ => .inr ⟨hparted, hunclosed⟩, ?_⟩
      exact fun hescape => absurd hescape (hq.quote_ne_escape hunclosed.quote)
    | cons e more =>
      obtain ⟨rfl, rfl⟩ := List.cons.inj hmore
      exact ⟨fun hc => .inl (hplain.here.1 hc), hplain.here.2⟩

end Quoting

end CommandGrammar
