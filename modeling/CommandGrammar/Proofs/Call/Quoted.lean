/-
  CommandGrammar.Proofs.Call.Quoted — any texts can be the words of a call.

  A text is written as a word between two quotes, with an escape before each quote of
  any kind and each escape in it. The lexer reads that word as one token that says the
  text (`scan_written`), whatever the text is, and so reads back any list of texts that
  are written one space apart (`tokens_written`). An escape that is a quote itself would
  end the word, so this needs quoting in which it is none.
-/

import CommandGrammar.Proofs.Call.Words

namespace CommandGrammar

/-- The text with an escape before each byte that would not stand for itself. -/
def Quoting.escaped (q : Quoting) (text : Bytes) : Bytes :=
  text.flatMap fun c => if q.isQuote c || c == q.escape then [q.escape, c] else [c]

/-- The text as a quoted word. -/
def Quoting.written (q : Quoting) (quote : UInt8) (text : Bytes) : Bytes :=
  quote :: (q.escaped text ++ [quote])

namespace Call

variable {q : Quoting}

/-! ## In a quoted word -/

/-- The word in which the quote is open, with nothing pending. -/
def Word.inside (start : Nat) (opening : UInt8) (raw value : Bytes) : Word :=
  { start, raw, value, quote := some opening }

section

variable (start : Nat) (opening : UInt8) (raw value rest : Bytes)

/-- A byte that is no quote and no escape stands for itself. -/
theorem scan_inside_other {c : UInt8} (hquote : q.isQuote c = false) (hescape : c ≠ q.escape) :
    scan q (.inside start opening raw value) (c :: rest) =
      scan q (.inside start opening (raw ++ [c]) (value ++ [c])) rest := by
  simp [scan, Word.step, Word.inside, Word.take, Word.settled, hquote, hescape]

/-- Behind an escape a quote or an escape stands for itself. -/
theorem scan_inside_escape (hno : q.isQuote q.escape = false) {c : UInt8} (hc : q.isQuote c = true ∨ c = q.escape) :
    scan q (.inside start opening raw value) (q.escape :: c :: rest) =
      scan q (.inside start opening (raw ++ [q.escape, c]) (value ++ [c])) rest := by
  have hpending : (Word.inside start opening raw value).step q q.escape =
      (none, { Word.inside start opening (raw ++ [q.escape]) value with escaped := true }) := by
    simp [Word.step, Word.inside, Word.take, hno]
  have hresolved : ({ Word.inside start opening (raw ++ [q.escape]) value with escaped := true } : Word).step q c =
      (none, .inside start opening (raw ++ [q.escape, c]) (value ++ [c])) := by
    rcases hc with hquote | rfl
    · simp [Word.step, Word.inside, Word.take, hquote]
    · simp [Word.step, Word.inside, Word.take, hno]
  rw [scan, hpending, scan, hresolved]
  rfl

/-- The quote that is open ends the word. -/
theorem scan_inside_close (hquote : q.isQuote opening = true) :
    scan q (.inside start opening raw value) (opening :: rest) =
      ⟨.quoted, raw ++ [opening], start, start + raw.length + 1, value⟩ :: scan q (.fresh (start + raw.length + 1)) rest := by
  simp [scan, Word.step, Word.inside, Word.fresh, Word.stop, hquote]

end

/-- An escaped text adds the text to what the word says. -/
theorem scan_escaped (hno : q.isQuote q.escape = false) (start : Nat) (opening : UInt8) (rest : Bytes) (text : Bytes) :
    ∀ raw value, scan q (.inside start opening raw value) (q.escaped text ++ rest) =
      scan q (.inside start opening (raw ++ q.escaped text) (value ++ text)) rest := by
  induction text with
  | nil => simp [Quoting.escaped]
  | cons c text ih =>
    intro raw value
    by_cases hc : q.isQuote c = true ∨ c = q.escape
    · have hsplit : q.escaped (c :: text) = q.escape :: c :: q.escaped text := by simp [Quoting.escaped, hc]
      rw [hsplit, List.cons_append, List.cons_append, scan_inside_escape start opening raw value _ hno hc, ih]
      simp
    · have hsplit : q.escaped (c :: text) = c :: q.escaped text := by simp [Quoting.escaped, hc]
      obtain ⟨hquote, hescape⟩ := not_or.mp hc
      rw [hsplit, List.cons_append, scan_inside_other start opening raw value _ (by simpa using hquote) hescape, ih]
      simp

/-! ## Whole words -/

section

variable {quote : UInt8} (hquote : q.isQuote quote = true) (hblank : isBlank quote = false)
  (hno : q.isQuote q.escape = false)

include hquote hblank hno

/-- A written text is one token, and the lexer goes on behind it with nothing read. -/
theorem scan_written (start : Nat) (text rest : Bytes) :
    scan q (.fresh start) (q.written quote text ++ rest) =
      ⟨.quoted, q.written quote text, start, start + (q.written quote text).length, text⟩ ::
        scan q (.fresh (start + (q.written quote text).length)) rest := by
  have hopen : (Word.fresh start).step q quote = (none, .inside start quote [quote] []) :=
    Word.step_opens start hblank hquote
  have hlen : start + ([quote] ++ q.escaped text).length + 1 = start + (q.written quote text).length := by
    simp [Quoting.written]
    omega
  calc scan q (.fresh start) (q.written quote text ++ rest)
      = scan q (.inside start quote [quote] []) (q.escaped text ++ quote :: rest) := by
        simp [Quoting.written, scan, hopen]
    _ = scan q (.inside start quote ([quote] ++ q.escaped text) ([] ++ text)) (quote :: rest) :=
        scan_escaped hno start quote (quote :: rest) text [quote] []
    _ = _ := by
        rw [scan_inside_close _ _ _ _ _ hquote, hlen]
        rfl

end

/-- Texts that are written as quoted words one space apart are read back, one token for each. -/
theorem tokens_written (q : Quoting) (hno : q.isQuote q.escape = false) {quote : UInt8} (hquote : q.isQuote quote = true)
    (hblank : isBlank quote = false) (texts : List Bytes) :
    (tokens q ([space].intercalate (texts.map (q.written quote)))).map (fun t => (t.kind, t.raw, t.value)) =
      texts.map fun text => (.quoted, q.written quote text, text) := by
  -- each word is read from where the last one has ended
  suffices h : ∀ start, (scan q (.fresh start) ([space].intercalate (texts.map (q.written quote)))).map
      (fun t => (t.kind, t.raw, t.value)) = texts.map fun text => (.quoted, q.written quote text, text) from h 0
  induction texts with
  | nil => exact fun start => rfl
  | cons text texts ih =>
    intro start
    cases texts with
    | nil =>
      have hone := scan_written hquote hblank hno start text []
      rw [List.append_nil] at hone
      rw [List.map_singleton, List.intercalate_singleton, hone]
      rfl
    | cons next texts =>
      have hspace : ∀ n rest, scan q (.fresh n) (space :: rest) = scan q (.fresh (n + 1)) rest := fun _ _ => rfl
      have hrest := ih (start + (q.written quote text).length + 1)
      rw [List.map_cons] at hrest
      rw [List.map_cons, List.map_cons, List.intercalate_cons_cons, List.append_assoc,
        scan_written hquote hblank hno, List.singleton_append, hspace, List.map_cons, hrest]
      rfl

/-- No text, a text of both quotes, and a text that ends in escapes. -/
theorem tokens_written_awkward :
    let texts := [[], ascii "a 'b' \"c\"", ascii "d\\\\"]
    Specials.standard.quoting.isQuote Specials.standard.quoting.escape = false ∧
      Specials.standard.quoting.isQuote 34 = true ∧ isBlank 34 = false ∧
      [space].intercalate (texts.map (Specials.standard.quoting.written 34)) =
        ascii "\"\" \"a \\'b\\' \\\"c\\\"\" \"d\\\\\\\\\"" ∧
      (tokens Specials.standard.quoting ([space].intercalate (texts.map (Specials.standard.quoting.written 34)))).map
          (fun t => (t.kind, t.raw, t.value)) =
        texts.map fun text => (.quoted, Specials.standard.quoting.written 34 text, text) :=
  ⟨by decide, by decide, by decide, by decide,
    tokens_written Specials.standard.quoting (by decide) (by decide) (by decide) _⟩

end Call

end CommandGrammar
