/-
  CommandGrammar.Proofs.Call.Partition — the tokens of a call partition it.

  Whatever bytes quote and escape, each byte of a call is in one token, or it is a blank
  that is in none. What a token looks like in the call shows its kind: a plain one has no
  blank in it, a quoted one stands between two quotes of a kind, and one that is never
  closed is the rest of the call (`call_partitioned`).
-/

import CommandGrammar.Proofs.Call.Words

namespace CommandGrammar.Call

variable {q : Quoting}

/-- What a token of each kind looks like in the call, and what it says. -/
structure Token.Formed (q : Quoting) (t : Token) : Prop where
  plain : t.kind = .plain → (∀ c ∈ t.raw, isBlank c = false) ∧ t.value ≠ []
  quoted : t.kind = .quoted → ∃ quote inside, q.isQuote quote = true ∧ t.raw = quote :: (inside ++ [quote])
  unterminated : t.kind = .unterminated →
    ∃ quote inside said, q.isQuote quote = true ∧ t.raw = quote :: inside ∧ t.value = quote :: said

namespace Word

variable {w w' : Word}

theorem Proper.plain?_formed (hw : w.Proper q) (hquote : w.quote = none) :
    ∀ t ∈ w.plain? q, t.Formed q ∧ t.kind ≠ .unterminated := by
  intro t ht
  obtain ⟨rfl, hsaid⟩ := plain?_eq_some ht
  exact ⟨⟨fun _ => ⟨hw.noBlank hquote, hsaid⟩, nofun, nofun⟩, nofun⟩

/-- A token that a byte completes is closed. -/
theorem Moves.formed {c : UInt8} {t? : Option Token} (h : Moves q w c t? w') (hw : w.Proper q) :
    ∀ t ∈ t?, t.Formed q ∧ t.kind ≠ .unterminated := by
  cases h with
  | blank hquote => exact hw.plain?_formed hquote
  | opens hquote => exact hw.plain?_formed hquote
  | closes hquote hclosing =>
    intro t ht
    cases ht
    obtain ⟨-, inside, hraw⟩ := hw.opened c hquote
    exact ⟨⟨nofun, fun _ => ⟨c, inside, hclosing, by simp [hraw]⟩, nofun⟩, nofun⟩
  | goes => exact nofun

end Word

/-- Of the tokens that are still to come only one that reaches the end is not closed. -/
theorem scan_formed (rest : Bytes) : ∀ {w : Word}, w.Proper q →
    ∀ t ∈ scan q w rest, t.Formed q ∧ (t.kind = .unterminated → t.stop = w.stop + rest.length) := by
  induction rest with
  | nil =>
    intro w hw t ht
    rw [scan, Option.mem_toList, Word.finish] at ht
    cases hquote : w.quote with
    | none =>
      rw [hquote] at ht
      obtain ⟨hformed, hclosed⟩ := hw.plain?_formed hquote t ht
      exact ⟨hformed, fun h => absurd h hclosed⟩
    | some opening =>
      rw [hquote] at ht
      cases ht
      obtain ⟨hopening, inside, hraw⟩ := hw.opened opening hquote
      refine ⟨⟨fun h => ?_, fun h => ?_, fun _ => ⟨opening, inside, w.settled q, hopening, hraw, rfl⟩⟩, fun _ => rfl⟩
      · cases h
      · cases h
  | cons c rest ih =>
    intro w hw t ht
    have hmoves := w.step_moves (q := q) c
    rw [scan, List.mem_append, Option.mem_toList] at ht
    generalize (w.step q c).1 = t? at hmoves ht
    generalize (w.step q c).2 = w' at hmoves ht
    rcases ht with ht | ht
    · obtain ⟨hformed, hclosed⟩ := hmoves.formed hw t ht
      exact ⟨hformed, fun h => absurd h hclosed⟩
    · obtain ⟨hformed, hend⟩ := ih (hmoves.proper hw) t ht
      refine ⟨hformed, fun h => ?_⟩
      rw [hend h, hmoves.stop, List.length_cons]
      omega

/-- The tokens of a call have spans of their own in it, with only blanks outside of them. Each looks as its kind has
    it, and only the last may be unterminated, where it reaches the end of the call. -/
theorem call_partitioned (q : Quoting) (call : Bytes) :
    Partition call ((tokens q call).map Token.piece) ∧ (∀ t ∈ tokens q call, t.Formed q) ∧
      ∀ before t after, tokens q call = before ++ t :: after → t.kind = .unterminated →
        after = [] ∧ t.stop = call.length := by
  have hpartition := (tokens_pieces q call).partition
  have hformed := scan_formed call (Word.proper_fresh (q := q) 0)
  refine ⟨hpartition, fun t ht => (hformed t ht).1, fun before t after h hopen => ?_⟩
  have hmem : t ∈ tokens q call := h ▸ List.mem_append_right before List.mem_cons_self
  have hstop : t.stop = call.length := by
    rw [(hformed t hmem).2 hopen]
    exact Nat.zero_add _
  refine ⟨List.eq_nil_iff_forall_not_mem.mpr fun u hu => ?_, hstop⟩
  -- a token behind this one would stand behind the end of the call
  have hordered := List.pairwise_map.mp hpartition.ordered
  rw [h] at hordered
  obtain ⟨-, hordered, -⟩ := List.pairwise_append.mp hordered
  have hbehind : t.stop ≤ u.start := (List.pairwise_cons.mp hordered).1 u hu
  have hmem' : u ∈ tokens q call := h ▸ List.mem_append_right before (List.mem_cons_of_mem t hu)
  have hspan : u.start < u.stop ∧ u.stop ≤ call.length := hpartition.spans u.piece (List.mem_map_of_mem hmem')
  omega

/-- Escapes are kept and dropped, and quotes end words: every byte is in the token that it was read for. -/
example : (tokens Specials.standard.quoting (ascii " a\\ b'c \\''\"d")).map (fun t => (t.kind, t.start, t.raw, t.value)) =
    [(.plain, 1, ascii "a\\", ascii "a\\"), (.plain, 4, ascii "b", ascii "b"),
      (.quoted, 5, ascii "'c \\''", ascii "c '"), (.unterminated, 11, ascii "\"d", ascii "\"d")] := by decide

end CommandGrammar.Call
