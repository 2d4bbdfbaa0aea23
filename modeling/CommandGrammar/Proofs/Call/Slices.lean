/-
  CommandGrammar.Proofs.Call.Slices — a piece of a call is cut into the same words.

  At the start of each token nothing is pending (`scan_from`), and to end where a token
  ends is as good as to meet what has ended it (`scan_until`). So a call that is cut out
  from the start of one token to the end of another has the tokens between them.
-/

import CommandGrammar.Proofs.Call.Words

namespace CommandGrammar.Call

variable {q : Quoting}

/-- A token of a list stands at its front or among those behind. -/
theorem toList_append_eq {α : Type} {x? : Option α} {l us vs : List α} {t : α} (h : x?.toList ++ l = us ++ t :: vs) :
    (us = [] ∧ x? = some t) ∨ ∃ us', us = x?.toList ++ us' ∧ l = us' ++ t :: vs := by
  cases x? with
  | none => exact .inr ⟨us, rfl, h⟩
  | some x =>
    cases us with
    | nil =>
      obtain ⟨rfl, -⟩ := List.cons.inj h
      exact .inl ⟨rfl, rfl⟩
    | cons u us =>
      obtain ⟨rfl, hrest⟩ := List.cons.inj h
      exact .inr ⟨us, rfl, hrest⟩

namespace Word

variable {w w' : Word} {c : UInt8} {t : Token}

/-- A token that a byte completes is the word read so far. -/
theorem Moves.start_token (h : Moves q w c (some t) w') : t.start = w.start := by
  generalize ht : some t = t? at h
  cases h with
  | blank => rw [(plain?_eq_some ht.symm).1]
  | opens => rw [(plain?_eq_some ht.symm).1]
  | closes => cases ht; rfl
  | goes => cases ht

theorem finish_token (h : w.finish q = some t) : t.start = w.start ∧ t.stop = w.stop := by
  unfold finish at h
  split at h
  · rw [(plain?_eq_some h).1]
    exact ⟨rfl, rfl⟩
  · cases h
    exact ⟨rfl, rfl⟩

end Word

/-! ## Where a token starts -/

/-- A token that is completed is the word that was being read, or starts further on; there the lexer could as
    well begin anew. -/
theorem scan_resumes (rest : Bytes) : ∀ {w : Word} {us vs : List Token} {t : Token}, scan q w rest = us ++ t :: vs →
    (us = [] ∧ t.start = w.start) ∨
      ∃ before behind, rest = before ++ behind ∧ t.start = w.stop + before.length ∧
        scan q (.fresh t.start) behind = t :: vs := by
  induction rest with
  | nil =>
    intro w us vs t h
    rw [scan, ← List.append_nil (w.finish q).toList] at h
    rcases toList_append_eq h with ⟨rfl, ht⟩ | ⟨us', -, hnil⟩
    · exact .inl ⟨rfl, (Word.finish_token ht).1⟩
    · simp at hnil
  | cons c rest ih =>
    intro w us vs t h
    have hmoves := w.step_moves (q := q) c
    rw [scan] at h
    generalize (w.step q c).1 = t? at hmoves h
    generalize (w.step q c).2 = w' at hmoves h
    rcases toList_append_eq h with ⟨rfl, rfl⟩ | ⟨us', rfl, hrest⟩
    · exact .inl ⟨rfl, hmoves.start_token⟩
    · have hstop := hmoves.stop
      rcases ih hrest with ⟨rfl, hstart⟩ | ⟨before, behind, rfl, hstart, hscan⟩
      · -- the word that is read now starts anew, unless the byte went on with the last one
        cases hmoves with
        | blank => exact .inr ⟨[c], rest, rfl, hstart, by rwa [hstart]⟩
        | closes => exact .inr ⟨[c], rest, rfl, hstart, by rwa [hstart]⟩
        | opens _ hblank hquote =>
          refine .inr ⟨[], c :: rest, rfl, hstart, ?_⟩
          rw [hstart, scan, Word.step_opens _ hblank hquote]
          exact hrest
        | goes => exact .inl ⟨rfl, hstart⟩
      · refine .inr ⟨c :: before, behind, rfl, ?_, hscan⟩
        rw [hstart, hstop, List.length_cons]
        omega

/-- The tokens of a call from one on are those of what is left of the call from its start on. -/
theorem tokens_resume {call : Bytes} {us vs : List Token} {t : Token} (h : tokens q call = us ++ t :: vs) :
    ∃ before behind, call = before ++ behind ∧ t.start = before.length ∧ scan q (.fresh t.start) behind = t :: vs := by
  rcases scan_resumes call h with ⟨rfl, hstart⟩ | ⟨before, behind, hcall, hstart, hscan⟩
  · refine ⟨[], call, rfl, hstart, ?_⟩
    rw [hstart]
    exact h
  · refine ⟨before, behind, hcall, ?_, hscan⟩
    rw [hstart]
    exact Nat.zero_add _

/-! ## Where a token ends -/

/-- What ends a token is not needed to complete it: the end of the text does as well. -/
theorem scan_until (rest : Bytes) : ∀ {w : Word} {us vs : List Token} {t : Token}, scan q w rest = us ++ t :: vs →
    ∃ inside behind, rest = inside ++ behind ∧ t.stop = w.stop + inside.length ∧ scan q w inside = us ++ [t] := by
  induction rest with
  | nil =>
    intro w us vs t h
    rw [scan, ← List.append_nil (w.finish q).toList] at h
    rcases toList_append_eq h with ⟨rfl, ht⟩ | ⟨us', -, hnil⟩
    · refine ⟨[], [], rfl, (Word.finish_token ht).2, ?_⟩
      rw [scan, ht]
      rfl
    · simp at hnil
  | cons c rest ih =>
    intro w us vs t h
    have hmoves := w.step_moves (q := q) c
    have hscan : ∀ inside, scan q w (c :: inside) = (w.step q c).1.toList ++ scan q (w.step q c).2 inside := fun _ => rfl
    rw [hscan] at h
    generalize (w.step q c).1 = t? at hmoves h hscan
    generalize (w.step q c).2 = w' at hmoves h hscan
    rcases toList_append_eq h with ⟨rfl, ht⟩ | ⟨us', rfl, hrest⟩
    · have hplain : w.quote = none → w.plain? q = some t →
          ∃ inside behind, c :: rest = inside ++ behind ∧ t.stop = w.stop + inside.length ∧ scan q w inside = [t] := by
        intro hquote hp
        refine ⟨[], c :: rest, rfl, by rw [(Word.plain?_eq_some hp).1]; rfl, ?_⟩
        rw [scan, Word.finish, hquote]
        dsimp only
        rw [hp]
        rfl
      cases hmoves with
      | blank hquote => exact hplain hquote ht
      | opens hquote => exact hplain hquote ht
      | closes =>
        cases ht
        exact ⟨[c], rest, rfl, rfl, by rw [hscan]; rfl⟩
      | goes => cases ht
    · obtain ⟨inside, behind, rfl, hstop, hinside⟩ := ih hrest
      refine ⟨c :: inside, behind, rfl, ?_, ?_⟩
      · rw [hstop, hmoves.stop, List.length_cons]
        omega
      · rw [hscan, hinside, List.append_assoc]

/-! ## Slices -/

theorem slice_append (before inside behind : Bytes) :
    (before ++ (inside ++ behind)).slice before.length (before.length + inside.length) = inside := by
  simp [Bytes.slice]

/-- A call that is cut out from the start of one token to the end of another has the tokens between them. -/
theorem tokens_slice {call : Bytes} {us ts vs : List Token} {first last : Token} (h : tokens q call = us ++ ts ++ vs)
    (hfirst : ts.head? = some first) (hlast : ts.getLast? = some last) :
    (tokens q (call.slice first.start last.stop)).map (Token.shift first.start) = ts := by
  obtain ⟨rest, rfl⟩ := List.head?_eq_some_iff.mp hfirst
  obtain ⟨init, hinit⟩ := List.getLast?_eq_some_iff.mp hlast
  rw [List.append_assoc] at h
  obtain ⟨before, behind, rfl, hstart, hscan⟩ := tokens_resume h
  have hsplit : first :: rest ++ vs = init ++ last :: vs := by rw [hinit, List.append_assoc]; rfl
  obtain ⟨inside, after, rfl, hstop, hinside⟩ := scan_until behind (hscan.trans hsplit)
  have hslice : (before ++ (inside ++ after)).slice first.start last.stop = inside := by
    rw [hstop, hstart]
    exact slice_append before inside after
  rw [hslice, tokens_eq_scan, ← scan_shift, Word.fresh_shift, Nat.zero_add, hinside, hinit]

/-- The tokens from the place `i` to the place `j`. -/
theorem tokens_slice_range {call : Bytes} {i j : Nat} {first last : Token} (hij : i ≤ j)
    (hfirst : (tokens q call)[i]? = some first) (hlast : (tokens q call)[j]? = some last) :
    (tokens q (call.slice first.start last.stop)).map (Token.shift first.start) = ((tokens q call).take (j + 1)).drop i := by
  obtain ⟨hj, -⟩ := List.getElem?_eq_some_iff.mp hlast
  have hcut : tokens q call =
      (tokens q call).take i ++ ((tokens q call).take (j + 1)).drop i ++ (tokens q call).drop (j + 1) := by
    have htake : (tokens q call).take i = ((tokens q call).take (j + 1)).take i := by
      rw [List.take_take, Nat.min_eq_left (by omega)]
    rw [htake, List.take_append_drop, List.take_append_drop]
  refine tokens_slice hcut ?_ ?_
  · rw [List.head?_drop, List.getElem?_take_of_lt (by omega)]
    exact hfirst
  · rw [List.getLast?_drop, if_neg (by rw [List.length_take]; omega), List.getLast?_take, if_neg (by omega)]
    rw [Nat.add_sub_cancel, hlast]
    rfl

end CommandGrammar.Call
