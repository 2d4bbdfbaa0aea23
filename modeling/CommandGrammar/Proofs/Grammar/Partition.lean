/-
  CommandGrammar.Proofs.Grammar.Partition — the tokens of a grammar partition it.

  A mark is only found once its last byte is read, so that the run before it has to be cut
  where the mark began. Whatever the texts of the marks are, no byte is lost or read twice
  by that (`Run.Cuts.pieces`), and what is left as a symbol holds neither a blank nor a mark
  (`grammar_partitioned`).
-/

import CommandGrammar.Proofs.Grammar.Lexing
import CommandGrammar.Proofs.Pieces

namespace CommandGrammar.Grammar

variable {sp : Specials}

def Token.piece (t : Token) : Piece :=
  ⟨t.start, t.stop, t.text⟩

namespace Run

theorem symbol_noMark (r : Run) : ∀ t ∈ r.symbol?.toList, ∀ m, t.kind = .mark m → t.text = sp.text m := by
  intro t ht m hm
  obtain ⟨rfl, -⟩ := symbol?_eq_some (Option.mem_toList.mp ht)
  cases hm

/-- The run read so far is a piece, unless there is nothing of it. -/
theorem symbol_pieces (r : Run) {text : Bytes} {ps : List Piece} (h : Pieces r.stop text ps) :
    Pieces r.start (r.text ++ text) (r.symbol?.toList.map Token.piece ++ ps) := by
  cases hr : r.symbol? with
  | none =>
    have hnil : r.text = [] := by
      unfold symbol? at hr
      split at hr
      · rename_i hempty
        exact List.isEmpty_iff.mp hempty
      · cases hr
    rw [stop, hnil] at h
    rw [hnil]
    exact h
  | some t =>
    obtain ⟨rfl, hne⟩ := symbol?_eq_some hr
    exact .piece hne h

/-- What one byte does to a run: it ends it, makes it longer, or cuts it where a mark begins. -/
inductive Cuts (sp : Specials) (r : Run) (c : UInt8) : List Token → Run → Prop
  | blank : isBlank c = true → Cuts sp r c r.symbol?.toList { start := r.stop + 1 }
  | grows : Cuts sp r c [] { r with text := r.text ++ [c] }
  | marks {before : Run} {m : Mark} : before.start = r.start → sp.text m ≠ [] → before.text ++ sp.text m = r.text ++ [c] →
      Cuts sp r c (before.symbol?.toList ++ [⟨.mark m, sp.text m, before.stop⟩]) { start := before.stop + (sp.text m).length }

theorem step_cuts (r : Run) (c : UInt8) : Cuts sp r c (r.step sp c).1 (r.step sp c).2 := by
  unfold step
  split
  · rename_i hblank
    exact .blank hblank
  · dsimp only
    split
    · exact .grows
    · rename_i m hm
      obtain ⟨hne, before, hbefore⟩ := suffix_of_mark? hm
      have htext : (dropLast { r with text := r.text ++ [c] } (sp.text m).length).text = before := by
        rw [dropLast, ← hbefore]
        simp
      have hstop : stop { r with text := r.text ++ [c] } =
          (dropLast { r with text := r.text ++ [c] } (sp.text m).length).stop + (sp.text m).length := by
        rw [stop, stop, htext, Nat.add_assoc, ← List.length_append, hbefore]
        rfl
      rw [hstop]
      exact .marks rfl hne (htext.symm ▸ hbefore)

/-- What a byte completes stands before what is then being read. -/
theorem Cuts.pieces {r r' : Run} {c : UInt8} {ts : List Token} (h : Cuts sp r c ts r') {rest : Bytes} {ps : List Piece}
    (hrest : Pieces r'.start (r'.text ++ rest) ps) : Pieces r.start (r.text ++ c :: rest) (ts.map Token.piece ++ ps) := by
  cases h with
  | blank hblank => exact r.symbol_pieces (.blank hblank hrest)
  | grows =>
    rw [List.append_cons]
    exact hrest
  | @marks before m hstart hne hcut =>
    rw [List.append_cons, ← hcut, List.append_assoc, ← hstart, List.map_append, List.append_assoc]
    exact before.symbol_pieces (.piece hne hrest)

theorem Cuts.mark_text {r r' : Run} {c : UInt8} {ts : List Token} (h : Cuts sp r c ts r') :
    ∀ t ∈ ts, ∀ m, t.kind = .mark m → t.text = sp.text m := by
  cases h with
  | blank => exact r.symbol_noMark
  | grows => exact List.forall_mem_nil _
  | @marks before m =>
    rw [List.forall_mem_append, List.forall_mem_singleton]
    exact ⟨before.symbol_noMark, fun n hn => by cases hn; rfl⟩

end Run

/-- The tokens are pieces of the run and what is still to be read. -/
theorem scan_pieces (input : Bytes) : ∀ r : Run,
    Pieces r.start (r.text ++ input) ((scan sp r input).map Token.piece) := by
  induction input with
  | nil => exact fun r => by simpa [scan] using r.symbol_pieces (.nil r.stop)
  | cons c rest ih =>
    intro r
    rw [scan, List.map_append]
    exact (r.step_cuts c).pieces (ih (r.step sp c).2)

theorem scan_mark_text (input : Bytes) : ∀ r : Run, ∀ t ∈ scan sp r input, ∀ m, t.kind = .mark m → t.text = sp.text m := by
  induction input with
  | nil => exact fun r => r.symbol_noMark
  | cons c rest ih =>
    intro r
    rw [scan, List.forall_mem_append]
    exact ⟨(r.step_cuts c).mark_text, ih (r.step sp c).2⟩

/-- The tokens of a grammar have spans of their own in it, with only blanks outside of them. A mark has the text that it
    is given, and no mark and no blank is found in a symbol. -/
theorem grammar_partitioned (sp : Specials) (grammar : Bytes) :
    Partition grammar ((tokens sp grammar).map Token.piece) ∧
      ∀ t ∈ tokens sp grammar, (∀ m, t.kind = .mark m → t.text = sp.text m) ∧
        (t.kind = .symbol → (∀ c ∈ t.text, isBlank c = false) ∧ ∀ m, sp.text m ≠ [] → ¬ sp.text m <:+: t.text) := by
  refine ⟨(scan_pieces grammar { start := 0 }).partition, fun t ht => ⟨scan_mark_text grammar _ t ht, fun hk => ?_⟩⟩
  have hspellable := scan_spellable grammar Plain.nil t ht hk
  exact ⟨hspellable.noBlank, hspellable.noMark⟩

/-- Of marks that overlap, the one that is found first takes the bytes. -/
example : (tokens ((Specials.standard.withText .tail (ascii "ab")).withText .raw (ascii "bb")) (ascii "xab abbb")).map
    (fun t => (t.kind, t.start, t.text)) =
      [(.symbol, 0, ascii "x"), (.mark .tail, 1, ascii "ab"), (.mark .tail, 4, ascii "ab"),
        (.mark .raw, 6, ascii "bb")] := by decide

end CommandGrammar.Grammar
