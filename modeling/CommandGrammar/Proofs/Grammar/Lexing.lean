/-
  CommandGrammar.Proofs.Grammar.Lexing — what the lexer makes of a text.

  A symbol is never empty, holds no blank, and no mark occurs in it (`symbol_spellable`).
  The other way round such a text is read as one symbol, whatever ends it: a blank, the
  end of the grammar, or a mark that the text has not begun (`read_plain`, `read_mark`).
  All of this is for any specials whose marks end in different bytes; nothing is assumed
  of their lengths.
-/

import CommandGrammar.Proofs.Grammar.Language

namespace CommandGrammar.Grammar

variable {sp : Specials}

theorem Mark.mem_all (m : Mark) : m ∈ Mark.all := by
  cases m with
  | opening b => cases b <;> decide
  | closing b => cases b <;> decide
  | _ => decide

/-! ## Texts without marks -/

/-- No blank and no mark is in the text. -/
structure Plain (sp : Specials) (text : Bytes) : Prop where
  noBlank : ∀ c ∈ text, isBlank c = false
  noMark : ∀ m, sp.text m ≠ [] → ¬ sp.text m <:+: text

theorem Plain.nil : Plain sp [] where
  noBlank := by simp
  noMark m hm h := hm (List.infix_nil.mp h)

theorem Plain.infix {u v : Bytes} (h : Plain sp v) (huv : u <:+: v) : Plain sp u where
  noBlank c hc := h.noBlank c (huv.subset hc)
  noMark m hm hmu := h.noMark m hm (hmu.trans huv)

/-- A text can be symbol: it is plain and there is something of it. -/
structure Spellable (sp : Specials) (text : Bytes) : Prop extends Plain sp text where
  ne_nil : text ≠ []

/-! ## Marks at the end of a run -/

theorem Run.mark?_eq_none {r : Run} : r.mark? sp = none ↔ ∀ m, sp.text m ≠ [] → ¬ sp.text m <:+ r.text := by
  rw [Run.mark?, List.find?_eq_none]
  constructor
  · intro h m hm hs
    have := h m (Mark.mem_all m)
    simp [hm, hs] at this
  · intro h m _ hm
    simp only [Bool.and_eq_true, Bool.not_eq_true', List.isEmpty_eq_false_iff, List.isSuffixOf_iff_suffix] at hm
    exact h m hm.1 hm.2

theorem Run.suffix_of_mark? {r : Run} {m : Mark} (h : r.mark? sp = some m) : sp.text m ≠ [] ∧ sp.text m <:+ r.text := by
  have := List.find?_some h
  simpa only [Bool.and_eq_true, Bool.not_eq_true', List.isEmpty_eq_false_iff, List.isSuffixOf_iff_suffix] using this

/-- A plain run stays plain as long as no mark ends it. -/
theorem Plain.grow {w : Bytes} {c : UInt8} (h : Plain sp w) (hc : isBlank c = false)
    (hm : ∀ m, sp.text m ≠ [] → ¬ sp.text m <:+ w ++ [c]) : Plain sp (w ++ [c]) where
  noBlank d hd := by
    rcases List.mem_append.mp hd with hd | hd
    · exact h.noBlank d hd
    · rw [List.mem_singleton.mp hd]; exact hc
  noMark m hne hin := by
    rcases List.infix_concat_iff.mp hin with hs | hi
    · exact hm m hne hs
    · exact h.noMark m hne hi

/-! ## Symbols -/

theorem Run.symbol?_eq_some {r : Run} {t : Token} (h : r.symbol? = some t) : t = ⟨.symbol, r.text, r.start⟩ ∧ r.text ≠ [] := by
  unfold Run.symbol? at h
  split at h
  · cases h
  · rename_i hne
    injection h with h
    exact ⟨h.symm, by simpa using hne⟩

theorem Run.symbol?_spellable {r : Run} (h : Plain sp r.text) : ∀ t ∈ r.symbol?.toList, Spellable sp t.text := by
  intro t ht
  obtain ⟨rfl, hne⟩ := Run.symbol?_eq_some (Option.mem_toList.mp ht)
  exact { h with ne_nil := hne }

theorem Run.step_spellable {r : Run} (h : Plain sp r.text) (c : UInt8) :
    (∀ t ∈ (r.step sp c).1, t.kind = .symbol → Spellable sp t.text) ∧ Plain sp (r.step sp c).2.text := by
  unfold Run.step
  split
  · exact ⟨fun t ht _ => Run.symbol?_spellable h t ht, Plain.nil⟩
  · rename_i hc
    dsimp only
    split
    · rename_i hm
      exact ⟨by simp, h.grow (by simpa using hc) (Run.mark?_eq_none.mp hm)⟩
    · rename_i m hm
      refine ⟨?_, Plain.nil⟩
      intro t ht hk
      obtain ⟨hne, -⟩ := Run.suffix_of_mark? hm
      have hlen : 0 < (sp.text m).length := List.length_pos_iff.mpr hne
      -- the mark covers at least the byte just read, so what is before it was in the run already
      have hbefore : Plain sp ((r.text ++ [c]).take ((r.text ++ [c]).length - (sp.text m).length)) := by
        refine h.infix ?_
        rw [List.take_append_of_le_length (by simp; omega)]
        exact (List.take_prefix _ _).isInfix
      rcases List.mem_append.mp ht with ht | ht
      · exact Run.symbol?_spellable hbefore t ht
      · rw [List.mem_singleton.mp ht] at hk
        cases hk

theorem scan_spellable (input : Bytes) : ∀ {r : Run}, Plain sp r.text →
    ∀ t ∈ scan sp r input, t.kind = .symbol → Spellable sp t.text := by
  induction input with
  | nil => exact fun h t ht _ => Run.symbol?_spellable h t ht
  | cons c rest ih =>
    intro r h t ht hk
    obtain ⟨hout, hrun⟩ := Run.step_spellable h c
    rcases List.mem_append.mp ht with ht | ht
    · exact hout t ht hk
    · exact ih hrun t ht hk

/-- Every symbol of a grammar is spellable. -/
theorem symbol_spellable {grammar text : Bytes} (h : .symbol text ∈ (tokens sp grammar).map Token.terminal) :
    Spellable sp text := by
  obtain ⟨t, ht, htext⟩ := List.mem_map.mp h
  obtain ⟨hk, rfl⟩ := Token.kind_eq_symbol htext
  exact scan_spellable grammar Plain.nil t ht hk

/-! ## Reading -/

/-- The terminal of a run, if there is anything in it. -/
def word (text : Bytes) : List Terminal :=
  if text.isEmpty then [] else [.symbol text]

theorem word_of_spellable {text : Bytes} (h : Spellable sp text) : word text = [.symbol text] := by
  rw [word, if_neg (by simpa using h.ne_nil)]

theorem Run.symbol?_terminals (r : Run) : r.symbol?.toList.map Token.terminal = word r.text := by
  unfold Run.symbol? word
  split <;> rfl

/-- What is read of `input` when the run so far is `run`. Where in the grammar that is does not matter. -/
def read (sp : Specials) (run input : Bytes) : List Terminal :=
  (scan sp ⟨0, run⟩ input).map Token.terminal

theorem scan_terminals (input : Bytes) : ∀ r : Run, (scan sp r input).map Token.terminal = read sp r.text input := by
  induction input with
  | nil => exact fun r => (r.symbol?_terminals).trans (Run.symbol?_terminals ⟨0, r.text⟩).symm
  | cons c rest ih =>
    have hstep : ∀ r : Run, (r.step sp c).1.map Token.terminal = ((⟨0, r.text⟩ : Run).step sp c).1.map Token.terminal ∧
        (r.step sp c).2.text = ((⟨0, r.text⟩ : Run).step sp c).2.text := by
      intro r
      simp only [Run.step]
      split
      · exact ⟨by rw [Run.symbol?_terminals, Run.symbol?_terminals], rfl⟩
      · have hm : ({ r with text := r.text ++ [c] } : Run).mark? sp = ({ start := 0, text := r.text ++ [c] } : Run).mark? sp := rfl
        rw [hm]
        split
        · exact ⟨rfl, rfl⟩
        · refine ⟨?_, rfl⟩
          rw [List.map_append, List.map_append, Run.symbol?_terminals, Run.symbol?_terminals]
          rfl
    intro r
    rw [read, scan, scan, List.map_append, List.map_append, ih, ih, (hstep r).1, (hstep r).2]

theorem tokens_terminals (grammar : Bytes) : (tokens sp grammar).map Token.terminal = read sp [] grammar :=
  scan_terminals grammar _

theorem read_nil (run : Bytes) : read sp run [] = word run :=
  Run.symbol?_terminals _

theorem read_cons (run : Bytes) (c : UInt8) (rest : Bytes) :
    read sp run (c :: rest) =
      ((⟨0, run⟩ : Run).step sp c).1.map Token.terminal ++ read sp ((⟨0, run⟩ : Run).step sp c).2.text rest := by
  rw [read, scan, List.map_append, scan_terminals]

theorem read_blank {c : UInt8} (hc : isBlank c = true) (run rest : Bytes) :
    read sp run (c :: rest) = word run ++ read sp [] rest := by
  rw [read_cons]
  simp only [Run.step, hc, if_true, Run.symbol?_terminals]

/-- A plain text in front only makes the run longer. -/
theorem read_plain (text : Bytes) : ∀ {run : Bytes}, Plain sp (run ++ text) → ∀ rest,
    read sp run (text ++ rest) = read sp (run ++ text) rest := by
  induction text with
  | nil => intro run _ rest; simp
  | cons c text ih =>
    intro run h rest
    have hsplit : run ++ c :: text = run ++ [c] ++ text := by simp
    rw [hsplit] at h ⊢
    have hc : isBlank c = false := h.noBlank c (by simp)
    have hm : (⟨0, run ++ [c]⟩ : Run).mark? sp = none := by
      rw [Run.mark?_eq_none]
      intro m hne hs
      exact h.noMark m hne (hs.isInfix.trans List.infix_append_left)
    rw [List.cons_append, read_cons]
    simp only [Run.step, hc, Bool.false_eq_true, if_false, hm, List.map_nil, List.nil_append]
    exact ih h rest

/-! ## Reading a mark -/

/-- No two marks end in the same byte, so that at most one of them ends a run. -/
def LastsDiffer (sp : Specials) : Prop :=
  ∀ m n, sp.text m ≠ [] → (sp.text m).getLast? = (sp.text n).getLast? → m = n

theorem getLast?_of_suffix {u w : Bytes} (h : u <:+ w) (hne : u ≠ []) : u.getLast? = w.getLast? := by
  obtain ⟨v, rfl⟩ := h
  rw [List.getLast?_append, List.getLast?_eq_some_getLast hne, Option.some_or]

theorem Run.mark?_of_suffix (hd : LastsDiffer sp) {r : Run} {m : Mark} (hne : sp.text m ≠ []) (h : sp.text m <:+ r.text) :
    r.mark? sp = some m := by
  cases hm : r.mark? sp with
  | none => exact absurd h (Run.mark?_eq_none.mp hm m hne)
  | some n =>
    obtain ⟨hne', hn⟩ := Run.suffix_of_mark? hm
    rw [hd n m hne' ((getLast?_of_suffix hn hne').trans (getLast?_of_suffix h hne).symm)]

/-- A mark ends the run before it, unless the run and the bytes of the mark are taken for something else. -/
theorem read_mark (hd : LastsDiffer sp) {m : Mark} {front : Bytes} {c : UInt8} (hm : sp.text m = front ++ [c])
    (hc : isBlank c = false) {run : Bytes} (h : Plain sp (run ++ front)) (rest : Bytes) :
    read sp run (sp.text m ++ rest) = word run ++ .mark m :: read sp [] rest := by
  have hne : sp.text m ≠ [] := by simp [hm]
  have hmark : (⟨0, run ++ front ++ [c]⟩ : Run).mark? sp = some m := by
    refine Run.mark?_of_suffix hd hne ?_
    rw [hm]
    exact ⟨run, by simp⟩
  have hfront : (run ++ front ++ [c]).take ((run ++ front ++ [c]).length - (sp.text m).length) = run := by
    have hlen : (run ++ front ++ [c]).length - (sp.text m).length = run.length := by simp [hm]
    rw [hlen, List.append_assoc, List.take_left]
  have hout : read sp (run ++ front) (c :: rest) = word run ++ .mark m :: read sp [] rest := by
    rw [read_cons]
    simp only [Run.step, hc, Bool.false_eq_true, if_false, hmark, List.map_append, Run.symbol?_terminals,
      Run.dropLast, hfront]
    simp [Token.terminal]
  calc read sp run (sp.text m ++ rest)
      = read sp run (front ++ c :: rest) := by rw [hm]; simp
    _ = read sp (run ++ front) (c :: rest) := read_plain front h _
    _ = word run ++ .mark m :: read sp [] rest := hout

end CommandGrammar.Grammar
