/-
  CommandGrammar.Proofs.Command.Wrap — wrapped text keeps its words and the width.

  The words of a text are the runs of bytes without a space, each as long as it goes
  (`Words`), and there is one way to tell them (`words_iff`). The lines that a text is
  laid out in hold its words in their order (`LaidOut`): none is without a word, only one
  word alone may be longer than the width, and no line is broken where the next word
  would still fit. So usage lists every grammar and every description in full
  (`wrap_laidOut`).
-/

import CommandGrammar.Command.Dispatcher
import CommandGrammar.Command.Wrap
import Mathlib.Data.List.Chain

namespace CommandGrammar

/-! ## Words -/

/-- These are the words of the text: no byte of a word is a space, and a word ends only before a space or with the
    text. -/
inductive Words : Bytes → List Bytes → Prop
  | nil : Words [] []
  | space {text : Bytes} {ws : List Bytes} : Words text ws → Words (space :: text) ws
  | word {w text : Bytes} {ws : List Bytes} : w ≠ [] → space ∉ w → (∀ c ∈ text.head?, c = space) → Words text ws →
      Words (w ++ text) (w :: ws)

theorem splitAt_ne_nil (sep : UInt8) (text : Bytes) : text.splitAt sep ≠ [] := by
  cases text with
  | nil => exact List.cons_ne_nil _ _
  | cons c text =>
    rw [Bytes.splitAt]
    split
    · exact List.cons_ne_nil _ _
    · split <;> exact List.cons_ne_nil _ _

theorem splitAt_cons_self (sep : UInt8) (text : Bytes) : Bytes.splitAt sep (sep :: text) = [] :: text.splitAt sep := by
  rw [Bytes.splitAt]
  split
  · exact absurd ‹_› (splitAt_ne_nil sep text)
  · rename_i h
    rw [h, if_pos (beq_self_eq_true sep)]

theorem splitAt_append {sep : UInt8} {w : Bytes} (hw : sep ∉ w) {text piece : Bytes} {pieces : List Bytes}
    (h : text.splitAt sep = piece :: pieces) : Bytes.splitAt sep (w ++ text) = (w ++ piece) :: pieces := by
  induction w with
  | nil => exact h
  | cons c w ih =>
    rw [List.mem_cons, not_or] at hw
    rw [List.cons_append, Bytes.splitAt, ih hw.2]
    have hc : (c == sep) = false := beq_false_of_ne (Ne.symm hw.1)
    simp [hc]

theorem wordsOf_space_cons (text : Bytes) : wordsOf (space :: text) = wordsOf text := by
  rw [wordsOf, splitAt_cons_self]
  rfl

theorem wordsOf_word_append {w text : Bytes} (hne : w ≠ []) (hw : space ∉ w) (hend : ∀ c ∈ text.head?, c = space) :
    wordsOf (w ++ text) = w :: wordsOf text := by
  cases text with
  | nil =>
    have hsplit : Bytes.splitAt space [] = [[]] := rfl
    rw [wordsOf, splitAt_append hw hsplit]
    simp [wordsOf, hne, hsplit]
  | cons c text =>
    obtain rfl : c = space := hend c rfl
    have hsplit := splitAt_cons_self space text
    rw [wordsOf, splitAt_append hw hsplit, wordsOf_space_cons]
    simp [wordsOf, hne]

theorem Words.wordsOf_eq {text : Bytes} {ws : List Bytes} (h : Words text ws) : wordsOf text = ws := by
  induction h with
  | nil => rfl
  | space _ ih => rw [wordsOf_space_cons, ih]
  | word hne hw hend _ ih => rw [wordsOf_word_append hne hw hend, ih]

theorem exists_words (text : Bytes) : ∃ ws, Words text ws := by
  induction text with
  | nil => exact ⟨[], .nil⟩
  | cons c text ih =>
    obtain ⟨ws, h⟩ := ih
    by_cases hc : c = space
    · exact ⟨ws, hc ▸ h.space⟩
    · have hone : space ∉ [c] := by simpa using Ne.symm hc
      cases h with
      | nil => exact ⟨[[c]], .word (List.cons_ne_nil _ _) hone nofun .nil⟩
      | space h => exact ⟨[c] :: ws, .word (List.cons_ne_nil _ _) hone (by simp) h.space⟩
      | @word w rest ws _ hw hend h =>
        have hlonger : space ∉ c :: w := by simpa using ⟨Ne.symm hc, hw⟩
        exact ⟨(c :: w) :: ws, .word (List.cons_ne_nil _ _) hlonger hend h⟩

theorem words_iff {text : Bytes} {ws : List Bytes} : Words text ws ↔ ws = wordsOf text := by
  refine ⟨fun h => h.wordsOf_eq.symm, ?_⟩
  rintro rfl
  obtain ⟨ws, h⟩ := exists_words text
  rwa [h.wordsOf_eq]

theorem words_wordsOf (text : Bytes) : Words text (wordsOf text) :=
  words_iff.mpr rfl

/-- What a word is in itself, in whatever text it stands. -/
structure IsWord (w : Bytes) : Prop where
  ne_nil : w ≠ []
  noSpace : space ∉ w

theorem Words.isWord {text : Bytes} {ws : List Bytes} (h : Words text ws) : ∀ w ∈ ws, IsWord w := by
  induction h with
  | nil => exact List.forall_mem_nil _
  | space _ ih => exact ih
  | word hne hw _ _ ih => exact List.forall_mem_cons.mpr ⟨⟨hne, hw⟩, ih⟩

theorem IsWord.wordsOf_eq {w : Bytes} (h : IsWord w) : wordsOf w = [w] := by
  have hend : wordsOf (w ++ []) = w :: wordsOf [] := wordsOf_word_append h.ne_nil h.noSpace nofun
  rwa [List.append_nil] at hend

/-- Spaces in front add no word. -/
theorem wordsOf_append_of_spaces {front : Bytes} (h : ∀ c ∈ front, c = space) (text : Bytes) :
    wordsOf (front ++ text) = wordsOf text := by
  induction front with
  | nil => rfl
  | cons c front ih =>
    rw [List.forall_mem_cons] at h
    rw [h.1, List.cons_append, wordsOf_space_cons, ih h.2]

theorem wordsOf_append_space (line text : Bytes) : wordsOf (line ++ space :: text) = wordsOf line ++ wordsOf text := by
  have h := words_wordsOf line
  generalize wordsOf line = ws at h
  induction h with
  | nil => exact wordsOf_space_cons text
  | space _ ih => rw [List.cons_append, wordsOf_space_cons, ih]
  | @word w rest ws hne hw hend _ ih =>
    have hend' : ∀ c ∈ (rest ++ space :: text).head?, c = space := by
      cases rest with
      | nil => simp
      | cons c rest => exact hend
    rw [List.append_assoc, wordsOf_word_append hne hw hend', ih, List.cons_append]

/-! ## Lines -/

/-- How words are laid out in lines. -/
structure LaidOut (width : Nat) (firstIndent indent : Bytes) (ws lines : List Bytes) : Prop where
  /-- The lines hold the words and no others, in their order. -/
  words : lines.flatMap wordsOf = ws
  worded : ∀ l ∈ lines, wordsOf l ≠ []
  first : ∀ l ∈ lines.head?, firstIndent <+: l
  others : ∀ l ∈ lines.tail, indent <+: l
  unlimited : width = 0 → lines.length ≤ 1
  /-- Only one word alone may be too long for its line. -/
  fits : 0 < width → ∀ l ∈ lines, 2 ≤ (wordsOf l).length → l.length ≤ width
  /-- There was no room for the first word of the next line. -/
  full : lines.IsChain fun l next => ∀ w ∈ (wordsOf next).head?, width < l.length + 1 + w.length

namespace LaidOut

variable {width : Nat} {firstIndent indent line : Bytes} {ws lines : List Bytes}

theorem nil : LaidOut width firstIndent indent [] [] where
  words := rfl
  worded := nofun
  first := nofun
  others := nofun
  unlimited _ := Nat.zero_le 1
  fits _ := nofun
  full := .nil

/-- The first line starts with the first word. -/
theorem firstWord (h : LaidOut width firstIndent indent ws lines) : ∀ l ∈ lines.head?, (wordsOf l).head? = ws.head? := by
  intro l hl
  obtain ⟨rest, rfl⟩ := List.head?_eq_some_iff.mp hl
  rw [← h.words, List.flatMap_cons, List.head?_append_of_ne_nil _ (h.worded l List.mem_cons_self)]

theorem single (hworded : wordsOf line ≠ []) (hfits : 0 < width → 2 ≤ (wordsOf line).length → line.length ≤ width) :
    LaidOut width line indent (wordsOf line) [line] where
  words := List.flatMap_singleton _ _
  worded := by simpa using hworded
  first := by simp
  others := nofun
  unlimited _ := Nat.le_refl 1
  fits := by simpa using hfits
  full := .singleton line

/-- The line is broken before words that are laid out on their own. -/
theorem broken (h : LaidOut width indent indent ws lines) (hwidth : width ≠ 0) (hworded : wordsOf line ≠ [])
    (hfits : 2 ≤ (wordsOf line).length → line.length ≤ width)
    (hfull : ∀ w ∈ ws.head?, width < line.length + 1 + w.length) :
    LaidOut width line indent (wordsOf line ++ ws) (line :: lines) where
  words := by rw [List.flatMap_cons, h.words]
  worded := List.forall_mem_cons.mpr ⟨hworded, h.worded⟩
  first := by simp
  others := by
    intro l hl
    cases lines with
    | nil => cases hl
    | cons next rest => exact List.forall_mem_cons.mpr ⟨h.first next rfl, h.others⟩ l hl
  unlimited hzero := absurd hzero hwidth
  fits hpos := List.forall_mem_cons.mpr ⟨hfits, h.fits hpos⟩
  full := List.isChain_cons.mpr ⟨fun next hnext => h.firstWord next hnext ▸ hfull, h.full⟩

theorem of_first {longer : Bytes} (h : LaidOut width longer indent ws lines) (hstarts : firstIndent <+: longer) :
    LaidOut width firstIndent indent ws lines :=
  { h with first := fun l hl => hstarts.trans (h.first l hl) }

end LaidOut

section

variable {width : Nat} {indent : Bytes} {ws : List Bytes}

theorem laidOut_fillLines (hindent : ∀ c ∈ indent, c = space) (hws : ∀ w ∈ ws, IsWord w) {line : Bytes}
    (hworded : wordsOf line ≠ []) (hfits : 0 < width → 2 ≤ (wordsOf line).length → line.length ≤ width) :
    LaidOut width line indent (wordsOf line ++ ws) (fillLines width indent line ws) := by
  -- The words that are left go into the open line or into one behind it, so the line has to vary.
  induction ws generalizing line with
  | nil =>
    rw [List.append_nil]
    exact .single hworded hfits
  | cons w ws ih =>
    rw [List.forall_mem_cons] at hws
    have hw : wordsOf w = [w] := hws.1.wordsOf_eq
    rw [fillLines]
    split
    case isTrue hbreak =>
      have hopened : wordsOf (indent ++ w) = [w] := (wordsOf_append_of_spaces hindent w).trans hw
      have hrest : LaidOut width (indent ++ w) indent (wordsOf (indent ++ w) ++ ws) _ :=
        ih hws.2 (by simp [hopened]) (by simp [hopened])
      rw [hopened] at hrest
      refine (hrest.of_first (List.prefix_append _ _)).broken hbreak.1 hworded (hfits (Nat.pos_of_ne_zero hbreak.1)) ?_
      simpa using hbreak.2
    case isFalse hroom =>
      have hlonger : wordsOf (line ++ [space] ++ w) = wordsOf line ++ [w] := by
        rw [List.append_assoc, List.singleton_append, wordsOf_append_space, hw]
      have hlength : 0 < width → (line ++ [space] ++ w).length ≤ width := by
        simp only [List.length_append, List.length_singleton]
        omega
      have hrest : LaidOut width (line ++ [space] ++ w) indent (wordsOf (line ++ [space] ++ w) ++ ws) _ :=
        ih hws.2 (by rw [hlonger]; simp) (fun hpos _ => hlength hpos)
      rw [hlonger, List.append_assoc (wordsOf line), List.singleton_append] at hrest
      exact hrest.of_first (List.append_assoc line _ _ ▸ List.prefix_append _ _)

theorem laidOut_wrap {firstIndent : Bytes} (hfirst : ∀ c ∈ firstIndent, c = space) (hindent : ∀ c ∈ indent, c = space)
    (text : Bytes) : LaidOut width firstIndent indent (wordsOf text) (wrap width firstIndent indent text) := by
  have hws := (words_wordsOf text).isWord
  rw [wrap]
  split
  case h_1 hnone =>
    rw [hnone]
    exact .nil
  case h_2 w ws hsome =>
    rw [hsome] at hws ⊢
    rw [List.forall_mem_cons] at hws
    have hopened : wordsOf (firstIndent ++ w) = [w] := (wordsOf_append_of_spaces hfirst w).trans hws.1.wordsOf_eq
    have hlines : LaidOut width (firstIndent ++ w) indent (wordsOf (firstIndent ++ w) ++ ws) _ :=
      laidOut_fillLines hindent hws.2 (by simp [hopened]) (by simp [hopened])
    rw [hopened] at hlines
    exact hlines.of_first (List.prefix_append _ _)

/-- A text in lines keeps its words, and each line is broken where its words do not fit any more, if the indents are
    spaces. So the usage of any commands shows the words of all grammars and descriptions, each once and in order. -/
theorem wrap_laidOut :
    (∀ text ws, Words text ws ↔ ws = wordsOf text) ∧
    (∀ width firstIndent indent text, (∀ c ∈ firstIndent, c = space) → (∀ c ∈ indent, c = space) →
      LaidOut width firstIndent indent (wordsOf text) (wrap width firstIndent indent text)) ∧
    ∀ {σ α : Type} (d : Dispatcher σ α) width indentWidth,
      (d.usageLines width indentWidth).flatMap wordsOf =
        d.commands.flatMap fun c => wordsOf c.compiled.render ++ wordsOf c.description := by
  refine ⟨fun _ _ => words_iff, fun _ _ _ text hfirst hindent => laidOut_wrap hfirst hindent text, ?_⟩
  intro σ α d width indentWidth
  have hindent : ∀ c ∈ List.replicate indentWidth space, c = space := fun c hc => List.eq_of_mem_replicate hc
  rw [Dispatcher.usageLines, List.flatMap_assoc]
  congr 1
  funext c
  rw [List.flatMap_append, (laidOut_wrap (List.forall_mem_nil _) hindent _).words, (laidOut_wrap hindent hindent _).words]

theorem wrap_laidOut_long :
    wrap 6 (ascii " ") (ascii "  ") (ascii " a  bb ccccc d ") = [ascii " a bb", ascii "  ccccc", ascii "  d"] ∧
      LaidOut 6 (ascii " ") (ascii "  ") (wordsOf (ascii " a  bb ccccc d "))
        (wrap 6 (ascii " ") (ascii "  ") (ascii " a  bb ccccc d ")) :=
  ⟨by decide, wrap_laidOut.2.1 6 (ascii " ") (ascii "  ") _ (by simp [ascii, space]) (by simp [ascii, space])⟩

end

end CommandGrammar
