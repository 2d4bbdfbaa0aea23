/-
  CommandGrammar.Proofs.Call.Faithful — which calls are read as they look.

  The tokens of a call say the words that stand between its blanks exactly if the call
  stands for itself (`tokens_words_iff`), and the case of letters does not help any other
  call. Up to some byte all is read as it stands (`Faithful`, `Within`). From the first
  byte on that is taken for something else there is a word that says less than it stands
  on (`Word.Short`) or has quoted a blank, and neither is ever made good (`scan_short`,
  `scan_quoted`).
-/

import CommandGrammar.Proofs.Call.Verbatim
import CommandGrammar.Proofs.Call.Words
import Mathlib.Data.List.Forall2
import Mathlib.Data.List.TakeWhile

namespace CommandGrammar

namespace Call

variable {q : Quoting}

/-! ## Bytes that belong to a word -/

/-- What a word says grows with it, by no more than the byte. -/
structure Grows (q : Quoting) (w : Word) (c : UInt8) (w' : Word) : Prop where
  quote : w'.quote = w.quote
  raw : w'.raw = w.raw ++ [c]
  value : w.value ⊆ w'.value
  length : (w'.settled q).length ≤ (w.settled q).length + 1
  ne_nil : w'.settled q ≠ []

theorem Word.Goes.grows {w w' : Word} {c : UInt8} (h : Word.Goes q w c w') : Grows q w c w' where
  quote := by cases h <;> rfl
  raw := by cases h <;> rfl
  value := by
    cases h with
    | other => simp only [Word.take, Word.settled]; split <;> simp
    | _ => simp [Word.take]
  length := by cases h <;> simp_all [Word.take, Word.settled]
  ne_nil := by cases h <;> simp [Word.take, Word.settled]

/-- A blank that belongs to a word stands for itself. -/
theorem Word.Goes.mem_of_blank (hq : q.Distinct) {w w' : Word} {c : UInt8} (h : Word.Goes q w c w')
    (hc : isBlank c = true) : c ∈ w'.value := by
  cases h with
  | pending _ hescape =>
    rw [hescape, hq.escape_not_blank] at hc
    cases hc
  | _ => simp [Word.take]

/-! ## Words that are not what they stand on -/

/-- No word without blanks reads like this. -/
def Unlike (value text : Bytes) : Prop :=
  (∃ b ∈ value, isBlank b = true) ∨ value.length < text.length

/-- A byte that is quoted is in the token. -/
theorem scan_quoted {opening b : UInt8} (rest : Bytes) : ∀ {w : Word}, w.quote = some opening → b ∈ w.value →
    ∃ t ts, scan q w rest = t :: ts ∧ b ∈ t.value := by
  induction rest with
  | nil =>
    intro w hquote hb
    refine ⟨_, [], by simp only [scan, Word.finish, hquote]; rfl, List.mem_cons_of_mem _ ?_⟩
    rw [Word.settled]
    split
    · exact List.mem_append_left _ hb
    · exact hb
  | cons c rest ih =>
    intro w hquote hb
    have hreads := w.step_reads (q := q) c
    rw [scan]
    generalize (w.step q c).1 = t? at hreads
    generalize (w.step q c).2 = w' at hreads
    cases hreads with
    | blank hnone => rw [hquote] at hnone; cases hnone
    | opens hnone => rw [hquote] at hnone; cases hnone
    | closes => exact ⟨_, _, rfl, hb⟩
    | goes _ hgoes => exact ih (hgoes.grows.quote.trans hquote) (hgoes.grows.value hb)

/-- The word says less than it stands on. A quote that is open may yet be part of what it says. -/
structure Word.Short (q : Quoting) (w : Word) : Prop where
  ne_nil : w.settled q ≠ []
  plain : w.quote = none → (w.settled q).length < w.raw.length
  quoted : ∀ opening, w.quote = some opening → (w.settled q).length + 1 < w.raw.length

theorem Grows.short {w w' : Word} {c : UInt8} (h : Grows q w c w') (hw : w.Short q) : w'.Short q where
  ne_nil := h.ne_nil
  plain hnone := by
    have hlt := hw.plain (h.quote ▸ hnone)
    have hle := h.length
    rw [h.raw, List.length_append, List.length_singleton]
    omega
  quoted opening hopening := by
    have hlt := hw.quoted opening (h.quote ▸ hopening)
    have hle := h.length
    rw [h.raw, List.length_append, List.length_singleton]
    omega

theorem Word.Short.plain? {w : Word} (h : w.Short q) (hnone : w.quote = none) (behind : Bytes) :
    ∃ t, w.plain? q = some t ∧ Unlike t.value (w.raw ++ behind) := by
  have hne : (w.settled q).isEmpty = false := by simpa using h.ne_nil
  refine ⟨⟨.plain, w.raw, w.start, w.stop, w.settled q⟩, by simp [Word.plain?, hne], .inr ?_⟩
  have hlt := h.plain hnone
  rw [List.length_append]
  dsimp only
  omega

/-- What a word has lost, its token does not get back. -/
theorem scan_short (hq : q.Distinct) (rest : Bytes) : ∀ {w : Word}, w.Short q →
    ∃ t ts, scan q w rest = t :: ts ∧ Unlike t.value (w.raw ++ rest.takeWhile (!isBlank ·)) := by
  induction rest with
  | nil =>
    intro w hw
    cases hquote : w.quote with
    | none =>
      obtain ⟨t, ht, hunlike⟩ := hw.plain? hquote []
      exact ⟨t, [], by simp [scan, Word.finish, hquote, ht], hunlike⟩
    | some opening =>
      refine ⟨_, [], by simp only [scan, Word.finish, hquote]; rfl, .inr ?_⟩
      simpa using hw.quoted opening hquote
  | cons c rest ih =>
    intro w hw
    have hreads := w.step_reads (q := q) c
    rw [scan]
    generalize (w.step q c).1 = t? at hreads
    generalize (w.step q c).2 = w' at hreads
    cases hreads with
    | blank hquote hc =>
      obtain ⟨t, ht, hunlike⟩ := hw.plain? hquote []
      exact ⟨t, _, by rw [ht]; rfl, by simpa [hc] using hunlike⟩
    | opens hquote =>
      obtain ⟨t, ht, hunlike⟩ := hw.plain? hquote ((c :: rest).takeWhile (!isBlank ·))
      exact ⟨t, _, by rw [ht]; rfl, hunlike⟩
    | closes hquote _ he =>
      have hlt := hw.quoted c hquote
      simp only [Word.settled, he, Bool.false_eq_true, if_false] at hlt
      refine ⟨_, _, rfl, .inr ?_⟩
      rw [List.length_append]
      dsimp only
      omega
    | goes hc hgoes =>
      have hgrows := hgoes.grows
      cases hblank : isBlank c with
      | false =>
        obtain ⟨t, ts, hscan, hunlike⟩ := ih (hgrows.short hw)
        refine ⟨t, ts, hscan, ?_⟩
        simpa [hgrows.raw, hblank] using hunlike
      | true =>
        -- the first word of the text ends here, but the token does not
        obtain ⟨opening, hopening⟩ : ∃ opening, w.quote = some opening := by
          cases hquote : w.quote with
          | none => rw [hc hquote] at hblank; cases hblank
          | some opening => exact ⟨opening, rfl⟩
        obtain ⟨t, ts, hscan, ht⟩ := scan_quoted rest (hgrows.quote.trans hopening) (hgoes.mem_of_blank hq hblank)
        exact ⟨t, ts, hscan, .inl ⟨c, ht, hblank⟩⟩

/-- Folding the case makes no blank and takes none away. -/
theorem isBlank_lowerByte (c : UInt8) : isBlank (lowerByte c) = isBlank c := by
  unfold lowerByte isBlank space tab
  grind

/-! ## Words that are what they stand on -/

/-- All of the call up to here stands for itself, and `w` is the word that is being read. -/
structure Faithful (q : Quoting) (done : Bytes) (w : Word) : Prop where
  plain : q.Plain done
  quote : w.quote = none
  said : w.settled q = w.raw
  blanks : ∀ b ∈ w.raw, isBlank b = false
  escaped : w.escaped = true ↔ done.getLast? = some q.escape
  parted : w.raw = [] ↔ Quoting.Parted done

/-- So does all that is read behind the open quote `c`. -/
structure Within (q : Quoting) (c : UInt8) (done : Bytes) (w : Word) : Prop where
  unclosed : q.Unclosed c done
  quote : w.quote = some c
  raw : w.raw = c :: done
  said : w.settled q = done
  escaped : w.escaped = true ↔ done.getLast? = some q.escape

/-! ### Outside of quotes -/

section

variable {b : UInt8} {done : Bytes} {w w' : Word}

theorem Faithful.last_ne (hw : Faithful q done w) (he : w.escaped = false) : done.getLast? ≠ some q.escape := by
  intro hlast
  rw [hw.escaped.mpr hlast] at he
  cases he

/-- The word goes on with a byte that stands for itself. -/
theorem Faithful.snoc (hw : Faithful q done w) (h : Grows q w b w') (hblank : isBlank b = false)
    (hplain : q.Plain (done ++ [b])) (hsaid : w'.settled q = w.raw ++ [b]) (hescaped : w'.escaped = true ↔ b = q.escape) :
    Faithful q (done ++ [b]) w' where
  plain := hplain
  quote := h.quote.trans hw.quote
  said := hsaid.trans h.raw.symm
  blanks := by
    rw [h.raw]
    exact List.forall_mem_append.mpr ⟨hw.blanks, by simpa using hblank⟩
  escaped := by rw [hescaped, List.getLast?_concat, Option.some.injEq]
  parted := by simp [h.raw, Quoting.Parted, hblank]

/-- Of two escapes one is lost. -/
theorem Faithful.short (hw : Faithful q done w) (he : w.escaped = true) : (w.take b (w.value ++ [b])).Short q where
  ne_nil := by simp [Word.take, Word.settled]
  plain _ := by
    have hlen : (w.value ++ [q.escape]).length = w.raw.length := by rw [← hw.said, Word.settled, if_pos he]
    simp only [Word.take, Word.settled, List.length_append, List.length_singleton, Bool.false_eq_true, if_false] at hlen ⊢
    omega
  quoted opening hopening := by
    rw [Word.take, hw.quote] at hopening
    cases hopening

/-- What a byte makes of a word: it stays what it stands on, or becomes short. -/
theorem Faithful.goes (hq : q.Distinct) (hw : Faithful q done w) (hblank : isBlank b = false) (h : Word.Goes q w b w') :
    Faithful q (done ++ [b]) w' ∨ (w'.Short q ∧ ∀ rest, ¬ q.Verbatim (done ++ b :: rest)) := by
  have hgrows := h.grows
  cases h with
  | kept _ hb he =>
    have hescape := hq.quote_ne_escape hb
    have hplain := hw.plain.snoc (fun _ => hw.escaped.mp he) fun heq => absurd heq hescape
    exact .inl (hw.snoc hgrows hblank hplain (by simp [Word.take, Word.settled, ← hw.said, he])
      (by simp [Word.take, hescape]))
  | dropped hsome => rw [hw.quote] at hsome; cases hsome
  | otherQuote hsome => rw [hw.quote] at hsome; cases hsome
  | merged _ hb he => exact .inr ⟨hw.short he, fun rest h => (h.here hq hw.plain).2 hb (hw.escaped.mp he)⟩
  | pending hb hescape he =>
    have hvalue : w.value = w.raw := by rw [← hw.said, Word.settled, if_neg (by simp [he])]
    have hplain := hw.plain.snoc (fun h => by rw [hb] at h; cases h) fun _ => hw.last_ne he
    exact .inl (hw.snoc hgrows hblank hplain (by simp [Word.take, Word.settled, hvalue, hescape]) (by simp [hescape]))
  | other hb hescape =>
    have hplain := hw.plain.snoc (fun h => by rw [hb] at h; cases h) fun heq => absurd heq hescape
    exact .inl (hw.snoc hgrows hblank hplain (by simp [Word.take, Word.settled, ← hw.said]) (by simp [Word.take, hescape]))

/-- The token of a word that is what it stands on. -/
theorem Faithful.plain?_values (hw : Faithful q done w) : (w.plain? q).toList.map (·.value) = w.raw.word := by
  unfold Word.plain? Bytes.word
  rw [hw.said]
  dsimp only
  split <;> rfl

/-- Behind a blank nothing is pending. -/
theorem Faithful.fresh (hq : q.Distinct) (hw : Faithful q done w) (hb : isBlank b = true) (start : Nat) :
    Faithful q (done ++ [b]) (.fresh start) := by
  have hquote : q.isQuote b ≠ true := fun h => by rw [hq.quote_not_blank b h] at hb; cases hb
  have hescape : b ≠ q.escape := fun h => by rw [h, hq.escape_not_blank] at hb; cases hb
  exact {
    plain := hw.plain.snoc (fun h => absurd h hquote) (fun h => absurd h hescape)
    quote := rfl
    said := rfl
    blanks := by simp [Word.fresh]
    escaped := by simp [Word.fresh, hescape]
    parted := by simp [Word.fresh, Quoting.Parted, hb] }

end

/-! ### Behind an open quote -/

section

variable {c b : UInt8} {done : Bytes} {w w' : Word}

theorem Within.last_ne (hw : Within q c done w) (he : w.escaped = false) : done.getLast? ≠ some q.escape := by
  intro hlast
  rw [hw.escaped.mpr hlast] at he
  cases he

theorem Within.snoc (hw : Within q c done w) (h : Grows q w b w') (hunclosed : q.Unclosed c (done ++ [b]))
    (hsaid : w'.settled q = done ++ [b]) (hescaped : w'.escaped = true ↔ b = q.escape) : Within q c (done ++ [b]) w' where
  unclosed := hunclosed
  quote := h.quote.trans hw.quote
  raw := by rw [h.raw, hw.raw, List.cons_append]
  said := hsaid
  escaped := by rw [hescaped, List.getLast?_concat, Option.some.injEq]

/-- An escape that is taken for the byte behind it is lost. -/
theorem Within.short (hw : Within q c done w) (he : w.escaped = true) : (w.take b (w.value ++ [b])).Short q where
  ne_nil := by simp [Word.take, Word.settled]
  plain hnone := by
    rw [Word.take, hw.quote] at hnone
    cases hnone
  quoted opening _ := by
    have hlen : (w.value ++ [q.escape]).length = done.length := by rw [← hw.said, Word.settled, if_pos he]
    simp [Word.take, Word.settled, hw.raw] at hlen ⊢
    omega

/-- What a byte makes of a word: it stays what it stands on, quotes a blank, or becomes short. -/
theorem Within.goes (hq : q.Distinct) (hw : Within q c done w) (h : Word.Goes q w b w') :
    (isBlank b = false ∧ Within q c (done ++ [b]) w') ∨ (isBlank b = true ∧ b ∈ w'.value) ∨
      (isBlank b = false ∧ w'.Short q ∧ ∀ rest, ¬ q.Unclosed c (done ++ b :: rest)) := by
  have hgrows := h.grows
  have hkept : w.escaped = false → w.value = done := by
    intro he
    rw [← hw.said, Word.settled, if_neg (by simp [he])]
  have hne : q.isQuote b = false → b ≠ c := by
    rintro hb rfl
    rw [hw.unclosed.quote] at hb
    cases hb
  cases h with
  | kept hnone => rw [hw.quote] at hnone; cases hnone
  | dropped _ hb he =>
    exact .inr (.inr ⟨hq.quote_not_blank b hb, hw.short he, fun _ h => h.here.2.2 (.inl hb) (hw.escaped.mp he)⟩)
  | merged _ hb he =>
    have hblank : isBlank b = false := hb ▸ hq.escape_not_blank
    exact .inr (.inr ⟨hblank, hw.short he, fun _ h => h.here.2.2 (.inr hb) (hw.escaped.mp he)⟩)
  | otherQuote hquote hbc hb he =>
    rw [hw.quote] at hquote
    cases hquote
    have hblank := hq.quote_not_blank b hb
    have hunclosed := hw.unclosed.snoc hbc hblank fun _ => hw.last_ne he
    exact .inl ⟨hblank, hw.snoc hgrows hunclosed (by simp [Word.take, Word.settled, hkept he])
      (by simp [Word.take, hq.quote_ne_escape hb])⟩
  | pending hb hescape he =>
    have hblank : isBlank b = false := hescape ▸ hq.escape_not_blank
    have hunclosed := hw.unclosed.snoc (hne hb) hblank fun _ => hw.last_ne he
    exact .inl ⟨hblank, hw.snoc hgrows hunclosed (by simp [Word.take, Word.settled, hkept he, hescape])
      (by simp [hescape])⟩
  | other hb hescape =>
    cases hblank : isBlank b with
    | true => exact .inr (.inl ⟨rfl, by simp [Word.take]⟩)
    | false =>
      have hunclosed := hw.unclosed.snoc (hne hb) hblank fun h => by simp [hb, hescape] at h
      exact .inl ⟨rfl, hw.snoc hgrows hunclosed (by simp [Word.take, Word.settled, ← hw.said])
        (by simp [Word.take, hescape])⟩

end

/-! ## Tokens and words -/

section

variable {R : Bytes → Bytes → Prop} (hrefl : ∀ text, R text text)
  (hfolds : ∀ {text value : Bytes}, R text value → text.lower = value.lower)

include hrefl in
theorem forall₂_append_left {front xs ys : List Bytes} :
    List.Forall₂ R (front ++ xs) (front ++ ys) ↔ List.Forall₂ R xs ys := by
  induction front with
  | nil => rfl
  | cons x front ih => rw [List.cons_append, List.cons_append, List.forall₂_cons, ih, and_iff_right (hrefl x)]

include hfolds

theorem not_of_unlike {text value : Bytes} (htext : ∀ b ∈ text, isBlank b = false) (h : Unlike value text) :
    ¬ R text value := by
  intro hr
  have hlower := hfolds hr
  rcases h with ⟨b, hb, hblank⟩ | hlt
  · have hmem : lowerByte b ∈ text.lower := by
      rw [hlower]
      exact List.mem_map_of_mem hb
    obtain ⟨a, ha, hab⟩ := List.mem_map.mp hmem
    rw [← isBlank_lowerByte b, ← hab, isBlank_lowerByte, htext a ha] at hblank
    cases hblank
  · have hlen : text.lower.length = value.lower.length := by rw [hlower]
    simp only [Bytes.lower, List.length_map] at hlen
    omega

/-- One word that does not read like the text is enough. -/
theorem not_forall₂_of_unlike {run rest : Bytes} {values : List Bytes} {value : Bytes} (hrun : run ≠ [])
    (hblanks : ∀ b ∈ run, isBlank b = false) (h : Unlike value (run ++ rest.takeWhile (!isBlank ·))) :
    ¬ List.Forall₂ R (Bytes.wordsFrom run rest) (value :: values) := by
  obtain ⟨later, hwords⟩ := Bytes.wordsFrom_of_ne_nil rest hrun
  rw [hwords, List.forall₂_cons]
  rintro ⟨hr, -⟩
  refine not_of_unlike hfolds ?_ h hr
  intro b hb
  rcases List.mem_append.mp hb with hb | hb
  · exact hblanks b hb
  · simpa using List.mem_takeWhile_imp hb

include hrefl

/-- From a place on behind an open quote `c`, where nothing quoted so far was taken for anything else: the words are
    read as they stand exactly if nothing ever is, and the quote is not closed. -/
theorem within_iff (hq : q.Distinct) {c : UInt8} (rest : Bytes) : ∀ {done : Bytes} {w : Word}, Within q c done w →
    (List.Forall₂ R (Bytes.wordsFrom (c :: done) rest) ((scan q w rest).map (·.value)) ↔
      q.Unclosed c (done ++ rest)) := by
  induction rest with
  | nil =>
    intro done w hw
    have hscan : (scan q w []).map (·.value) = [c :: done] := by simp [scan, Word.finish, hw.quote, hw.said]
    rw [hscan, Bytes.wordsFrom_nil, List.append_nil]
    exact iff_of_true (.cons (hrefl _) .nil) hw.unclosed
  | cons b rest ih =>
    intro done w hw
    have hblanks : ∀ a ∈ c :: done, isBlank a = false :=
      List.forall_mem_cons.mpr ⟨hq.quote_not_blank c hw.unclosed.quote, hw.unclosed.blanks⟩
    have hreads := w.step_reads (q := q) b
    rw [scan]
    generalize (w.step q b).1 = t? at hreads
    generalize (w.step q b).2 = w' at hreads
    cases hreads with
    | blank hnone => rw [hw.quote] at hnone; cases hnone
    | opens hnone => rw [hw.quote] at hnone; cases hnone
    | closes hquote _ he =>
      rw [hw.quote] at hquote
      cases hquote
      -- the token of a word that is closed says neither of its quotes
      refine iff_of_false (not_forall₂_of_unlike hfolds (by simp) hblanks (.inr ?_)) fun h => h.here.1 rfl
      have hsaid := hw.said
      simp only [Word.settled, he, Bool.false_eq_true, if_false] at hsaid
      rw [hsaid, List.length_append, List.length_cons]
      dsimp only
      omega
    | goes _ hgoes =>
      have hgrows := hgoes.grows
      have hraw : w'.raw = c :: done ++ [b] := by rw [hgrows.raw, hw.raw]
      rcases hw.goes hq hgoes with ⟨hb, hw'⟩ | ⟨hb, hmem⟩ | ⟨hb, hshort, hnot⟩
      · rw [Bytes.wordsFrom_other _ hb, List.append_cons done b rest]
        exact ih hw'
      · obtain ⟨t, ts, hscan, ht⟩ := scan_quoted rest (hgrows.quote.trans hw.quote) hmem
        rw [Option.toList_none, List.nil_append, hscan, List.map_cons]
        refine iff_of_false (not_forall₂_of_unlike hfolds (by simp) hblanks (.inl ⟨b, ht, hb⟩)) fun h => ?_
        rw [h.here.2.1] at hb
        cases hb
      · obtain ⟨t, ts, hscan, ht⟩ := scan_short hq rest hshort
        rw [Option.toList_none, List.nil_append, hscan, List.map_cons]
        refine iff_of_false (not_forall₂_of_unlike hfolds (by simp) hblanks ?_) (hnot rest)
        simpa [hraw, hb] using ht

/-- From a place on at which all that was read stands for itself, the words are read as they stand exactly if all of
    the text stands for itself. -/
theorem faithful_iff (hq : q.Distinct) (rest : Bytes) : ∀ {done : Bytes} {w : Word}, Faithful q done w →
    (List.Forall₂ R (Bytes.wordsFrom w.raw rest) ((scan q w rest).map (·.value)) ↔ q.Verbatim (done ++ rest)) := by
  induction rest with
  | nil =>
    intro done w hw
    rw [scan, Word.finish, hw.quote, Bytes.wordsFrom_nil, List.append_nil, hw.plain?_values]
    exact iff_of_true (List.forall₂_same.mpr fun text _ => hrefl text) (.inl hw.plain)
  | cons b rest ih =>
    intro done w hw
    have hreads := w.step_reads (q := q) b
    rw [scan]
    generalize (w.step q b).1 = t? at hreads
    generalize (w.step q b).2 = w' at hreads
    cases hreads with
    | closes hquote => rw [hw.quote] at hquote; cases hquote
    | blank _ hb =>
      rw [Bytes.wordsFrom_blank _ hb, List.map_append, hw.plain?_values, forall₂_append_left hrefl,
        List.append_cons done b rest]
      exact ih (hw.fresh hq hb _)
    | opens _ hblank hb he =>
      rw [List.map_append, hw.plain?_values]
      have hlast := hw.last_ne he
      -- where no word has begun the quote is the last one, anywhere else it cuts a word in two
      by_cases hraw : w.raw = []
      · have hparted := hw.parted.mp hraw
        have hwithin : Within q b [] { start := w.stop, raw := [b], quote := some b } :=
          ⟨Quoting.unclosed_nil hb, rfl, rfl, rfl, by simp⟩
        rw [hraw, Bytes.wordsFrom_other _ hblank]
        refine (within_iff hrefl hfolds hq rest hwithin).trans ⟨fun h => ?_, fun h => ?_⟩
        · exact .inr ⟨done, b, rest, rfl, hw.plain, hparted, h⟩
        · exact (((h.here hq hw.plain).1 hb).resolve_left hlast).2
      · rw [Bytes.word, if_neg (by simpa using hraw), List.singleton_append]
        refine iff_of_false (not_forall₂_of_unlike hfolds hraw hw.blanks (.inr ?_)) fun h => ?_
        · simp [hblank]
        · exact hraw (hw.parted.mpr (((h.here hq hw.plain).1 hb).resolve_left hlast).1)
    | goes hb hgoes =>
      have hraw : w'.raw = w.raw ++ [b] := hgoes.grows.raw
      have hblank := hb hw.quote
      rcases hw.goes hq hblank hgoes with hw' | ⟨hshort, hnot⟩
      · rw [Bytes.wordsFrom_other _ hblank, List.append_cons done b rest, ← hraw]
        exact ih hw'
      · obtain ⟨t, ts, hscan, ht⟩ := scan_short hq rest hshort
        rw [Option.toList_none, List.nil_append, hscan, List.map_cons, Bytes.wordsFrom_other _ hblank]
        refine iff_of_false (not_forall₂_of_unlike hfolds (by simp) ?_ ?_) (hnot rest)
        · exact List.forall_mem_append.mpr ⟨hw.blanks, by simpa using hblank⟩
        · simpa [hraw] using ht

/-- The tokens of a call say its words exactly if the call stands for itself, also up to the case of letters. -/
theorem tokens_words_iff (hq : q.Distinct) (text : Bytes) :
    List.Forall₂ R text.words ((tokens q text).map (·.value)) ↔ q.Verbatim text := by
  have hfresh : Faithful q [] (.fresh 0) :=
    ⟨Quoting.plain_nil, rfl, rfl, by simp [Word.fresh], by simp [Word.fresh], by simp [Word.fresh, Quoting.Parted]⟩
  rw [Bytes.words_eq]
  exact faithful_iff hrefl hfolds hq text hfresh

end

end Call

end CommandGrammar
