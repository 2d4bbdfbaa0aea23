/-
  CommandGrammar.Proofs.Call.Words — how a call is cut into words.

  A byte either ends the word that is being read, and then the next one starts with
  nothing read and nothing pending, or it belongs to the word (`Word.step_reads`). So
  words stand one behind the other in the call, each on at least one byte
  (`tokens_spans`), and where the call stands in a longer text makes no difference but
  to the places (`scan_shift`).
-/

import CommandGrammar.Call.Token
import CommandGrammar.Proofs.Pieces

namespace CommandGrammar.Call

variable {q : Quoting}

namespace Word

/-- Nothing of a word is read yet. -/
def fresh (start : Nat) : Word := { start }

/-- The byte belongs to the word: what the word says with it. -/
inductive Goes (q : Quoting) (w : Word) (c : UInt8) : Word → Prop
  /-- Outside of quotes an escape before a quote is kept. -/
  | kept : w.quote = none → q.isQuote c = true → w.escaped = true → Goes q w c (w.take c (w.value ++ [q.escape, c]))
  /-- Between quotes it is dropped. -/
  | dropped {opening : UInt8} : w.quote = some opening → q.isQuote c = true → w.escaped = true →
      Goes q w c (w.take c (w.value ++ [c]))
  | otherQuote {opening : UInt8} : w.quote = some opening → c ≠ opening → q.isQuote c = true → w.escaped = false →
      Goes q w c (w.take c (w.value ++ [c]))
  /-- Of two escapes one is left. -/
  | merged : q.isQuote c = false → c = q.escape → w.escaped = true → Goes q w c (w.take c (w.value ++ [c]))
  | pending : q.isQuote c = false → c = q.escape → w.escaped = false →
      Goes q w c { w.take c w.value with escaped := true }
  | other : q.isQuote c = false → c ≠ q.escape → Goes q w c (w.take c (w.settled q ++ [c]))

/-- What one byte does: the token that it completes, and the word that is then being read. -/
inductive Reads (q : Quoting) (w : Word) (c : UInt8) : Option Token → Word → Prop
  | blank : w.quote = none → isBlank c = true → Reads q w c (w.plain? q) (.fresh (w.stop + 1))
  | opens : w.quote = none → isBlank c = false → q.isQuote c = true → w.escaped = false →
      Reads q w c (w.plain? q) { start := w.stop, raw := [c], quote := some c }
  | closes : w.quote = some c → q.isQuote c = true → w.escaped = false →
      Reads q w c (some ⟨.quoted, w.raw ++ [c], w.start, w.stop + 1, w.value⟩) (.fresh (w.stop + 1))
  | goes {w' : Word} : (w.quote = none → isBlank c = false) → Goes q w c w' → Reads q w c none w'

theorem step_reads (w : Word) (c : UInt8) : Reads q w c (w.step q c).1 (w.step q c).2 := by
  unfold step
  split
  case isTrue h =>
    simp only [Bool.and_eq_true, Option.isNone_iff_eq_none] at h
    exact .blank h.1 h.2
  case isFalse h =>
    have hc : w.quote = none → isBlank c = false := fun hq => by simpa [hq] using h
    split
    case isTrue hquote =>
      cases he : w.escaped with
      | true =>
        cases hw : w.quote with
        | none => exact .goes hc (.kept hw hquote he)
        | some opening => exact .goes hc (.dropped hw hquote he)
      | false =>
        cases hw : w.quote with
        | none => exact .opens hw (hc hw) hquote he
        | some opening =>
          by_cases heq : c = opening
          · subst heq
            simpa [fresh] using Reads.closes hw hquote he
          · simpa [heq] using Reads.goes hc (.otherQuote hw heq hquote he)
    case isFalse hquote =>
      have hquote' : q.isQuote c = false := by simpa using hquote
      split
      case isTrue hescape =>
        split
        case isTrue he => exact .goes hc (.merged hquote' hescape he)
        case isFalse he => exact .goes hc (.pending hquote' hescape (by simpa using he))
      case isFalse hescape => exact .goes hc (.other hquote' hescape)

/-- What one byte does, with no more said of a word that goes on than that it says something. -/
inductive Moves (q : Quoting) (w : Word) (c : UInt8) : Option Token → Word → Prop
  | blank : w.quote = none → isBlank c = true → Moves q w c (w.plain? q) (fresh (w.stop + 1))
  | opens : w.quote = none → isBlank c = false → q.isQuote c = true → w.escaped = false →
      Moves q w c (w.plain? q) { start := w.stop, raw := [c], quote := some c }
  | closes : w.quote = some c → q.isQuote c = true → w.escaped = false →
      Moves q w c (some ⟨.quoted, w.raw ++ [c], w.start, w.stop + 1, w.value⟩) (fresh (w.stop + 1))
  /-- It may be no more than a pending escape. -/
  | goes (value : Bytes) (escaped : Bool) : (w.quote = none → isBlank c = false) →
      ({ w with raw := w.raw ++ [c], value, escaped } : Word).settled q ≠ [] →
      Moves q w c none { w with raw := w.raw ++ [c], value, escaped }

theorem step_moves (w : Word) (c : UInt8) : Moves q w c (w.step q c).1 (w.step q c).2 := by
  have hreads := w.step_reads (q := q) c
  generalize (w.step q c).1 = t? at hreads
  generalize (w.step q c).2 = w' at hreads
  cases hreads with
  | blank hquote hc => exact .blank hquote hc
  | opens hquote hc hopening he => exact .opens hquote hc hopening he
  | closes hquote hclosing he => exact .closes hquote hclosing he
  | goes hc hgoes => cases hgoes <;> exact .goes _ _ hc (by simp [take, settled])

/-- What is read of a word begins with the quote that is open. Without one there is no blank in it, and it says
    something as soon as there is any of it. -/
structure Proper (q : Quoting) (w : Word) : Prop where
  said : w.quote = none → (w.settled q = [] ↔ w.raw = [])
  noBlank : w.quote = none → ∀ c ∈ w.raw, isBlank c = false
  opened : ∀ opening ∈ w.quote, q.isQuote opening = true ∧ ∃ inside, w.raw = opening :: inside

theorem proper_fresh (start : Nat) : (fresh start).Proper q where
  said _ := Iff.rfl
  noBlank _ := List.forall_mem_nil _
  opened := nofun

theorem Moves.proper {w w' : Word} {c : UInt8} {t? : Option Token} (h : Moves q w c t? w') (hw : w.Proper q) :
    w'.Proper q := by
  cases h with
  | blank => exact proper_fresh _
  | closes => exact proper_fresh _
  | opens _ _ hopening =>
    refine ⟨nofun, nofun, fun opening h => ?_⟩
    cases h
    exact ⟨hopening, [], rfl⟩
  | goes value escaped hc hsaid =>
    refine ⟨fun _ => by simp [hsaid], fun hquote => ?_, fun opening h => ?_⟩
    · rw [List.forall_mem_append, List.forall_mem_singleton]
      exact ⟨hw.noBlank hquote, hc hquote⟩
    · obtain ⟨hopening, inside, hraw⟩ := hw.opened opening h
      exact ⟨hopening, inside ++ [c], by simp [hraw]⟩

/-- Every byte is read once. -/
theorem Moves.stop {w w' : Word} {c : UInt8} {t? : Option Token} (h : Moves q w c t? w') : w'.stop = w.stop + 1 := by
  cases h with
  | goes => simp only [Word.stop, List.length_append, List.length_singleton]; omega
  | _ => rfl

theorem plain?_eq_some {w : Word} {t : Token} (h : w.plain? q = some t) :
    t = ⟨.plain, w.raw, w.start, w.stop, w.settled q⟩ ∧ w.settled q ≠ [] := by
  unfold plain? at h
  dsimp only at h
  split at h
  · cases h
  · rename_i hne
    exact ⟨(Option.some.inj h).symm, by simpa using hne⟩

theorem plain?_eq_none {w : Word} : w.plain? q = none ↔ w.settled q = [] := by
  unfold plain?
  dsimp only
  split <;> simp_all

/-- A quote that is not escaped begins a quoted word, whatever word it ends. -/
theorem step_opens (start : Nat) {c : UInt8} (hblank : isBlank c = false) (hquote : q.isQuote c = true) :
    (fresh start).step q c = (none, { start, raw := [c], quote := some c }) := by
  simp only [step, fresh, hblank, hquote, stop]
  rfl

end Word

theorem tokens_eq_scan (q : Quoting) (call : Bytes) : tokens q call = scan q (.fresh 0) call := rfl

/-! ## Spans -/

/-- The tokens stand between two places, one behind the other, each on at least one byte. -/
def Spans (hi : Nat) : Nat → List Token → Prop
  | _, [] => True
  | lo, t :: ts => lo ≤ t.start ∧ t.start < t.stop ∧ t.stop ≤ hi ∧ Spans hi t.stop ts

namespace Spans

variable {lo lo' hi : Nat} {ts us : List Token}

theorem mono (h : Spans hi lo ts) (hlo : lo' ≤ lo) : Spans hi lo' ts := by
  cases ts with
  | nil => trivial
  | cons t ts =>
    obtain ⟨hstart, hrest⟩ := h
    exact ⟨by omega, hrest⟩

theorem of_ordered (hspans : ∀ t ∈ ts, lo ≤ t.start ∧ t.start < t.stop ∧ t.stop ≤ hi)
    (hordered : ts.Pairwise fun t u => t.stop ≤ u.start) : Spans hi lo ts := by
  induction ts generalizing lo with
  | nil => trivial
  | cons t ts ih =>
    obtain ⟨⟨hstart, hlt, hstop⟩, hspans⟩ := List.forall_mem_cons.mp hspans
    obtain ⟨hbehind, hordered⟩ := List.pairwise_cons.mp hordered
    exact ⟨hstart, hlt, hstop, ih (fun u hu => ⟨hbehind u hu, (hspans u hu).2⟩) hordered⟩

theorem cons_tail {t : Token} (h : Spans hi lo (t :: ts)) : Spans hi lo ts := by
  obtain ⟨hstart, hlt, -, hrest⟩ := h
  exact hrest.mono (by omega)

theorem suffix (h : Spans hi lo ts) (hus : us <:+ ts) : Spans hi lo us := by
  induction ts generalizing lo with
  | nil => rw [List.suffix_nil.mp hus]; trivial
  | cons t ts ih =>
    rcases List.suffix_cons_iff.mp hus with rfl | hus
    · exact h
    · exact ih h.cons_tail hus

/-- The first token starts before the last one ends, and that is before the end of the text. -/
theorem first_last {t last : Token} (h : Spans hi lo (t :: ts)) (hlast : (t :: ts).getLast? = some last) :
    t.start < last.stop ∧ last.stop ≤ hi := by
  induction ts generalizing lo t with
  | nil =>
    obtain ⟨-, hlt, hstop, -⟩ := h
    cases hlast
    exact ⟨hlt, hstop⟩
  | cons u us ih =>
    obtain ⟨-, hlt, -, hrest⟩ := h
    rw [List.getLast?_cons_cons] at hlast
    have hbound := ih hrest hlast
    obtain ⟨hu, -⟩ := hrest
    omega

end Spans

/-- A span that is not empty spans some text. -/
theorem slice_ne_nil {text : Bytes} {start stop : Nat} (h : start < stop) (hstop : stop ≤ text.length) :
    text.slice start stop ≠ [] := by
  rw [← List.length_pos_iff, Bytes.slice, List.length_take, List.length_drop]
  omega

/-! ## Pieces of the call -/

def Token.piece (t : Token) : Piece :=
  ⟨t.start, t.stop, t.raw⟩

/-- The word read so far is a piece, unless there is nothing of it. -/
theorem Word.Proper.pieces {w : Word} (hw : w.Proper q) (hquote : w.quote = none) {text : Bytes} {ps : List Piece}
    (h : Pieces w.stop text ps) : Pieces w.start (w.raw ++ text) ((w.plain? q).toList.map Token.piece ++ ps) := by
  cases hp : w.plain? q with
  | none =>
    have hraw : w.raw = [] := (hw.said hquote).mp (Word.plain?_eq_none.mp hp)
    rw [Word.stop, hraw] at h
    rw [hraw]
    exact h
  | some t =>
    obtain ⟨rfl, hsaid⟩ := Word.plain?_eq_some hp
    exact .piece (fun hraw => hsaid ((hw.said hquote).mpr hraw)) h

/-- The tokens are pieces of what is read of the word and what is still to be read. -/
theorem scan_pieces (rest : Bytes) : ∀ {w : Word}, w.Proper q →
    Pieces w.start (w.raw ++ rest) ((scan q w rest).map Token.piece) := by
  induction rest with
  | nil =>
    intro w hw
    rw [scan, Word.finish]
    cases hq : w.quote with
    | none => simpa using Word.Proper.pieces hw hq (.nil w.stop)
    | some opening =>
      obtain ⟨-, inside, hraw⟩ := hw.opened opening hq
      exact .piece (by simp [hraw]) (.nil _)
  | cons c rest ih =>
    intro w hw
    have hmoves := w.step_moves (q := q) c
    rw [scan, List.map_append]
    generalize (w.step q c).1 = t? at hmoves
    generalize (w.step q c).2 = w' at hmoves
    have hrest := ih (hmoves.proper hw)
    cases hmoves with
    | blank hq hblank => exact hw.pieces hq (.blank hblank hrest)
    | opens hq => exact hw.pieces hq hrest
    | closes =>
      have hstop : w.stop + 1 = w.start + (w.raw ++ [c]).length := by
        rw [List.length_append, ← Nat.add_assoc]
        rfl
      rw [hstop] at hrest ⊢
      rw [List.append_cons]
      exact .piece (List.concat_ne_nil c w.raw) hrest
    | goes => simpa using hrest

theorem tokens_pieces (q : Quoting) (call : Bytes) : Pieces 0 call ((tokens q call).map Token.piece) :=
  scan_pieces call (Word.proper_fresh 0)

theorem tokens_spans (q : Quoting) (call : Bytes) : Spans call.length 0 (tokens q call) := by
  have h := tokens_pieces q call
  refine Spans.of_ordered (fun t ht => ?_) (List.pairwise_map.mp h.ordered)
  have hspan := h.spans t.piece (List.mem_map_of_mem ht)
  rwa [Nat.zero_add] at hspan

/-! ## Places -/

/-- The token, with the call `k` bytes further on in a text. -/
def Token.shift (k : Nat) (t : Token) : Token :=
  { t with start := t.start + k, stop := t.stop + k }

def Word.shift (k : Nat) (w : Word) : Word :=
  { w with start := w.start + k }

namespace Word

variable (k : Nat) (w : Word)

@[simp] theorem quote_shift : (w.shift k).quote = w.quote := rfl
@[simp] theorem escaped_shift : (w.shift k).escaped = w.escaped := rfl
@[simp] theorem settled_shift : (w.shift k).settled q = w.settled q := rfl

theorem stop_shift : (w.shift k).stop = w.stop + k := by
  simp only [stop, shift]
  omega

theorem plain?_shift : (w.shift k).plain? q = (w.plain? q).map (Token.shift k) := by
  simp only [plain?, settled_shift, stop_shift]
  split <;> rfl

theorem finish_shift : (w.shift k).finish q = (w.finish q).map (Token.shift k) := by
  simp only [finish, quote_shift, plain?_shift, settled_shift, stop_shift]
  cases w.quote <;> rfl

theorem fresh_shift (start : Nat) : (fresh start).shift k = fresh (start + k) := rfl

theorem step_shift (c : UInt8) :
    (w.shift k).step q c = ((w.step q c).1.map (Token.shift k), (w.step q c).2.shift k) := by
  have hnext : (w.shift k).stop + 1 = w.stop + 1 + k := by rw [stop_shift]; omega
  unfold step
  rw [plain?_shift, hnext, stop_shift]
  by_cases hblank : (w.quote.isNone && isBlank c) = true
  · simp only [quote_shift, hblank, if_true]; rfl
  · simp only [quote_shift, hblank, Bool.false_eq_true, if_false]
    by_cases he : w.escaped = true
    · simp only [escaped_shift, he, if_true]
      split
      · rfl
      · split <;> rfl
    · simp only [escaped_shift, he, Bool.false_eq_true, if_false]
      split
      · cases w.quote with
        | none => rfl
        | some opening => dsimp only; split <;> rfl
      · split <;> rfl

end Word

theorem scan_shift (k : Nat) (rest : Bytes) : ∀ w : Word, scan q (w.shift k) rest = (scan q w rest).map (Token.shift k) := by
  induction rest with
  | nil =>
    intro w
    rw [scan, scan, Word.finish_shift]
    cases w.finish q <;> rfl
  | cons c rest ih =>
    intro w
    rw [scan, scan, Word.step_shift, ih, List.map_append]
    cases (w.step q c).1 <;> rfl

end CommandGrammar.Call
