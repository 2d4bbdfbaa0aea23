/-
  CommandGrammar.Proofs.Grammar.Rendering — what is rendered is read back.

  With the standard marks, all but the tail are single bytes, and a symbol in front of
  one of them ends there. So a rendered pattern is read as its spelling, wherever it
  stands in front of something that ends a symbol (`render_spelled`). The one text that
  does not end where its mark begins is the name of a tail, if it ends in a dot itself.
  The rules derive the pattern from its spelling, and the rendering of a compiled grammar
  compiles to the same pattern (`compile_render`).
-/

import CommandGrammar.Proofs.Grammar.Accepts
import CommandGrammar.Proofs.Grammar.Lexing
import CommandGrammar.Proofs.Grammar.Spelling
import Mathlib

namespace CommandGrammar.Grammar

open Specials (standard)

/-! ## The standard marks -/

def dot : UInt8 := 46

theorem standard_single {m : Mark} (hm : m ≠ .tail) : ∃ c, standard.text m = [c] ∧ isBlank c = false := by
  cases m with
  | tail => exact absurd rfl hm
  | opening b => cases b <;> exact ⟨_, rfl, by decide⟩
  | closing b => cases b <;> exact ⟨_, rfl, by decide⟩
  | _ => exact ⟨_, rfl, by decide⟩

theorem standard_tail : standard.text .tail = [dot, dot] ++ [dot] := rfl

theorem standard_lasts_differ : LastsDiffer standard := by
  have hall : ∀ m ∈ Mark.all, ∀ n ∈ Mark.all, (standard.text m).getLast? = (standard.text n).getLast? → m = n := by
    decide
  exact fun m n _ h => hall m (Mark.mem_all m) n (Mark.mem_all n) h

theorem read_single {m : Mark} (hm : m ≠ .tail) {run : Bytes} (h : Plain standard run) (rest : Bytes) :
    read standard run (standard.text m ++ rest) = word run ++ .mark m :: read standard [] rest := by
  obtain ⟨c, hc, hblank⟩ := standard_single hm
  have htext : standard.text m = [] ++ [c] := hc
  have hrun : Plain standard (run ++ []) := by simpa using h
  exact read_mark standard_lasts_differ htext hblank hrun rest

/-- A dot completes no mark unless there are two dots before it. -/
theorem Plain.dot {w : Bytes} (h : Plain standard w) (hw : ¬ [dot, dot] <:+ w) : Plain standard (w ++ [Grammar.dot]) := by
  refine h.grow (by decide) ?_
  intro m hne hs
  have hlast : (standard.text m).getLast? = (standard.text .tail).getLast? := by
    rw [getLast?_of_suffix hs hne, List.getLast?_concat]; rfl
  rw [standard_lasts_differ m .tail hne hlast, standard_tail, List.suffix_concat_iff] at hs
  rcases hs with hs | ⟨t, ht, hs⟩
  · cases hs
  · exact hw (List.append_cancel_right ht ▸ hs)

/-- The name of a tail ends before the dots, unless it ends in a dot. -/
theorem read_tail {name : Bytes} (h : Plain standard name) (hdot : name.getLast? ≠ some dot) (rest : Bytes) :
    read standard name (standard.text .tail ++ rest) = word name ++ .mark .tail :: read standard [] rest := by
  have hlast : ¬ [dot] <:+ name := by
    intro hs
    exact hdot (getLast?_of_suffix hs (by simp)).symm
  have hone : Plain standard (name ++ [dot]) := by
    refine h.dot ?_
    intro hs
    exact hlast (List.IsSuffix.trans ⟨[dot], rfl⟩ hs)
  have htwo : Plain standard (name ++ [dot] ++ [dot]) := by
    refine hone.dot ?_
    intro hs
    rcases List.suffix_concat_iff.mp hs with hs | ⟨t, ht, hs⟩
    · cases hs
    · have htdot : t = [dot] := (List.append_cancel_right (show [dot] ++ [dot] = t ++ [dot] from ht)).symm
      exact hlast (htdot ▸ hs)
  have hfront : Plain standard (name ++ [dot, dot]) := by simpa using htwo
  exact read_mark standard_lasts_differ standard_tail (by decide) hfront rest

/-! ## Texts that end a symbol -/

/-- Whatever symbol stands before the text, it ends there. -/
def Delimited (text : Bytes) : Prop :=
  ∀ w, Plain standard w → read standard w text = word w ++ read standard [] text

theorem Delimited.nil : Delimited [] := by
  intro w _
  rw [read_nil, read_nil]
  exact (List.append_nil _).symm

theorem Delimited.space (rest : Bytes) : Delimited (space :: rest) := by
  intro w _
  rw [read_blank (by decide), read_blank (by decide)]
  rfl

theorem Delimited.single {m : Mark} (hm : m ≠ .tail) (rest : Bytes) : Delimited (standard.text m ++ rest) := by
  intro w hw
  rw [read_single hm hw, read_single hm Plain.nil]
  rfl

/-- The text ends the symbol before it, or leaves that to what stands behind it. -/
def Delimiting (text : Bytes) : Prop :=
  ∀ rest, Delimited rest → Delimited (text ++ rest)

theorem Delimiting.nil : Delimiting [] := fun _ h => h

theorem Delimiting.space (text : Bytes) : Delimiting (space :: text) := fun _ _ => Delimited.space _

theorem Delimiting.single {m : Mark} (hm : m ≠ .tail) (text : Bytes) : Delimiting (standard.text m ++ text) := by
  intro rest _
  rw [List.append_assoc]
  exact Delimited.single hm _

theorem Delimiting.marks {ms : List Mark} (h : .tail ∉ ms) : Delimiting (ms.flatMap standard.text) := by
  cases ms with
  | nil => exact Delimiting.nil
  | cons m ms => exact Delimiting.single (fun hm => h (hm ▸ List.mem_cons_self)) _

/-! ## Texts that are read as given terminals -/

/-- In front of what ends a symbol, the text is read as `ts`. -/
def Spelled (text : Bytes) (ts : List Terminal) : Prop :=
  ∀ rest, Delimited rest → read standard [] (text ++ rest) = ts ++ read standard [] rest

namespace Spelled

variable {u v : Bytes} {ts us : List Terminal}

theorem nil : Spelled [] [] := fun _ _ => rfl

theorem append (hu : Spelled u ts) (hv : Spelled v us) (hd : Delimiting v) : Spelled (u ++ v) (ts ++ us) := by
  intro rest h
  rw [List.append_assoc, hu _ (hd _ h), hv _ h, List.append_assoc]

theorem symbol {text : Bytes} (ht : Spellable standard text) : Spelled text [.symbol text] := by
  intro rest h
  rw [read_plain text (by simpa using ht.toPlain), List.nil_append, h text ht.toPlain, word_of_spellable ht]

theorem single {m : Mark} (hm : m ≠ .tail) (hv : Spelled v us) : Spelled (standard.text m ++ v) (.mark m :: us) := by
  intro rest h
  rw [List.append_assoc, read_single hm Plain.nil, hv _ h]
  rfl

theorem mark {m : Mark} (hm : m ≠ .tail) : Spelled (standard.text m) [.mark m] := by
  simpa using single hm nil

theorem marks {ms : List Mark} (h : .tail ∉ ms) : Spelled (ms.flatMap standard.text) (ms.map .mark) := by
  induction ms with
  | nil => exact nil
  | cons m ms ih =>
    rw [List.flatMap_cons]
    exact single (fun hm => h (hm ▸ List.mem_cons_self)) (ih fun hm => h (List.mem_cons_of_mem _ hm))

theorem space (hv : Spelled v us) : Spelled (CommandGrammar.space :: v) us := by
  intro rest h
  rw [List.cons_append, read_blank (by decide), hv _ h]
  rfl

theorem tail {name : Bytes} (hn : Spellable standard name) (hdot : name.getLast? ≠ some dot) (hv : Spelled v us) :
    Spelled (name ++ standard.text .tail ++ v) (.symbol name :: .mark .tail :: us) := by
  intro rest h
  rw [List.append_assoc, List.append_assoc, read_plain name (by simpa using hn.toPlain), List.nil_append,
    read_tail hn.toPlain hdot, hv _ h, word_of_spellable hn]
  rfl

theorem enclose {b : Bracket} (hu : Spelled u ts) : Spelled (Pattern.enclose standard b u) (enclosed b ts) := by
  have ho : Mark.opening b ≠ .tail := by simp
  have hc : Mark.closing b ≠ .tail := by simp
  have hclose : Delimiting (standard.text (.closing b)) := by
    simpa using Delimiting.single hc []
  have := single ho (hu.append (mark hc) hclose)
  rwa [← List.append_assoc] at this

theorem label {id : Option Bytes} (hid : ∀ t ∈ id.toList, Spellable standard t) :
    Spelled (Pattern.label standard id) (suffix id) := by
  cases id with
  | none => exact nil
  | some id => exact single (by simp) (symbol (hid id (by simp)))

end Spelled

theorem Delimiting.label (id : Option Bytes) : Delimiting (Pattern.label standard id) := by
  cases id with
  | none => exact Delimiting.nil
  | some id => exact Delimiting.single (by simp) _

/-! ## Rendered patterns -/

/-- Each text at the node can be a symbol, and the name of a tail ends before the dots. -/
structure Legible (p : Pattern) : Prop where
  spellable : ∀ t ∈ textsAt p, Spellable standard t
  tailName : ∀ name raw, p = .tail name raw → name.getLast? ≠ some dot

theorem inherited?_mem {cs : List Pattern} {id : Bytes} (h : Pattern.inherited? cs = some id) : id ∈ textsOf cs := by
  unfold Pattern.inherited? at h
  split at h
  · cases h
    simp [textsOf_single, Pattern.nodes, textsAt]
  · cases h

theorem spellable_of_legible {cs : List Pattern} (h : ∀ q ∈ Pattern.nodesOf cs, Legible q) :
    ∀ t ∈ textsOf cs, Spellable standard t := by
  intro t ht
  obtain ⟨q, hq, ht⟩ := List.mem_flatMap.mp ht
  exact (h q hq).spellable t ht

theorem literal_spelled {text : Bytes} (ht : Spellable standard text) (caseSensitive tolerant : Bool) :
    Spelled ((Pattern.literal text caseSensitive tolerant).render standard false)
      (spelling (.literal text caseSensitive tolerant)) := by
  have hms : Mark.tail ∉ (modifiers caseSensitive tolerant).map Modifier.mark := by
    cases caseSensitive <;> cases tolerant <;> decide
  have htext : (Pattern.literal text caseSensitive tolerant).render standard false =
      text ++ ((modifiers caseSensitive tolerant).map Modifier.mark).flatMap standard.text := by
    cases caseSensitive <;> cases tolerant <;> simp [Pattern.render, modifiers, Modifier.mark]
  have := (Spelled.symbol ht).append (.marks hms) (.marks hms)
  rw [List.map_map] at this
  rw [htext]
  exact this

theorem parameter_spelled {name : Bytes} {type : Option Bytes} (hn : Spellable standard name)
    (ht : ∀ t ∈ type.toList, Spellable standard t) :
    Spelled ((Pattern.parameter name type).render standard false) (spelling (.parameter name type)) := by
  have hopen : Mark.parameterOpening ≠ .tail := by decide
  have hclose : Mark.parameterClosing ≠ .tail := by decide
  have hdelim : Delimiting (standard.text .parameterClosing) := by
    simpa using Delimiting.single hclose []
  cases type with
  | none =>
    have := Spelled.single hopen ((Spelled.symbol hn).append (.mark hclose) hdelim)
    rw [Pattern.render]
    simpa [spelling, suffix] using this
  | some t =>
    have hsep : Mark.separator ≠ .tail := by decide
    have htype := (Spelled.symbol (ht t (by simp))).append (.mark hclose) hdelim
    have hsuffix := Spelled.single hsep htype.space
    have := Spelled.single hopen ((Spelled.symbol hn).append hsuffix (.single hsep _))
    rw [Pattern.render]
    simpa [spelling, suffix] using this

theorem tail_spelled {name : Bytes} (hn : Spellable standard name) (hdot : name.getLast? ≠ some dot) (raw : Bool) :
    Spelled ((Pattern.tail name raw).render standard false) (spelling (.tail name raw)) := by
  have hopen : Mark.parameterOpening ≠ .tail := by decide
  have hms : Mark.tail ∉ (if raw then [Mark.raw] else []) ++ [.parameterClosing] := by
    cases raw <;> decide
  have := Spelled.single hopen (.tail hn hdot (.marks hms))
  rw [Pattern.render]
  cases raw <;> simpa [spelling, rawMark] using this

theorem variants_spelled {as : List (List Pattern)} {id : Option Bytes} (inherited parenthesized : Bool)
    (hid : ∀ t ∈ id.toList, Spellable standard t)
    (has : Spelled ((standard.text .divider).intercalate (Pattern.renderAlternatives standard as))
      (divided (spellingOfEach as))) :
    Spelled ((Pattern.variants as id inherited parenthesized).render standard false)
      (spelling (.variants as id inherited parenthesized)) := by
  have hown : ∀ t ∈ (if inherited then none else id).toList, Spellable standard t := by
    intro t ht
    cases inherited with
    | true => cases ht
    | false => exact hid t ht
  rw [Pattern.render, spelling]
  generalize (if inherited then none else id) = own at hown ⊢
  refine Spelled.append ?_ (.label hown) (.label _)
  split
  · exact has.enclose
  · exact has

mutual

theorem render_spelled : ∀ p : Pattern, (∀ q ∈ p.nodes, Legible q) → Spelled (p.render standard false) (spelling p)
  | .literal text caseSensitive tolerant, h => by
    have hl := h _ (List.mem_singleton_self _)
    exact literal_spelled (hl.spellable text (List.mem_singleton_self _)) caseSensitive tolerant
  | .parameter name type, h => by
    have hl := h _ (List.mem_singleton_self _)
    refine parameter_spelled (hl.spellable name List.mem_cons_self) ?_
    intro t ht
    exact hl.spellable t (List.mem_cons_of_mem _ ht)
  | .tail name raw, h => by
    have hl := h _ (List.mem_singleton_self _)
    exact tail_spelled (hl.spellable name (List.mem_singleton_self _)) (hl.tailName name raw rfl) raw
  | .sequence cs, h => by
    have hcs := renderEach_spelled cs fun q hq => h q (List.mem_append_left _ hq)
    exact hcs.enclose
  | .optional cs id, h => by
    have hcs := renderEach_spelled cs fun q hq => h q (List.mem_append_left _ hq)
    have hown := (h _ (List.mem_append_right _ (List.mem_singleton_self _))).spellable
    refine hcs.enclose.append (.label ?_) (.label _)
    intro t ht
    -- the identifier behind an optional is its own, or was inherited by the group in it
    rcases Option.or_eq_some_iff.mp (Option.mem_toList.mp ht) with hin | ⟨_, hid⟩
    · exact spellable_of_legible (fun q hq => h q (List.mem_append_left _ hq)) t (inherited?_mem hin)
    · exact hown t (Option.mem_toList.mpr hid)
  | .variants as id inherited parenthesized, h => by
    have has := renderAlternatives_spelled as fun q hq => h q (List.mem_append_left _ hq)
    have hown := (h _ (List.mem_append_right _ (List.mem_singleton_self _))).spellable
    exact variants_spelled inherited parenthesized hown has
  | .unordered cs id, h => by
    have hcs := renderEach_spelled cs fun q hq => h q (List.mem_append_left _ hq)
    have hown := (h _ (List.mem_append_right _ (List.mem_singleton_self _))).spellable
    exact hcs.enclose.append (.label hown) (.label _)

theorem renderEach_spelled : ∀ cs : List Pattern, (∀ q ∈ Pattern.nodesOf cs, Legible q) →
    Spelled (Pattern.spaced (Pattern.renderEach standard cs)) (spellingOf cs)
  | [], _ => .nil
  | [c], h => by
    have hc := render_spelled c fun q hq => h q (List.mem_append_left _ hq)
    rw [spellingOf_single]
    simpa [Pattern.spaced, Pattern.renderEach] using hc
  | c :: d :: ds, h => by
    have hc := render_spelled c fun q hq => h q (List.mem_append_left _ hq)
    have hds := renderEach_spelled (d :: ds) fun q hq => h q (List.mem_append_right _ hq)
    have := hc.append hds.space (.space _)
    rw [Pattern.spaced, Pattern.renderEach, Pattern.renderEach, List.intercalate_cons_cons, List.append_assoc]
    exact this

theorem renderAlternatives_spelled : ∀ as : List (List Pattern), (∀ q ∈ Pattern.nodesOfEach as, Legible q) →
    Spelled ((standard.text .divider).intercalate (Pattern.renderAlternatives standard as)) (divided (spellingOfEach as))
  | [], _ => .nil
  | [a], h => by
    have ha := renderEach_spelled a fun q hq => h q (List.mem_append_left _ hq)
    rw [spellingOfEach, spellingOfEach, divided_single, Pattern.renderAlternatives, Pattern.renderAlternatives,
      List.intercalate_singleton]
    exact ha
  | a :: b :: as, h => by
    have ha := renderEach_spelled a fun q hq => h q (List.mem_append_left _ hq)
    have has := renderAlternatives_spelled (b :: as) fun q hq => h q (List.mem_append_right _ hq)
    have hdiv : Mark.divider ≠ .tail := by decide
    have := ha.append (.single hdiv has) (.single hdiv _)
    rw [spellingOfEach, spellingOfEach, divided, Pattern.renderAlternatives, Pattern.renderAlternatives,
      List.intercalate_cons_cons, List.intercalate_cons_cons, List.append_assoc, List.append_assoc]
    exact this

end

/-! ## Compiling what is rendered -/

/-- A pattern that was read from a grammar is legible, as far as the names of its tails allow. -/
theorem legible_of_root {cs : Bool} {grammar : Bytes} {items : List Pattern}
    (h : Root cs ((tokens standard grammar).map Token.terminal) items)
    (hdots : ∀ name raw, .tail name raw ∈ Pattern.nodesOf items → name.getLast? ≠ some dot) :
    ∀ q ∈ Pattern.nodesOf items, Legible q := by
  intro q hq
  refine ⟨?_, ?_⟩
  · intro t ht
    have hmem : t ∈ textsOf items := List.mem_flatMap.mpr ⟨q, hq, ht⟩
    exact symbol_spellable (h.symbol_mem t hmem)
  · rintro name raw rfl
    exact hdots name raw hq

/-- The terminals of a rendered root are its spelling. -/
theorem tokens_render {items : List Pattern} (h : ∀ q ∈ Pattern.nodesOf items, Legible q) :
    (tokens standard ((Pattern.sequence items).render standard true)).map Token.terminal = spellingOf items := by
  have hs : Spelled ((Pattern.sequence items).render standard true) (spellingOf items) := renderEach_spelled items h
  have := hs [] Delimited.nil
  rwa [List.append_nil, read_nil, word, List.isEmpty_nil, if_pos rfl, List.append_nil, ← tokens_terminals] at this

/-- A compiled grammar is rendered as a grammar that compiles to the very same pattern, how its groups are written
    included. -/
theorem compile_render (cfg : Config) (known : Bytes → Bool) {grammar : Bytes} {c : Compiled}
    (hc : compile { cfg with specials := .standard, simplify := .no } known grammar = .ok c)
    (hdots : ∀ name raw, .tail name raw ∈ c.root.nodes → name.getLast? ≠ some dot) :
    compile { cfg with specials := .standard, simplify := .no } known c.render = .ok { c with grammar := c.render } := by
  rw [compile_eq_simplify, map_eq_ok] at hc
  obtain ⟨items, hp, rfl⟩ := hc
  obtain ⟨hr, ha⟩ := parse_eq_ok.mp hp
  have hlegible : ∀ q ∈ Pattern.nodesOf items, Legible q :=
    legible_of_root hr fun name raw hq => hdots name raw (List.mem_append_left _ hq)
  have hparse : parse ⟨cfg.caseSensitive, known⟩ (tokens standard ((Pattern.sequence items).render standard true)) =
      .ok items := by
    refine parse_eq_ok.mpr ⟨?_, ha⟩
    rw [tokens_render hlegible]
    exact hr.spelled
  rw [compile_eq_simplify, map_eq_ok]
  exact ⟨items, hparse, rfl⟩

/-- An optional that passes its identifier on, behind a literal with its modifiers in the other order and before
    names that end in dots without being tails. -/
theorem compile_render_inherited : ∃ c : Compiled,
    compile { simplify := .no } (· == ascii "int") (ascii "..~^ [ (a b)|c ]:x <t..: int> <r ... *>") = .ok c ∧
      (∀ name raw, .tail name raw ∈ c.root.nodes → name.getLast? ≠ some dot) ∧
      c.render = ascii "..^~ [(a b)|c]:x <t..: int> <r...*>" ∧
      compile { simplify := .no } (· == ascii "int") c.render = .ok { c with grammar := c.render } := by
  have hc : compile { simplify := .no } (· == ascii "int") (ascii "..~^ [ (a b)|c ]:x <t..: int> <r ... *>") =
      .ok ⟨.sequence
        [.literal (ascii "..") false true,
          .optional [.variants [[.sequence [.literal (ascii "a") true false, .literal (ascii "b") true false]],
            [.literal (ascii "c") true false]] (some (ascii "x")) true false] none,
          .parameter (ascii "t..") (some (ascii "int")), .tail (ascii "r") true],
        ascii "..~^ [ (a b)|c ]:x <t..: int> <r ... *>", .standard⟩ := by
    cbv
  refine ⟨_, hc, ?dots, by cbv, compile_render {} _ hc ?dots⟩
  simp [Pattern.nodes, Pattern.nodesOf, Pattern.nodesOfEach, ascii, dot]

end CommandGrammar.Grammar
