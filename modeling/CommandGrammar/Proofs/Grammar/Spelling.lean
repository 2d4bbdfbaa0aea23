/-
  CommandGrammar.Proofs.Grammar.Spelling — the terminals that a pattern is written with.

  `spelling` is the plainest way to write a pattern: one modifier of a kind, no brackets
  that are not in the pattern. Whatever way a pattern was written, the rules derive it
  from its spelling again (`Item.spelled`, `Root.spelled`), and every text in it is one
  of the symbols that it was written with (`Root.symbol_mem`).
-/

import CommandGrammar.Proofs.Grammar.Groups

namespace CommandGrammar.Grammar

open Pattern (inherited?)

variable {cs : Bool}

/-! ## Spelling -/

/-- What is written behind a group or a name. -/
def suffix : Option Bytes → List Terminal
  | none => []
  | some id => [.mark .separator, .symbol id]

theorem Suffix.spelled : ∀ id : Option Bytes, Suffix (suffix id) id
  | none => .absent
  | some id => .present id

/-- The modifiers of a literal, each of them once. -/
def modifiers (caseSensitive tolerant : Bool) : List Modifier :=
  (if caseSensitive then [] else [.caseInsensitive]) ++ (if tolerant then [.tolerant] else [])

def enclosed (b : Bracket) (inside : List Terminal) : List Terminal :=
  .mark (.opening b) :: inside ++ [.mark (.closing b)]

theorem enclosed_append (b : Bracket) (inside us : List Terminal) :
    enclosed b inside ++ us = .mark (.opening b) :: inside ++ .mark (.closing b) :: us := by
  simp [enclosed]

def divided (each : List (List Terminal)) : List Terminal :=
  [.mark .divider].intercalate each

mutual

def spelling : Pattern → List Terminal
  | .literal text caseSensitive tolerant => .symbol text :: (modifiers caseSensitive tolerant).map fun m => .mark m.mark
  | .parameter name type => .mark .parameterOpening :: .symbol name :: suffix type ++ [.mark .parameterClosing]
  | .tail name raw =>
    .mark .parameterOpening :: .symbol name :: .mark .tail :: rawMark raw ++ [.mark .parameterClosing]
  | .sequence cs => enclosed .sequence (spellingOf cs)
  | .optional cs id => enclosed .optional (spellingOf cs) ++ suffix ((inherited? cs).or id)
  | .variants as id inherited parenthesized =>
    let own := if inherited then none else id
    let inside := divided (spellingOfEach as)
    (if parenthesized || own.isSome then enclosed .sequence inside else inside) ++ suffix own
  | .unordered cs id => enclosed .unordered (spellingOf cs) ++ suffix id

def spellingOf : List Pattern → List Terminal
  | [] => []
  | c :: cs => spelling c ++ spellingOf cs

def spellingOfEach : List (List Pattern) → List (List Terminal)
  | [] => []
  | a :: as => spellingOf a :: spellingOfEach as

end

theorem spellingOf_eq_flatMap (ps : List Pattern) : spellingOf ps = ps.flatMap spelling := by
  induction ps with
  | nil => rfl
  | cons p ps ih => rw [spellingOf, ih, List.flatMap_cons]

theorem spellingOf_snoc (ps : List Pattern) (p : Pattern) : spellingOf (ps ++ [p]) = spellingOf ps ++ spelling p := by
  simp only [spellingOf_eq_flatMap, List.flatMap_append, List.flatMap_singleton]

theorem spellingOf_single (p : Pattern) : spellingOf [p] = spelling p :=
  List.append_nil _

theorem spellingOfEach_eq_map (as : List (List Pattern)) : spellingOfEach as = as.map spellingOf := by
  induction as with
  | nil => rfl
  | cons a as ih => rw [spellingOfEach, ih, List.map_cons]

theorem spellingOfEach_ne_nil {as : List (List Pattern)} (h : as ≠ []) : spellingOfEach as ≠ [] := by
  rw [spellingOfEach_eq_map]
  simpa using h

theorem spellingOfEach_snoc (as : List (List Pattern)) (ps : List Pattern) :
    spellingOfEach (as ++ [ps]) = spellingOfEach as ++ [spellingOf ps] := by
  simp only [spellingOfEach_eq_map, List.map_append, List.map_cons, List.map_nil]

theorem divided_snoc {each : List (List Terminal)} (h : each ≠ []) (ts : List Terminal) :
    divided (each ++ [ts]) = divided each ++ .mark .divider :: ts := by
  unfold divided
  induction each with
  | nil => exact absurd rfl h
  | cons us each ih =>
    cases each with
    | nil => simp
    | cons vs each =>
      rw [List.cons_append, List.cons_append, List.intercalate_cons_cons, List.intercalate_cons_cons,
        ← List.cons_append, ih (by simp)]
      simp

theorem divided_single (ts : List Terminal) : divided [ts] = ts :=
  List.intercalate_singleton

/-! ## Spelling the patterns of brackets -/

theorem modified_eq_modifiers (cs : Bool) (text : Bytes) (ms : List Modifier) :
    ∃ c o, modified cs text ms = .literal text c o ∧ modified cs text (modifiers c o) = .literal text c o := by
  refine ⟨_, _, rfl, ?_⟩
  unfold modified
  cases cs <;> cases ms.contains .caseInsensitive <;> cases ms.contains .tolerant <;> rfl

theorem spelling_parenthesized {as : List (List Pattern)} {id : Option Bytes} (hne : as ≠ [])
    (h : id.isSome → 2 ≤ as.length) :
    spelling (parenthesized as id) = enclosed .sequence (divided (spellingOfEach as)) ++ suffix id := by
  rcases one_or_two hne with ⟨ps, rfl⟩ | h2
  · cases id with
    | none =>
      rw [spellingOfEach, spellingOfEach, divided_single]
      exact (List.append_nil _).symm
    | some id => exact absurd (h rfl) (by simp)
  · rw [parenthesized_of_two id h2, spelling]
    rfl

theorem spelling_bracketed {as : List (List Pattern)} {id : Option Bytes} (hne : as ≠ [])
    (h : ∀ ps, as = [ps] → inherited? ps = none) :
    spelling (bracketed as id) = enclosed .optional (divided (spellingOfEach as)) ++ suffix id := by
  rcases one_or_two hne with ⟨ps, rfl⟩ | h2
  · rw [spellingOfEach, spellingOfEach, divided_single, bracketed, spelling, h ps rfl, Option.none_or]
  · rw [bracketed_of_two id h2, spelling, spellingOf_single, spelling]
    cases id with
    | none => simp [inherited?, suffix]
    | some id => simp [inherited?, suffix]

theorem spellingOf_unbracketed {as : List (List Pattern)} (hne : as ≠ []) :
    spellingOf (unbracketed as) = divided (spellingOfEach as) := by
  rcases one_or_two hne with ⟨ps, rfl⟩ | h2
  · rw [spellingOfEach, spellingOfEach, divided_single, unbracketed]
  · rw [unbracketed_of_two h2, spellingOf_single, spelling]
    simp [suffix]

/-! ## The rules derive what is spelled -/

/-- What stands in brackets without a divider cannot be taken for a group that inherits. -/
theorem Alternatives.sole_inherited_eq_none {ts : List Terminal} {as : List (List Pattern)} (h : Alternatives cs ts as) :
    ∀ ps, as = [ps] → inherited? ps = none := by
  rintro ps rfl
  exact h.single.inherited_eq_none

mutual

theorem Item.spelled {ts : List Terminal} {p : Pattern} (h : Item cs ts p) : Item cs (spelling p) p := by
  match h with
  | .literal text ms =>
    obtain ⟨c, o, hp, hm⟩ := modified_eq_modifiers cs text ms
    have hi : Item cs (spelling (.literal text c o)) (modified cs text (modifiers c o)) := .literal text _
    rw [hp]
    rwa [hm] at hi
  | .parameter name type _ => exact .parameter name type (.spelled type)
  | .tail name raw => exact .tail name raw
  | .parenthesized ha _ hid =>
    rw [spelling_parenthesized ha.ne_nil hid, enclosed_append]
    exact .parenthesized ha.spelled (.spelled _) hid
  | .bracketed ha _ =>
    rw [spelling_bracketed ha.ne_nil ha.sole_inherited_eq_none, enclosed_append]
    exact .bracketed ha.spelled (.spelled _)
  | .braced hi _ =>
    rw [spelling, enclosed_append]
    exact .braced hi.spelled (.spelled _)

theorem Items.spelled {ts : List Terminal} {ps : List Pattern} (h : Items cs ts ps) : Items cs (spellingOf ps) ps := by
  match h with
  | .one hi =>
    rw [spellingOf_single]
    exact .one hi.spelled
  | .more hs hi =>
    rw [spellingOf_snoc]
    exact .more hs.spelled hi.spelled

theorem Alternatives.spelled {ts : List Terminal} {as : List (List Pattern)} (h : Alternatives cs ts as) :
    Alternatives cs (divided (spellingOfEach as)) as := by
  match h with
  | .one hs =>
    rw [spellingOfEach, spellingOfEach, divided_single]
    exact .one hs.spelled
  | .more ha hs =>
    rw [spellingOfEach_snoc, divided_snoc (spellingOfEach_ne_nil ha.ne_nil)]
    exact .more ha.spelled hs.spelled

end

theorem Root.spelled {ts : List Terminal} {items : List Pattern} (h : Root cs ts items) :
    Root cs (spellingOf items) items := by
  cases h with
  | empty => exact .empty
  | alternatives ha =>
    rw [spellingOf_unbracketed ha.ne_nil]
    exact .alternatives ha.spelled

/-! ## The texts of a pattern -/

/-- The texts that a node is written with: words, names, types and identifiers. -/
def textsAt : Pattern → List Bytes
  | .literal text _ _ => [text]
  | .parameter name type => name :: type.toList
  | .tail name _ => [name]
  | .sequence _ => []
  | .optional _ id => id.toList
  | .variants _ id _ _ => id.toList
  | .unordered _ id => id.toList

/-- Every text in the patterns. -/
def textsOf (ps : List Pattern) : List Bytes :=
  (Pattern.nodesOf ps).flatMap textsAt

theorem textsOf_append (ps qs : List Pattern) : textsOf (ps ++ qs) = textsOf ps ++ textsOf qs := by
  rw [textsOf, Pattern.nodesOf_append, List.flatMap_append]; rfl

theorem textsOf_single (p : Pattern) : textsOf [p] = p.nodes.flatMap textsAt := by
  simp [textsOf, Pattern.nodesOf]

theorem labelled_texts : Labelled textsAt := by
  constructor <;> intros <;> rfl

theorem Suffix.symbol_mem {us : List Terminal} {id : Option Bytes} (h : Suffix us id) :
    ∀ t ∈ id.toList, Terminal.symbol t ∈ us := by
  cases h <;> simp

/-- What a group and the identifier behind it are written with is in the terminals of both. -/
theorem symbol_mem_enclosed {ts us : List Terminal} {texts : List Bytes} {id : Option Bytes} (b : Bracket)
    (ht : ∀ t ∈ texts, Terminal.symbol t ∈ ts) (hs : Suffix us id) :
    ∀ t ∈ texts ++ id.toList, Terminal.symbol t ∈ .mark (.opening b) :: ts ++ .mark (.closing b) :: us := by
  intro t hmem
  rcases List.mem_append.mp hmem with hmem | hmem
  · exact List.mem_append_left _ (List.mem_cons_of_mem _ (ht t hmem))
  · exact List.mem_append_right _ (List.mem_cons_of_mem _ (hs.symbol_mem t hmem))

mutual

/-- Each text of an item is a symbol that it is read from. -/
theorem Item.symbol_mem {ts : List Terminal} {p : Pattern} (h : Item cs ts p) :
    ∀ t ∈ textsOf [p], Terminal.symbol t ∈ ts := by
  match h with
  | .literal text ms => simp [textsOf_single, modified, Pattern.nodes, textsAt]
  | .parameter name type hs =>
    have hsuffix := hs.symbol_mem
    simp only [textsOf_single, Pattern.nodes, textsAt, List.flatMap_singleton]
    intro t hmem
    rcases List.mem_cons.mp hmem with rfl | hmem
    · simp
    · simp [hsuffix t hmem]
  | .tail name raw => simp [textsOf_single, Pattern.nodes, textsAt]
  | .parenthesized ha hs hid =>
    rw [textsOf, labelled_texts.parenthesized _ _ hid ha.ne_nil]
    exact symbol_mem_enclosed .sequence ha.symbol_mem hs
  | .bracketed ha hs =>
    rw [textsOf, labelled_texts.bracketed _ _ ha.ne_nil]
    exact symbol_mem_enclosed .optional ha.symbol_mem hs
  | .braced hi hs =>
    rw [textsOf, labelled_texts.braced]
    exact symbol_mem_enclosed .unordered hi.symbol_mem hs

theorem Items.symbol_mem {ts : List Terminal} {ps : List Pattern} (h : Items cs ts ps) :
    ∀ t ∈ textsOf ps, Terminal.symbol t ∈ ts := by
  match h with
  | .one hi => exact hi.symbol_mem
  | .more hs hi =>
    intro t hmem
    rw [textsOf_append] at hmem
    rcases List.mem_append.mp hmem with hmem | hmem
    · exact List.mem_append_left _ (hs.symbol_mem t hmem)
    · exact List.mem_append_right _ (hi.symbol_mem t hmem)

theorem Alternatives.symbol_mem {ts : List Terminal} {as : List (List Pattern)} (h : Alternatives cs ts as) :
    ∀ t ∈ textsOf as.flatten, Terminal.symbol t ∈ ts := by
  match h with
  | .one hs =>
    rw [List.flatten_singleton]
    exact hs.symbol_mem
  | .more ha hs =>
    intro t hmem
    rw [List.flatten_append, List.flatten_singleton, textsOf_append] at hmem
    rcases List.mem_append.mp hmem with hmem | hmem
    · exact List.mem_append_left _ (ha.symbol_mem t hmem)
    · exact List.mem_append_right _ (List.mem_cons_of_mem _ (hs.symbol_mem t hmem))

end

theorem Root.symbol_mem {ts : List Terminal} {items : List Pattern} (h : Root cs ts items) :
    ∀ t ∈ textsOf items, Terminal.symbol t ∈ ts := by
  cases h with
  | empty => simp [textsOf, Pattern.nodesOf]
  | alternatives ha =>
    rw [textsOf, labelled_texts.unbracketed _ ha.ne_nil]
    exact ha.symbol_mem

end CommandGrammar.Grammar
