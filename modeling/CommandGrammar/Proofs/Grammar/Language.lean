/-
  CommandGrammar.Proofs.Grammar.Language — the language of grammars, and the pattern that a derivation describes.

  The rules are context-free and see of each token its mark, or its text. Written out:

    root  := empty | alts
    alts  := items | alts '|' items
    items := item | items item
    item  := symbol ('^' | '~')* | '<' symbol (':' symbol)? '>' | '<' symbol '...' '*'? '>'
           | '(' alts ')' (':' symbol)? | '[' alts ']' (':' symbol)? | '{' items '}' (':' symbol)?

  Round brackets take an identifier only around at least two alternatives. Each relation
  has the pattern that is described as its last argument. What the rules cannot say is
  said of that pattern (`Admissible`): names are used once, types are known, and nothing
  follows what ends in a tail.
-/

import CommandGrammar.Grammar.Parse
import CommandGrammar.Proofs.Pattern.Nodes

namespace CommandGrammar.Grammar

/-! ## Terminals -/

/-- What the rules see of a token. -/
inductive Terminal where
  | symbol (text : Bytes)
  | mark (mark : Mark)
  deriving DecidableEq, Repr

def Token.terminal (t : Token) : Terminal :=
  match t.kind with
  | .symbol => .symbol t.text
  | .mark m => .mark m

theorem Token.kind_eq_symbol {t : Token} {text : Bytes} (h : t.terminal = .symbol text) :
    t.kind = .symbol ∧ t.text = text := by
  unfold Token.terminal at h
  split at h
  · rename_i hk
    injection h with h
    exact ⟨hk, h⟩
  · cases h

theorem Token.kind_eq_mark {t : Token} {m : Mark} (h : t.terminal = .mark m) : t.kind = .mark m := by
  unfold Token.terminal at h
  split at h
  · cases h
  · rename_i hk
    injection h with h
    rw [hk, h]

theorem Token.terminal_of_symbol {t : Token} (h : t.kind = .symbol) : t.terminal = .symbol t.text := by
  rw [Token.terminal, h]

theorem Token.terminal_of_mark {t : Token} {m : Mark} (h : t.kind = .mark m) : t.terminal = .mark m := by
  rw [Token.terminal, h]

/-! ## The patterns of bracketed groups -/

inductive Modifier where
  | caseInsensitive | tolerant
  deriving DecidableEq, Repr

def Modifier.mark : Modifier → Mark
  | .caseInsensitive => .caseInsensitive
  | .tolerant => .tolerant

/-- The literal with all its modifiers. -/
def modified (caseSensitive : Bool) (text : Bytes) (ms : List Modifier) : Pattern :=
  .literal text (caseSensitive && !ms.contains .caseInsensitive) (ms.contains .tolerant)

/-- Alternatives between round brackets; a single one is a sequence, which has no identifier. -/
def parenthesized (as : List (List Pattern)) (id : Option Bytes) : Pattern :=
  match as with
  | [ps] => .sequence ps
  | as => .variants as id false true

/-- Alternatives between square brackets. The identifier goes to the variant group, if there is one. -/
def bracketed (as : List (List Pattern)) (id : Option Bytes) : Pattern :=
  match as with
  | [ps] => .optional ps id
  | as => .optional [.variants as id id.isSome false] none

/-- Alternatives with no bracket around them. -/
def unbracketed (as : List (List Pattern)) : List Pattern :=
  match as with
  | [ps] => ps
  | as => [.variants as none false false]

/-! ## Rules -/

/-- A separator with a symbol behind it, or nothing. -/
inductive Suffix : List Terminal → Option Bytes → Prop
  | absent : Suffix [] none
  | present (text : Bytes) : Suffix [.mark .separator, .symbol text] (some text)

/-- The mark of a raw tail, or nothing. -/
def rawMark (raw : Bool) : List Terminal :=
  if raw then [.mark .raw] else []

variable (caseSensitive : Bool)

mutual

inductive Item : List Terminal → Pattern → Prop
  | literal (text : Bytes) (ms : List Modifier) :
      Item (.symbol text :: ms.map fun m => .mark m.mark) (modified caseSensitive text ms)
  | parameter {us : List Terminal} (name : Bytes) (type : Option Bytes) : Suffix us type →
      Item (.mark .parameterOpening :: .symbol name :: us ++ [.mark .parameterClosing]) (.parameter name type)
  | tail (name : Bytes) (raw : Bool) :
      Item (.mark .parameterOpening :: .symbol name :: .mark .tail :: rawMark raw ++ [.mark .parameterClosing])
        (.tail name raw)
  | parenthesized {ts us : List Terminal} {as : List (List Pattern)} {id : Option Bytes} :
      Alternatives ts as → Suffix us id → (id.isSome → 2 ≤ as.length) →
      Item (.mark (.opening .sequence) :: ts ++ .mark (.closing .sequence) :: us) (parenthesized as id)
  | bracketed {ts us : List Terminal} {as : List (List Pattern)} {id : Option Bytes} :
      Alternatives ts as → Suffix us id →
      Item (.mark (.opening .optional) :: ts ++ .mark (.closing .optional) :: us) (bracketed as id)
  | braced {ts us : List Terminal} {ps : List Pattern} {id : Option Bytes} :
      Items ts ps → Suffix us id →
      Item (.mark (.opening .unordered) :: ts ++ .mark (.closing .unordered) :: us) (.unordered ps id)

inductive Items : List Terminal → List Pattern → Prop
  | one {ts : List Terminal} {p : Pattern} : Item ts p → Items ts [p]
  | more {ts us : List Terminal} {ps : List Pattern} {p : Pattern} :
      Items ts ps → Item us p → Items (ts ++ us) (ps ++ [p])

inductive Alternatives : List Terminal → List (List Pattern) → Prop
  | one {ts : List Terminal} {ps : List Pattern} : Items ts ps → Alternatives ts [ps]
  | more {ts us : List Terminal} {as : List (List Pattern)} {ps : List Pattern} :
      Alternatives ts as → Items us ps → Alternatives (ts ++ .mark .divider :: us) (as ++ [ps])

end

inductive Root : List Terminal → List Pattern → Prop
  | empty : Root [] []
  | alternatives {ts : List Terminal} {as : List (List Pattern)} :
      Alternatives caseSensitive ts as → Root ts (unbracketed as)

/-! ## What the rules cannot say -/

/-- Every type is known, and nothing follows what ends in a tail, at this node. -/
structure NodeAdmissible (known : Bytes → Bool) (p : Pattern) : Prop where
  typeKnown : ∀ t ∈ p.type?, known t = true
  tailsLast : p.TailsLast

/-- The items of a whole grammar keep to the rules that are not context-free. -/
structure Admissible (known : Bytes → Bool) (items : List Pattern) : Prop where
  namesNodup : (Pattern.namesOf items).Nodup
  nodes : ∀ p ∈ (Pattern.sequence items).nodes, NodeAdmissible known p

end CommandGrammar.Grammar
